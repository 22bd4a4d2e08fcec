/-
# What can go wrong while an iteration runs

A task can end in an error its node raised, in a panic, or not at all; the
search itself can find that its tree no longer fits the execution. Each of these
cuts the iteration short (`Abort`) with a message of its own.
-/
import Interleave.Id

namespace Interleave

/-- An error raised by node logic: the kind is what operations declare. -/
structure NodeError where
  kind : String
  message : String
  deriving DecidableEq

namespace NodeError

def text (e : NodeError) : String := e.kind ++ ": " ++ e.message

end NodeError

/-- Why a task body broke off. -/
inductive Panic where
  /-- Node logic gave up with a text, or with no text at all. -/
  | raised (payload : Option String)
  /-- A counter was at its last word. -/
  | overflow
  /-- A list of `size` entries was asked for entry `index`. -/
  | outOfBounds (size index : Nat)
  /-- A task was added under a number already pending. -/
  | reusedTask
  /-- A list was to be longer than a list can be. -/
  | capacity
  deriving DecidableEq

namespace Panic

def message : Panic → String
  | raised (some text) => text
  | raised none => "non-string panic payload"
  | overflow => "attempt to add with overflow"
  | outOfBounds size index => s!"index out of bounds: the len is {size} but the index is {index}"
  | reusedTask => "task id reused"
  | capacity => "capacity overflow"

end Panic

/-- Why an iteration was cut short. -/
inductive Abort where
  /-- Node logic raised an error its operation did not declare. -/
  | node (node : NodeId) (error : NodeError)
  | panic (cause : Panic)
  /-- The interleaving tree does not fit the execution. -/
  | treeInvariant (detail : String)
  /-- A task of the prescribed path was not pending when its turn came. -/
  | unknownTask (task : TaskId)
  | dispatcherClosed
  /-- The time budget ran out, or a body never returned. -/
  | timeout
  deriving DecidableEq

namespace Abort

def message : Abort → String
  | node v e => "unhandled error at " ++ v.text ++ ": " ++ e.text
  | panic cause => "task body panicked: " ++ cause.message
  | treeInvariant detail => "interleaving tree invariant violated: " ++ detail
  | unknownTask t => t.text ++ " on the prescribed path is not pending"
  | dispatcherClosed => "dispatcher worker is gone"
  | timeout => "iteration timed out"

/-- Whether the search is at fault, and not the node logic. -/
def isInternal : Abort → Bool
  | treeInvariant _ => true
  | unknownTask _ => true
  | _ => false

end Abort

end Interleave
