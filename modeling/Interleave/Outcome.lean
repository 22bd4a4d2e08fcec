/-
# Outcomes of an iteration

An iteration completes with results or fails. A failure carries what is needed
to run it again: the order in which the tasks were executed, and the trace. A report
shows the events of each node on their own (`Failure.report`).
-/
import Interleave.Event
import Interleave.Duration

namespace Interleave

/-- What the operations returned, and the final state of every live node as text. -/
structure Results where
  perNode : List (List Answer)
  states : List (Option String)
  deriving DecidableEq

inductive FailureCause where
  /-- The iteration was cut short; a fault of the search itself shows the tree. -/
  | unexpected (message : String) (tree : Option String)
  | deadlock (timeout : Duration)
  /-- A node rejected its final state. -/
  | invalidState (node : NodeId) (message : String)
  /-- The verifier rejected the results. -/
  | wrongResults (results : Results)
  deriving DecidableEq

structure Failure where
  kind : FailureCause
  /-- The executed tasks, in order. -/
  interleaving : List TaskId
  trace : List Occurrence
  deriving DecidableEq

namespace FailureCause

def name : FailureCause → String
  | unexpected .. => "UnexpectedException"
  | deadlock _ => "Deadlock"
  | invalidState .. => "ValidationFailure"
  | wrongResults _ => "IncorrectResults"

end FailureCause

namespace Results

def nodeLine (i : Nat) (results : List Answer) : String :=
  (NodeId.ofIndex i).text ++ ": [" ++ String.intercalate ", " (results.map Answer.text) ++ "]\n"

def nodeLines : Nat → List (List Answer) → List String
  | _, [] => []
  | i, results :: rest => nodeLine i results :: nodeLines (i + 1) rest

end Results

namespace FailureCause

/-- The opening lines of a report. -/
def heading : FailureCause → String
  | unexpected message _ => "= Unexpected exception: " ++ message ++ " =\n"
  | deadlock timeout => "= Deadlock: iteration exceeded " ++ timeout.text ++ " =\n"
  | invalidState node message => "= Validation failed at " ++ node.text ++ ": " ++ message ++ " =\n"
  | wrongResults results =>
    "= Invalid execution results =\n" ++ String.join (Results.nodeLines 0 results.perNode)

/-- The closing lines of a report. -/
def closing : FailureCause → String
  | unexpected _ (some tree) => "Interleaving tree:\n" ++ tree
  | _ => ""

end FailureCause

namespace Failure

def text (f : Failure) : String :=
  f.kind.heading
    ++ "Interleaving: [" ++ String.intercalate ", " (f.interleaving.map fun t => toString t.number)
    ++ "]\n"
    ++ String.join (f.trace.map fun e => e.text ++ "\n")
    ++ f.kind.closing

/-- The nodes that a trace mentions, each once, lowest first. -/
def nodesOf (trace : List Occurrence) : List NodeId :=
  ((trace.map Occurrence.node).mergeSort fun a b => decide (a ≤ b)).eraseDups

/-- The events of one node under a heading of their own. -/
def nodeSection (trace : List Occurrence) (v : NodeId) : String :=
  "\n== " ++ v.text ++ " ==\n"
    ++ String.join ((trace.filter (·.node = v)).map fun e => e.event.text ++ "\n")

/-- The failure, then the events of each node on their own. -/
def report (f : Failure) : String :=
  f.text ++ String.join ((nodesOf f.trace).map (nodeSection f.trace))

end Failure

inductive Outcome where
  | completed (results : Results)
  | failed (failure : Failure)
  deriving DecidableEq

namespace Outcome

def isFailure : Outcome → Bool
  | completed _ => false
  | failed _ => true

def failure? : Outcome → Option Failure
  | completed _ => none
  | failed f => some f

def results? : Outcome → Option Results
  | completed r => some r
  | failed _ => none

end Outcome

/-- Judges the results of an iteration, given the operations that were to be run. -/
abbrev Verifier := Scenario → List (List Answer) → Bool

namespace Verifier

def acceptAll : Verifier := fun _ _ => true

def rejectAll : Verifier := fun _ _ => false

/-- Rejects when some operation's result reads as `text`. -/
def rejectText (text : String) : Verifier := fun _ results =>
  !results.any fun l => l.any fun r => r.text == text

end Verifier

end Interleave
