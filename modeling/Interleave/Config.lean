/-
# Settings of a check

Which faults may be injected, in what order messages move, how long an iteration
may take and how many iterations are run. A check of no iterations, or one without
time, is refused (`Config.check`).
-/
import Interleave.Duration
import Interleave.Id

namespace Interleave

/-- Why a setup is refused. -/
inductive SetupError where
  | noIterations
  | zeroTimeout
  | noNodes
  /-- More nodes than can be counted, or than a list can hold. -/
  | tooManyNodes
  | unknownRole (role : Role)
  | scenarioSize (scenario registered : Nat)
  | unknownValue (field value : String)
  deriving DecidableEq

namespace SetupError

def message : SetupError → String
  | noIterations => "invocations_per_iteration must be positive"
  | zeroTimeout => "timeout must be positive"
  | noNodes => "at least one node is required"
  | tooManyNodes => "too many nodes"
  | unknownRole t => "crash budget given for unknown node type " ++ t.name
  | scenarioSize scenario registered =>
    s!"scenario has operations for {scenario} nodes but {registered} are registered"
  | unknownValue field value => "unknown " ++ field ++ " value: " ++ value

end SetupError

/-- Lower-case text. Letters outside ASCII stay as they are: none of them becomes a letter of a
word below. -/
def lowerCase (s : String) : String := String.ofList (s.toList.map Char.toLower)

/-- Whether injected faults are undone later in the iteration. -/
inductive Recovery where
  | none
  | all
  deriving DecidableEq

namespace Recovery

def parse (s : String) : Except SetupError Recovery :=
  match lowerCase s with
  | "none" | "no-recoveries" => .ok .none
  | "all" | "all-recoveries" => .ok .all
  | _ => .error (.unknownValue "recovery" s)

end Recovery

/-- In what order messages may be delivered. -/
inductive DeliveryOrder where
  /-- A sent message is delivered before anything else happens. -/
  | synchronous
  /-- Messages on one link arrive in the order in which they were sent. -/
  | fifo
  | asynchronous
  deriving DecidableEq

namespace DeliveryOrder

def parse (s : String) : Except SetupError DeliveryOrder :=
  match lowerCase s with
  | "sync" | "synchronous" => .ok .synchronous
  | "fifo" => .ok .fifo
  | "async" | "asynchronous" => .ok .asynchronous
  | _ => .error (.unknownValue "message-order" s)

end DeliveryOrder

/-- The shape of injected network partitions. -/
inductive SplitMode where
  /-- The nodes fall into two halves. -/
  | halves
  /-- Links are cut one at a time. -/
  | singleEdge
  deriving DecidableEq

namespace SplitMode

def parse (s : String) : Except SetupError SplitMode :=
  match lowerCase s with
  | "halves" => .ok .halves
  | "single-edge" | "single_edge" => .ok .singleEdge
  | _ => .error (.unknownValue "partition-mode" s)

end SplitMode

structure Config where
  /-- How many nodes may be crashed or cut off at a time. -/
  maxFailed : Nat
  /-- The same, for the nodes of one role. -/
  maxFailedByRole : List (Role × Nat)
  recovery : Recovery
  order : DeliveryOrder
  partitionMode : SplitMode
  splits : Bool
  /-- How long one iteration may take. -/
  timeout : Duration
  /-- How many tasks get done in a given time, whatever each of them costs. -/
  pace : Duration → Nat
  /-- How many iterations are run at most. -/
  maxIterations : Nat
  seed : UInt64
  /-- Where the trace of a failure is written. -/
  traceFile : Option String

namespace Config

def default : Config where
  maxFailed := 0
  maxFailedByRole := []
  recovery := .none
  order := .fifo
  partitionMode := .halves
  splits := false
  timeout := Duration.ofSeconds 10
  pace := fun time => time.nanos / 10000
  maxIterations := 1000
  seed := 12345
  traceFile := none

instance : Inhabited Config := ⟨default⟩

/-- Limits the failed nodes of role `t` to `n`, in place of an earlier limit. -/
def limitRole (c : Config) (t : Role) (n : Nat) : Config :=
  { c with maxFailedByRole := c.maxFailedByRole.filter (·.1 ≠ t) ++ [(t, n)] }

/-- Allows partitions of the given shape. -/
def allowSplits (c : Config) (m : SplitMode) : Config :=
  { c with splits := true, partitionMode := m }

def allowsFaults (c : Config) : Bool := 0 < c.maxFailed

def recovers (c : Config) : Bool := c.recovery = .all

def check (c : Config) : Except SetupError Unit :=
  if c.maxIterations = 0 then .error .noIterations
  else if c.timeout.nanos = 0 then .error .zeroTimeout
  else .ok ()

end Config

end Interleave
