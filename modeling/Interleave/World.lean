/-
# The state of an iteration

All that an iteration changes: clocks, pending tasks, node instances, what
became of the operations, the event log and the faults. A step on this state may
fail; what it changed before it failed stays.

Key definitions: `Agenda`, `Tick`, `World`, `World.blank`, `World.reset`, `World.summary`,
`World.invalid?`, `Step`.
-/
import Interleave.Clock.Bank
import Interleave.Cluster
import Interleave.Fault
import Interleave.Outcome
import Interleave.Random.Keystream
import Interleave.Task

namespace Interleave

/-- Where a node stands in its list of operations. -/
structure Agenda where
  started : Bool
  /-- The operation in flight. -/
  current : Option UInt64
  /-- The operation to run next. -/
  next : UInt64
  deriving DecidableEq

namespace Agenda

def initial : Agenda := ⟨false, none, 0⟩

end Agenda

/-- What an event on a node's clock stands for. -/
inductive Cause where
  /-- Work of the node's own: its start, or a task scheduled for itself. -/
  | work
  | sent (id : MessageId)
  | received (id : MessageId)
  deriving DecidableEq

/-- An event on a node's clock, and the clock right after it. -/
structure Tick where
  node : NodeId
  cause : Cause
  stamp : Clock
  deriving DecidableEq

structure World (σ μ : Type) where
  clocks : ClockBank
  /-- The events on all clocks so far, in order. -/
  ticks : List Tick
  pending : Pending μ
  nextTask : TaskId
  nextMessage : MessageId
  /-- The live instance of each node; none while it is crashed or its handler runs. -/
  instances : List (Option σ)
  agendas : List Agenda
  results : List (List Answer)
  events : List Occurrence
  logs : List (List String)
  fault : FaultState
  source : Source
  /-- The fault candidates attached to each pending delivery. -/
  candidates : List (MessageId × List TaskId)
  /-- How many instances were made at each address, over all iterations. -/
  made : List Nat

namespace World

variable {σ μ : Type}

def size (w : World σ μ) : Nat := w.instances.length

/-- The state before the first iteration: no instances and no tasks. -/
def blank (c : Cluster σ μ) (made : List Nat) : World σ μ where
  clocks := ClockBank.zero c.size
  ticks := []
  pending := Pending.empty
  nextTask := ⟨0⟩
  nextMessage := ⟨0⟩
  instances := List.replicate c.size none
  agendas := List.replicate c.size Agenda.initial
  results := List.replicate c.size []
  events := []
  logs := List.replicate c.size []
  fault := FaultState.healthy c.registry.roles c.config
  source := Source.ofSeed c.config.seed
  candidates := []
  made := made

/-- The state of a new cluster. -/
def new (c : Cluster σ μ) : World σ μ := blank c (List.replicate c.size 0)

/-- The clock of `n` nodes that knows one event, of the node at place `i`. -/
def firstClock (n i : Nat) : Clock := ⟨(List.replicate n 0).set i 1⟩

/-- The first task of the node at place `i` of `n`: to run its first operation. -/
def firstTask (n i : Nat) : Task μ :=
  ⟨⟨i.toUInt64⟩, NodeId.ofIndex i, firstClock n i, .operation 0⟩

/-- The start of an iteration: new instances and one operation task a node, and numbers, clocks,
faults and random source as at the first start. -/
def reset (c : Cluster σ μ) (w : World σ μ) : World σ μ :=
  let places := List.range c.size
  { blank c (w.made.map (· + 1)) with
    clocks := ⟨places.map (firstClock c.size)⟩
    ticks := places.map fun i => ⟨NodeId.ofIndex i, .work, firstClock c.size i⟩
    pending := ⟨places.map (firstTask c.size)⟩
    nextTask := ⟨c.size.toUInt64⟩
    instances := places.map fun i => c.registry.spawn? (NodeId.ofIndex i) (w.made.getD i 0) }

/-- What the operations returned and what the live nodes have become. -/
def summary (c : Cluster σ μ) (w : World σ μ) : Results :=
  ⟨w.results, w.instances.map (Option.map c.protocol.stateText)⟩

def invalidFrom (c : Cluster σ μ) : Nat → List (Option σ) → Option (NodeId × String)
  | _, [] => none
  | i, x :: rest =>
    match x.bind c.protocol.invalid? with
    | some text => some (NodeId.ofIndex i, text)
    | none => invalidFrom c (i + 1) rest

/-- The first live node that rejects its state, and why. -/
def invalid? (c : Cluster σ μ) (w : World σ μ) : Option (NodeId × String) :=
  invalidFrom c 0 w.instances

end World

/-- A computation on the state that may fail. What it changed before it failed stays. -/
abbrev Step (σ μ : Type) := ExceptT Abort (StateM (World σ μ))

end Interleave
