/-
# Tasks

A task is a piece of work of one node: an operation, the delivery of a message,
a fault or its undoing. It carries the clock of the moment it was created. The
pending tasks are kept by ascending number. What the tree is shown of a task is a
`TaskView`, which leaves the message itself out.
-/
import Interleave.Clock
import Interleave.Error

namespace Interleave

inductive TaskKind where
  | operation
  | receive
  | crash
  | recover
  | partition
  | heal
  deriving DecidableEq

namespace TaskKind

/-- Preference of the canonical order, lower first: what undoes or delivers comes before new
operations, and injected faults come last. -/
def rank : TaskKind → Nat
  | receive | recover | heal => 0
  | operation => 1
  | crash | partition => 2

/-- Whether executing such a task injects a fault. -/
def isFault : TaskKind → Bool
  | crash | partition => true
  | _ => false

def name : TaskKind → String
  | operation => "op"
  | receive => "recv"
  | crash => "crash"
  | recover => "recover"
  | partition => "partition"
  | heal => "heal"

def ofName? : String → Option TaskKind
  | "op" => some operation
  | "recv" => some receive
  | "crash" => some crash
  | "recover" => some recover
  | "partition" => some partition
  | "heal" => some heal
  | _ => none

end TaskKind

/-- What a task does to its owner, for messages of type `μ`. -/
inductive Work (μ : Type) where
  | operation (index : UInt64)
  | receive (sender : NodeId) (message : μ) (id : MessageId)
  /-- Crash at the send of message `id`: the owner's messages from that one on are lost. -/
  | crash (id : MessageId)
  | recover
  /-- Partition the network at the send of message `id`. -/
  | partition (id : MessageId)
  | heal

structure Task (μ : Type) where
  id : TaskId
  owner : NodeId
  clock : Clock
  body : Work μ

/-- A task without its message. -/
structure TaskView where
  id : TaskId
  owner : NodeId
  clock : Clock
  kind : TaskKind
  /-- The delivered message, or the send that a fault is attached to. -/
  message : Option MessageId
  sender : Option NodeId
  deriving DecidableEq

variable {μ : Type}

namespace Task

def kind (t : Task μ) : TaskKind :=
  match t.body with
  | .operation _ => .operation
  | .receive .. => .receive
  | .crash _ => .crash
  | .recover => .recover
  | .partition _ => .partition
  | .heal => .heal

def message? (t : Task μ) : Option MessageId :=
  match t.body with
  | .receive _ _ id | .crash id | .partition id => some id
  | _ => none

def sender? (t : Task μ) : Option NodeId :=
  match t.body with
  | .receive sender _ _ => some sender
  | _ => none

def view (t : Task μ) : TaskView :=
  ⟨t.id, t.owner, t.clock, t.kind, t.message?, t.sender?⟩

end Task

/-- The tasks created and not yet executed, by ascending number. -/
structure Pending (μ : Type) where
  tasks : List (Task μ)

namespace Pending

def empty : Pending μ := ⟨[]⟩

instance : Inhabited (Pending μ) := ⟨empty⟩

def get? (p : Pending μ) (id : TaskId) : Option (Task μ) := p.tasks.find? (·.id = id)

def erase (p : Pending μ) (id : TaskId) : Pending μ := ⟨p.tasks.filter (·.id ≠ id)⟩

/-- Removes a task for execution. -/
def take (p : Pending μ) (id : TaskId) : Option (Task μ × Pending μ) :=
  (p.get? id).map fun t => (t, p.erase id)

def insertSorted (t : Task μ) : List (Task μ) → List (Task μ)
  | [] => [t]
  | u :: l => if t.id < u.id then t :: u :: l else u :: insertSorted t l

/-- Adds a task; its number must not be pending. -/
def insert (p : Pending μ) (t : Task μ) : Except Panic (Pending μ) :=
  match p.get? t.id with
  | some _ => .error .reusedTask
  | none => .ok ⟨insertSorted t p.tasks⟩

/-- The task with the lowest number. -/
def first? (p : Pending μ) : Option TaskId := p.tasks.head?.map Task.id

def isEmpty (p : Pending μ) : Bool := p.tasks.isEmpty

def views (p : Pending μ) : List TaskView := p.tasks.map Task.view

/-- Removes the tasks that `drop` picks and returns them by ascending number. -/
def drain (p : Pending μ) (drop : Task μ → Bool) : List (Task μ) × Pending μ :=
  (p.tasks.filter drop, ⟨p.tasks.filter fun t => !drop t⟩)

end Pending

end Interleave
