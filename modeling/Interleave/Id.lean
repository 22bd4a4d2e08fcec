/-
# Names of nodes, tasks and messages

A node is named by its place in the cluster, a 32-bit number; tasks and
messages are numbered by 64-bit words in the order of their creation. Handing
out the number after the last one fails: `next?` never wraps around.
-/

namespace Interleave

/-- The word after `w`, if there is one. -/
def wordSucc? (w : UInt64) : Option UInt64 :=
  if w.toNat + 1 < UInt64.size then some (w + 1) else none

/-- Address of a node: its place in the cluster. -/
structure NodeId where
  val : UInt32
  deriving DecidableEq, Inhabited

namespace NodeId

def index (v : NodeId) : Nat := v.val.toNat

/-- The address of place `i`. Places past the last address start again at zero. -/
def ofIndex (i : Nat) : NodeId := ⟨i.toUInt32⟩

instance : LT NodeId := ⟨fun a b => a.index < b.index⟩
instance : LE NodeId := ⟨fun a b => a.index ≤ b.index⟩
instance (a b : NodeId) : Decidable (a < b) := inferInstanceAs (Decidable (a.index < b.index))
instance (a b : NodeId) : Decidable (a ≤ b) := inferInstanceAs (Decidable (a.index ≤ b.index))

def text (v : NodeId) : String := s!"Node({v.index})"

end NodeId

/-- Number of a task within an iteration. -/
structure TaskId where
  val : UInt64
  deriving DecidableEq, Inhabited

namespace TaskId

def number (t : TaskId) : Nat := t.val.toNat

instance : LT TaskId := ⟨fun a b => a.number < b.number⟩
instance : LE TaskId := ⟨fun a b => a.number ≤ b.number⟩
instance (a b : TaskId) : Decidable (a < b) := inferInstanceAs (Decidable (a.number < b.number))
instance (a b : TaskId) : Decidable (a ≤ b) := inferInstanceAs (Decidable (a.number ≤ b.number))

/-- The number handed out after `t`; none after the last word. -/
def next? (t : TaskId) : Option TaskId := (wordSucc? t.val).map TaskId.mk

def text (t : TaskId) : String := s!"Task({t.number})"

end TaskId

/-- Number of a message within an iteration. -/
structure MessageId where
  val : UInt64
  deriving DecidableEq, Inhabited

namespace MessageId

def number (m : MessageId) : Nat := m.val.toNat

instance : LT MessageId := ⟨fun a b => a.number < b.number⟩
instance : LE MessageId := ⟨fun a b => a.number ≤ b.number⟩
instance (a b : MessageId) : Decidable (a < b) := inferInstanceAs (Decidable (a.number < b.number))
instance (a b : MessageId) : Decidable (a ≤ b) := inferInstanceAs (Decidable (a.number ≤ b.number))

/-- The number handed out after `m`; none after the last word. -/
def next? (m : MessageId) : Option MessageId := (wordSucc? m.val).map MessageId.mk

def text (m : MessageId) : String := s!"Msg({m.number})"

end MessageId

/-- The role of a node, such as server or client. -/
structure Role where
  name : String
  deriving DecidableEq, Inhabited

end Interleave
