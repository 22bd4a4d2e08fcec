/-
# Scenarios

A scenario gives every node a list of operations, which are run one after the
other. An operation may name the kinds of error it expects; such an error
becomes its result.
-/
import Interleave.Error
import Interleave.Limit

namespace Interleave

structure Operation where
  name : String
  args : List String
  /-- Kinds of error that end the operation and not the iteration. -/
  expected : List String
  deriving DecidableEq

namespace Operation

def named (name : String) (args : List String) : Operation := ⟨name, args, []⟩

def handles (o : Operation) (kind : String) : Bool := o.expected.contains kind

def text (o : Operation) : String := o.name ++ "(" ++ String.intercalate ", " o.args ++ ")"

end Operation

/-- The operations of every node, by address. -/
structure Scenario where
  operations : List (List Operation)
  deriving DecidableEq, Inhabited

namespace Scenario

/-- `n` nodes without operations. -/
def empty (n : Nat) : Scenario := ⟨List.replicate n []⟩

/-- Whether a scenario can have that many nodes; a list of operations takes 24 bytes. -/
def canHold (n : Nat) : Bool := holds 24 n

/-- `n` nodes without operations, if a scenario can have that many. -/
def ofSize (n : Nat) : Except Panic Scenario :=
  if canHold n then .ok (empty n) else .error .capacity

def size (s : Scenario) : Nat := s.operations.length

/-- The operations of node `v`; none for a node the scenario does not mention. -/
def of (s : Scenario) (v : NodeId) : List Operation := s.operations.getD v.index []

def pushAt (o : Operation) : Nat → List (List Operation) → List (List Operation)
  | 0, [] => [[o]]
  | 0, l :: ls => (l ++ [o]) :: ls
  | i + 1, [] => [] :: pushAt o i []
  | i + 1, l :: ls => l :: pushAt o i ls

/-- Adds an operation at the end of the list of node `v`, which is made if need be. -/
def push (s : Scenario) (v : NodeId) (o : Operation) : Scenario :=
  ⟨pushAt o v.index s.operations⟩

def total (s : Scenario) : Nat := s.operations.flatten.length

end Scenario

/-- How an operation of a scenario ended. -/
inductive Answer where
  | value (text : String)
  | void
  /-- A declared error, by its kind. -/
  | exception (kind : String)
  /-- The node crashed while the operation was in flight. -/
  | crashed
  /-- The operation is not finished. -/
  | missing
  deriving DecidableEq

namespace Answer

def text : Answer → String
  | value text => text
  | void => "void"
  | exception kind => kind
  | crashed => "CRASHED"
  | missing => "-"

/-- Whether the node saw the operation through to an end. -/
def isCompleted : Answer → Bool
  | value _ | void | exception _ => true
  | crashed | missing => false

end Answer

end Interleave
