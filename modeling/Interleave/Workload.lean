/-
# Workloads

The built-in protocols, each with a scenario for any number of nodes and
operations.
-/
import Interleave.Config
import Interleave.Scenario

namespace Interleave

inductive Workload where
  | echo
  | broadcast
  | register
  deriving DecidableEq

namespace Workload

def all : List Workload := [echo, broadcast, register]

def name : Workload → String
  | echo => "echo"
  | broadcast => "broadcast"
  | register => "register"

def description : Workload → String
  | echo => "request/reply through a single server"
  | broadcast => "best-effort broadcast from node 0"
  | register => "register with client-side write acknowledgement"

def minNodes (_ : Workload) : Nat := 2

def parse (s : String) : Except SetupError Workload :=
  match all.find? fun w => w.name == lowerCase s with
  | some w => .ok w
  | none => .error (.unknownValue "workload" s)

/-- The operations of one node. Echo and register leave node 0 to serve; only node 0 broadcasts. -/
def operationsOf (w : Workload) (operations node : Nat) : List Operation :=
  match w with
  | echo =>
    if node = 0 then []
    else (List.range operations).map fun j => .named "echo" [s!"c{node}-{j}"]
  | broadcast =>
    if node = 0 then (List.range operations).map fun j => .named "broadcast" [s!"v{j}"]
    else []
  | register =>
    if node = 0 then []
    else (List.range operations).flatMap fun j =>
      [.named "write" [toString (node * 100 + j + 1)], .named "read" []]

/-- A broadcast needs node 0 to be there. -/
def scenarioNodes (w : Workload) (nodes operations : Nat) : Nat :=
  match w with
  | broadcast => if operations = 0 then nodes else max 1 nodes
  | _ => nodes

def scenario (w : Workload) (nodes operations : Nat) : Scenario :=
  ⟨(List.range (w.scenarioNodes nodes operations)).map (w.operationsOf operations)⟩

/-- The same, if a scenario can have that many nodes. -/
def scenarioOf (w : Workload) (nodes operations : Nat) : Except Panic Scenario :=
  if Scenario.canHold nodes then .ok (w.scenario nodes operations) else .error .capacity

end Workload

end Interleave
