/-
# Checking a workload

Runs the search on a built-in workload and writes a summary.
-/
import Interleave.Explorer
import Interleave.Sample.Broadcast
import Interleave.Sample.Echo
import Interleave.Sample.Register
import Interleave.Workload

namespace Interleave

/-- A workload and its size, and the settings of the check. -/
structure Simulation where
  workload : Workload
  nodes : Nat
  operations : Nat
  config : Config

inductive SimulationError where
  | tooFewNodes (workload : Workload) (got : Nat)
  | config (e : SetupError)
  deriving DecidableEq

namespace SimulationError

def message : SimulationError → String
  | tooFewNodes w got => w.name ++ s!" needs at least {w.minNodes} nodes, got {got}"
  | config e => e.message

end SimulationError

/-- What a check of a workload found. -/
structure Summary where
  workload : Workload
  nodes : Nat
  report : SearchReport

namespace Simulation

/-- A request to be answered by one server, from all other nodes. -/
def echoCluster (s : Simulation) : Cluster (Echo.Client ⊕ Echo.Server) Echo.Message where
  config := s.config
  registry :=
    (Registry.empty.register ⟨serverRole, 1, fun _ _ => .inr Echo.Server.initial⟩).register
      ⟨clientRole, s.nodes - 1, fun _ _ => .inl Echo.Client.initial⟩
  scenario := s.workload.scenario s.nodes s.operations
  protocol := Echo.protocol

def broadcastCluster (s : Simulation) : Cluster Broadcast.Peer String where
  config := s.config
  registry := Registry.empty.register ⟨peerRole, s.nodes, fun _ _ => Broadcast.Peer.initial⟩
  scenario := s.workload.scenario s.nodes s.operations
  protocol := Broadcast.protocol

def registerCluster (s : Simulation) :
    Cluster (Register.Client ⊕ Register.Server) Register.Message where
  config := s.config
  registry :=
    (Registry.empty.register ⟨serverRole, 1, fun _ _ => .inr Register.Server.initial⟩).register
      ⟨clientRole, s.nodes - 1, fun _ _ => .inl Register.Client.initial⟩
  scenario := s.workload.scenario s.nodes s.operations
  protocol := Register.protocol

/-- Runs the search on a cluster from its start. -/
def search {σ μ : Type} (c : Cluster σ μ) (verifier : Verifier) : Except SetupError SearchReport :=
  match (Explorer.new c verifier : Except SetupError (Explorer Float σ μ)) with
  | .error e => .error e
  | .ok x => .ok x.run.1

def report (s : Simulation) : Except SetupError SearchReport :=
  match s.workload with
  | .echo => search s.echoCluster Echo.verifier
  | .broadcast => search s.broadcastCluster Verifier.acceptAll
  | .register => search s.registerCluster Register.readYourWrites

/-- Checks the size and the settings, then runs the search. -/
def run (s : Simulation) : Except SimulationError Summary :=
  if s.nodes < s.workload.minNodes then .error (.tooFewNodes s.workload s.nodes)
  else
    match s.config.check with
    | .error e => .error (.config e)
    | .ok () =>
      if Scenario.canHold s.nodes then
        match s.report with
        | .error e => .error (.config e)
        | .ok report => .ok ⟨s.workload, s.nodes, report⟩
      else .error (.config .tooManyNodes)

end Simulation

namespace Summary

def isSuccess (s : Summary) : Bool := s.report.isSuccess

def text (s : Summary) : String :=
  s!"Workload:              {s.workload.name} ({s.nodes} nodes)\n"
    ++ s!"Iterations:            {s.report.iterations}\n"
    ++ s!"Interrupted:           {s.report.interrupted}\n"
    ++ s!"Switch budget:         {s.report.switches}\n"
    ++ "Fully explored:        " ++ (if s.report.fullyExplored then "true" else "false") ++ "\n"
    ++ "Result:                "
    ++ match s.report.failure? with
      | none => "OK\n"
      | some f => f.kind.name ++ "\n\n" ++ f.text

end Summary

end Interleave
