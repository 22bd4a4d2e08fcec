/-
# Clusters

What is fixed for a whole check: settings, nodes and scenario make a setup, and
with the logic of the nodes a cluster. A setup is checked as a whole before anything
is run (`Setup.accept`).
-/
import Interleave.Config
import Interleave.Node
import Interleave.Registry

namespace Interleave

/-- The settings of a check, the nodes and what they are to do. -/
structure Setup (σ : Type) where
  config : Config
  registry : Registry σ
  scenario : Scenario

namespace Setup

variable {σ : Type}

/-- Refuses a setup that no iteration could run with. -/
def check (s : Setup σ) : Except SetupError Unit :=
  match s.config.check with
  | .error e => .error e
  | .ok () =>
    if UInt64.size ≤ s.registry.size then .error .tooManyNodes
    else if s.registry.size = 0 then .error .noNodes
    else if s.registry.size < s.scenario.size then
      .error (.scenarioSize s.scenario.size s.registry.size)
    else
      match s.config.maxFailedByRole.find? fun l => !s.registry.has l.1 with
      | some l => .error (.unknownRole l.1)
      | none => .ok ()

/-- Refuses also a setup with more nodes than can be held. -/
def accept (s : Setup σ) : Except SetupError Unit :=
  match s.check with
  | .error e => .error e
  | .ok () => if s.registry.canHold && s.registry.canClock then .ok () else .error .tooManyNodes

end Setup

/-- A setup and the logic of its nodes. -/
structure Cluster (σ μ : Type) extends Setup σ where
  protocol : Protocol σ μ

namespace Cluster

variable {σ μ : Type}

def size (c : Cluster σ μ) : Nat := c.registry.size

/-- The surroundings of node `v`. -/
def site (c : Cluster σ μ) (v : NodeId) : Site := ⟨v, c.size, c.registry.addresses⟩

/-- The operations of node `v`. -/
def operations (c : Cluster σ μ) (v : NodeId) : List Operation := c.scenario.of v

end Cluster

end Interleave
