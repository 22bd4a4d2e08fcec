/-
# The search

The search runs iterations until one fails, everything is explored or the limit
is reached (`Explorer.run`). It starts on the canonical order; when an iteration has
not shrunk the unexplored share, the next ones may deviate from that order once more.

A search also executes a given path again (`Explorer.replay`). The replay has the tree
in its hands, as an iteration has, and the search goes on with what it hands back.
-/
import Interleave.Iteration
import Interleave.Tree.Choice

namespace Interleave

/-- A search: the cluster, how its results are judged, and what was explored so far. -/
structure Explorer (F σ μ : Type) where
  cluster : Cluster σ μ
  verifier : Verifier
  tree : Tree F
  source : Source
  /-- How often an iteration may deviate from the canonical order. -/
  switches : Nat
  world : World σ μ

/-- What a run of the search found. -/
structure SearchReport where
  /-- The iterations, in order. -/
  history : List Iteration
  fullyExplored : Bool
  switches : Nat

namespace SearchReport

def iterations (r : SearchReport) : Nat := r.history.length

/-- How many iterations had nothing eligible while tasks were pending. -/
def interrupted (r : SearchReport) : Nat := r.history.countP Iteration.interrupted

/-- The failure that stopped the run. -/
def failure? (r : SearchReport) : Option Failure := r.history.getLast?.bind (·.outcome.failure?)

def isSuccess (r : SearchReport) : Bool := r.failure?.isNone

/-- The results handed to the verifier, in order. -/
def judged (r : SearchReport) : List (List (List Answer)) := r.history.filterMap Iteration.judged

end SearchReport

namespace Explorer

variable {F σ μ : Type} [Share F]

/-- A search on an accepted setup. -/
def new (c : Cluster σ μ) (verifier : Verifier) : Except SetupError (Explorer F σ μ) :=
  match c.toSetup.accept with
  | .error e => .error e
  | .ok () =>
    .ok ⟨c, verifier, Tree.empty c.config.order, Source.ofSeed c.config.seed, 0, World.new c⟩

/-- The events of the last iteration. -/
def lastTrace (x : Explorer F σ μ) : List Occurrence := x.world.events

/-- One iteration of the search, with the switches adjusted if it did not fail. -/
def iterate (x : Explorer F σ μ) : Iteration × Explorer F σ μ :=
  let ⟨cluster, verifier, tree, source, switches, world⟩ := x
  let before := tree.unexplored Tree.root
  let (path, source) := tree.plan switches source
  let (iteration, tree, world) := Iteration.run cluster verifier path tree world
  let switches :=
    if !iteration.outcome.isFailure && Share.le before (tree.unexplored Tree.root) then switches + 1
    else switches
  (iteration, ⟨cluster, verifier, tree, source, switches, world⟩)

/-- Runs at most `fuel` iterations; `history` holds the earlier ones, last first. -/
def runLoop : Nat → List Iteration → Explorer F σ μ → List Iteration × Explorer F σ μ
  | 0, history, x => (history, x)
  | fuel + 1, history, x =>
    if x.tree.isExplored Tree.root then (history, x)
    else
      let (iteration, x) := x.iterate
      if iteration.outcome.isFailure then (iteration :: history, x)
      else runLoop fuel (iteration :: history) x

/-- Runs the search. -/
def run (x : Explorer F σ μ) : SearchReport × Explorer F σ μ :=
  let (history, x) := runLoop x.cluster.config.maxIterations [] x
  (⟨history.reverse, x.tree.isExplored Tree.root, x.switches⟩, x)

/-- Runs the tasks of an interleaving again, then drains. -/
def replay (x : Explorer F σ μ) (path : List TaskId) : Outcome × Explorer F σ μ :=
  let (iteration, tree, world) := Iteration.replay x.cluster x.verifier path x.tree x.world
  (iteration.outcome, { x with tree := tree, world := world })

end Explorer

end Interleave
