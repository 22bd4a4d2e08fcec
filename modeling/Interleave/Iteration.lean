/-
# One iteration

An iteration resets the cluster, executes tasks until none is pending, tells the
nodes that the scenario is over, executes what that brought about, and judges
the results. The order of the tasks is prescribed by a path first. An exploring
iteration goes on with the canonical choice at each node of the tree and follows
the tree as it goes; where nothing is eligible any more, and after the path of a
replay, the tasks left are drained by ascending number.

The time an iteration may take is counted in tasks. How many get done within the
timeout is a setting (`Config.pace`); the next one is not begun. A handler that
never returns uses all the time up.

Key definitions: `Walk`, `Walker`, `Walker.execute`, `Walker.drain`,
`Walker.explore`, `Walker.replay`, `Walker.endScenario`, `Iteration`,
`Iteration.run`.
-/
import Interleave.Tree.Printer
import Interleave.World.Execute

namespace Interleave

/-- How many tasks an iteration has time for. -/
def Config.taskBudget (c : Config) : Nat := c.pace c.timeout

/-- An iteration under way. -/
structure Walk (F σ μ : Type) where
  world : World σ μ
  tree : Tree F
  /-- The executed tasks, in order. -/
  executed : List TaskId
  /-- The nodes of the tree visited, from the root down. -/
  visited : List Nat
  /-- How many more tasks there is time for. -/
  time : Nat

/-- A computation of an iteration under way that may fail. -/
abbrev Walker (F σ μ : Type) := ExceptT Abort (StateM (Walk F σ μ))

namespace Walker

variable {F σ μ : Type} [Share F]

/-- Runs a step on the state of the iteration. -/
def step {α : Type} (s : Step σ μ α) : Walker F σ μ α := fun k =>
  let ⟨world, tree, executed, visited, time⟩ := k
  let (result, world) := s world
  (result, ⟨world, tree, executed, visited, time⟩)

/-- Executes a pending task and adds it to the executed ones. -/
def execute (c : Cluster σ μ) (id : TaskId) : Walker F σ μ TaskView := do
  if (← get).time = 0 then throw .timeout
  match (← get).world.pending.take id with
  | none => throw (.unknownTask id)
  | some (task, pending) =>
    modify fun k => { k with world := { k.world with pending := pending }, time := k.time - 1 }
    step (Step.execute c task)
    modify fun k => { k with executed := k.executed ++ [id] }
    return task.view

/-- Executes all pending tasks by ascending number, `fuel` at most. -/
def drainLoop (c : Cluster σ μ) : Nat → Walker F σ μ Unit
  | 0 => do if !(← get).world.pending.isEmpty then throw .timeout
  | fuel + 1 => do
    match (← get).world.pending.first? with
    | none => return
    | some id =>
      let _ ← execute c id
      drainLoop c fuel

/-- Executes all pending tasks by ascending number. -/
def drain (c : Cluster σ μ) : Walker F σ μ Unit := do drainLoop c (← get).time

/-- Runs an operation of the tree. -/
def onTree {α : Type} (f : Tree F → Except TreeError α × Tree F) : Walker F σ μ α := fun k =>
  let ⟨world, tree, executed, visited, time⟩ := k
  let (result, tree) := f tree
  (result.mapError TreeError.toAbort, ⟨world, tree, executed, visited, time⟩)

/-- Records or checks what is eligible at node `n` of the tree, after a task, none at the root. -/
def settle (n : Nat) (finished : Option TaskView) : Walker F σ μ Unit := do
  let pending := (← get).world.pending.views
  onTree fun tree => tree.observe n finished pending

/-- Adds a node of the tree to the visited ones. -/
def enter (n : Nat) : Walker F σ μ Unit :=
  modify fun k => { k with visited := k.visited ++ [n] }

/-- Follows the path from node `n` of the tree, then the canonical choices. Returns whether
nothing was eligible while tasks were pending. -/
def exploreLoop (c : Cluster σ μ) : Nat → Nat → List TaskId → Walker F σ μ Bool
  | 0, _, _ => do
    if (← get).world.pending.isEmpty then return false else throw .timeout
  | fuel + 1, n, path => do
    if (← get).world.pending.isEmpty then return false
    match path.head?.or ((← get).tree.next? n) with
    | none =>
      drain c
      return true
    | some id =>
      let info ← execute c id
      let m ← onTree fun tree => tree.branch n id
      enter m
      settle m (some info)
      exploreLoop c fuel m path.tail

/-- Explores from the root of the tree. -/
def explore (c : Cluster σ μ) (path : List TaskId) : Walker F σ μ Bool := do
  settle Tree.root none
  enter Tree.root
  exploreLoop c (← get).time Tree.root path

/-- Executes exactly the tasks of the path, then drains. -/
def replay (c : Cluster σ μ) (path : List TaskId) : Walker F σ μ Bool := do
  path.forM fun id => do let _ ← execute c id
  drain c
  return false

/-- Tells the nodes, in order, that the scenario is over. All are told even if one fails; the first
error is returned. A handler that never returns keeps the others from being told. -/
def tellAll (c : Cluster σ μ) : List NodeId → World σ μ → Option Abort × World σ μ
  | [], w => (none, w)
  | v :: rest, w =>
    match Step.farewell c v w with
    | (.ok (), w) => tellAll c rest w
    | (.error .timeout, w) => (some .timeout, w)
    | (.error e, w) =>
      match tellAll c rest w with
      | (some .timeout, w) => (some .timeout, w)
      | (_, w) => (some e, w)

/-- Ends the scenario, and drains what that brought about. -/
def endScenario (c : Cluster σ μ) : Walker F σ μ Unit := do
  let k ← get
  let (error, world) := tellAll c ((List.range k.world.size).map NodeId.ofIndex) k.world
  set { k with world := world }
  match error with
  | some e => throw e
  | none => drain c

end Walker

/-- What an iteration did. -/
structure Iteration where
  outcome : Outcome
  /-- Whether nothing was eligible while tasks were pending. -/
  interrupted : Bool
  /-- The tasks executed before the nodes were told that the scenario is over. -/
  executed : List TaskId
  /-- The tasks executed after that. -/
  afterwards : List TaskId
  trace : List Occurrence
  /-- The results that were handed to the verifier, if it came to that. -/
  judged : Option (List (List Answer))

namespace Iteration

variable {F σ μ : Type} [Share F]

/-- Judges a completed iteration: first the nodes' own view of their states, then the results. -/
def judge (c : Cluster σ μ) (verifier : Verifier) (executed : List TaskId) (w : World σ μ) :
    Outcome × Option (List (List Answer)) :=
  match w.invalid? c with
  | some (v, message) => (.failed ⟨.invalidState v message, executed, w.events⟩, none)
  | none =>
    let results := w.summary c
    (if verifier c.scenario results.perNode then .completed results
      else .failed ⟨.wrongResults results, executed, w.events⟩, some results.perNode)

/-- The failure of an iteration that was cut short. -/
def cutShort (e : Abort) (executed : List TaskId) (w : World σ μ) (tree : Tree F) :
    Outcome :=
  let shown := if e.isInternal then some tree.render else none
  .failed ⟨.unexpected e.message shown, executed, w.events⟩

/-- The two halves of an iteration: its tasks, and the end of the scenario. Returns how it went,
the iteration right before the nodes were told, and after all. -/
def walk (c : Cluster σ μ) (tasks : Walker F σ μ Bool) (start : Walk F σ μ) :
    Except Abort Bool × Walk F σ μ × Walk F σ μ :=
  match tasks start with
  | (.error e, mid) => (.error e, mid, mid)
  | (.ok interrupted, mid) =>
    match Walker.endScenario c mid with
    | (.error e, last) => (.error e, mid, last)
    | (.ok (), last) => (.ok interrupted, mid, last)

/-- The start of an iteration. -/
def start (c : Cluster σ μ) (tree : Tree F) (w : World σ μ) : Walk F σ μ :=
  ⟨w.reset c, tree, [], [], c.config.taskBudget⟩

/-- What is left of an iteration: the record of it, the tree, and the state of the cluster. The
statistics of the tree are brought up to date if `exploring`. A deadlock leaves a blank state. -/
def close (c : Cluster σ μ) (verifier : Verifier) (exploring : Bool)
    (walked : Except Abort Bool × Walk F σ μ × Walk F σ μ) :
    Iteration × Tree F × World σ μ :=
  let (result, mid, last) := walked
  let tree := if exploring then (last.tree.recount last.visited).2 else last.tree
  let afterwards := last.executed.drop mid.executed.length
  match result with
  | .ok interrupted =>
    let (outcome, judged) := judge c verifier mid.executed last.world
    (⟨outcome, interrupted, mid.executed, afterwards, last.world.events, judged⟩, tree, last.world)
  | .error .timeout =>
    (⟨.failed ⟨.deadlock c.config.timeout, mid.executed, []⟩, false, mid.executed, afterwards, [],
      none⟩, tree, World.blank c last.world.made)
  | .error e =>
    (⟨cutShort e mid.executed last.world tree, false, mid.executed, afterwards,
      last.world.events, none⟩, tree, last.world)

/-- Runs an exploring iteration along a path. -/
def run (c : Cluster σ μ) (verifier : Verifier) (path : List TaskId) (tree : Tree F)
    (w : World σ μ) : Iteration × Tree F × World σ μ :=
  close c verifier true (walk c (Walker.explore c path) (start c tree w))

/-- Replays a path. -/
def replay (c : Cluster σ μ) (verifier : Verifier) (path : List TaskId) (tree : Tree F)
    (w : World σ μ) : Iteration × Tree F × World σ μ :=
  close c verifier false (walk c (Walker.replay c path) (start c tree w))

end Iteration

end Interleave
