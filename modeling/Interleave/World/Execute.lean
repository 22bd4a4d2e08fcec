/-
# Executing tasks

What each kind of task does to the state of the iteration (`Step.execute`), and what
a node does when it is told that the scenario is over (`Step.farewell`).
-/
import Interleave.World.Handling

namespace Interleave

namespace Step

variable {σ μ : Type}

/-- Runs operation `index` of node `v`. A crashed node and a missing operation do nothing. -/
def invoke (c : Cluster σ μ) (v : NodeId) (index : UInt64) : Step σ μ Unit := do
  if (← get).fault.isCrashed v then return
  wake c v
  match (c.operations v)[index.toNat]? with
  | none => return
  | some operation =>
    let agenda ← entry (← get).agendas v
    let next ← orOverflow (wordSucc? index)
    setAgenda v { agenda with current := some index, next := next }
    modify fun w => { w with results := w.results.modify v.index (· ++ [.missing]) }
    record v (.started index operation.text)
    match ← onInstance c v fun site state => c.protocol.onOperation site operation state with
    | some (.ok (.value text)) => let _ ← conclude c v (.value text)
    | some (.ok .void) => let _ ← conclude c v .void
    | some (.ok .later) => return
    | some (.error e) => absorb c v e
    | none => return

/-- Delivers a message sent at `clock`. It is lost if the node is down or out of reach. -/
def deliver (c : Cluster σ μ) (v : NodeId) (clock : Clock) (sender : NodeId) (message : μ)
    (id : MessageId) : Step σ μ Unit := do
  withdraw id
  let fault := (← get).fault
  if fault.isCrashed v || !fault.reaches sender v then
    record sender (.lost id v)
  else
    wake c v
    learn v clock
    let _ ← tick v (.received id)
    record v (.received id sender (c.protocol.messageText message))
    runHook c v fun site state => c.protocol.onMessage site message sender state

/-- Whether a crash of node `v` at message `m` takes a task with it: the node's own work but for
heals, and the deliveries of what it sent from that message on. -/
def diesWith (v : NodeId) (m : MessageId) (t : Task μ) : Bool :=
  (t.owner = v && t.kind ≠ .heal) ||
    (t.sender? = some v && (t.message?.map fun k => decide (m ≤ k)).getD false)

/-- A dropped delivery loses its message. -/
def lose (t : Task μ) : Step σ μ Unit := do
  match t.body with
  | .receive sender _ id =>
    withdraw id
    record sender (.lost id t.owner)
  | _ => return

/-- Crashes node `v` at message `m`, if the budget still allows it. -/
def crash (c : Cluster σ μ) (v : NodeId) (m : MessageId) : Step σ μ Unit := do
  match (← get).fault.crash? v with
  | none => return
  | some fault =>
    modify fun w => { w with fault := fault }
    record v .crashed
    let (dropped, pending) := (← get).pending.drain (diesWith v m)
    modify fun w => { w with pending := pending }
    dropped.forM lose
    setInstance v none
    let _ ← endCurrent v .crashed
    prune
    if c.config.recovers then
      let clock ← tick v .work
      let _ ← enqueue v clock .recover

/-- Puts a new instance in place of node `v`. -/
def renew (c : Cluster σ μ) (v : NodeId) : Step σ μ Unit :=
  modify fun w =>
    { w with
      instances := w.instances.set v.index (c.registry.spawn? v (w.made.getD v.index 0))
      made := w.made.modify v.index (· + 1) }

/-- Brings a crashed node back. -/
def recover (c : Cluster σ μ) (v : NodeId) : Step σ μ Unit := do
  match (← get).fault.recover? v with
  | none => return
  | some fault =>
    modify fun w => { w with fault := fault }
    renew c v
    setAgenda v { ← entry (← get).agendas v with started := true }
    record v .recovered
    runHook c v c.protocol.onRecovery
    if (← entry (← get).agendas v).current.isNone then queueNext c v

/-- Partitions the network at random, if the budget still allows it. -/
def partition (c : Cluster σ μ) (v : NodeId) : Step σ μ Unit := do
  let w ← get
  let (next, source) := w.fault.partition? w.source
  modify fun w => { w with source := source }
  match next with
  | none => return
  | some fault =>
    modify fun w => { w with fault := fault }
    record v (.partitioned fault.describe)
    prune
    if c.config.recovers then
      let clock ← tick v .work
      let _ ← enqueue v clock .heal

/-- Heals a partition. -/
def heal (v : NodeId) : Step σ μ Unit := do
  let w ← get
  let (next, source) := w.fault.heal? w.source
  modify fun w => { w with source := source }
  match next with
  | none => return
  | some fault =>
    modify fun w => { w with fault := fault }
    record v (.healed fault.describe)

/-- Tells node `v` that the scenario is over. A crashed node is not told. -/
def farewell (c : Cluster σ μ) (v : NodeId) : Step σ μ Unit := do
  match ← onInstance c v c.protocol.onFinish with
  | none => return
  | some result =>
    record v .closed
    match result with
    | .ok () => return
    | .error e => absorb c v e

def execute (c : Cluster σ μ) (t : Task μ) : Step σ μ Unit :=
  match t.body with
  | .operation index => invoke c t.owner index
  | .receive sender message id => deliver c t.owner t.clock sender message id
  | .crash m => crash c t.owner m
  | .recover => recover c t.owner
  | .partition _ => partition c t.owner
  | .heal => heal t.owner

end Step

end Interleave
