/-
# Tasks, messages and fault candidates

A sent message becomes a delivery task of its target (`Step.send`). Where the budget
allows it, the send also offers to crash the sender and to partition the network at
this very message; these candidates are withdrawn once the message is delivered
or lost, and pruned when the faults in force no longer allow them.
-/
import Interleave.World

namespace Interleave

namespace Step

variable {σ μ : Type}

def panic {α : Type} (p : Panic) : Step σ μ α := throw (.panic p)

/-- The value, or the panic. -/
def ofPanic {α : Type} : Except Panic α → Step σ μ α
  | .ok a => pure a
  | .error p => panic p

/-- The value, or a panic because a counter is at its last word. -/
def orOverflow {α : Type} : Option α → Step σ μ α
  | some a => pure a
  | none => panic .overflow

/-- Adds an event at node `v` to the log. -/
def record (v : NodeId) (e : Event) : Step σ μ Unit :=
  modify fun w => { w with events := w.events ++ [⟨v, e⟩] }

/-- One more event on the clock of node `v`; returns the clock right after it. -/
def tick (v : NodeId) (cause : Cause) : Step σ μ Clock := do
  let clocks ← ofPanic ((← get).clocks.tick v)
  modify fun w => { w with clocks := clocks }
  let stamp ← ofPanic (clocks.read v)
  modify fun w => { w with ticks := w.ticks ++ [⟨v, cause, stamp⟩] }
  return stamp

/-- Node `v` learns all that `clock` knows. -/
def learn (v : NodeId) (clock : Clock) : Step σ μ Unit := do
  let clocks ← ofPanic ((← get).clocks.merge v clock)
  modify fun w => { w with clocks := clocks }

/-- Adds a task under the next number. -/
def enqueue (owner : NodeId) (clock : Clock) (body : Work μ) : Step σ μ TaskId := do
  let id := (← get).nextTask
  let next ← orOverflow id.next?
  modify fun w => { w with nextTask := next }
  let pending ← ofPanic ((← get).pending.insert ⟨id, owner, clock, body⟩)
  modify fun w => { w with pending := pending }
  return id

/-- Whether the faults in force allow a candidate to be executed. -/
def applicable (w : World σ μ) (id : TaskId) : Bool :=
  match w.pending.get? id with
  | none => false
  | some t =>
    match t.kind with
    | .crash => (w.fault.crash? t.owner).isSome
    | .partition => w.fault.canPartition
    | _ => true

/-- Removes the fault candidates of a message that is delivered or lost. -/
def withdraw (m : MessageId) : Step σ μ Unit :=
  modify fun w =>
    { w with
      pending := ((Ascending.lookup m w.candidates).getD []).foldl Pending.erase w.pending
      candidates := Ascending.drop m w.candidates }

/-- Removes the fault candidates that the faults in force no longer allow. -/
def prune : Step σ μ Unit :=
  modify fun w =>
    let stale := (w.candidates.flatMap (·.2)).filter fun id => !applicable w id
    { w with
      pending := stale.foldl Pending.erase w.pending
      candidates := (w.candidates.map fun e => (e.1, e.2.filter (applicable w))).filter
        fun e => !e.2.isEmpty }

/-- Offers to crash the sender at this message, if the budget allows. -/
def offerCrash (c : Cluster σ μ) (sender : NodeId) (clock : Clock) (m : MessageId) :
    Step σ μ (List TaskId) := do
  if c.config.allowsFaults && ((← get).fault.crash? sender).isSome then
    return [← enqueue sender clock (.crash m)]
  else return []

/-- Offers to partition the network at this message, if the budget allows. -/
def offerPartition (c : Cluster σ μ) (sender : NodeId) (clock : Clock) (m : MessageId) :
    Step σ μ (List TaskId) := do
  if c.config.splits && (← get).fault.canPartition then
    return [← enqueue sender clock (.partition m)]
  else return []

/-- Sends a message. One to an address outside the cluster is dropped without a trace. -/
def send (c : Cluster σ μ) (sender : NodeId) (message : μ) (target : NodeId) : Step σ μ Unit := do
  if (← get).size ≤ target.index then return
  let id := (← get).nextMessage
  let next ← orOverflow id.next?
  modify fun w => { w with nextMessage := next }
  let clock ← tick sender (.sent id)
  record sender (.sent id target (c.protocol.messageText message))
  if !(← get).fault.reaches sender target then
    record sender (.lost id target)
  else
    let _ ← enqueue target clock (.receive sender message id)
    let crash ← offerCrash c sender clock id
    let partition ← offerPartition c sender clock id
    if !(crash ++ partition).isEmpty then
      modify fun w => { w with candidates := Ascending.put id (crash ++ partition) w.candidates }

end Step

end Interleave
