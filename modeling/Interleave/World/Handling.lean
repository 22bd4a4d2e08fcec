/-
# Operations in flight and running handlers

A node has at most one operation in flight. Finishing it stores the result and
schedules the next one (`Step.conclude`). The requests of a handler are carried out
one by one (`Step.perform`); while it runs its node has no instance, and if it breaks
off the instance is lost. An error that the operation in flight declared becomes its
result.
-/
import Interleave.World.Network

namespace Interleave

namespace Step

variable {σ μ : Type}

/-- The entry of node `v` in a list with one entry a node. -/
def entry {α : Type} (l : List α) (v : NodeId) : Step σ μ α :=
  match l[v.index]? with
  | some a => pure a
  | none => panic (.outOfBounds l.length v.index)

def setAgenda (v : NodeId) (a : Agenda) : Step σ μ Unit :=
  modify fun w => { w with agendas := w.agendas.set v.index a }

/-- Adds the task of the next operation of node `v`, if there is one. -/
def queueNext (c : Cluster σ μ) (v : NodeId) : Step σ μ Unit := do
  let agenda ← entry (← get).agendas v
  if agenda.next.toNat < (c.operations v).length then
    let clock ← tick v .work
    let _ ← enqueue v clock (.operation agenda.next)

/-- Stores the result of operation `index` of node `v`, which must have been started. -/
def storeResult (v : NodeId) (index : UInt64) (result : Answer) : Step σ μ Unit := do
  let results ← entry (← get).results v
  if index.toNat < results.length then
    modify fun w =>
      { w with results := w.results.set v.index (results.set index.toNat result) }
  else panic (.outOfBounds results.length index.toNat)

/-- Ends the operation of node `v` in flight; returns its number if there was one. -/
def endCurrent (v : NodeId) (result : Answer) : Step σ μ (Option UInt64) := do
  let agenda ← entry (← get).agendas v
  match agenda.current with
  | none => return none
  | some index =>
    setAgenda v { agenda with current := none }
    storeResult v index result
    record v (.finished index result)
    return some index

/-- Finishes the operation of node `v` in flight and schedules the next one. Returns whether there
was one. -/
def conclude (c : Cluster σ μ) (v : NodeId) (result : Answer) : Step σ μ Bool := do
  match ← endCurrent v result with
  | none => return false
  | some _ =>
    queueNext c v
    return true

/-- The events recorded at node `v`. -/
def eventsAt (w : World σ μ) (v : NodeId) : List Event :=
  (w.events.filter (·.node = v)).map Occurrence.event

/-- The result of an operation completed with a value or without. -/
def resultOf : Option String → Answer
  | some text => .value text
  | none => .void

/-- Adds a line to the log of node `v`. -/
def log (v : NodeId) (text : String) : Step σ μ Unit := do
  modify fun w => { w with logs := w.logs.modify v.index (· ++ [text]) }
  record v (.noted text)

/-- Carries out the requests of a handler of node `v`. -/
def perform {α : Type} (c : Cluster σ μ) (v : NodeId) : Handler μ α → Step σ μ α
  | .done a => pure a
  | .raise payload => panic (.raised payload)
  | .hang => throw .timeout
  | .send message target rest => do
    send c v message target
    perform c v rest
  | .log text rest => do
    log v text
    perform c v rest
  | .complete value rest => do
    let ok ← conclude c v (resultOf value)
    perform c v (rest ok)
  | .events rest => do
    let w ← get
    perform c v (rest (eventsAt w v))
  | .logs rest => do
    let w ← get
    perform c v (rest w.logs)

def setInstance (v : NodeId) (x : Option σ) : Step σ μ Unit :=
  modify fun w => { w with instances := w.instances.set v.index x }

/-- Runs a handler on the instance of node `v`; returns none if there is no instance. -/
def onInstance {ρ : Type} (c : Cluster σ μ) (v : NodeId) (f : Site → σ → Handler μ (Reply σ ρ)) :
    Step σ μ (Option (Except NodeError ρ)) := do
  match (← get).instances[v.index]?.join with
  | none => return none
  | some state =>
    setInstance v none
    let (state, result) ← perform c v (f (c.site v) state)
    setInstance v (some state)
    return some result

/-- The operation of node `v` in flight. -/
def inFlight? (c : Cluster σ μ) (v : NodeId) (a : Agenda) : Option Operation :=
  a.current.bind fun index => (c.operations v)[index.toNat]?

/-- A declared error ends the operation in flight; any other ends the iteration. -/
def absorb (c : Cluster σ μ) (v : NodeId) (e : NodeError) : Step σ μ Unit := do
  let agenda ← entry (← get).agendas v
  if ((inFlight? c v agenda).map (·.handles e.kind)).getD false then
    let _ ← conclude c v (.exception e.kind)
  else throw (.node v e)

/-- Runs a handler without a result of its own, and handles its error. -/
def runHook (c : Cluster σ μ) (v : NodeId) (f : Site → σ → Handler μ (Reply σ Unit)) :
    Step σ μ Unit := do
  match ← onInstance c v f with
  | some (.error e) => absorb c v e
  | _ => return

/-- Starts node `v` before its first piece of work. -/
def wake (c : Cluster σ μ) (v : NodeId) : Step σ μ Unit := do
  let agenda ← entry (← get).agendas v
  if !agenda.started then
    setAgenda v { agenda with started := true }
    runHook c v c.protocol.onStart

end Step

end Interleave
