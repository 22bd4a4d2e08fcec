/-
# The dispatcher

One party, the runner, submits bodies and waits until all have finished; the
other, the worker, runs them one at a time in the order of submission. They
share the queue of bodies, the count of bodies in flight, a channel of signals
that the count fell to zero, and a slot for the first error. Every access to
what they share is a step of its own, so any order of steps of the two parties
is a run of the machine.

Key definitions: `Job`, `Dispatcher`, `Dispatcher.workerStep?`,
`Dispatcher.runnerStep?`, `Dispatcher.submit`, `Dispatcher.settle`,
`Dispatcher.await`, `Dispatcher.collectError`.
-/
import Interleave.Error

namespace Interleave

/-- A body to be run. -/
structure Job where
  /-- A line that the body leaves in the log. -/
  note : Option String
  /-- How the body ends; a panic counts as an error. -/
  result : Except Abort Unit
  /-- A gate the body waits at, by its number. -/
  gate : Option Nat

/-- Where the worker stands. -/
inductive WorkerPhase where
  /-- About to take the next body from the queue. -/
  | ready
  | running (job : Job)
  /-- About to put a failure into the slot, if there is one. -/
  | reporting (failure : Option Abort)
  /-- About to take the body off the count. -/
  | counting
  /-- About to signal that the count fell to zero. -/
  | signalling

/-- Where the runner stands. -/
inductive RunnerPhase where
  | idle
  /-- Has counted a body and is about to queue it. -/
  | queueing (job : Job)
  /-- Waiting: about to look at the count. -/
  | checking
  /-- Waiting for a signal. -/
  | awaiting
  /-- Has seen a count of zero and is taking signals left over. -/
  | swallowing
  /-- Done waiting: all bodies have finished. -/
  | released

structure Dispatcher where
  queue : List Job
  inFlight : Nat
  /-- Signals sent and not yet taken. -/
  signals : Nat
  error : Option Abort
  worker : WorkerPhase
  runner : RunnerPhase
  /-- The bodies that have finished, in order. -/
  finished : List Job
  /-- How many gates were made. -/
  gates : Nat
  /-- The gates below this number are open. -/
  opened : Nat

namespace Dispatcher

def new : Dispatcher := ⟨[], 0, 0, none, .ready, .idle, [], 0, 0⟩

def failureOf : Except Abort Unit → Option Abort
  | .ok () => none
  | .error e => some e

/-- Whether a body can run to its end. -/
def passes (d : Dispatcher) (j : Job) : Bool :=
  match j.gate with
  | none => true
  | some g => g < d.opened

/-- One step of the worker; none while it has to wait. -/
def workerStep? (d : Dispatcher) : Option Dispatcher :=
  match d.worker with
  | .ready =>
    match d.queue with
    | [] => none
    | j :: rest => some { d with queue := rest, worker := .running j }
  | .running j =>
    if d.passes j then
      some { d with finished := d.finished ++ [j], worker := .reporting (failureOf j.result) }
    else none
  | .reporting failure => some { d with error := d.error.or failure, worker := .counting }
  | .counting =>
    some { d with
      inFlight := d.inFlight - 1
      worker := if d.inFlight = 1 then .signalling else .ready }
  | .signalling => some { d with signals := d.signals + 1, worker := .ready }

/-- One step of the runner; none while it has to wait, or has nothing to do. -/
def runnerStep? (d : Dispatcher) : Option Dispatcher :=
  match d.runner with
  | .idle => none
  | .queueing j => some { d with queue := d.queue ++ [j], runner := .idle }
  | .checking => some { d with runner := if d.inFlight = 0 then .swallowing else .awaiting }
  | .awaiting =>
    if d.signals = 0 then none else some { d with signals := d.signals - 1, runner := .checking }
  | .swallowing =>
    if d.signals = 0 then some { d with runner := .released }
    else some { d with signals := d.signals - 1 }
  | .released => none

/-- The runner starts to submit a body: it is counted first. -/
def beginSubmit (d : Dispatcher) (j : Job) : Dispatcher :=
  { d with inFlight := d.inFlight + 1, runner := .queueing j }

/-- The runner starts to wait. -/
def beginWait (d : Dispatcher) : Dispatcher := { d with runner := .checking }

/-- The runner takes the first error since it last did. -/
def collectError (d : Dispatcher) : Option Abort × Dispatcher :=
  (d.error, { d with error := none })

/-- Lets one party make up to `fuel` steps. -/
def advance (step? : Dispatcher → Option Dispatcher) : Nat → Dispatcher → Dispatcher
  | 0, d => d
  | fuel + 1, d =>
    match step? d with
    | none => d
    | some d => advance step? fuel d

/-- Lets the worker go on until it has to wait; a body takes it five steps at most. -/
def settle (d : Dispatcher) : Dispatcher := advance workerStep? (5 * (d.queue.length + 1)) d

/-- Submits a body and lets the worker go on. -/
def submit (d : Dispatcher) (j : Job) : Dispatcher :=
  (advance runnerStep? 1 (d.beginSubmit j)).settle

/-- Submits a body that waits at a new gate. -/
def submitGated (d : Dispatcher) (j : Job) : Dispatcher :=
  { d with gates := d.gates + 1 }.submit { j with gate := some d.gates }

/-- Opens all gates made so far. -/
def openGates (d : Dispatcher) : Dispatcher := { d with opened := d.gates }.settle

/-- Waits until all bodies have finished, or the time is over because one does not. -/
def await (d : Dispatcher) : Except Abort Unit × Dispatcher :=
  let d := advance runnerStep? (d.signals * 3 + 3) d.settle.beginWait
  match d.runner with
  | .released => (.ok (), { d with runner := .idle })
  | _ => (.error .timeout, { d with runner := .idle })

/-- What the finished bodies left in the log. -/
def log (d : Dispatcher) : List String := d.finished.filterMap Job.note

end Dispatcher

end Interleave
