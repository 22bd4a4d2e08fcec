/-
# The moves of the dispatcher

Runner and worker share a queue, a count, a channel of signals and a slot, and each
touch of one of these is a move; a run is any sequence of moves, with the submissions,
the waits and the takes of the runner at any time and any number of signals left over
from earlier waits.

Three facts carry over from move to move. The bodies submitted are, in their order,
those finished, the one in the worker's hands, those in the queue and the one the runner
is about to queue (`Dispatcher.bodies`). The count is the number of those that the worker
has not counted off, and a runner waiting on an empty channel with the count at zero is
about to be sent a signal: it saw a higher count, and the move that took the count to
zero obliged the worker to send one (`Dispatcher.Kept`). What the slot holds is a matter
of the bodies recorded since it was last emptied (`Dispatcher.Holds`).

Key definitions: `Dispatcher.Move`, `Dispatcher.move?`, `Dispatcher.run?`, `Dispatcher.Turn`,
`Dispatcher.bodies`, `Dispatcher.Kept`, `Dispatcher.Holds`.
Key theorems: `Dispatcher.turn_of_move?`, `Dispatcher.run?_induction`, `Dispatcher.bodies_run?`,
`Dispatcher.Kept.run`, `Dispatcher.Kept.at_rest`, `Dispatcher.Holds.run`.
-/
import Interleave.Dispatcher

namespace Interleave

/-- The error that a body ends in. -/
def Job.failure? (j : Job) : Option Abort := Dispatcher.failureOf j.result

/-- The body that the worker is running. -/
def WorkerPhase.body? : WorkerPhase → Option Job
  | running j => some j
  | _ => none

/-- Whether the worker has taken a body that it has not counted off yet. -/
def WorkerPhase.isBusy : WorkerPhase → Bool
  | running _ | reporting _ | counting => true
  | ready | signalling => false

/-- The body that the runner has counted and not queued yet. -/
def RunnerPhase.body? : RunnerPhase → Option Job
  | queueing j => some j
  | _ => none

/-- Whether the runner is in a wait. -/
def RunnerPhase.isWaiting : RunnerPhase → Bool
  | checking | awaiting | swallowing => true
  | idle | queueing _ | released => false

namespace Dispatcher

/-! ### Runs -/

/-- What can happen next. -/
inductive Move where
  /-- The worker goes on. -/
  | work
  /-- The runner goes on with its submission or its wait. -/
  | proceed
  /-- The runner begins to submit a body. -/
  | submit (job : Job)
  /-- The runner begins to wait. -/
  | wait
  /-- The wait returns: all is done. -/
  | leave
  /-- The wait returns: its time is over. -/
  | giveUp
  /-- The runner takes the error. -/
  | take
  /-- A gate is made for a body to wait at. -/
  | fence
  /-- The gates made so far are opened. -/
  | unlock

def move? (d : Dispatcher) (m : Move) : Option Dispatcher :=
  match m, d.runner with
  | .work, _ => d.workerStep?
  | .proceed, _ => d.runnerStep?
  | .submit j, .idle => some (d.beginSubmit j)
  | .wait, .idle => some d.beginWait
  | .take, .idle => some d.collectError.2
  | .leave, .released => some { d with runner := .idle }
  | .giveUp, .awaiting => some { d with runner := .idle }
  | .fence, _ => some { d with gates := d.gates + 1 }
  | .unlock, _ => some { d with opened := d.gates }
  | _, _ => none

/-- The state after a sequence of moves, if each was possible in its turn. -/
def run? (d : Dispatcher) : List Move → Option Dispatcher
  | [] => some d
  | m :: ms => (d.move? m).bind (run? · ms)

/-- The bodies submitted, in order. -/
def submitted (ms : List Move) : List Job :=
  ms.filterMap fun
    | .submit j => some j
    | _ => none

variable {d d' d'' : Dispatcher} {m : Move} {ms : List Move}

theorem run?_append (ms ms' : List Move) : d.run? (ms ++ ms') = (d.run? ms).bind (run? · ms') := by
  induction ms generalizing d with
  | nil => rfl
  | cons m ms ih =>
    show (d.move? m).bind (run? · (ms ++ ms')) = ((d.move? m).bind (run? · ms)).bind (run? · ms')
    rw [Option.bind_assoc]
    exact congrArg (d.move? m).bind (funext fun _ => ih)

/-- What a move does: every way the two parties can touch what they share. -/
inductive Turn (d : Dispatcher) : Move → Dispatcher → Prop
  | pick {j rest} (hworker : d.worker = .ready) (hqueue : d.queue = j :: rest) :
    Turn d .work { d with queue := rest, worker := .running j }
  | finish {j} (hworker : d.worker = .running j) (hpasses : d.passes j = true) :
    Turn d .work { d with
      finished := d.finished ++ [j], worker := .reporting (failureOf j.result) }
  | report {failure} (hworker : d.worker = .reporting failure) :
    Turn d .work { d with error := d.error.or failure, worker := .counting }
  | count (hworker : d.worker = .counting) (hmore : d.inFlight ≠ 1) :
    Turn d .work { d with inFlight := d.inFlight - 1, worker := .ready }
  | countLast (hworker : d.worker = .counting) (hlast : d.inFlight = 1) :
    Turn d .work { d with inFlight := 0, worker := .signalling }
  | signal (hworker : d.worker = .signalling) :
    Turn d .work { d with signals := d.signals + 1, worker := .ready }
  | enqueue {j} (hrunner : d.runner = .queueing j) :
    Turn d .proceed { d with queue := d.queue ++ [j], runner := .idle }
  | seeNone (hrunner : d.runner = .checking) (hnone : d.inFlight = 0) :
    Turn d .proceed { d with runner := .swallowing }
  | seeSome (hrunner : d.runner = .checking) (hsome : d.inFlight ≠ 0) :
    Turn d .proceed { d with runner := .awaiting }
  | wake (hrunner : d.runner = .awaiting) (hsignal : d.signals ≠ 0) :
    Turn d .proceed { d with signals := d.signals - 1, runner := .checking }
  | swallow (hrunner : d.runner = .swallowing) (hsignal : d.signals ≠ 0) :
    Turn d .proceed { d with signals := d.signals - 1 }
  | release (hrunner : d.runner = .swallowing) (hnone : d.signals = 0) :
    Turn d .proceed { d with runner := .released }
  | submit (j) (hrunner : d.runner = .idle) : Turn d (.submit j) (d.beginSubmit j)
  | wait (hrunner : d.runner = .idle) : Turn d .wait d.beginWait
  | leave (hrunner : d.runner = .released) : Turn d .leave { d with runner := .idle }
  | giveUp (hrunner : d.runner = .awaiting) : Turn d .giveUp { d with runner := .idle }
  | take (hrunner : d.runner = .idle) : Turn d .take { d with error := none }
  | fence : Turn d .fence { d with gates := d.gates + 1 }
  | unlock : Turn d .unlock { d with opened := d.gates }

theorem turn_of_workerStep? (h : d.workerStep? = some d') : Turn d .work d' := by
  unfold workerStep? at h
  split at h
  · rename_i hworker
    split at h
    · cases h
    · rename_i hqueue
      cases h
      exact .pick hworker hqueue
  · rename_i hworker
    split at h
    · rename_i hpasses
      cases h
      exact .finish hworker hpasses
    · cases h
  · rename_i hworker
    cases h
    exact .report hworker
  · rename_i hworker
    cases h
    by_cases hlast : d.inFlight = 1
    · rw [if_pos hlast, show d.inFlight - 1 = 0 by omega]
      exact .countLast hworker hlast
    · rw [if_neg hlast]
      exact .count hworker hlast
  · rename_i hworker
    cases h
    exact .signal hworker

theorem turn_of_runnerStep? (h : d.runnerStep? = some d') : Turn d .proceed d' := by
  unfold runnerStep? at h
  split at h
  · cases h
  · rename_i hrunner
    cases h
    exact .enqueue hrunner
  · rename_i hrunner
    cases h
    by_cases hnone : d.inFlight = 0
    · rw [if_pos hnone]
      exact .seeNone hrunner hnone
    · rw [if_neg hnone]
      exact .seeSome hrunner hnone
  · rename_i hrunner
    split at h
    · cases h
    · rename_i hsignal
      cases h
      exact .wake hrunner hsignal
  · rename_i hrunner
    split at h
    · rename_i hnone
      cases h
      exact .release hrunner hnone
    · rename_i hsignal
      cases h
      exact .swallow hrunner hsignal
  · cases h

theorem turn_of_move? (h : d.move? m = some d') : Turn d m d' := by
  unfold move? at h
  split at h
  · exact turn_of_workerStep? h
  · exact turn_of_runnerStep? h
  · rename_i hrunner
    cases h
    exact .submit _ hrunner
  · rename_i hrunner
    cases h
    exact .wait hrunner
  · rename_i hrunner
    cases h
    exact .take hrunner
  · rename_i hrunner
    cases h
    exact .leave hrunner
  · rename_i hrunner
    cases h
    exact .giveUp hrunner
  · cases h
    exact .fence
  · cases h
    exact .unlock
  · cases h

theorem exists_turn_of_run? (h : d.run? (m :: ms) = some d'') :
    ∃ d', Turn d m d' ∧ d'.run? ms = some d'' := by
  obtain ⟨d', hmove, hrest⟩ := Option.bind_eq_some_iff.mp h
  exact ⟨d', turn_of_move? hmove, hrest⟩

/-- What all moves of a run keep, the run keeps. -/
theorem run?_induction {P : Dispatcher → Prop} (allowed : Move → Prop)
    (hturn : ∀ {d m d'}, allowed m → Turn d m d' → P d → P d') (hallowed : ∀ m ∈ ms, allowed m)
    (hd : P d) (hrun : d.run? ms = some d') : P d' := by
  induction ms generalizing d with
  | nil =>
    cases hrun
    exact hd
  | cons m ms ih =>
    obtain ⟨d₁, hfirst, hrest⟩ := exists_turn_of_run? hrun
    rw [List.forall_mem_cons] at hallowed
    exact ih hallowed.2 (hturn hallowed.1 hfirst hd) hrest

/-! ### Bodies in order -/

/-- The bodies that the worker has still to finish, the one that it runs first. -/
def left (d : Dispatcher) : List Job := d.worker.body?.toList ++ d.queue

/-- All bodies, wherever they are by now. -/
def bodies (d : Dispatcher) : List Job := d.finished ++ d.left ++ d.runner.body?.toList

/-- A submission adds a body at the end, and no move changes their order. -/
theorem Turn.bodies (h : Turn d m d') : d'.bodies = d.bodies ++ submitted [m] := by
  cases h with
  | pick hworker hqueue =>
    simp [Dispatcher.bodies, left, submitted, WorkerPhase.body?, hworker, hqueue]
  | finish hworker | report hworker | count hworker | countLast hworker | signal hworker =>
    simp [Dispatcher.bodies, left, submitted, WorkerPhase.body?, hworker]
  | enqueue hrunner | seeNone hrunner | seeSome hrunner | wake hrunner | release hrunner
  | leave hrunner | giveUp hrunner =>
    simp [Dispatcher.bodies, left, submitted, RunnerPhase.body?, hrunner]
  | submit j hrunner =>
    simp [Dispatcher.bodies, left, submitted, beginSubmit, RunnerPhase.body?, hrunner]
  | wait hrunner => simp [Dispatcher.bodies, left, submitted, beginWait, RunnerPhase.body?, hrunner]
  | swallow | take | fence | unlock => exact (List.append_nil _).symm

theorem bodies_run? (hrun : d.run? ms = some d') : d'.bodies = d.bodies ++ submitted ms := by
  induction ms generalizing d with
  | nil =>
    cases hrun
    exact (List.append_nil _).symm
  | cons m ms ih =>
    obtain ⟨d₁, hfirst, hrest⟩ := exists_turn_of_run? hrun
    rw [ih hrest, hfirst.bodies, List.append_assoc]
    exact congrArg (d.bodies ++ ·) (List.filterMap_append (l := [m])).symm

/-! ### The count and the signals -/

/-- The bodies that are not counted off. -/
def load (d : Dispatcher) : Nat :=
  d.worker.isBusy.toNat + d.queue.length + d.runner.body?.toList.length

structure Kept (d : Dispatcher) : Prop where
  count : d.inFlight = d.load
  /-- A failure on the way to the slot is that of the body finished last. -/
  ending : ∀ failure, d.worker = .reporting failure →
    ∃ before j, d.finished = before ++ [j] ∧ failure = j.failure?
  awake : d.runner = .awaiting → d.signals = 0 → d.inFlight = 0 → d.worker = .signalling
  clear : d.runner = .swallowing ∨ d.runner = .released → d.inFlight = 0

theorem Kept.new : Kept new where
  count := rfl
  ending _ h := by cases h
  awake h := by cases h
  clear h := by rcases h with h | h <;> cases h

theorem Turn.inFlight_eq (h : Turn d m d') (hd : d.inFlight = d.load) : d'.inFlight = d'.load := by
  unfold load at hd ⊢
  cases h with
  | pick hworker hqueue =>
    simp only [WorkerPhase.isBusy, hworker, hqueue, List.length_cons, Bool.toNat_false,
      Bool.toNat_true] at hd ⊢
    omega
  | finish hworker | report hworker | count hworker | countLast hworker | signal hworker =>
    simp only [WorkerPhase.isBusy, hworker, Bool.toNat_false, Bool.toNat_true] at hd ⊢
    omega
  | enqueue hrunner =>
    simp only [RunnerPhase.body?, hrunner, Option.toList_some, Option.toList_none, List.length_append,
      List.length_cons, List.length_nil] at hd ⊢
    omega
  | seeNone hrunner | seeSome hrunner | wake hrunner | release hrunner | leave hrunner
  | giveUp hrunner =>
    simpa [RunnerPhase.body?, hrunner] using hd
  | submit j hrunner => simpa [beginSubmit, RunnerPhase.body?, hrunner] using hd
  | wait hrunner => simpa [beginWait, RunnerPhase.body?, hrunner] using hd
  | swallow | take | fence | unlock => exact hd

theorem Turn.ending (h : Turn d m d')
    (hd : ∀ failure, d.worker = .reporting failure →
      ∃ before j, d.finished = before ++ [j] ∧ failure = j.failure?) :
    ∀ failure, d'.worker = .reporting failure →
      ∃ before j, d'.finished = before ++ [j] ∧ failure = j.failure? := by
  intro failure hfailure
  cases h with
  | pick | report | count | countLast | signal => cases hfailure
  | finish =>
    cases hfailure
    exact ⟨_, _, rfl, rfl⟩
  | _ => exact hd failure hfailure

/-- Nothing that happens while the runner waits leaves it without a signal to come. -/
theorem Turn.awake (h : Turn d m d')
    (hd : d.runner = .awaiting → d.signals = 0 → d.inFlight = 0 → d.worker = .signalling) :
    d'.runner = .awaiting → d'.signals = 0 → d'.inFlight = 0 → d'.worker = .signalling := by
  intro hrunner' hsignals hcount
  cases h with
  | pick hworker | finish hworker | report hworker =>
    cases hworker.symm.trans (hd hrunner' hsignals hcount)
  | count hworker hmore =>
    have hnone : d.inFlight = 0 := by
      have hone : d.inFlight - 1 = 0 := hcount
      omega
    cases hworker.symm.trans (hd hrunner' hsignals hnone)
  | countLast => rfl
  | signal => cases hsignals
  | seeSome _ hsome => exact absurd hcount hsome
  | swallow hrunner => cases hrunner.symm.trans hrunner'
  | take | fence | unlock => exact hd hrunner' hsignals hcount
  | enqueue | seeNone | wake | release | submit | wait | leave | giveUp => cases hrunner'

theorem Turn.clear (h : Turn d m d')
    (hd : d.runner = .swallowing ∨ d.runner = .released → d.inFlight = 0) :
    d'.runner = .swallowing ∨ d'.runner = .released → d'.inFlight = 0 := by
  intro hrunner'
  cases h with
  | count =>
    show d.inFlight - 1 = 0
    rw [hd hrunner']
  | countLast => rfl
  | seeNone _ hnone => exact hnone
  | release hrunner => exact hd (.inl hrunner)
  | pick | finish | report | signal | swallow | take | fence | unlock => exact hd hrunner'
  | enqueue | seeSome | wake | submit | wait | leave | giveUp =>
    rcases hrunner' with hrunner' | hrunner' <;> cases hrunner'

theorem Kept.turn (h : Kept d) (hturn : Turn d m d') : Kept d' :=
  ⟨hturn.inFlight_eq h.count, hturn.ending h.ending, hturn.awake h.awake, hturn.clear h.clear⟩

theorem Kept.run (h : Kept d) (hrun : d.run? ms = some d') : Kept d' :=
  run?_induction (fun _ => True) (fun _ hturn hd => hd.turn hturn) (fun _ _ => trivial) h hrun

/-- When nothing is in flight, every body has finished and its end is recorded. -/
theorem Kept.at_rest (h : Kept d) (hnone : d.inFlight = 0) :
    d.worker.isBusy = false ∧ d.finished = d.bodies := by
  have hload := h.count.symm.trans hnone
  unfold load at hload
  have hbusy : d.worker.isBusy = false := by
    cases hbusy : d.worker.isBusy with
    | false => rfl
    | true =>
      rw [hbusy, Bool.toNat_true] at hload
      omega
  have hqueue : d.queue = [] := List.length_eq_zero_iff.mp (by omega)
  have hrunner : d.runner.body?.toList = [] := List.length_eq_zero_iff.mp (by omega)
  have hworker : d.worker.body? = none := by
    cases hworker : d.worker <;> simp [hworker, WorkerPhase.isBusy, WorkerPhase.body?] at hbusy ⊢
  exact ⟨hbusy, by simp [bodies, left, hqueue, hrunner, hworker]⟩

/-- Only a submission raises the count. -/
theorem Turn.inFlight_le (h : Turn d m d') (hm : ∀ j, m ≠ .submit j) : d'.inFlight ≤ d.inFlight := by
  cases h with
  | count => exact Nat.sub_le _ _
  | countLast => exact Nat.zero_le _
  | submit j => exact absurd rfl (hm j)
  | _ => exact Nat.le_refl _

/-! ### The slot -/

/-- The finished bodies whose end the worker has recorded in the slot. -/
def recorded (d : Dispatcher) : List Job :=
  match d.worker with
  | .reporting _ => d.finished.dropLast
  | _ => d.finished

/-- The slot has the first failure among the bodies recorded after the first `k`. -/
structure Holds (k : Nat) (d : Dispatcher) : Prop where
  le : k ≤ d.recorded.length
  error : d.error = (d.recorded.drop k).findSome? Job.failure?

/-- A move records at most one body, and the slot takes its failure if it has none. -/
theorem Turn.records (h : Turn d m d') (hd : Kept d) (hm : m ≠ .take) :
    d'.recorded = d.recorded ∧ d'.error = d.error ∨
      ∃ j, d'.recorded = d.recorded ++ [j] ∧ d'.error = d.error.or j.failure? := by
  cases h with
  | pick hworker | finish hworker | count hworker | countLast hworker | signal hworker =>
    exact .inl ⟨by simp [recorded, hworker], rfl⟩
  | report hworker =>
    obtain ⟨before, j, hfinished, rfl⟩ := hd.ending _ hworker
    exact .inr ⟨j, by simp [recorded, hworker, hfinished], rfl⟩
  | take => exact absurd rfl hm
  | _ => exact .inl ⟨rfl, rfl⟩

theorem Holds.turn {k : Nat} (h : Holds k d) (hturn : Turn d m d') (hd : Kept d) (hm : m ≠ .take) :
    Holds k d' := by
  rcases hturn.records hd hm with ⟨hrecorded, herror⟩ | ⟨j, hrecorded, herror⟩
  · exact ⟨hrecorded ▸ h.le, by rw [hrecorded, herror, h.error]⟩
  · refine ⟨?_, ?_⟩
    · rw [hrecorded, List.length_append]
      exact Nat.le_add_right_of_le h.le
    · rw [hrecorded, List.drop_append_of_le_length h.le, List.findSome?_append, herror, h.error]
      simp

theorem Holds.run {k : Nat} (h : Holds k d) (hd : Kept d) (hms : ∀ m ∈ ms, m ≠ .take)
    (hrun : d.run? ms = some d') : Holds k d' := by
  have hboth : Kept d' ∧ Holds k d' :=
    run?_induction (P := fun d => Kept d ∧ Holds k d) (· ≠ .take)
      (fun hm hturn hd => ⟨hd.1.turn hturn, hd.2.turn hturn hd.1 hm⟩) hms ⟨hd, h⟩ hrun
  exact hboth.2

/-- Once the slot is empty it tells of what is recorded from then on. -/
theorem holds_of_empty (h : d.error = none) : Holds d.recorded.length d :=
  ⟨Nat.le_refl _, by rw [h, List.drop_length]; rfl⟩

theorem recorded_of_not_busy (h : d.worker.isBusy = false) : d.recorded = d.finished := by
  unfold recorded
  split
  · rename_i hworker
    rw [hworker] at h
    cases h
  · rfl

end Dispatcher

end Interleave
