/-
# The barrier of the dispatcher

A runner that waits gets past the barrier when all bodies it submitted have finished,
and it does get past unless a body does not end: it never sleeps through the last signal
(`Dispatcher.Kept.live`). Behind the barrier nothing is in flight
(`Dispatcher.Returned.inFlight`), and the slot has the first failure among the bodies since
the last look.

The worker and the waiting runner go on as long as they can; a measure bounds the steps of
each, so that the fuel given to them suffices (`Dispatcher.workerStep?_settle`,
`Dispatcher.Kept.await_iff`). All of this holds after every sequence of moves
(`Dispatcher.barrier_kept`).
-/
import Interleave.Proofs.Dispatch

namespace Interleave

namespace Dispatcher

variable {d d' d'' : Dispatcher} {ms : List Move}

/-! ### Going on until there is nothing to do -/

section

variable {step? : Dispatcher → Option Dispatcher}

/-- With more fuel than the measure allows steps, a party goes on until it has to wait. -/
theorem step?_advance (measure : Dispatcher → Nat)
    (hstep : ∀ {d d'}, step? d = some d' → measure d' < measure d) :
    ∀ (fuel : Nat) (d : Dispatcher), measure d < fuel → step? (advance step? fuel d) = none
  | 0, _, h => absurd h (Nat.not_lt_zero _)
  | fuel + 1, d, h => by
    unfold advance
    split
    · assumption
    · rename_i d' hd'
      exact step?_advance measure hstep fuel d' (by have := hstep hd'; omega)

/-- What every step keeps. -/
theorem advance_induction {P : Dispatcher → Prop} (hstep : ∀ {d d'}, step? d = some d' → P d → P d') :
    ∀ (fuel : Nat) {d : Dispatcher}, P d → P (advance step? fuel d)
  | 0, _, hd => hd
  | fuel + 1, d, hd => by
    unfold advance
    split
    · exact hd
    · rename_i d' hd'
      exact advance_induction hstep fuel (hstep hd' hd)

/-- The steps of a party are moves. -/
theorem exists_run?_advance (m : Move) (hstep : ∀ d, d.move? m = step? d) :
    ∀ (fuel : Nat) (d : Dispatcher), ∃ n, d.run? (List.replicate n m) = some (advance step? fuel d)
  | 0, d => ⟨0, rfl⟩
  | fuel + 1, d => by
    unfold advance
    split
    · exact ⟨0, rfl⟩
    · rename_i d' hd'
      obtain ⟨n, hn⟩ := exists_run?_advance m hstep fuel d'
      refine ⟨n + 1, ?_⟩
      rw [List.replicate_succ, run?, hstep, hd']
      exact hn

end

/-- Bounds the steps of the worker. -/
def toil (d : Dispatcher) : Nat :=
  5 * d.queue.length + match d.worker with
    | .ready => 0
    | .running _ => 4
    | .reporting _ => 3
    | .counting => 2
    | .signalling => 1

theorem toil_lt (h : d.workerStep? = some d') : d'.toil < d.toil := by
  unfold toil
  cases turn_of_workerStep? h with
  | pick hworker hqueue =>
    simp [hworker, hqueue]
    omega
  | finish hworker | report hworker | count hworker | countLast hworker | signal hworker =>
    simp [hworker]

theorem workerStep?_settle (d : Dispatcher) : d.settle.workerStep? = none := by
  refine step?_advance toil toil_lt _ d ?_
  unfold toil
  cases d.worker <;> simp <;> omega

/-- The worker has to wait for want of bodies, or in a body that does not end. -/
theorem workerStep?_eq_none (h : d.workerStep? = none) :
    d.worker = .ready ∧ d.queue = [] ∨ ∃ j, d.worker = .running j ∧ d.passes j = false := by
  unfold workerStep? at h
  split at h
  · rename_i hworker
    split at h
    · rename_i hqueue
      exact .inl ⟨hworker, hqueue⟩
    · cases h
  · rename_i j hworker
    split at h
    · cases h
    · rename_i hpasses
      exact .inr ⟨j, hworker, Bool.eq_false_iff.mpr hpasses⟩
  · cases h
  · cases h
  · cases h

/-- The worker finishes bodies from the front of those left to it. -/
structure Serves (d d' : Dispatcher) : Prop where
  moved : ∃ done, d'.finished = d.finished ++ done ∧ d.left = done ++ d'.left
  runner : d'.runner = d.runner
  opened : d'.opened = d.opened

theorem Serves.step (h : Serves d d') (hstep : d'.workerStep? = some d'') : Serves d d'' := by
  obtain ⟨done, hfinished, hleft⟩ := h.moved
  unfold left at hleft
  cases turn_of_workerStep? hstep with
  | pick hworker hqueue =>
    refine ⟨⟨done, hfinished, ?_⟩, h.runner, h.opened⟩
    simpa [left, WorkerPhase.body?, hworker, hqueue] using hleft
  | @finish j hworker =>
    refine ⟨⟨done ++ [j], ?_, ?_⟩, h.runner, h.opened⟩
    · simp [hfinished]
    · simpa [left, WorkerPhase.body?, hworker] using hleft
  | report hworker | count hworker | countLast hworker | signal hworker =>
    refine ⟨⟨done, hfinished, ?_⟩, h.runner, h.opened⟩
    simpa [left, WorkerPhase.body?, hworker] using hleft

theorem serves_settle (d : Dispatcher) : Serves d d.settle :=
  advance_induction (fun hstep h => Serves.step h hstep) _
    ⟨⟨[], (List.append_nil _).symm, rfl⟩, rfl, rfl⟩

/-- Left to itself the worker runs all bodies left, however they end, if only they end. -/
theorem finished_settle (h : ∀ j ∈ d.left, d.passes j = true) :
    d.settle.finished = d.finished ++ d.left := by
  have hserves := serves_settle d
  obtain ⟨done, hfinished, hleft⟩ := hserves.moved
  rw [hfinished, hleft]
  rcases workerStep?_eq_none d.workerStep?_settle with ⟨hworker, hqueue⟩ | ⟨j, hworker, hblocked⟩
  · simp [left, WorkerPhase.body?, hworker, hqueue]
  · have hmem : j ∈ d.left := by
      rw [hleft]
      simp [left, WorkerPhase.body?, hworker]
    have hpasses : d.settle.passes j = d.passes j := by
      unfold passes
      rw [hserves.opened]
    cases (h j hmem).symm.trans (hpasses.symm.trans hblocked)

/-! ### Waiting -/

/-- Bounds the steps of a wait. -/
def patience (d : Dispatcher) : Nat :=
  match d.runner with
  | .idle | .released => 0
  | .queueing _ => 1
  | .swallowing => d.signals + 1
  | .awaiting => 2 * d.signals + 1
  | .checking => 2 * d.signals + 2

theorem patience_lt (h : d.runnerStep? = some d') : d'.patience < d.patience := by
  unfold patience
  cases turn_of_runnerStep? h with
  | enqueue hrunner | seeSome hrunner | release hrunner => simp [hrunner]
  | seeNone hrunner | wake hrunner | swallow hrunner =>
    simp [hrunner]
    omega

/-- The state in which a wait ends, or its time. -/
def waited (d : Dispatcher) : Dispatcher :=
  advance runnerStep? (d.signals * 3 + 3) d.settle.beginWait

theorem await_snd (d : Dispatcher) : d.await.2 = { d.waited with runner := .idle } := by
  unfold await waited
  dsimp only
  split <;> rfl

theorem await_eq_ok_iff (d : Dispatcher) : d.await.1 = .ok () ↔ d.waited.runner = .released := by
  unfold await waited
  dsimp only
  split
  · rename_i hrunner
    exact iff_of_true rfl hrunner
  · rename_i hrunner
    exact iff_of_false (fun h => by cases h) hrunner

/-- A wait is a run, of the worker first and then of the runner. -/
theorem exists_run?_waited (hidle : d.runner = .idle) :
    ∃ n k, d.run? (List.replicate n .work ++ .wait :: List.replicate k .proceed) = some d.waited := by
  obtain ⟨n, hwork⟩ := exists_run?_advance .work (fun _ => rfl) (5 * (d.queue.length + 1)) d
  obtain ⟨k, hwait⟩ :=
    exists_run?_advance .proceed (fun _ => rfl) (d.signals * 3 + 3) d.settle.beginWait
  have hbegin : d.settle.move? .wait = some d.settle.beginWait := by
    unfold move?
    rw [(serves_settle d).runner, hidle]
  refine ⟨n, k, ?_⟩
  rw [run?_append, hwork]
  show (d.settle.move? .wait).bind (run? · _) = some d.waited
  rw [hbegin]
  exact hwait

/-- A runner in a wait, or at its end, that touches nothing but the signals. -/
structure Waits (d d' : Dispatcher) : Prop where
  runner : d'.runner.isWaiting = true ∨ d'.runner = .released
  worker : d'.worker = d.worker
  inFlight : d'.inFlight = d.inFlight

theorem Waits.step (h : Waits d d') (hstep : d'.runnerStep? = some d'') : Waits d d'' := by
  cases turn_of_runnerStep? hstep with
  | enqueue hrunner =>
    have hphase := h.runner
    rw [hrunner] at hphase
    rcases hphase with hphase | hphase <;> cases hphase
  | seeNone | seeSome | wake => exact ⟨.inl rfl, h.worker, h.inFlight⟩
  | swallow => exact ⟨h.runner, h.worker, h.inFlight⟩
  | release => exact ⟨.inr rfl, h.worker, h.inFlight⟩

theorem waits_waited (d : Dispatcher) : Waits d.settle d.waited :=
  advance_induction (fun hstep h => Waits.step h hstep) _ ⟨.inl rfl, rfl, rfl⟩

/-- A waiting runner that cannot go on is waiting for a signal. -/
theorem runnerStep?_eq_none (hrunner : d.runner.isWaiting = true) (h : d.runnerStep? = none) :
    d.runner = .awaiting ∧ d.signals = 0 := by
  unfold runnerStep? at h
  split at h
  all_goals rename_i hphase
  · rw [hphase] at hrunner
    cases hrunner
  · cases h
  · cases h
  · split at h
    · rename_i hnone
      exact ⟨hphase, hnone⟩
    · cases h
  · split at h <;> cases h
  · rw [hphase] at hrunner
    cases hrunner

/-- Runner and worker do not wait for each other. -/
theorem Kept.live (h : Kept d) (hrunner : d.runner.isWaiting = true) (hwait : d.runnerStep? = none)
    (hwork : d.workerStep? = none) : ∃ j, d.worker = .running j ∧ d.passes j = false := by
  obtain ⟨hawaiting, hnone⟩ := runnerStep?_eq_none hrunner hwait
  refine (workerStep?_eq_none hwork).resolve_left fun hidle => ?_
  obtain ⟨hready, hqueue⟩ := hidle
  have hcount : d.inFlight = 0 := by
    rw [h.count, load, hready, hqueue, hawaiting]
    rfl
  cases hready.symm.trans (h.awake hawaiting hnone hcount)

/-- With the worker at rest, a wait succeeds exactly when all bodies have finished. -/
theorem Kept.await_iff (h : Kept d) (hidle : d.runner = .idle) (hrest : d.workerStep? = none) :
    d.await.1 = .ok () ↔ d.finished = d.bodies := by
  have hsettle : d.settle = d := by
    unfold settle
    rw [Nat.mul_add, advance, hrest]
  have hwaits := waits_waited d
  rw [hsettle] at hwaits
  obtain ⟨n, k, hrun⟩ := exists_run?_waited hidle
  have hwaited := h.run hrun
  rw [await_eq_ok_iff]
  constructor
  · intro hreleased
    have hnone := hwaits.inFlight.symm.trans (hwaited.clear (.inr hreleased))
    exact (h.at_rest hnone).2
  · intro hall
    have hstuck : d.waited.runnerStep? = none := by
      refine step?_advance patience patience_lt _ _ ?_
      show 2 * d.settle.signals + 2 < d.signals * 3 + 3
      rw [hsettle]
      omega
    refine hwaits.runner.resolve_left fun hwaiting => ?_
    obtain ⟨hawaiting, hsignals⟩ := runnerStep?_eq_none hwaiting hstuck
    -- nothing is left, so the worker has no signal to send either
    have hleft : d.left = [] := by
      have hnothing : d.left ++ d.runner.body?.toList = [] :=
        List.self_eq_append_right.mp (by rw [← List.append_assoc]; exact hall)
      exact (List.append_eq_nil_iff.mp hnothing).1
    rcases workerStep?_eq_none hrest with ⟨hready, hqueue⟩ | ⟨j, hrunning, -⟩
    · have hcount : d.waited.inFlight = 0 := by
        rw [hwaits.inFlight, h.count, load, hready, hqueue, hidle]
        rfl
      have hsignalling := hwaited.awake hawaiting hsignals hcount
      cases hready.symm.trans (hwaits.worker.symm.trans hsignalling)
    · rw [left, hrunning] at hleft
      cases hleft

/-! ### What is promised -/

/-- A wait has returned since the last submission. -/
def Returned (ms : List Move) : Prop :=
  ∃ before after, ms = before ++ .leave :: after ∧ submitted after = []

/-- What holds in the state `d` that the moves `ms` lead to. -/
structure Promises (ms : List Move) (d : Dispatcher) : Prop where
  /-- The bodies finish in the order of submission, and the worker runs the next one only. -/
  inOrder : submitted ms =
    d.finished ++ (d.worker.body?.toList ++ d.queue) ++ d.runner.body?.toList
  /-- However bodies end, the worker goes on to run all that are queued, if only they end. -/
  served : (∀ j ∈ d.worker.body?.toList ++ d.queue, d.passes j = true) →
    d.settle.finished = d.finished ++ (d.worker.body?.toList ++ d.queue)
  complete : Returned ms → d.finished = submitted ms
  awake : ¬ (d.runner = .awaiting ∧ d.signals = 0 ∧ d.inFlight = 0 ∧ d.worker ≠ .signalling)
  /-- A wait comes to a halt in a body that does not end, and nowhere else. -/
  live : d.runner.isWaiting = true → d.runnerStep? = none → d.workerStep? = none →
    ∃ j, d.worker = .running j ∧ d.passes j = false
  /-- The error taken is that of the first failing body not recorded when it was last taken. If
  nothing was in flight then, these are the bodies submitted since. -/
  first : Returned ms → ∀ before since d₀, ms = before ++ since →
    (before = [] ∨ ∃ earlier, before = earlier ++ [.take]) → (∀ m ∈ since, m ≠ .take) →
    new.run? before = some d₀ →
      d.collectError.1 = ((submitted ms).drop d₀.recorded.length).findSome? Job.failure? ∧
      (d₀.inFlight = 0 → d.collectError.1 = (submitted since).findSome? Job.failure?)
  /-- `await` is a wait of this kind, and with the worker at rest it returns if it can. -/
  await : d.runner = .idle →
    (d.await.1 = .ok () → ∃ more, new.run? (ms ++ more) = some d.await.2 ∧ Returned more ∧
      submitted more = [] ∧ ∀ m ∈ more, m ≠ .take) ∧
    (d.workerStep? = none → (d.await.1 = .ok () ↔ d.finished = submitted ms))

theorem submitted_append (ms ms' : List Move) :
    submitted (ms ++ ms') = submitted ms ++ submitted ms' := List.filterMap_append

theorem bodies_of_run? (hrun : new.run? ms = some d) : d.bodies = submitted ms := bodies_run? hrun

/-- Between the return of a wait and the next submission nothing is in flight. -/
theorem Returned.inFlight (h : Returned ms) (hrun : new.run? ms = some d) : d.inFlight = 0 := by
  obtain ⟨before, after, rfl, hafter⟩ := h
  rw [run?_append] at hrun
  obtain ⟨d₁, hbefore, hrun⟩ := Option.bind_eq_some_iff.mp hrun
  obtain ⟨d₂, hleave, hrest⟩ := exists_turn_of_run? hrun
  have hnone : d₂.inFlight = 0 := by
    cases hleave with
    | leave hrunner => exact (Kept.new.run hbefore).clear (.inr hrunner)
  refine run?_induction (P := fun d => d.inFlight = 0) (fun m => ∀ j, m ≠ .submit j)
    (fun hm hturn hd => Nat.le_zero.mp (hd ▸ hturn.inFlight_le hm)) ?_ hnone hrest
  rintro m hm j rfl
  have hsubmitted : j ∈ submitted after := List.mem_filterMap.mpr ⟨_, hm, rfl⟩
  rw [hafter] at hsubmitted
  cases hsubmitted

theorem error_of_take (hrun : d.run? (ms ++ [.take]) = some d') : d'.error = none := by
  rw [run?_append] at hrun
  obtain ⟨d₁, -, hrun⟩ := Option.bind_eq_some_iff.mp hrun
  obtain ⟨d₂, htake, hrest⟩ := exists_turn_of_run? hrun
  cases hrest
  cases htake
  rfl

/-- All recorded bodies, once nothing is in flight. -/
theorem recorded_of_run? (hrun : new.run? ms = some d) (hnone : d.inFlight = 0) :
    d.recorded = submitted ms := by
  obtain ⟨hbusy, hfinished⟩ := (Kept.new.run hrun).at_rest hnone
  rw [recorded_of_not_busy hbusy, hfinished, bodies_of_run? hrun]

/-- What the slot holds after a wait has returned. -/
theorem error_of_returned {before since : List Move} {d₀ : Dispatcher}
    (hreturned : Returned (before ++ since)) (hempty : d₀.error = none)
    (hsince : ∀ m ∈ since, m ≠ .take) (hbefore : new.run? before = some d₀)
    (hrun : new.run? (before ++ since) = some d) :
    d.error = ((submitted (before ++ since)).drop d₀.recorded.length).findSome? Job.failure? := by
  have hrest : d₀.run? since = some d := by
    rw [run?_append, hbefore] at hrun
    exact hrun
  have hholds := (holds_of_empty hempty).run (Kept.new.run hbefore) hsince hrest
  rw [hholds.error, recorded_of_run? hrun (hreturned.inFlight hrun)]

/-- **The barrier holds and the first error is captured**, in whatever order runner and worker take
their turns, however bodies end and whatever signals are left over. -/
theorem barrier_kept (hrun : new.run? ms = some d) : Promises ms d where
  inOrder := (bodies_of_run? hrun).symm
  served := finished_settle
  complete h := by
    rw [← bodies_of_run? hrun]
    exact ((Kept.new.run hrun).at_rest (h.inFlight hrun)).2
  awake := by
    rintro ⟨hrunner, hsignals, hcount, hworker⟩
    exact hworker ((Kept.new.run hrun).awake hrunner hsignals hcount)
  live := (Kept.new.run hrun).live
  first := by
    rintro hreturned before since d₀ rfl hlast hsince hbefore
    have hempty : d₀.error = none := by
      rcases hlast with rfl | ⟨earlier, rfl⟩
      · cases hbefore
        rfl
      · exact error_of_take hbefore
    have herror := error_of_returned hreturned hempty hsince hbefore hrun
    refine ⟨herror, fun hnone => herror.trans ?_⟩
    rw [submitted_append, recorded_of_run? hbefore hnone, List.drop_left]
  await := by
    intro hidle
    have hbodies := bodies_of_run? hrun
    refine ⟨fun hok => ?_, fun hrest => hbodies ▸ (Kept.new.run hrun).await_iff hidle hrest⟩
    obtain ⟨n, k, hwaited⟩ := exists_run?_waited hidle
    have hleave : d.waited.move? .leave = some d.await.2 := by
      unfold move?
      rw [(await_eq_ok_iff d).mp hok, await_snd]
    refine ⟨List.replicate n .work ++ .wait :: List.replicate k .proceed ++ [.leave], ?_, ?_, ?_, ?_⟩
    · rw [run?_append, hrun, Option.bind_some, run?_append, hwaited]
      show (d.waited.move? .leave).bind (run? · []) = _
      rw [hleave]
      rfl
    · exact ⟨_, [], rfl, rfl⟩
    · simp [submitted]
    · rintro m hm rfl
      simp at hm

/-- A signal of the first body is left over when two failing bodies follow a fine one. It wakes the
runner too early, which goes back to waiting; behind the barrier it finds the earlier of the two
errors. -/
theorem barrier_kept_stale :
    let job : Except Abort Unit → Job := fun result => ⟨none, result, none⟩
    let early := job (.error .timeout)
    let fine := job (.ok ())
    let bad := job (.error (.panic (.raised none)))
    let worse := job (.error .dispatcherClosed)
    let before : List Move := [.submit early, .proceed] ++ List.replicate 5 .work ++ [.take]
    let since : List Move :=
      [.submit fine, .proceed, .submit bad, .proceed, .submit worse, .proceed, .wait] ++
        List.replicate 3 .proceed ++ List.replicate 13 .work ++ List.replicate 3 .proceed ++ [.leave]
    ∃ d, new.run? (before ++ since) = some d ∧ d.finished = [early, fine, bad, worse] ∧
      d.collectError.1 = some (.panic (.raised none)) := by
  intro job early fine bad worse before since
  obtain ⟨d, hrun⟩ : ∃ d, new.run? (before ++ since) = some d := ⟨_, rfl⟩
  obtain ⟨d₀, hbefore⟩ : ∃ d₀, new.run? before = some d₀ := ⟨_, rfl⟩
  have hkept := barrier_kept hrun
  have hreturned : Returned (before ++ since) :=
    ⟨before ++ since.dropLast, [], rfl, rfl⟩
  have hnone : d₀.inFlight = 0 := by
    cases hbefore
    rfl
  have hfirst := hkept.first hreturned before since d₀ rfl (.inr ⟨before.dropLast, rfl⟩)
    (by simp [since]) hbefore
  exact ⟨d, hrun, hkept.complete hreturned, hfirst.2 hnone⟩

end Dispatcher

end Interleave
