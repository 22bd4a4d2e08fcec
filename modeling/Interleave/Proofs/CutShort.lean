/-
# Iterations cut short

A task that fails is not recorded among the executed ones. So an iteration that
is cut short leaves a schedule of tasks that succeeded, and either one task more
that failed or, with nothing pending, a failure at the end of the scenario
(`Iteration.cutOff_of_walk`).

A replay of the recorded tasks drains the pending ones by ascending number next.
It comes back to the failing task if that has the lowest number, and may pass it
by in another state if not. With the failing task at the end of its path a replay
always comes back to the failure (`Explorer.reproduces_cut_short`).
-/
import Interleave.Proofs.Reached
import Interleave.Proofs.Replay
import Interleave.Sample.Script

namespace Interleave

variable {F σ μ : Type} {c : Cluster σ μ}

/-- What an exploring iteration executes next: an eligible task, or the one with the lowest number
when it drains. -/
def Rule.driven (order : DeliveryOrder) : Rule := fun finished pending t =>
  eligible order finished pending t ∨ lowest finished pending t

/-! ### Tasks that fail -/

theorem Step.advance_of_get? {id : TaskId} {t : Task μ} {w : World σ μ}
    (h : w.pending.get? id = some t) : Step.advance c id w =
      match Step.execute c t { w with pending := w.pending.erase id } with
      | (.ok (), w') => (.ok t, w')
      | (.error e, w') => (.error e, w') := by
  have htake : w.pending.take id = some (t, w.pending.erase id) := by
    simp [Pending.take, h]
  unfold Step.advance
  rw [Attempt.get_bind, htake]
  simp only [Attempt.modify_bind]
  rw [Attempt.bind_apply]
  rcases Step.execute c t { w with pending := w.pending.erase id } with ⟨e | u, w'⟩ <;> rfl

/-- A pending task that the rule allows next fails with `e`, which leaves state `w'`. -/
structure Fails (c : Cluster σ μ) (rule : Rule) (finished : Option TaskView) (w : World σ μ)
    (t : Task μ) (e : Abort) (w' : World σ μ) : Prop where
  pending : w.pending.get? t.id = some t
  allowed : rule finished w.pending.views t.view
  run : Step.advance c t.id w = (.error e, w')

/-- Tasks `ts` are executed as the rule allows, and then task `t` fails. -/
def Falters (c : Cluster σ μ) (rule : Rule) (finished : Option TaskView) (w : World σ μ)
    (ts : List (Task μ)) (t : Task μ) (e : Abort) (w' : World σ μ) : Prop :=
  ∃ w₁, Schedule c rule finished w ts w₁ ∧ Fails c rule (finishedBy finished ts) w₁ t e w'

/-- Tasks `ts` are executed as the rule allows, no fewer than there is time for, and more are
pending. -/
structure Exceeds (c : Cluster σ μ) (rule : Rule) (finished : Option TaskView) (time : Nat)
    (w : World σ μ) (ts : List (Task μ)) (w' : World σ μ) : Prop where
  schedule : Schedule c rule finished w ts w'
  spent : time ≤ ts.length
  pending : w'.pending.isEmpty = false

namespace Fails

variable {rule rule' : Rule} {finished : Option TaskView} {w w' v : World σ μ} {t : Task μ}
  {e : Abort}

/-- The task with the number asked for is the one that fails. -/
theorem of_get? {id : TaskId} (hget : w.pending.get? id = some t)
    (hrun : Step.advance c id w = (.error e, w'))
    (hallowed : t.id = id → rule finished w.pending.views t.view) :
    Fails c rule finished w t e w' := by
  have hid : t.id = id := by simpa using List.find?_some hget
  subst hid
  exact ⟨hget, hallowed rfl, hrun⟩

theorem mono (h : Fails c rule finished w t e w')
    (hrule : ∀ pending u, rule finished pending u → rule' finished pending u) :
    Fails c rule' finished w t e w' := ⟨h.pending, hrule _ _ h.allowed, h.run⟩

theorem forget (hc : c.registry.Deterministic) (h : Fails c rule finished w t e w') :
    Fails c rule finished w.forget t e w'.forget := by
  refine ⟨h.pending, h.allowed, ?_⟩
  rw [Step.forgetful_advance hc, h.run]

theorem transport (hc : c.registry.Deterministic) (h : Fails c rule finished w t e w')
    (hv : v.forget = w.forget) : ∃ v', Fails c rule finished v t e v' ∧ v'.forget = w'.forget := by
  obtain ⟨v', hrun, hv'⟩ := (Step.forgetful_advance hc _).transport h.run hv
  have hpending : v.pending = w.pending :=
    (congrArg World.pending hv : v.forget.pending = w.forget.pending)
  exact ⟨v', ⟨hpending ▸ h.pending, hpending ▸ h.allowed, hrun⟩, hv'⟩

end Fails

namespace Falters

variable {rule rule' : Rule} {finished : Option TaskView} {w w₁ w' v : World σ μ} {t u : Task μ}
  {ts : List (Task μ)} {e : Abort}

theorem nil (h : Fails c rule finished w t e w') : Falters c rule finished w [] t e w' :=
  ⟨w, .nil _ _, h⟩

theorem cons (allowed : rule finished w.pending.views u.view)
    (done : Step.advance c u.id w = (.ok u, w₁)) (rest : Falters c rule (some u.view) w₁ ts t e w') :
    Falters c rule finished w (u :: ts) t e w' := by
  obtain ⟨w₂, hschedule, hfails⟩ := rest
  exact ⟨w₂, .cons allowed done hschedule, hfails⟩

theorem mono (h : Falters c rule finished w ts t e w')
    (hrule : ∀ finished pending u, rule finished pending u → rule' finished pending u) :
    Falters c rule' finished w ts t e w' := by
  obtain ⟨w₁, hschedule, hfails⟩ := h
  exact ⟨w₁, hschedule.mono hrule, hfails.mono (hrule _)⟩

/-- What is finished does not matter to a rule that does not ask for it. -/
theorem of_finished (hrule : ∀ f f' pending u, rule f pending u → rule f' pending u)
    (h : Falters c rule finished w ts t e w') (finished' : Option TaskView) :
    Falters c rule finished' w ts t e w' := by
  obtain ⟨w₁, hschedule, hfails⟩ := h
  exact ⟨w₁, hschedule.of_finished hrule finished', hfails.pending, hrule _ _ _ _ hfails.allowed,
    hfails.run⟩

theorem forget (hc : c.registry.Deterministic) (h : Falters c rule finished w ts t e w') :
    Falters c rule finished w.forget ts t e w'.forget := by
  obtain ⟨w₁, hschedule, hfails⟩ := h
  exact ⟨w₁.forget, hschedule.forget hc, hfails.forget hc⟩

theorem transport (hc : c.registry.Deterministic) (h : Falters c rule finished w ts t e w')
    (hv : v.forget = w.forget) :
    ∃ v', Falters c rule finished v ts t e v' ∧ v'.forget = w'.forget := by
  obtain ⟨w₁, hschedule, hfails⟩ := h
  obtain ⟨v₁, hschedule', hv₁⟩ := hschedule.transport hc hv
  obtain ⟨v', hfails', hv'⟩ := hfails.transport hc hv₁
  exact ⟨v', ⟨v₁, hschedule', hfails'⟩, hv'⟩

end Falters

namespace Exceeds

variable {rule : Rule} {finished : Option TaskView} {time : Nat} {w w₁ w' : World σ μ} {t : Task μ}
  {ts : List (Task μ)}

theorem nil (h : w.pending.isEmpty = false) : Exceeds c rule finished 0 w [] w :=
  ⟨.nil _ _, Nat.le_refl _, h⟩

theorem cons (allowed : rule finished w.pending.views t.view)
    (done : Step.advance c t.id w = (.ok t, w₁)) (rest : Exceeds c rule (some t.view) time w₁ ts w') :
    Exceeds c rule finished (time + 1) w (t :: ts) w' :=
  ⟨.cons allowed done rest.schedule, Nat.succ_le_succ rest.spent, rest.pending⟩

end Exceeds

/-- A schedule is its tasks executed by their numbers. -/
theorem Schedule.advances_eq {rule : Rule} {finished : Option TaskView} {w w' : World σ μ}
    {ts : List (Task μ)} (h : Schedule c rule finished w ts w') :
    Step.advances c (ts.map Task.id) w = (.ok (), w') := by
  induction h with
  | nil => rfl
  | cons allowed done rest ih =>
    have hone : (do let _ ← Step.advance c _ : Step σ μ Unit) _ = (.ok (), _) :=
      Attempt.bind_of_ok done
    exact (Attempt.bind_of_ok hone).trans ih

/-- A schedule leads from states that are reached to such states. -/
theorem Schedule.reaches {rule : Rule} {finished : Option TaskView} {spared : Abort → Prop}
    {w w' : World σ μ} {ts : List (Task μ)} (h : Schedule c rule finished w ts w')
    (hw : Reaches c spared w) : Reaches c spared w' := by
  induction h with
  | nil => exact hw
  | cons allowed done rest ih => exact ih (.task _ hw done nofun)

/-! ### Iterations in which a task fails -/

/-- The iteration after executing tasks and one more, which failed in state `w`. -/
def Walk.broken (k : Walk F σ μ) (ts : List (Task μ)) (w : World σ μ) : Walk F σ μ :=
  { k.moved ts w with time := k.time - (ts.length + 1) }

theorem Walk.moved_broken (k : Walk F σ μ) (ts us : List (Task μ)) (w w' : World σ μ) :
    (k.moved ts w).broken us w' = k.broken (ts ++ us) w' := by
  simp only [broken, moved, List.map_append, List.append_assoc, List.length_append]
  congr 1
  omega

namespace Walker

open Attempt

variable {e : Abort}

/-- An error comes before the task, for lack of time, or of the task itself. -/
theorem execute_error_cases {id : TaskId} {t : Task μ} {k k' : Walk F σ μ}
    (hget : k.world.pending.get? id = some t) (h : execute c id k = (.error e, k')) :
    e = .timeout ∧ k' = k ∧ k.time = 0 ∨
      k.time ≠ 0 ∧ ∃ w, Step.advance c id k.world = (.error e, w) ∧ k' = k.broken [] w := by
  have htake : k.world.pending.take id = some (t, k.world.pending.erase id) := by
    simp [Pending.take, hget]
  rw [execute_apply, htake] at h
  by_cases htime : k.time = 0
  · rw [if_pos htime] at h
    cases h
    exact .inl ⟨rfl, rfl, htime⟩
  · rw [if_neg htime] at h
    rw [Step.advance_of_get? hget]
    dsimp only at h
    rcases hexecute : Step.execute c t { k.world with pending := k.world.pending.erase id } with
      ⟨e' | u, w⟩
    · rw [hexecute] at h
      cases h
      exact .inr ⟨htime, w, rfl, by simp [Walk.broken, Walk.moved]⟩
    · rw [hexecute] at h
      cases h

theorem execute_of_error {id : TaskId} {t : Task μ} {k : Walk F σ μ} {w : World σ μ}
    (hget : k.world.pending.get? id = some t) (htime : k.time ≠ 0)
    (hrun : Step.advance c id k.world = (.error e, w)) :
    execute c id k = (.error e, k.broken [] w) := by
  have htake : k.world.pending.take id = some (t, k.world.pending.erase id) := by
    simp [Pending.take, hget]
  rw [Step.advance_of_get? hget] at hrun
  rw [execute_apply, if_neg htime, htake]
  dsimp only
  rcases hexecute : Step.execute c t { k.world with pending := k.world.pending.erase id } with
    ⟨e' | u, w₁⟩
  · rw [hexecute] at hrun
    cases hrun
    simp [Walk.broken, Walk.moved]
  · rw [hexecute] at hrun
    cases hrun

/-- A drain that is cut short took tasks by ascending number. Either the time was up after them or
the next one failed. -/
theorem drainLoop_error_cases {k' : Walk F σ μ} : ∀ {n : Nat} {k : Walk F σ μ},
    drainLoop c n k = (.error e, k') →
      (e = .timeout ∧ ∃ ts w, Exceeds c .lowest none (min n k.time) k.world ts w ∧
        k' = k.moved ts w) ∨
      ∃ ts t w, Falters c .lowest none k.world ts t e w ∧ ts.length < k.time ∧ k' = k.broken ts w
  | 0, k, h => by
    unfold drainLoop at h
    rw [get_bind] at h
    split at h
    · rename_i hpending
      cases h
      refine .inl ⟨rfl, [], k'.world, ?_, k'.moved_nil.symm⟩
      rw [Nat.zero_min]
      exact .nil (by simpa using hpending)
    · cases h
  | n + 1, k, h => by
    unfold drainLoop at h
    rw [get_bind] at h
    cases hfirst : k.world.pending.first? with
    | none =>
      rw [hfirst] at h
      cases h
    | some id =>
      rw [hfirst] at h
      have hlowest : ∀ u : Task μ, u.id = id → Rule.lowest none k.world.pending.views u.view := by
        rintro u rfl
        exact (Pending.first?_eq_head? _).trans hfirst
      rcases bind_error h with hexec | ⟨v, k₁, hexec, hrest⟩
      · obtain ⟨t, hget⟩ := Option.isSome_iff_exists.mp (Pending.isSome_get?_first? hfirst)
        rcases execute_error_cases hget hexec with ⟨he, rfl, htime⟩ | ⟨htime, w, hadvance, rfl⟩
        · refine .inl ⟨he, [], k'.world, ?_, k'.moved_nil.symm⟩
          rw [htime, Nat.min_zero]
          exact .nil (Bool.eq_false_iff.mpr fun hempty => by
            rw [(Pending.isEmpty_iff_first? _).mp hempty] at hfirst
            cases hfirst)
        · exact .inr ⟨[], t, w, .nil (.of_get? hget hadvance (hlowest t)), by simp; omega, rfl⟩
      · obtain ⟨htime, u, w₁, hadvance, -, rfl⟩ := execute_ok_iff.mp hexec
        obtain rfl := Step.id_of_advance hadvance
        rcases drainLoop_error_cases hrest with
          ⟨he, ts, w, hexceeds, rfl⟩ | ⟨ts, t, w, hfalters, hlt, rfl⟩
        · refine .inl ⟨he, u :: ts, w, ⟨.cons (hlowest u rfl) hadvance
            (hexceeds.schedule.of_finished (fun _ _ _ _ h => h) _), ?_, hexceeds.pending⟩,
            k.moved_moved [u] ts w₁ w⟩
          have hspent := hexceeds.spent
          simp only [Walk.moved, List.length_cons, List.length_nil] at hspent ⊢
          omega
        · refine .inr ⟨u :: ts, t, w, .cons (hlowest u rfl) hadvance
            (hfalters.of_finished (fun _ _ _ _ h => h) _), ?_, k.moved_broken [u] ts w₁ w⟩
          simp only [Walk.moved, List.length_cons, List.length_nil] at hlt ⊢
          omega

theorem drainLoop_of_falters {t : Task μ} {w : World σ μ} : ∀ {n : Nat} {k : Walk F σ μ}
    {ts : List (Task μ)}, Falters c .lowest none k.world ts t e w →
      ts.length < n → ts.length < k.time → drainLoop c n k = (.error e, k.broken ts w)
  | 0, _, _, _, hlen, _ => absurd hlen (Nat.not_lt_zero _)
  | n + 1, k, [], h, _, htime => by
    obtain ⟨w₁, hschedule, hfails⟩ := h
    cases hschedule
    have hfirst : k.world.pending.first? = some t.id :=
      (Pending.first?_eq_head? _).symm.trans hfails.allowed
    have hne : k.time ≠ 0 := Nat.pos_iff_ne_zero.mp htime
    unfold drainLoop
    rw [get_bind, hfirst]
    exact bind_of_error (execute_of_error hfails.pending hne hfails.run)
  | n + 1, k, u :: ts, h, hlen, htime => by
    obtain ⟨w₁, hschedule, hfails⟩ := h
    obtain _ | ⟨allowed, done, rest⟩ := hschedule
    rename_i w₂
    rw [List.length_cons] at hlen htime
    have hfirst : k.world.pending.first? = some u.id :=
      (Pending.first?_eq_head? _).symm.trans allowed
    have hexec : execute c u.id k = (.ok u.view, k.moved [u] w₂) :=
      execute_ok_iff.mpr ⟨by omega, u, w₂, done, rfl, rfl⟩
    have htime' : ts.length < (k.moved [u] w₂).time := by
      simp only [Walk.moved, List.length_cons, List.length_nil]
      omega
    have hfalters : Falters c .lowest none (k.moved [u] w₂).world ts t e w :=
      .of_finished (fun _ _ _ _ h => h) ⟨w₁, rest, hfails⟩ none
    have hrest := drainLoop_of_falters hfalters (by omega : ts.length < n) htime'
    rw [Walk.moved_broken] at hrest
    unfold drainLoop
    rw [get_bind, hfirst]
    exact (bind_of_ok hexec).trans hrest

/-- A drain fails, unless the time is up, when one of its tasks does. -/
theorem drain_error_iff (he : e ≠ .timeout) {k k' : Walk F σ μ} : drain c k = (.error e, k') ↔
    ∃ ts t w, Falters c .lowest none k.world ts t e w ∧ ts.length < k.time ∧ k' = k.broken ts w := by
  unfold drain
  rw [get_bind]
  constructor
  · intro h
    exact (drainLoop_error_cases h).resolve_left fun ⟨htimeout, _⟩ => he htimeout
  · rintro ⟨ts, t, w, hfalters, hlt, rfl⟩
    exact drainLoop_of_falters hfalters hlt hlt

/-! ### Replays in which a task fails -/

variable {rule : Rule} {finished : Option TaskView} {ts : List (Task μ)} {t : Task μ}
  {w w' : World σ μ} {k : Walk F σ μ}

/-- With the failing task at the end of the path, a replay fails the same way. -/
theorem replay_of_falters (h : Falters c rule finished k.world ts t e w)
    (htime : ts.length < k.time) :
    replay c (ts.map Task.id ++ [t.id]) k = (.error e, k.broken ts w) := by
  obtain ⟨w₁, hschedule, hfails⟩ := h
  have hleft : (k.moved ts w₁).time ≠ 0 := by
    simp only [Walk.moved]
    omega
  have hexec : execute c t.id (k.moved ts w₁) = (.error e, (k.moved ts w₁).broken [] w) :=
    execute_of_error hfails.pending hleft hfails.run
  rw [Walk.moved_broken, List.append_nil] at hexec
  unfold replay
  rw [List.forM_eq_forM, List.forM_append]
  refine bind_of_error ((bind_of_ok (forM_execute hschedule (Nat.le_of_lt htime))).trans ?_)
  exact bind_of_error (bind_of_error hexec)

/-- Without it, a replay fails the same way if the failing task has the lowest number. -/
theorem replay_of_lowest (he : e ≠ .timeout) (h : Schedule c rule finished k.world ts w)
    (hfails : Fails c .lowest none w t e w') (htime : ts.length < k.time) :
    replay c (ts.map Task.id) k = (.error e, k.broken ts w') := by
  have hleft : ([] : List (Task μ)).length < (k.moved ts w).time := by
    simp only [Walk.moved, List.length_nil]
    omega
  have hdrain : drain c (k.moved ts w) = (.error e, (k.moved ts w).broken [] w') :=
    (drain_error_iff he).mpr ⟨[], t, w', .nil hfails, hleft, rfl⟩
  rw [Walk.moved_broken, List.append_nil] at hdrain
  exact (bind_of_ok (forM_execute h (Nat.le_of_lt htime))).trans (bind_of_error hdrain)

end Walker

/-! ### Failures at the end of the scenario -/

/-- How the end of the scenario fails at state `w` with time for `time` tasks: when the nodes are
told, or while what that brings about is drained. -/
inductive Lapses (c : Cluster σ μ) (time : Nat) (w : World σ μ) (e : Abort) (w' : World σ μ) : Prop
  | told (told : Walker.tellAll c ((List.range w.size).map NodeId.ofIndex) w = (some e, w'))
  | drained {w₁ : World σ μ} {ts : List (Task μ)} {t : Task μ}
      (told : Walker.tellAll c ((List.range w.size).map NodeId.ofIndex) w = (none, w₁))
      (falters : Falters c .lowest none w₁ ts t e w') (inTime : ts.length < time)

namespace Lapses

variable {time : Nat} {w w' v : World σ μ} {e : Abort}

theorem forget (hc : c.registry.Deterministic) (h : Lapses c time w e w') :
    Lapses c time w.forget e w'.forget := by
  have hsize : w.forget.size = w.size := rfl
  cases h with
  | told told =>
    refine .told ?_
    rw [Walker.tellAll_forget, hsize, told]
  | drained told falters inTime =>
    refine .drained ?_ (falters.forget hc) inTime
    rw [Walker.tellAll_forget, hsize, told]

theorem transport (hc : c.registry.Deterministic) (h : Lapses c time w e w')
    (hv : v.forget = w.forget) : ∃ v', Lapses c time v e v' ∧ v'.forget = w'.forget := by
  have hsize : v.size = w.size := (congrArg World.size hv : v.forget.size = w.forget.size)
  cases h with
  | told told =>
    obtain ⟨v', told', hv'⟩ := Walker.tellAll_transport told hv
    exact ⟨v', .told (hsize ▸ told'), hv'⟩
  | drained told falters inTime =>
    obtain ⟨v₁, told', hv₁⟩ := Walker.tellAll_transport told hv
    obtain ⟨v', falters', hv'⟩ := falters.transport hc hv₁
    exact ⟨v', .drained (hsize ▸ told') falters' inTime, hv'⟩

end Lapses

open Attempt in
theorem Walker.endScenario_error_iff {e : Abort} (he : e ≠ .timeout) {k : Walk F σ μ}
    {w : World σ μ} : (∃ k', endScenario c k = (.error e, k') ∧ k'.world = w) ↔
      Lapses c k.time k.world e w := by
  unfold endScenario
  rw [get_bind]
  rcases htell : tellAll c ((List.range k.world.size).map NodeId.ofIndex) k.world with ⟨_ | e', w₁⟩
  · have hset : ∀ f : PUnit → Walker F σ μ Unit,
        (set { k with world := w₁ } >>= f) k = f () { k with world := w₁ } := fun _ => rfl
    simp only [hset, drain_error_iff he]
    constructor
    · rintro ⟨k', ⟨ts, t, w', hfalters, hlt, rfl⟩, rfl⟩
      exact .drained htell hfalters hlt
    · intro h
      cases h with
      | told told => cases htell.symm.trans told
      | drained told falters inTime =>
        cases htell.symm.trans told
        exact ⟨_, ⟨_, _, _, falters, inTime, rfl⟩, rfl⟩
  · constructor
    · rintro ⟨k', h, rfl⟩
      cases h
      exact .told htell
    · intro h
      cases h with
      | told told =>
        cases htell.symm.trans told
        exact ⟨_, rfl, rfl⟩
      | drained told falters inTime => cases htell.symm.trans told

/-! ### Exploring iterations cut short -/

variable [Share F] {spot : Nat → Spot σ μ} {verifier : Verifier} {e : Abort}

namespace Walker

open Attempt

/-- **The loop of an exploring iteration is cut short** when the time is up or one of its tasks
fails. -/
theorem exploreLoop_error_cases (hc : c.registry.Deterministic) : ∀ (fuel : Nat) {n : Nat}
    {path : List TaskId} {k k' : Walk F σ μ} {spot : Nat → Spot σ μ}, OnTrack c spot n k →
    Passable c (spot n) path → exploreLoop c fuel n path k = (.error e, k') →
    (e = .timeout ∧ ∃ ts w, Exceeds c (.driven c.config.order) (spot n).finished (min fuel k.time)
        (spot n).world ts w ∧
      k'.executed = k.executed ++ ts.map Task.id) ∨
    ∃ ts t, Falters c (.driven c.config.order) (spot n).finished (spot n).world ts t e
        k'.world.forget ∧
      ts.length < k.time ∧ k'.executed = k.executed ++ ts.map Task.id
  | 0, n, path, k, k', spot, h, _, hloop => by
    unfold exploreLoop at hloop
    rw [get_bind] at hloop
    split at hloop
    · cases hloop
    · rename_i hpending
      cases hloop
      refine .inl ⟨rfl, [], (spot n).world, ?_, by simp⟩
      rw [Nat.zero_min]
      exact .nil (h.pending_eq ▸ by simpa using hpending)
  | fuel + 1, n, path, k, k', spot, h, hpath, hloop => by
    unfold exploreLoop at hloop
    rw [get_bind] at hloop
    split at hloop
    · cases hloop
    rename_i hpending
    have hmore : (spot n).world.pending.isEmpty = false := h.pending_eq ▸ by simpa using hpending
    rw [get_bind] at hloop
    cases hchoice : path.head?.or (k.tree.next? n) with
    | none =>
      rw [hchoice] at hloop
      -- nothing is eligible here, and the drain fails
      rcases bind_error hloop with hdrain | ⟨_, _, _, hdone⟩
      · rcases drainLoop_error_cases hdrain with
          ⟨he, ts, w, hexceeds, rfl⟩ | ⟨ts, t, w, hfalters, hlt, rfl⟩
        · have hspot := (hexceeds.schedule.forget hc).of_finished (fun _ _ _ _ h => h)
            (spot n).finished
          have hspent := hexceeds.spent
          rw [h.world] at hspot
          exact .inl ⟨he, ts, w.forget,
            ⟨hspot.mono fun _ _ _ h => .inr h, by omega, hexceeds.pending⟩, rfl⟩
        · have hspot := (hfalters.forget hc).of_finished (fun _ _ _ _ h => h) (spot n).finished
          rw [h.world] at hspot
          exact .inr ⟨ts, t, hspot.mono fun _ _ _ h => .inr h, hlt, rfl⟩
      · cases hdone
    | some id =>
      rw [hchoice] at hloop
      obtain ⟨hid, htail⟩ := h.passable_choice hpath hchoice
      rcases bind_error hloop with hexec | ⟨v, k₁, hexec, hrest⟩
      · have hsome := Pending.isSome_get?_of_eligible hid
        rw [← h.pending_eq] at hsome
        obtain ⟨t, hget⟩ := Option.isSome_iff_exists.mp hsome
        rcases execute_error_cases hget hexec with ⟨he, rfl, htime⟩ | ⟨htime, w, hadvance, rfl⟩
        · refine .inl ⟨he, [], (spot n).world, ?_, by simp⟩
          rw [htime, Nat.min_zero]
          exact .nil hmore
        have hfails : Fails c (.driven c.config.order) (spot n).finished k.world t e w := by
          refine .of_get? hget hadvance fun ht => .inl ?_
          rw [h.pending_eq]
          show t.id ∈ _
          exact ht ▸ hid
        have hspot := hfails.forget hc
        rw [h.world] at hspot
        exact .inr ⟨[], t, .nil hspot, Nat.pos_of_ne_zero htime, rfl⟩
      · obtain ⟨htime, u, w, hadvance, rfl, rfl⟩ := execute_ok_iff.mp hexec
        obtain ⟨m, k₂, spot', htrack, hspot, htime', -, -, hcont⟩ := h.visit hc hid hadvance
        have hstep := h.advance hc hadvance
        obtain rfl := Step.id_of_advance hadvance
        rw [hcont fun m => exploreLoop c fuel m path.tail] at hrest
        rcases exploreLoop_error_cases hc fuel htrack (hspot ▸ htail u w.forget hstep) hrest with
          ⟨he, ts, w', hexceeds, hexecuted⟩ | ⟨ts, t, hfalters, hlt, hexecuted⟩
        · rw [hspot, Spot.finished_next] at hexceeds
          refine .inl ⟨he, u :: ts, w', ?_, ?_⟩
          · rw [show min (fuel + 1) k.time = min fuel k₂.time + 1 by omega]
            exact .cons (.inl hid) hstep hexceeds
          · rw [hexecuted, htrack.executed, hspot, h.executed]
            simp [Spot.next]
        · rw [hspot, Spot.finished_next] at hfalters
          refine .inr ⟨u :: ts, t, .cons (.inl hid) hstep hfalters, ?_, ?_⟩
          · rw [List.length_cons]
            omega
          · rw [hexecuted, htrack.executed, hspot, h.executed]
            simp [Spot.next]

/-- How the tasks of an exploring iteration along a path that can be walked are cut short. -/
theorem explore_error_cases (hc : c.registry.Deterministic) {tree : Tree F}
    (h : Chart c tree spot) {path : List TaskId} (hpath : Passable c (Spot.start c) path)
    {w : World σ μ} {k' : Walk F σ μ}
    (hrun : explore c path (Iteration.start c tree w) = (.error e, k')) :
    (e = .timeout ∧ ∃ ts w', Exceeds c (.driven c.config.order) none c.config.taskBudget
        (Spot.start c).world ts w' ∧
      k'.executed = ts.map Task.id) ∨
    ∃ ts t, Falters c (.driven c.config.order) none (Spot.start c).world ts t e k'.world.forget ∧
      ts.length < c.config.taskBudget ∧ k'.executed = ts.map Task.id := by
  obtain ⟨k, htrack, -, hexecuted, htime, hexplore⟩ := explore_eq_exploreLoop hc h w
  rw [hexplore] at hrun
  rcases exploreLoop_error_cases hc _ htrack (h.start ▸ hpath) hrun with
    ⟨he, ts, w', hexceeds, hids⟩ | ⟨ts, t, hfalters, hlt, hids⟩
  · rw [h.start, htime, Nat.min_self] at hexceeds
    exact .inl ⟨he, ts, w', hexceeds, by rw [hids, hexecuted, List.nil_append]⟩
  · rw [h.start] at hfalters
    exact .inr ⟨ts, t, hfalters, htime ▸ hlt, by rw [hids, hexecuted, List.nil_append]⟩

end Walker

namespace Iteration

/-- How an exploring iteration is cut short by `e` in state `w'`: a task fails after tasks `ts`, or
none is pending after them and the end of the scenario fails. -/
inductive CutOff (c : Cluster σ μ) (e : Abort) (ts : List (Task μ)) (w' : World σ μ) : Prop
  | task {t : Task μ}
      (falters : Falters c (.driven c.config.order) none (Spot.start c).world ts t e w')
      (inTime : ts.length < c.config.taskBudget)
  | ending {w : World σ μ}
      (schedule : Schedule c (.driven c.config.order) none (Spot.start c).world ts w)
      (empty : w.pending.isEmpty = true)
      (lapses : Lapses c (c.config.taskBudget - ts.length) w e w')
      (inTime : ts.length ≤ c.config.taskBudget)

omit [Share F] in
/-- The tasks of an iteration that came to the end of the scenario. -/
theorem schedule_of_endsAt {budget n : Nat} {ts : List (Task μ)} {b : Bool} {k : Walk F σ μ}
    (hreached : (spot n).Reached c) (h : EndsAt c spot budget n ts b k) :
    Schedule c (.driven c.config.order) none (Spot.start c).world ((spot n).tasks ++ ts)
      k.world.forget :=
  (hreached.mono fun _ _ _ h => .inl h).append
    ((h.drains.schedule.of_finished (fun _ _ _ _ h => h) _).mono fun _ _ _ h => .inr h)

/-- **An exploring iteration that fails is cut short** by a task or at the end of the scenario. -/
theorem cutOff_of_walk (hc : c.registry.Deterministic) (he : e ≠ .timeout) {tree : Tree F}
    (h : Chart c tree spot) {path : List TaskId} (hpath : Passable c (Spot.start c) path)
    {w : World σ μ} {mid last : Walk F σ μ}
    (hwalk : walk c (Walker.explore c path) (start c tree w) = (.error e, mid, last)) :
    ∃ ts, CutOff c e ts last.world.forget ∧ mid.executed = ts.map Task.id := by
  obtain ⟨spot', -, hexplores⟩ := Walker.explore_explores hc h hpath w
  unfold walk at hwalk
  rcases htasks : Walker.explore c path (start c tree w) with ⟨e' | b, mid'⟩
  · rw [htasks] at hwalk
    cases hwalk
    obtain ⟨ts, t, hfalters, hlt, hexecuted⟩ :=
      (Walker.explore_error_cases hc h hpath htasks).resolve_left fun ⟨htimeout, _⟩ => he htimeout
    exact ⟨ts, .task hfalters hlt, hexecuted⟩
  · rw [htasks] at hwalk hexplores
    obtain ⟨n, ts, hends⟩ : ∃ n ts, EndsAt c spot' c.config.taskBudget n ts b mid' :=
      hexplores.ends b rfl
    rcases hend : Walker.endScenario c mid' with ⟨e' | u, last'⟩
    · simp only [hend] at hwalk
      cases hwalk
      have htime : mid.time = c.config.taskBudget - ((spot' n).tasks ++ ts).length := by
        rw [← hends.time, hends.executed, List.length_map]
        omega
      have hlapses := (Walker.endScenario_error_iff he).mp ⟨last, hend, rfl⟩
      rw [htime] at hlapses
      refine ⟨_, .ending (schedule_of_endsAt (hexplores.chart.reached n hends.leaf) hends)
        hends.drains.empty (hlapses.forget hc) ?_, hends.executed⟩
      rw [← hends.time, hends.executed, List.length_map]
      omega
    · simp only [hend] at hwalk
      cases hwalk

/-- What is left of an iteration that was cut short without blame for the search. -/
theorem close_of_error (c : Cluster σ μ) (verifier : Verifier) (exploring : Bool)
    (he : e ≠ .timeout) (hblame : e.isInternal = false) (mid last : Walk F σ μ) :
    (close c verifier exploring (.error e, mid, last)).1.outcome =
        .failed ⟨.unexpected e.message none, mid.executed, last.world.events⟩ ∧
      (close c verifier exploring (.error e, mid, last)).1.trace = last.world.events ∧
      (close c verifier exploring (.error e, mid, last)).2.2 = last.world := by
  cases e with
  | timeout => exact absurd rfl he
  | treeInvariant => cases hblame
  | unknownTask => cases hblame
  | _ => exact ⟨rfl, rfl, rfl⟩

/-- Only an iteration that was cut short, and not by the time, fails unexpectedly. -/
theorem error_of_unexpected {r : Except Abort Bool × Walk F σ μ × Walk F σ μ} {exploring : Bool}
    {f : Failure} (hf : (close c verifier exploring r).1.outcome = .failed f) {message : String}
    {shown : Option String} (hkind : f.kind = .unexpected message shown) :
    ∃ e mid last, r = (.error e, mid, last) ∧ e ≠ .timeout := by
  rcases r with ⟨e | b, mid, last⟩
  · refine ⟨e, mid, last, rfl, ?_⟩
    rintro rfl
    cases hf
    cases hkind
  · have hjudge : (judge c verifier mid.executed last.world).1 = .failed f := hf
    unfold judge at hjudge
    split at hjudge
    · cases hjudge
      cases hkind
    · dsimp only at hjudge
      split at hjudge <;> cases hjudge
      cases hkind

end Iteration

/-! ### Replays of what was cut short -/

namespace Explorer

/-- The next iteration of a search, if it is cut short. -/
theorem Charted.cutOff_of_course (hc : c.registry.Deterministic) {z : Explorer F σ μ}
    (hz : Charted c verifier z) (he : e ≠ .timeout) {mid last : Walk F σ μ}
    (hcourse : z.course = (.error e, mid, last)) : e.isInternal = false ∧
      ∃ ts, Iteration.CutOff c e ts last.world.forget ∧ mid.executed = ts.map Task.id := by
  obtain ⟨spot, hchart⟩ := hz.chart
  obtain ⟨spot', -, hwalks⟩ := walks_course hc hz.cluster hchart
  refine ⟨hwalks.blameless e (by rw [hcourse]), ?_⟩
  unfold course at hcourse
  rw [hz.cluster] at hcourse
  exact Iteration.cutOff_of_walk hc he hchart (hchart.passable_plan z.switches z.source) hcourse

/-- A replay of the path fails in the very same way, and leaves the same trace. -/
def Reproduces (y : Explorer F σ μ) (path : List TaskId) (f : Failure) : Prop :=
  (y.replay path).1 = .failed f ∧ (y.replay path).2.lastTrace = f.trace

section
variable {y : Explorer F σ μ} {path : List TaskId} {k : Walk F σ μ} {f : Failure}

theorem Charted.reproduces_of_walk (hy : Charted c verifier y) (he : e ≠ .timeout)
    (hblame : e.isInternal = false) {mid last : Walk F σ μ}
    (hwalk : Iteration.walk c (Walker.replay c path) (Iteration.start c y.tree y.world) =
      (.error e, mid, last))
    (hf : f = ⟨.unexpected e.message none, mid.executed, last.world.events⟩) :
    y.Reproduces path f := by
  have hreplay : Iteration.replay c verifier path y.tree y.world =
      Iteration.close c verifier false (.error e, mid, last) := by rw [Iteration.replay, hwalk]
  obtain ⟨houtcome, -, hworld⟩ :=
    Iteration.close_of_error c verifier false he hblame mid last
  unfold Reproduces
  rw [hy.replay_eq, hreplay, houtcome, hworld, hf]
  exact ⟨rfl, rfl⟩

/-- A replay in which a task fails. -/
theorem Charted.reproduces_of_broken (hy : Charted c verifier y) (he : e ≠ .timeout)
    (hblame : e.isInternal = false) {ts : List (Task μ)} {w : World σ μ}
    (hreplay : Walker.replay c path (Iteration.start c y.tree y.world) =
      (.error e, (Iteration.start c y.tree y.world).broken ts w))
    (hf : f = ⟨.unexpected e.message none, ts.map Task.id, w.events⟩) : y.Reproduces path f := by
  have hwalk : Iteration.walk c (Walker.replay c path) (Iteration.start c y.tree y.world) =
      (.error e, (Iteration.start c y.tree y.world).broken ts w,
        (Iteration.start c y.tree y.world).broken ts w) := by
    unfold Iteration.walk
    rw [hreplay]
  exact hy.reproduces_of_walk he hblame hwalk hf

/-- What a search makes of an iteration that was cut short. -/
theorem Charted.reproduces_of_cutOff (hc : c.registry.Deterministic) (hy : Charted c verifier y)
    (he : e ≠ .timeout) (hblame : e.isInternal = false) {ts : List (Task μ)} {w' : World σ μ}
    (h : Iteration.CutOff c e ts w')
    (hf : f = ⟨.unexpected e.message none, ts.map Task.id, w'.events⟩) :
    ∃ w, Step.advances c f.interleaving (y.world.reset c) = (.ok (), w) ∧
      ((w.pending.isEmpty = true ∧ y.Reproduces f.interleaving f) ∨
        ∃ id w', Step.advance c id w = (.error e, w') ∧ f.trace = w'.events ∧
          y.Reproduces (f.interleaving ++ [id]) f ∧
          (w.pending.first? = some id → y.Reproduces f.interleaving f)) := by
  have hstart : (y.world.reset c).forget = (Spot.start c).world.forget :=
    World.forget_reset hc y.world _
  subst hf
  cases h with
  | task falters inTime =>
    rename_i t
    obtain ⟨v', ⟨v, hschedule, hfails⟩, hv'⟩ := falters.transport hc hstart
    have hevents : w'.events = v'.events :=
      (congrArg World.events hv'.symm : w'.forget.events = v'.forget.events)
    rw [hevents]
    refine ⟨v, hschedule.advances_eq, .inr ⟨t.id, v', hfails.run, rfl, ?_, fun hfirst => ?_⟩⟩
    · exact hy.reproduces_of_broken he hblame
        (Walker.replay_of_falters ⟨v, hschedule, hfails⟩ inTime) rfl
    · have hlowest : Fails c .lowest none v t e v' :=
        ⟨hfails.pending, (Pending.first?_eq_head? _).trans hfirst, hfails.run⟩
      exact hy.reproduces_of_broken he hblame
        (Walker.replay_of_lowest he hschedule hlowest inTime) rfl
  | ending schedule empty lapses inTime =>
    obtain ⟨v, hschedule, hv⟩ := schedule.transport hc hstart
    obtain ⟨v', hlapses, hv'⟩ := lapses.transport hc hv
    have hpending : v.pending = _ :=
      (congrArg World.pending hv : v.forget.pending = World.pending (World.forget _))
    have hempty : v.pending.isEmpty = true := by
      rw [hpending]
      exact empty
    have hevents : w'.events = v'.events :=
      (congrArg World.events hv'.symm : w'.forget.events = v'.forget.events)
    rw [hevents]
    refine ⟨v, hschedule.advances_eq, .inl ⟨hempty, ?_⟩⟩
    obtain ⟨last, hend, rfl⟩ : ∃ last, Walker.endScenario c
        ((Iteration.start c y.tree y.world).moved ts v) = (.error e, last) ∧ last.world = v' :=
      (Walker.endScenario_error_iff he).mpr hlapses
    have htasks : Walker.replay c (ts.map Task.id) (Iteration.start c y.tree y.world) =
        (.ok false, (Iteration.start c y.tree y.world).moved ts v) :=
      Walker.replay_of_schedule hschedule inTime hempty
    have hwalk : Iteration.walk c (Walker.replay c (ts.map Task.id))
        (Iteration.start c y.tree y.world) =
        (.error e, (Iteration.start c y.tree y.world).moved ts v, last) := by
      unfold Iteration.walk
      rw [htasks]
      dsimp only
      rw [hend]
    exact hy.reproduces_of_walk he hblame hwalk rfl

end

/-- **Where a failure that cut an iteration short comes back.** The recorded tasks can be executed
again. If nothing is pending after them, their replay on a new search with the same setup returns
the very same failure. Otherwise a task is pending that fails again; the replay that ends with
it returns the same failure, and the replay of the recorded tasks does so too if no pending task
has a lower number. -/
theorem reproduces_cut_short (hc : c.registry.Deterministic) {x y : Explorer F σ μ}
    (hx : Reachable c verifier x) (hy : Explorer.new c verifier = .ok y) {it : Iteration}
    (hit : it ∈ x.run.1.history) {f : Failure} (hf : it.outcome = .failed f) {message : String}
    {shown : Option String} (hkind : f.kind = .unexpected message shown) :
    x.run.2.lastTrace = f.trace ∧
      ∃ w, Step.advances c f.interleaving (y.world.reset c) = (.ok (), w) ∧
        ((w.pending.isEmpty = true ∧ y.Reproduces f.interleaving f) ∨
          ∃ id e w', Step.advance c id w = (.error e, w') ∧ f.kind = .unexpected e.message none ∧
            f.trace = w'.events ∧ y.Reproduces (f.interleaving ++ [id]) f ∧
            (w.pending.first? = some id → y.Reproduces f.interleaving f)) := by
  obtain ⟨z, hz, rfl, hlast⟩ := hx.mem_run hc hit
  have hrun := hlast (by rw [hf]; rfl)
  rw [hz.iterate_fst] at hf
  obtain ⟨e, mid, last, hcourse, he⟩ := Iteration.error_of_unexpected hf hkind
  obtain ⟨hblame, ts, hcut, hexecuted⟩ := hz.cutOff_of_course hc he hcourse
  obtain ⟨houtcome, -, hworld⟩ := Iteration.close_of_error c verifier true he hblame mid last
  -- the failure is that of the tasks that succeeded and the events of the last state
  rw [hcourse, houtcome, hexecuted] at hf
  cases hf
  refine ⟨?_, ?_⟩
  · rw [hrun, lastTrace, hz.world_iterate, hcourse, hworld]
  · obtain ⟨w, hadvances, hback⟩ := (charted_new hy).reproduces_of_cutOff hc he hblame hcut rfl
    refine ⟨w, hadvances, hback.imp_right ?_⟩
    rintro ⟨id, w', hadvance, htrace, hreproduces, hlowest⟩
    exact ⟨id, e, w', hadvance, rfl, htrace, hreproduces, hlowest⟩

end Explorer

/-- Node 0 asks node 1 for something that fails unless node 1 has prepared. -/
def Script.hasty : Cluster Script.Actor String where
  config := Config.default
  registry := ⟨[⟨peerRole, 2, fun _ _ => ⟨
    { start := []
      recovery := none
      finish := []
      operations := [("ask", [.send (.node ⟨1⟩) "x", .void]), ("prepare", [.note "ready"])]
      messages := [("x", [.unlessNoted "ready" [.fail "unready" "not prepared"]])]
      invalid := none }, 0, []⟩⟩]⟩
  scenario := ⟨[[.named "ask" []], [.named "prepare" []]]⟩
  protocol := Script.protocol

theorem Script.deterministic_hasty : Script.hasty.registry.Deterministic := by
  intro g hg v i j
  obtain rfl := List.mem_singleton.mp hg
  rfl

namespace Explorer

theorem reproduces_cut_short_hasty :
    ∃ f, (fresh Script.hasty .acceptAll : Explorer Float _ _).run.1.failure? = some f ∧
      (fresh Script.hasty .acceptAll : Explorer Float _ _).run.2.lastTrace = f.trace ∧
      ∃ id, (fresh Script.hasty .acceptAll : Explorer Float _ _).Reproduces
        (f.interleaving ++ [id]) f := by
  have hnew : Explorer.new Script.hasty .acceptAll =
      .ok (fresh Script.hasty .acceptAll : Explorer Float _ _) := new_eq_fresh rfl
  obtain ⟨f, hf, hname, hinterleaving⟩ : ∃ f ∈ (fresh Script.hasty .acceptAll :
      Explorer Float _ _).run.1.failure?, f.kind.name = "UnexpectedException" ∧
      f.interleaving = [⟨0⟩] := by decide +kernel
  obtain ⟨it, hit, houtcome⟩ := SearchReport.exists_of_failure? hf
  obtain ⟨message, shown, hkind⟩ : ∃ message shown, f.kind = .unexpected message shown := by
    cases hcause : f.kind with
    | unexpected message shown => exact ⟨message, shown, rfl⟩
    | _ =>
      rw [hcause] at hname
      simp [FailureCause.name] at hname
  obtain ⟨htrace, w, hadvances, hback⟩ :=
    reproduces_cut_short Script.deterministic_hasty (.new hnew) hnew hit houtcome hkind
  refine ⟨f, hf, htrace, ?_⟩
  rcases hback with ⟨hempty, -⟩ | ⟨id, _, _, _, _, _, hreproduces, -⟩
  · -- two tasks are pending after the first one
    have hpending : (Step.advances Script.hasty [⟨0⟩] ((fresh Script.hasty .acceptAll :
        Explorer Float _ _).world.reset Script.hasty)).2.pending.isEmpty = false := by
      decide +kernel
    rw [← hinterleaving, hadvances, hempty] at hpending
    cases hpending
  · exact ⟨id, hreproduces⟩

/-- The recorded tasks alone do not bring the failure back: when node 0 has asked, node 1 fails,
but a replay lets node 1 prepare first, and completes. -/
theorem replay_completes_hasty :
    ∃ f results, (fresh Script.hasty .acceptAll : Explorer Float _ _).run.1.failure? = some f ∧
      f.kind.name = "UnexpectedException" ∧
      ((fresh Script.hasty .acceptAll : Explorer Float _ _).replay f.interleaving).1 =
        .completed results := by
  obtain ⟨f, hf, hname, hinterleaving⟩ : ∃ f ∈ (fresh Script.hasty .acceptAll :
      Explorer Float _ _).run.1.failure?, f.kind.name = "UnexpectedException" ∧
      f.interleaving = [⟨0⟩] := by decide +kernel
  have hreplay : ((fresh Script.hasty .acceptAll : Explorer Float _ _).replay [⟨0⟩]).1 =
      .completed ⟨[[.void], [.void]], [some "", some "ready"]⟩ := by decide +kernel
  exact ⟨f, _, hf, hname, hinterleaving ▸ hreplay⟩

end Explorer

end Interleave
