/-
# Iterations under way

What the parts of an iteration do, told as schedules: executing a task is one
step of a schedule and takes the time of one task (`Walker.execute_ok_iff`), draining is
a schedule that always takes the lowest number and leaves nothing pending
(`Walker.drain_ok_iff`), a replay is the schedule it is given
(`Walker.replay_of_schedule`), and the end of the scenario drains what the nodes bring
about when they are told (`Walker.endScenario_ok_iff`).

None of them touches the tree, and only a replay can blame the search.
-/
import Interleave.Iteration
import Interleave.Proofs.Schedule

namespace Interleave

variable {F σ μ α : Type} {c : Cluster σ μ}

namespace Walk

/-- The iteration after executing tasks that led to state `w`. -/
def moved (k : Walk F σ μ) (ts : List (Task μ)) (w : World σ μ) : Walk F σ μ :=
  { k with world := w, executed := k.executed ++ ts.map Task.id, time := k.time - ts.length }

theorem moved_nil (k : Walk F σ μ) : k.moved [] k.world = k := by simp [moved]

theorem moved_moved (k : Walk F σ μ) (ts us : List (Task μ)) (w w' : World σ μ) :
    (k.moved ts w).moved us w' = k.moved (ts ++ us) w' := by
  simp [moved, Nat.sub_sub]

end Walk

theorem Step.id_of_advance {id : TaskId} {t : Task μ} {w w' : World σ μ}
    (h : Step.advance c id w = (.ok t, w')) : t.id = id := by
  obtain ⟨pending, htake, -⟩ := Step.advance_ok_iff.mp h
  obtain ⟨u, hu, heq⟩ := Option.map_eq_some_iff.mp htake
  cases heq
  simpa using List.find?_some hu

theorem Pending.isEmpty_iff_first? (p : Pending μ) : p.isEmpty = true ↔ p.first? = none := by
  simp [isEmpty, first?]

theorem Pending.first?_eq_head? (p : Pending μ) : p.views.head?.map TaskView.id = p.first? := by
  rcases p with ⟨_ | _⟩ <;> rfl

theorem Pending.isSome_get?_first? {p : Pending μ} {id : TaskId} (h : p.first? = some id) :
    (p.get? id).isSome := by
  rcases p with ⟨_ | ⟨t, l⟩⟩
  · cases h
  · cases h
    simp [get?]

namespace Walker

open Attempt

/-! ### Executing a task -/

theorem step_apply (s : Step σ μ α) (k : Walk F σ μ) :
    step s k = ((s k.world).1, { k with world := (s k.world).2 }) := rfl

theorem execute_apply (id : TaskId) (k : Walk F σ μ) : execute c id k =
    if k.time = 0 then (.error .timeout, k)
    else match k.world.pending.take id with
      | none => (.error (.unknownTask id), k)
      | some (task, pending) =>
        match Step.execute c task { k.world with pending := pending } with
        | (.ok (), w) => (.ok task.view,
            { k with world := w, executed := k.executed ++ [id], time := k.time - 1 })
        | (.error e, w) => (.error e, { k with world := w, time := k.time - 1 }) := by
  unfold execute
  rw [get_bind]
  by_cases htime : k.time = 0
  · simp only [htime, if_true]
    rfl
  · simp only [htime, if_false, get_bind]
    rcases k.world.pending.take id with _ | ⟨task, pending⟩
    · rfl
    · simp only [modify_bind]
      rw [bind_apply, step_apply]
      dsimp only
      rcases Step.execute c task { k.world with pending := pending } with ⟨e | u, w⟩ <;> rfl

theorem execute_ok_iff {id : TaskId} {v : TaskView} {k k' : Walk F σ μ} :
    execute c id k = (.ok v, k') ↔ k.time ≠ 0 ∧
      ∃ t w, Step.advance c id k.world = (.ok t, w) ∧ v = t.view ∧ k' = k.moved [t] w := by
  rw [execute_apply]
  by_cases htime : k.time = 0
  · simp only [htime, if_true]
    constructor
    · intro h
      cases h
    · rintro ⟨h, -⟩
      exact absurd rfl h
  simp only [htime, if_false]
  constructor
  · intro h
    refine ⟨htime, ?_⟩
    split at h
    · cases h
    · rename_i task pending htake
      split at h
      · rename_i w hexec
        cases h
        have hadvance := Step.advance_ok_iff.mpr ⟨pending, htake, hexec⟩
        exact ⟨task, w, hadvance, rfl, by simp [Walk.moved, Step.id_of_advance hadvance]⟩
      · cases h
  · rintro ⟨-, t, w, hadvance, rfl, rfl⟩
    obtain ⟨pending, htake, hexec⟩ := Step.advance_ok_iff.mp hadvance
    simp [htake, hexec, Walk.moved, Step.id_of_advance hadvance]

/-- A pending task that fails does not blame the search and leaves the tree alone. -/
theorem execute_error (hc : c.registry.Deterministic) {id : TaskId} {e : Abort} {k k' : Walk F σ μ}
    (h : execute c id k = (.error e, k')) (hpending : (k.world.pending.get? id).isSome) :
    e.isInternal = false ∧ k'.tree = k.tree ∧ k'.visited = k.visited := by
  obtain ⟨task, htask⟩ := Option.isSome_iff_exists.mp hpending
  have htake : k.world.pending.take id = some (task, k.world.pending.erase id) := by
    simp [Pending.take, htask]
  rw [execute_apply] at h
  split at h
  · cases h
    exact ⟨rfl, rfl, rfl⟩
  · simp only [htake] at h
    split at h
    · cases h
    · rename_i e' w hexec
      cases h
      exact ⟨(Step.regular_execute hc task).blames _ _ _ hexec, rfl, rfl⟩

end Walker

/-! ### Draining -/

/-- All pending tasks executed by ascending number, and those they bring about. -/
structure Drains (c : Cluster σ μ) (w : World σ μ) (ts : List (Task μ)) (w' : World σ μ) : Prop where
  schedule : Schedule c .lowest none w ts w'
  empty : w'.pending.isEmpty = true

namespace Drains

variable {w w' : World σ μ} {ts : List (Task μ)}

theorem nil_iff : Drains c w [] w' ↔ w' = w ∧ w.pending.isEmpty = true := by
  constructor
  · rintro ⟨hschedule, hempty⟩
    cases hschedule
    exact ⟨rfl, hempty⟩
  · rintro ⟨rfl, hempty⟩
    exact ⟨.nil _ _, hempty⟩

theorem cons_iff {t : Task μ} : Drains c w (t :: ts) w' ↔ w.pending.first? = some t.id ∧
    ∃ w₁, Step.advance c t.id w = (.ok t, w₁) ∧ Drains c w₁ ts w' := by
  have hrule : ∀ (f f' : Option TaskView) pending t, Rule.lowest f pending t →
      Rule.lowest f' pending t := fun _ _ _ _ h => h
  constructor
  · rintro ⟨hschedule, hempty⟩
    obtain _ | ⟨allowed, done, rest⟩ := hschedule
    exact ⟨(Pending.first?_eq_head? _).symm.trans allowed, _, done, rest.of_finished hrule none, hempty⟩
  · rintro ⟨hfirst, w₁, done, hschedule, hempty⟩
    refine ⟨.cons ((Pending.first?_eq_head? _).trans hfirst) done ?_, hempty⟩
    exact hschedule.of_finished hrule _

theorem forget (hc : c.registry.Deterministic) (h : Drains c w ts w') :
    Drains c w.forget ts w'.forget := ⟨h.schedule.forget hc, h.empty⟩

theorem transport (hc : c.registry.Deterministic) (h : Drains c w ts w') {v : World σ μ}
    (hv : v.forget = w.forget) : ∃ v', Drains c v ts v' ∧ v'.forget = w'.forget := by
  obtain ⟨v', hschedule, hv'⟩ := h.schedule.transport hc hv
  refine ⟨v', ⟨hschedule, ?_⟩, hv'⟩
  have hpending : v'.forget.pending = _ := congrArg World.pending hv'
  rw [show v'.pending = _ from hpending]
  exact h.empty

end Drains

namespace Walker

open Attempt

/-- What a drain that came to its end did. -/
theorem drains_of_drainLoop : ∀ {n : Nat} {k k' : Walk F σ μ}, drainLoop c n k = (.ok (), k') →
    ∃ ts w, Drains c k.world ts w ∧ ts.length ≤ n ∧ ts.length ≤ k.time ∧ k' = k.moved ts w
  | 0, k, k', h => by
    unfold drainLoop at h
    rw [get_bind] at h
    split at h
    · cases h
    · rename_i hempty
      cases h
      exact ⟨[], k.world, Drains.nil_iff.mpr ⟨rfl, by simpa using hempty⟩, Nat.le_refl _,
        Nat.zero_le _, k.moved_nil.symm⟩
  | n + 1, k, k', h => by
    unfold drainLoop at h
    rw [get_bind] at h
    cases hfirst : k.world.pending.first? with
    | none =>
      rw [hfirst] at h
      cases h
      exact ⟨[], k.world, Drains.nil_iff.mpr ⟨rfl, k.world.pending.isEmpty_iff_first?.mpr hfirst⟩,
        Nat.zero_le _, Nat.zero_le _, k.moved_nil.symm⟩
    | some id =>
      rw [hfirst] at h
      obtain ⟨v, k₁, hexec, hrest⟩ := bind_ok h
      obtain ⟨htime, t, w₁, hadvance, rfl, rfl⟩ := execute_ok_iff.mp hexec
      obtain ⟨ts, w, hdrain, hlen, hle, rfl⟩ := drains_of_drainLoop hrest
      obtain rfl := Step.id_of_advance hadvance
      refine ⟨t :: ts, w, Drains.cons_iff.mpr ⟨hfirst, w₁, hadvance, hdrain⟩, ?_, ?_, ?_⟩
      · simpa using hlen
      · simp only [Walk.moved, List.length_cons, List.length_nil] at hle ⊢
        omega
      · rw [Walk.moved_moved]
        rfl

/-- With time for all of them, the pending tasks are drained. -/
theorem drainLoop_of_drains : ∀ {n : Nat} {k : Walk F σ μ} {ts : List (Task μ)} {w : World σ μ},
    Drains c k.world ts w → ts.length ≤ n → ts.length ≤ k.time →
      drainLoop c n k = (.ok (), k.moved ts w)
  | 0, k, ts, w, hdrain, hlen, _ => by
    obtain rfl := List.eq_nil_of_length_eq_zero (Nat.le_zero.mp hlen)
    obtain ⟨rfl, hempty⟩ := Drains.nil_iff.mp hdrain
    unfold drainLoop
    rw [get_bind, hempty, k.moved_nil]
    rfl
  | n + 1, k, [], w, hdrain, _, _ => by
    obtain ⟨rfl, hempty⟩ := Drains.nil_iff.mp hdrain
    unfold drainLoop
    rw [get_bind, k.world.pending.isEmpty_iff_first?.mp hempty, k.moved_nil]
    rfl
  | n + 1, k, t :: ts, w, hdrain, hlen, hle => by
    obtain ⟨hfirst, w₁, hadvance, hdrain⟩ := Drains.cons_iff.mp hdrain
    rw [List.length_cons] at hlen hle
    have hexec : execute c t.id k = (.ok t.view, k.moved [t] w₁) :=
      execute_ok_iff.mpr ⟨by omega, t, w₁, hadvance, rfl, rfl⟩
    have htime : ts.length ≤ (k.moved [t] w₁).time := by
      simp only [Walk.moved, List.length_cons, List.length_nil]
      omega
    have hrest := drainLoop_of_drains (k := k.moved [t] w₁) hdrain (by omega : ts.length ≤ n) htime
    rw [Walk.moved_moved] at hrest
    unfold drainLoop
    rw [get_bind, hfirst]
    exact (bind_of_ok hexec).trans hrest

theorem drain_ok_iff {k k' : Walk F σ μ} : drain c k = (.ok (), k') ↔
    ∃ ts w, Drains c k.world ts w ∧ ts.length ≤ k.time ∧ k' = k.moved ts w := by
  unfold drain
  rw [get_bind]
  constructor
  · intro h
    obtain ⟨ts, w, hdrain, -, hle, rfl⟩ := drains_of_drainLoop h
    exact ⟨ts, w, hdrain, hle, rfl⟩
  · rintro ⟨ts, w, hdrain, hle, rfl⟩
    exact drainLoop_of_drains hdrain hle hle

theorem drainLoop_error (hc : c.registry.Deterministic) {e : Abort} {k' : Walk F σ μ} :
    ∀ {n : Nat} {k : Walk F σ μ}, drainLoop c n k = (.error e, k') →
      e.isInternal = false ∧ k'.tree = k.tree ∧ k'.visited = k.visited
  | 0, k, h => by
    unfold drainLoop at h
    rw [get_bind] at h
    split at h
    · cases h
      exact ⟨rfl, rfl, rfl⟩
    · cases h
  | n + 1, k, h => by
    unfold drainLoop at h
    rw [get_bind] at h
    cases hfirst : k.world.pending.first? with
    | none =>
      rw [hfirst] at h
      cases h
    | some id =>
      rw [hfirst] at h
      simp only [bind_apply] at h
      rcases hexec : execute c id k with ⟨e' | v, k₁⟩
      · rw [hexec] at h
        cases h
        exact execute_error hc hexec (Pending.isSome_get?_first? hfirst)
      · rw [hexec] at h
        obtain ⟨-, t, w₁, -, -, rfl⟩ := execute_ok_iff.mp hexec
        have hrest : drainLoop c n (k.moved [t] w₁) = (.error e, k') := h
        have ih := drainLoop_error hc hrest
        exact ih

/-! ### Replays -/

theorem forM_execute {rule : Rule} : ∀ {ts : List (Task μ)} {finished : Option TaskView}
    {k : Walk F σ μ} {w : World σ μ}, Schedule c rule finished k.world ts w → ts.length ≤ k.time →
      ((ts.map Task.id).forM fun id => (do let _ ← execute c id : Walker F σ μ Unit)) k =
        (.ok (), k.moved ts w)
  | [], _, k, _, h, _ => by
    cases h
    rw [k.moved_nil]
    rfl
  | t :: ts, _, k, w, h, hle => by
    obtain _ | ⟨-, done, rest⟩ := h
    rename_i w₁
    rw [List.length_cons] at hle
    have hexec : execute c t.id k = (.ok t.view, k.moved [t] w₁) :=
      execute_ok_iff.mpr ⟨by omega, t, w₁, done, rfl, rfl⟩
    have hrest : ts.length ≤ (k.moved [t] w₁).time := by
      simp only [Walk.moved, List.length_cons, List.length_nil]
      omega
    have ih := forM_execute (k := k.moved [t] w₁) rest hrest
    rw [Walk.moved_moved] at ih
    have hone : (do let _ ← execute c t.id : Walker F σ μ Unit) k = (.ok (), k.moved [t] w₁) :=
      bind_of_ok hexec
    exact (bind_of_ok hone).trans ih

/-- A replay of a schedule that leaves nothing pending is that schedule. -/
theorem replay_of_schedule {rule : Rule} {ts : List (Task μ)} {finished : Option TaskView}
    {k : Walk F σ μ} {w : World σ μ} (h : Schedule c rule finished k.world ts w)
    (hle : ts.length ≤ k.time) (hempty : w.pending.isEmpty = true) :
    replay c (ts.map Task.id) k = (.ok false, k.moved ts w) := by
  have hdrain : drain c (k.moved ts w) = (.ok (), k.moved ts w) :=
    drain_ok_iff.mpr ⟨[], w, Drains.nil_iff.mpr ⟨rfl, hempty⟩, Nat.zero_le _,
      (k.moved ts w).moved_nil.symm⟩
  exact (bind_of_ok (forM_execute h hle)).trans (bind_of_ok hdrain)

/-! ### The end of the scenario -/

theorem tellAll_forget (c : Cluster σ μ) : ∀ (l : List NodeId) (w : World σ μ),
    tellAll c l w.forget = ((tellAll c l w).1, (tellAll c l w).2.forget)
  | [], _ => rfl
  | v :: l, w => by
    simp only [tellAll, (Step.regular_farewell c v).forgets w]
    rcases Step.farewell c v w with ⟨e | u, w₁⟩
    · have ih := tellAll_forget c l w₁
      cases e <;> simp only [ih] <;> rcases tellAll c l w₁ with ⟨_ | e', w₂⟩ <;>
        first | rfl | (cases e' <;> rfl)
    · exact tellAll_forget c l w₁

/-- Telling the nodes goes the same way in states that differ in the count only. -/
theorem tellAll_transport {l : List NodeId} {r : Option Abort} {w w' v : World σ μ}
    (h : tellAll c l w = (r, w')) (hv : v.forget = w.forget) :
    ∃ v', tellAll c l v = (r, v') ∧ v'.forget = w'.forget := by
  have heq : ((tellAll c l v).1, (tellAll c l v).2.forget) = (r, w'.forget) := by
    rw [← tellAll_forget, hv, tellAll_forget, h]
  obtain ⟨hr, hforget⟩ := Prod.mk.inj heq
  exact ⟨(tellAll c l v).2, Prod.ext hr rfl, hforget⟩

/-- What every node that is told keeps is kept when all are. -/
theorem keeps_of_tellAll {I : World σ μ → Prop}
    (htell : ∀ {v w w'}, I w → Step.farewell c v w = (.ok (), w') → I w') :
    ∀ {l : List NodeId} {w w' : World σ μ}, tellAll c l w = (none, w') → I w → I w'
  | [], _, _, hrun, hw => by
    cases hrun
    exact hw
  | v :: l, w, w', hrun, hw => by
    unfold tellAll at hrun
    split at hrun
    · rename_i hfarewell
      exact keeps_of_tellAll htell hrun (htell hw hfarewell)
    · cases hrun
    · split at hrun <;> cases hrun

theorem isInternal_of_tellAll {e : Abort} : ∀ {l : List NodeId} {w w' : World σ μ},
    tellAll c l w = (some e, w') → e.isInternal = false
  | [], _, _, h => by cases h
  | v :: l, w, w', h => by
    unfold tellAll at h
    split at h
    · exact isInternal_of_tellAll h
    · cases h
      rfl
    · rename_i e' w₁ _ hfarewell
      split at h
      · cases h
        rfl
      · cases h
        exact (Step.regular_farewell c v).blames _ _ _ hfarewell

end Walker

/-- The end of the scenario at state `w`: all nodes are told, and what that brings about is
drained. -/
def Closes (c : Cluster σ μ) (w : World σ μ) (ts : List (Task μ)) (w' : World σ μ) : Prop :=
  ∃ w₁, Walker.tellAll c ((List.range w.size).map NodeId.ofIndex) w = (none, w₁) ∧ Drains c w₁ ts w'

theorem Closes.forget (hc : c.registry.Deterministic) {w w' : World σ μ} {ts : List (Task μ)}
    (h : Closes c w ts w') : Closes c w.forget ts w'.forget := by
  obtain ⟨w₁, htell, hdrain⟩ := h
  refine ⟨w₁.forget, ?_, hdrain.forget hc⟩
  rw [Walker.tellAll_forget, show w.forget.size = w.size from rfl, htell]

theorem Closes.transport (hc : c.registry.Deterministic) {w w' v : World σ μ} {ts : List (Task μ)}
    (h : Closes c w ts w') (hv : v.forget = w.forget) :
    ∃ v', Closes c v ts v' ∧ v'.forget = w'.forget := by
  obtain ⟨w₁, htell, hdrain⟩ := h
  have hsize : v.size = w.size := (congrArg World.size hv : v.forget.size = w.forget.size)
  obtain ⟨v₁, htell', hv₁⟩ := Walker.tellAll_transport htell hv
  obtain ⟨v', hdrain', hv'⟩ := hdrain.transport hc hv₁
  exact ⟨v', ⟨v₁, hsize ▸ htell', hdrain'⟩, hv'⟩

namespace Walker

open Attempt

theorem endScenario_ok_iff {k k' : Walk F σ μ} : endScenario c k = (.ok (), k') ↔
    ∃ ts w, Closes c k.world ts w ∧ ts.length ≤ k.time ∧ k' = k.moved ts w := by
  unfold endScenario Closes
  rw [get_bind]
  rcases htell : tellAll c ((List.range k.world.size).map NodeId.ofIndex) k.world with ⟨_ | e, w₁⟩
  · have hset : ∀ f : PUnit → Walker F σ μ Unit,
        (set { k with world := w₁ } >>= f) k = f () { k with world := w₁ } := fun _ => rfl
    simp only [hset, drain_ok_iff]
    constructor
    · rintro ⟨ts, w, hdrain, hle, rfl⟩
      exact ⟨ts, w, ⟨w₁, rfl, hdrain⟩, hle, rfl⟩
    · rintro ⟨ts, w, ⟨w₁', heq, hdrain⟩, hle, rfl⟩
      cases heq
      exact ⟨ts, w, hdrain, hle, rfl⟩
  · constructor
    · intro h
      cases h
    · rintro ⟨ts, w, ⟨w₁', heq, -⟩, -⟩
      cases heq

theorem endScenario_error (hc : c.registry.Deterministic) {e : Abort} {k k' : Walk F σ μ}
    (h : endScenario c k = (.error e, k')) :
    e.isInternal = false ∧ k'.tree = k.tree ∧ k'.visited = k.visited := by
  unfold endScenario at h
  rw [get_bind] at h
  rcases htell : tellAll c ((List.range k.world.size).map NodeId.ofIndex) k.world with ⟨_ | e', w₁⟩
  · rw [htell] at h
    have hdrain : drainLoop c k.time { k with world := w₁ } = (.error e, k') := h
    have hleft := drainLoop_error hc hdrain
    exact hleft
  · rw [htell] at h
    cases h
    exact ⟨isInternal_of_tellAll htell, rfl, rfl⟩

end Walker

end Interleave
