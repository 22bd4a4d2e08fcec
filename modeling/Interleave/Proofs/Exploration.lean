/-
# Exploring iterations

An exploring iteration keeps to the chart of the tree: at every moment the tasks
executed and the state are those of the node it stands at (`OnTrack`). So the
tasks of its path and its canonical choices are pending when their turn comes,
and visiting a node again finds the eligible tasks found before. It stops where
nothing is eligible, and drains (`Walker.exploreLoop_explores`).

Nothing in this depends on earlier iterations but the tree, which stays charted
however they ended.
-/
import Interleave.Explorer
import Interleave.Proofs.Chart

namespace Interleave

variable {F σ μ : Type} {c : Cluster σ μ} {spot spot' : Nat → Spot σ μ}

/-- The iteration stands at node `n`. Nodes passed on the way had something eligible. -/
structure OnTrack (c : Cluster σ μ) (spot : Nat → Spot σ μ) (n : Nat) (k : Walk F σ μ) : Prop where
  chart : Chart c k.tree spot
  here : ∃ x, k.tree.nodes[n]? = some x ∧ x.eligible = some ((spot n).choices c)
  world : k.world.forget = (spot n).world
  executed : k.executed = (spot n).tasks.map Task.id
  trail : ∀ m ∈ k.visited, m < k.tree.size ∧ (m = n ∨ (spot m).choices c ≠ [])

/-- The tasks of the iteration ended at node `n`, where nothing was eligible, and with draining.
`budget` is the time there was for all. -/
structure EndsAt (c : Cluster σ μ) (spot : Nat → Spot σ μ) (budget n : Nat) (ts : List (Task μ))
    (interrupted : Bool) (k : Walk F σ μ) : Prop where
  leaf : n < k.tree.size
  dry : (spot n).choices c = []
  drains : Drains c (spot n).world ts k.world.forget
  executed : k.executed = ((spot n).tasks ++ ts).map Task.id
  interrupted : interrupted = !(spot n).world.pending.isEmpty
  time : k.executed.length + k.time = budget
  trail : ∀ m ∈ k.visited, m < k.tree.size ∧ (m = n ∨ (spot m).choices c ≠ [])

/-- How the tasks of an exploring iteration end: the tree, of `size` nodes before, stays charted,
and either they fail without blame for the search or they end at a node. -/
structure Explores (c : Cluster σ μ) (spot : Nat → Spot σ μ) (size budget : Nat)
    (r : Except Abort Bool × Walk F σ μ) : Prop where
  chart : Chart c r.2.tree spot
  grown : size ≤ r.2.tree.size
  blameless : ∀ e, r.1 = .error e → e.isInternal = false
  ends : ∀ b, r.1 = .ok b → ∃ n ts, EndsAt c spot budget n ts b r.2

/-- Spots of the nodes there are. -/
def Extends (size : Nat) (spot spot' : Nat → Spot σ μ) : Prop := ∀ n < size, spot' n = spot n

theorem Extends.trans {size size' : Nat} {spot₁ spot₂ spot₃ : Nat → Spot σ μ}
    (h : Extends size spot₁ spot₂) (hle : size ≤ size') (h' : Extends size' spot₂ spot₃) :
    Extends size spot₁ spot₃ := fun n hn => (h' n (Nat.lt_of_lt_of_le hn hle)).trans (h n hn)

/-! ### Following the tree -/

namespace Walker

open Attempt

theorem onTree_of_ok {α : Type} {f : Tree F → Except TreeError α × Tree F} {k : Walk F σ μ} {a : α}
    {t : Tree F} (h : f k.tree = (.ok a, t)) :
    onTree f k = (.ok a, ({ k with tree := t } : Walk F σ μ)) := by
  rcases k with ⟨world, tree, executed, visited, time⟩
  show ((f tree).1.mapError _, _) = _
  rw [h]
  rfl

theorem settle_of_ok {n : Nat} {finished : Option TaskView} {k : Walk F σ μ} {t : Tree F}
    (h : k.tree.observe n finished k.world.pending.views = (.ok (), t)) :
    settle n finished k = (.ok (), ({ k with tree := t } : Walk F σ μ)) := by
  unfold settle
  rw [get_bind]
  exact onTree_of_ok h

end Walker

namespace OnTrack

variable {n : Nat} {k : Walk F σ μ}

theorem pending_eq (h : OnTrack c spot n k) : k.world.pending = (spot n).world.pending := by
  rw [← h.world]
  rfl

/-- A task does at the spot what it does in the iteration. -/
theorem advance (hc : c.registry.Deterministic) (h : OnTrack c spot n k) {id : TaskId} {t : Task μ}
    {w : World σ μ} (hadvance : Step.advance c id k.world = (.ok t, w)) :
    Step.advance c id (spot n).world = (.ok t, w.forget) := by
  rw [← h.world, Step.forgetful_advance hc id k.world, hadvance]

/-- The canonical choice in the tree is that of the spot. -/
theorem next?_eq (h : OnTrack c spot n k) :
    k.tree.next? n = (TreeNode.canonical ((spot n).choices c)).map (·.1) := by
  obtain ⟨x, hx, heligible⟩ := h.here
  simp [Tree.next?, hx, TreeNode.next?, heligible]

/-- With the path used up and no canonical choice, nothing is eligible. -/
theorem choices_eq_nil (h : OnTrack c spot n k) {path : List TaskId}
    (hchoice : path.head?.or (k.tree.next? n) = none) : (spot n).choices c = [] := by
  have hcanonical := (Option.or_eq_none_iff.mp hchoice).2
  rwa [h.next?_eq, Option.map_eq_none_iff, TreeNode.canonical_eq_none_iff] at hcanonical

/-- The choice of the path, or else the canonical one, is eligible, and the rest of the path can be
walked after it. -/
theorem passable_choice (h : OnTrack c spot n k) {path : List TaskId}
    (hpath : Passable c (spot n) path) {id : TaskId}
    (hchoice : path.head?.or (k.tree.next? n) = some id) :
    id ∈ ((spot n).choices c).map (·.1) ∧ ∀ t w,
      Step.advance c id (spot n).world = (.ok t, w) → Passable c ((spot n).next t w) path.tail := by
  cases path with
  | nil =>
    obtain ⟨a, ha, rfl⟩ := Option.map_eq_some_iff.mp (h.next?_eq.symm.trans hchoice)
    exact ⟨List.mem_map_of_mem (TreeNode.mem_of_canonical ha), fun _ _ _ => trivial⟩
  | cons id' path =>
    cases hchoice
    exact hpath

end OnTrack

namespace Walker

open Attempt

/-- Where nothing is pending the tasks have ended. -/
theorem explores_of_isEmpty {n : Nat} {k : Walk F σ μ} (h : OnTrack c spot n k)
    (hempty : k.world.pending.isEmpty = true) :
    Explores c spot k.tree.size (k.executed.length + k.time) (.ok false, k) := by
  have hnone : (spot n).world.pending.isEmpty = true := h.pending_eq ▸ hempty
  refine ⟨h.chart, Nat.le_refl _, fun e he => (by cases he), fun b hb => ⟨n, [], ?_⟩⟩
  cases hb
  obtain ⟨x, hx, -⟩ := h.here
  refine ⟨Tree.lt_size_of_getElem? hx, Tree.eligible_of_isEmpty hnone,
    Drains.nil_iff.mpr ⟨h.world, hnone⟩, ?_, by rw [hnone]; rfl, rfl, h.trail⟩
  rw [h.executed, List.append_nil]

theorem explores_of_error {k : Walk F σ μ} {budget : Nat} {e : Abort} (hchart : Chart c k.tree spot)
    (he : e.isInternal = false) : Explores c spot k.tree.size budget (.error e, k) := by
  refine ⟨hchart, Nat.le_refl _, fun e' he' => ?_, fun b hb => (by cases hb)⟩
  cases he'
  exact he

/-- Where nothing is eligible the rest is drained. -/
theorem explores_of_drain (hc : c.registry.Deterministic) {n : Nat} {k : Walk F σ μ}
    (h : OnTrack c spot n k) (hpending : k.world.pending.isEmpty = false)
    (hdry : (spot n).choices c = []) : Explores c spot k.tree.size (k.executed.length + k.time)
      ((do drain c; return true : Walker F σ μ Bool) k) := by
  rw [bind_apply]
  rcases hdrain : drain c k with ⟨e | u, k'⟩
  · have hleft : drainLoop c k.time k = (.error e, k') := hdrain
    obtain ⟨he, htree, -⟩ := drainLoop_error hc hleft
    rw [← htree]
    exact explores_of_error (htree ▸ h.chart) he
  · obtain ⟨ts, w, hdrains, hle, rfl⟩ := drain_ok_iff.mp hdrain
    show Explores c spot _ _ (.ok true, k.moved ts w)
    refine ⟨h.chart, Nat.le_refl _, fun e he => (by cases he), fun b hb => ⟨n, ts, ?_⟩⟩
    cases hb
    obtain ⟨x, hx, -⟩ := h.here
    refine ⟨Tree.lt_size_of_getElem? hx, hdry, ?_, ?_, ?_, ?_, h.trail⟩
    · rw [← h.world]
      exact hdrains.forget hc
    · simp [Walk.moved, h.executed]
    · rw [← h.pending_eq, hpending]
      rfl
    · simp only [Walk.moved, List.length_append, List.length_map]
      omega

end Walker

variable [Share F]

namespace OnTrack

variable {n : Nat} {k : Walk F σ μ}

/-- Following an eligible task leads on to the child by it. -/
theorem visit (hc : c.registry.Deterministic) (h : OnTrack c spot n k) {id : TaskId}
    (hid : id ∈ ((spot n).choices c).map (·.1)) {t : Task μ} {w : World σ μ}
    (hadvance : Step.advance c id k.world = (.ok t, w)) :
    ∃ m k' spot', OnTrack c spot' m k' ∧ spot' m = (spot n).next t w.forget ∧
      k'.time = k.time - 1 ∧ k.tree.size ≤ k'.tree.size ∧ Extends k.tree.size spot spot' ∧
      ∀ f : Nat → Walker F σ μ Bool,
        (do
          let m ← Walker.onTree fun tree => tree.branch n id
          Walker.enter m
          Walker.settle m (some t.view)
          f m) (k.moved [t] w) = f m k' := by
  have hspot := h.advance hc hadvance
  obtain ⟨x, hx, heligible⟩ := h.here
  obtain ⟨m, t₁, spot', hbranch, hchart₁, hsize₁, hextends, hm, hnext⟩ :=
    h.chart.branch hx heligible hid hspot
  obtain ⟨t₂, hobserve, hchart₂, hsize₂, hhere⟩ := hchart₁.observe hm
  rw [hnext, Spot.finished_next] at hobserve
  refine ⟨m, { k.moved [t] w with tree := t₂, visited := k.visited ++ [m] }, spot',
    ⟨hchart₂, hhere, ?_, ?_, ?_⟩, hnext, rfl, ?_, hextends, fun f => ?_⟩
  · rw [hnext]
    rfl
  · rw [hnext]
    simp [Walk.moved, Spot.next, h.executed]
  · intro j hj
    rw [hsize₂]
    rcases List.mem_append.mp hj with hj | hj
    · obtain ⟨hlt, hor⟩ := h.trail j hj
      refine ⟨Nat.lt_of_lt_of_le hlt hsize₁, .inr ?_⟩
      rw [hextends j hlt]
      rcases hor with rfl | hne
      · intro hnil
        rw [hnil] at hid
        cases hid
      · exact hne
    · obtain rfl := List.mem_singleton.mp hj
      exact ⟨hm, .inl rfl⟩
  · rw [hsize₂]
    exact hsize₁
  · refine (Attempt.bind_of_ok (Walker.onTree_of_ok hbranch)).trans ?_
    refine (Attempt.modify_bind _ _ _).trans ?_
    exact Attempt.bind_of_ok (Walker.settle_of_ok hobserve)

end OnTrack

namespace Walker

open Attempt

/-- **The loop of an exploring iteration keeps to the chart.** -/
theorem exploreLoop_explores (hc : c.registry.Deterministic) : ∀ (fuel : Nat) {n : Nat}
    {path : List TaskId} {k : Walk F σ μ} {spot : Nat → Spot σ μ}, OnTrack c spot n k →
    Passable c (spot n) path → ∃ spot', Extends k.tree.size spot spot' ∧
      Explores c spot' k.tree.size (k.executed.length + k.time) (exploreLoop c fuel n path k)
  | 0, n, path, k, spot, h, _ => by
    unfold exploreLoop
    rw [get_bind]
    split
    · rename_i hempty
      exact ⟨spot, fun _ _ => rfl, explores_of_isEmpty h hempty⟩
    · exact ⟨spot, fun _ _ => rfl, explores_of_error h.chart rfl⟩
  | fuel + 1, n, path, k, spot, h, hpath => by
    unfold exploreLoop
    rw [get_bind]
    split
    · rename_i hempty
      exact ⟨spot, fun _ _ => rfl, explores_of_isEmpty h hempty⟩
    rename_i hpending
    rw [get_bind]
    cases hchoice : path.head?.or (k.tree.next? n) with
    | none =>
      exact ⟨spot, fun _ _ => rfl,
        explores_of_drain hc h (by simpa using hpending) (h.choices_eq_nil hchoice)⟩
    | some id =>
      obtain ⟨hid, htail⟩ := h.passable_choice hpath hchoice
      dsimp only
      rw [bind_apply]
      rcases hexec : execute c id k with ⟨e | v, k₁⟩
      · have hget := Pending.isSome_get?_of_eligible hid
        rw [← h.pending_eq] at hget
        obtain ⟨he, htree, -⟩ := execute_error hc hexec hget
        refine ⟨spot, fun _ _ => rfl, ?_⟩
        rw [← htree]
        exact explores_of_error (htree ▸ h.chart) he
      · obtain ⟨htime, t, w, hadvance, rfl, rfl⟩ := execute_ok_iff.mp hexec
        obtain ⟨m, k', spot₁, htrack, hspot, htime', hsize, hextends, hcont⟩ :=
          h.visit hc hid hadvance
        obtain ⟨spot', hextends', hexplores⟩ := exploreLoop_explores hc fuel htrack
          (hspot ▸ htail t w.forget (h.advance hc hadvance))
        refine ⟨spot', hextends.trans hsize hextends', ?_⟩
        have hbudget : k'.executed.length + k'.time = k.executed.length + k.time := by
          rw [htrack.executed, hspot, htime', h.executed]
          simp only [Spot.next, List.map_append, List.length_append, List.length_map,
            List.length_cons, List.length_nil]
          omega
        have hloop := hcont fun m => exploreLoop c fuel m path.tail
        dsimp only
        rw [hloop, ← hbudget]
        exact ⟨hexplores.chart, Nat.le_trans hsize hexplores.grown, hexplores.blameless,
          hexplores.ends⟩

/-- An exploring iteration starts at the root, with all its time. -/
theorem explore_eq_exploreLoop (hc : c.registry.Deterministic) {tree : Tree F}
    (h : Chart c tree spot) (w : World σ μ) : ∃ k : Walk F σ μ, OnTrack c spot Tree.root k ∧
      k.tree.size = tree.size ∧ k.executed = [] ∧ k.time = c.config.taskBudget ∧
      ∀ path, explore c path (Iteration.start c tree w) =
        exploreLoop c c.config.taskBudget Tree.root path k := by
  have hworld : (w.reset c).forget = (spot Tree.root).world := by
    rw [h.start]
    exact World.forget_reset hc w _
  have hpending : (w.reset c).pending = (spot Tree.root).world.pending := by
    rw [← hworld]
    rfl
  obtain ⟨tree', hobserve, hchart, hsize, hhere⟩ := h.observe h.root
  have hfinished : (spot Tree.root).finished = none := by
    rw [h.start]
    rfl
  rw [hfinished, ← hpending] at hobserve
  have hsettle : settle Tree.root none (Iteration.start c tree w) =
      (.ok (), { Iteration.start c tree w with tree := tree' }) := settle_of_ok hobserve
  refine ⟨{ Iteration.start c tree w with tree := tree', visited := [Tree.root] },
    ⟨hchart, hhere, hworld, ?_, fun m hm => ?_⟩, hsize, rfl, rfl, fun path => bind_of_ok hsettle⟩
  · rw [h.start]
    rfl
  · obtain rfl := List.mem_singleton.mp hm
    exact ⟨hchart.root, .inl rfl⟩

/-- The tasks of an exploring iteration along a path that can be walked. -/
theorem explore_explores (hc : c.registry.Deterministic) {tree : Tree F} (h : Chart c tree spot)
    {path : List TaskId} (hpath : Passable c (Spot.start c) path) (w : World σ μ) :
    ∃ spot', Extends tree.size spot spot' ∧
      Explores c spot' tree.size c.config.taskBudget (explore c path (Iteration.start c tree w)) := by
  obtain ⟨k, htrack, hsize, hexecuted, htime, hrun⟩ := explore_eq_exploreLoop hc h w
  obtain ⟨spot', hextends, hexplores⟩ := exploreLoop_explores hc c.config.taskBudget htrack
    (h.start ▸ hpath)
  have hbudget : k.executed.length + k.time = c.config.taskBudget := by
    rw [hexecuted, htime]
    exact Nat.zero_add _
  rw [hrun, ← hsize]
  exact ⟨spot', hextends, hbudget ▸ hexplores⟩

end Walker

end Interleave
