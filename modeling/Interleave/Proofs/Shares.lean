/-
# Unexplored shares shrink

The share of a node is the mean of the shares behind its eligible tasks. It is kept at
the node and computed anew only where an iteration passed, so it lags behind what is
below it. In exact fractions it lags on one side only: what is kept is never less than
the mean would be now (`Tree.Measured`). A task that was not tried counts as a whole, and
so does the new child it leads to; a visit finds a node whose share is a whole still; and
to compute a node anew lowers it to its mean, which lowers the mean of its parent and of
no other (`Tree.Measured.recountNode`).

So shares only shrink, whatever is called in whatever order, and a share is nothing
exactly where all is explored (`Tree.unexplored_shrinks`).
-/
import Interleave.Proofs.Upkeep
import Mathlib.Algebra.Order.BigOperators.Group.List
import Mathlib.Algebra.Order.Field.Basic
import Mathlib.Algebra.Order.Field.Rat

namespace Interleave

namespace Tree

/-! ### What calls leave of the shares -/

section

variable {F : Type} {t : Tree F} {n : Nat} {finished : Option TaskView} {pending : List TaskView}

/-- A later visit changes nothing. -/
theorem observe_of_choices {l : List (TaskId × TaskKind)} (h : t.choices? n = some l) :
    (t.observe n finished pending).2 = t := by
  obtain ⟨x, hx, hl⟩ := Option.bind_eq_some_iff.mp h
  unfold observe
  simp only [hx, hl]
  split <;> rfl

variable [Share F]

theorem unexplored_observe (m : Nat) :
    (t.observe n finished pending).2.unexplored m = t.unexplored m := by
  unfold observe
  dsimp only
  split
  · rfl
  · split
    · simp only [unexplored, Array.getElem?_modify]
      split <;> cases t.nodes[m]? <;> rfl
    · split <;> rfl

theorem branch_of_child {id : TaskId} {m : Nat} (h : t.child? n id = some m) :
    t.branch n id = (.ok m, t) := by
  obtain ⟨x, hx, hm⟩ := Option.bind_eq_some_iff.mp h
  unfold branch
  simp only [hx, hm]

theorem unexplored_grow (task : TaskId) (kind : TaskKind) (m : Nat) :
    (t.grow n task kind).unexplored m = if m = t.size then Share.one else t.unexplored m := by
  simp only [unexplored, getElem?_grow]
  split
  · rfl
  · split <;> cases t.nodes[m]? <;> rfl

theorem recountNode_of_choices (h : t.choices? n = none) : (t.recountNode n).2 = t := by
  unfold recountNode
  cases hx : t.nodes[n]? with
  | none => rfl
  | some x =>
    have hl : x.eligible = none := by simpa [choices?, hx] using h
    simp only [hl]

theorem unexplored_recountNode_of_ne {m : Nat} (hm : m ≠ n) :
    (t.recountNode n).2.unexplored m = t.unexplored m := by
  rw [unexplored, getElem?_recountNode, if_neg (Ne.symm hm)]
  rfl

end

/-! ### The mean of the shares below a node -/

/-- The unexplored share behind a task at node `n`; all of it before the first try. -/
def shareBehind (t : Tree Rat) (n : Nat) (id : TaskId) : Rat :=
  match t.child? n id with
  | none => 1
  | some m => t.unexplored m

/-- The mean of the shares behind what is eligible at node `n`; nothing if nothing is. -/
def meanShare (t : Tree Rat) (n : Nat) : Rat :=
  ((t.eligibleIds n).map (t.shareBehind n)).sum / (t.eligibleIds n).length

/-- What holds of the shares at any time: they are parts of a whole, nothing exactly where all is
explored and a whole before the first visit, and never less than the mean. -/
structure Measured (t : Tree Rat) : Prop where
  grown : t.Grown
  part : ∀ n < t.size, 0 ≤ t.unexplored n ∧ t.unexplored n ≤ 1
  zero : ∀ n < t.size, t.unexplored n = 0 ↔ t.isExplored n = true
  whole : ∀ n < t.size, t.choices? n = none → t.unexplored n = 1
  mean : ∀ n < t.size, t.meanShare n ≤ t.unexplored n

section

variable {t t' : Tree Rat} {n m : Nat} {id : TaskId}

theorem sum_eq (l : List Rat) : sum l = l.sum := List.sum_eq_foldl.symm

theorem shareBehind_of_child (h : t.child? n id = some m) : t.shareBehind n id = t.unexplored m := by
  simp [shareBehind, h]

theorem shareBehind_of_none (h : t.child? n id = none) : t.shareBehind n id = 1 := by
  simp [shareBehind, h]

/-- Where all shares behind shrink, so does the mean. -/
theorem meanShare_mono (heligible : t'.eligibleIds n = t.eligibleIds n)
    (hbehind : ∀ id, t'.shareBehind n id ≤ t.shareBehind n id) : t'.meanShare n ≤ t.meanShare n := by
  unfold meanShare
  rw [heligible]
  exact div_le_div_of_nonneg_right (List.sum_le_sum fun id _ => hbehind id) (Nat.cast_nonneg _)

/-- A mean of parts of a whole is one. -/
theorem meanShare_part_of (h : ∀ id, 0 ≤ t.shareBehind n id ∧ t.shareBehind n id ≤ 1) :
    0 ≤ t.meanShare n ∧ t.meanShare n ≤ 1 := by
  have hlow : 0 ≤ ((t.eligibleIds n).map (t.shareBehind n)).sum := by
    refine List.sum_nonneg fun a ha => ?_
    obtain ⟨id, -, rfl⟩ := List.mem_map.mp ha
    exact (h id).1
  have hhigh : ((t.eligibleIds n).map (t.shareBehind n)).sum ≤ (t.eligibleIds n).length := by
    have hsum := List.sum_le_card_nsmul ((t.eligibleIds n).map (t.shareBehind n)) 1 fun a ha => by
      obtain ⟨id, -, rfl⟩ := List.mem_map.mp ha
      exact (h id).2
    rwa [List.length_map, nsmul_one] at hsum
  exact ⟨div_nonneg hlow (Nat.cast_nonneg _), div_le_one_of_le₀ hhigh (Nat.cast_nonneg _)⟩

namespace Measured

theorem lt_size (h : t.Measured) (hm : t.child? n id = some m) : m < t.size :=
  lt_size_of_parent? (h.grown.child hm).2

theorem shareBehind_part (h : t.Measured) (n : Nat) (id : TaskId) :
    0 ≤ t.shareBehind n id ∧ t.shareBehind n id ≤ 1 := by
  cases hm : t.child? n id with
  | none =>
    rw [shareBehind_of_none hm]
    exact ⟨zero_le_one, le_refl 1⟩
  | some m =>
    rw [shareBehind_of_child hm]
    exact h.part m (h.lt_size hm)

theorem shareBehind_eq_zero_iff (h : t.Measured) :
    t.shareBehind n id = 0 ↔ ∃ m, t.child? n id = some m ∧ t.isExplored m = true := by
  cases hm : t.child? n id with
  | none => simp [shareBehind_of_none hm]
  | some m => simp [shareBehind_of_child hm, h.zero m (h.lt_size hm)]

theorem meanShare_part (h : t.Measured) (n : Nat) : 0 ≤ t.meanShare n ∧ t.meanShare n ≤ 1 :=
  meanShare_part_of fun id => h.shareBehind_part n id

/-- **The mean is nothing** exactly where all that is eligible leads to explored nodes. -/
theorem meanShare_eq_zero_iff (h : t.Measured) (n : Nat) : t.meanShare n = 0 ↔
    ∀ id ∈ t.eligibleIds n, ∃ m, t.child? n id = some m ∧ t.isExplored m = true := by
  have hnonneg : ∀ a ∈ (t.eligibleIds n).map (t.shareBehind n), 0 ≤ a := by
    intro a ha
    obtain ⟨id, -, rfl⟩ := List.mem_map.mp ha
    exact (h.shareBehind_part n id).1
  constructor
  · intro hmean id hid
    have hlength : ((t.eligibleIds n).length : Rat) ≠ 0 :=
      Nat.cast_ne_zero.mpr (List.length_pos_of_mem hid).ne'
    have hsum := (div_eq_zero_iff.mp hmean).resolve_right hlength
    exact h.shareBehind_eq_zero_iff.mp
      (List.all_zero_of_le_zero_le_of_sum_eq_zero hnonneg hsum (List.mem_map_of_mem hid))
  · intro hall
    have hsum : ((t.eligibleIds n).map (t.shareBehind n)).sum = 0 := by
      refine List.sum_eq_zero fun a ha => ?_
      obtain ⟨id, hid, rfl⟩ := List.mem_map.mp ha
      exact h.shareBehind_eq_zero_iff.mpr (hall id hid)
    rw [meanShare, hsum, zero_div]

/-- The weight of a task is the share behind it. -/
theorem weight_eq (h : t.Measured) {x : TreeNode Rat} (hx : t.nodes[n]? = some x) (id : TaskId) :
    t.weight x id = t.shareBehind n id := by
  have hchild : t.child? n id = x.child? id := by simp [child?, hx]
  unfold weight
  cases hm : x.child? id with
  | none => exact (shareBehind_of_none (hchild.trans hm)).symm
  | some m =>
    rw [shareBehind_of_child (hchild.trans hm)]
    dsimp only
    split
    · rename_i hexplored
      exact ((h.zero m (h.lt_size (hchild.trans hm))).mpr hexplored).symm
    · rfl

end Measured

/-! ### Computing a node anew -/

theorem Measured.unexplored_recountNode (h : t.Measured) {l : List (TaskId × TaskKind)}
    (hl : t.choices? n = some l) : (t.recountNode n).2.unexplored n = t.meanShare n ∧
      ((t.recountNode n).2.isExplored n = true ↔ t.meanShare n = 0) := by
  obtain ⟨x, hx, hxl⟩ := Option.bind_eq_some_iff.mp hl
  have hids : t.eligibleIds n = x.eligibleIds := by simp [eligibleIds, hx]
  have hbehind : ∀ id, t.exploredBehind x id = true ↔
      ∃ m, t.child? n id = some m ∧ t.isExplored m = true := by
    intro id
    rw [exploredBehind_iff, child?, hx]
    rfl
  have hnode : (t.recountNode n).2.nodes[n]? = some (t.recounted x x.eligibleIds) := by
    rw [getElem?_recountNode, if_pos rfl, hx, Option.map_some, hxl]
    rfl
  have hexplored : (t.recountNode n).2.isExplored n = true ↔ t.meanShare n = 0 := by
    have hmark : (t.recountNode n).2.isExplored n = (t.recounted x x.eligibleIds).explored := by
      simp [isExplored, hnode]
    rw [hmark, explored_recounted, h.meanShare_eq_zero_iff, hids]
    exact forall_congr' fun id => imp_congr_right fun _ => hbehind id
  have hshare : (t.recountNode n).2.unexplored n = (t.recounted x x.eligibleIds).unexplored := by
    simp [unexplored, hnode]
  refine ⟨?_, hexplored⟩
  rw [hshare]
  unfold recounted
  split
  · -- all is explored behind, and the mean is nothing
    rename_i hall
    refine ((h.meanShare_eq_zero_iff n).mpr fun id hid => ?_).symm
    exact (hbehind id).mp (List.all_eq_true.mp hall id (hids ▸ hid))
  · show sum (x.eligibleIds.map (t.weight x)) / (x.eligibleIds.length : Rat) = t.meanShare n
    rw [sum_eq, meanShare, hids, List.map_congr_left fun id _ => h.weight_eq hx id]

namespace Measured

/-- **To compute a node anew** lowers its share to the mean, and no other. -/
theorem recountNode (h : t.Measured) (n : Nat) : (t.recountNode n).2.Measured ∧
    ∀ m < t.size, (t.recountNode n).2.unexplored m ≤ t.unexplored m := by
  cases hl : t.choices? n with
  | none =>
    rw [recountNode_of_choices hl]
    exact ⟨h, fun m _ => le_refl _⟩
  | some l =>
    obtain ⟨hchoices, hchild, -, hexplored⟩ := t.recountNode_frame n
    obtain ⟨hshare, hmark⟩ := h.unexplored_recountNode hl
    have hsize := t.size_recountNode n
    have hle : ∀ m < t.size, (t.recountNode n).2.unexplored m ≤ t.unexplored m := by
      intro m hm
      by_cases hmn : m = n
      · subst hmn
        exact hshare ▸ h.mean m hm
      · exact (unexplored_recountNode_of_ne hmn).le
    have hids : ∀ m, (t.recountNode n).2.eligibleIds m = t.eligibleIds m := by
      intro m
      rw [eligibleIds_eq, eligibleIds_eq, hchoices]
    have hbehind : ∀ m id, (t.recountNode n).2.shareBehind m id ≤ t.shareBehind m id := by
      intro m id
      cases hk : t.child? m id with
      | none => rw [shareBehind_of_none hk, shareBehind_of_none ((hchild m id).trans hk)]
      | some k =>
        rw [shareBehind_of_child hk, shareBehind_of_child ((hchild m id).trans hk)]
        exact hle k (h.lt_size hk)
    have hmean : ∀ m, (t.recountNode n).2.meanShare m ≤ t.meanShare m :=
      fun m => meanShare_mono (hids m) (hbehind m)
    refine ⟨⟨h.grown.recountNode n, fun m hm => ?_, fun m hm => ?_, fun m hm hnone => ?_,
      fun m hm => ?_⟩, hle⟩
    all_goals rw [hsize] at hm
    all_goals by_cases hmn : m = n
    · subst hmn
      exact hshare ▸ h.meanShare_part m
    · rw [unexplored_recountNode_of_ne hmn]
      exact h.part m hm
    · subst hmn
      rw [hshare, hmark]
    · rw [unexplored_recountNode_of_ne hmn, hexplored m hmn]
      exact h.zero m hm
    · subst hmn
      rw [hchoices, hl] at hnone
      cases hnone
    · rw [unexplored_recountNode_of_ne hmn]
      exact h.whole m hm ((hchoices m).symm.trans hnone)
    · subst hmn
      exact hshare ▸ hmean m
    · rw [unexplored_recountNode_of_ne hmn]
      exact (hmean m).trans (h.mean m hm)

/-! ### Visiting and branching off -/

theorem observe (h : t.Measured) (n : Nat) (finished : Option TaskView) (pending : List TaskView) :
    (t.observe n finished pending).2.Measured := by
  cases hl : t.choices? n with
  | some l => exact (observe_of_choices hl).symm ▸ h
  | none =>
    obtain ⟨hsize, hchild, -, hexplored, hchoices⟩ := t.observe_frame n finished pending
    have hbehind : ∀ m, (t.observe n finished pending).2.shareBehind m = t.shareBehind m := by
      intro m
      funext id
      unfold shareBehind
      rw [hchild]
      cases t.child? m id with
      | none => rfl
      | some k => exact unexplored_observe k
    refine ⟨h.grown.observe n finished pending, fun m hm => ?_, fun m hm => ?_, fun m hm hnone => ?_,
      fun m hm => ?_⟩
    all_goals rw [hsize] at hm
    all_goals rw [unexplored_observe]
    · exact h.part m hm
    · rw [hexplored]
      exact h.zero m hm
    · by_cases hmn : m = n
      · exact h.whole m hm (hmn ▸ hl)
      · exact h.whole m hm ((hchoices m hmn).symm.trans hnone)
    · by_cases hmn : m = n
      · -- the share of a node that is visited for the first time is a whole
        rw [h.whole m hm (hmn ▸ hl)]
        refine (meanShare_part_of fun id => ?_).2
        rw [hbehind]
        exact h.shareBehind_part m id
      · have hmean : (t.observe n finished pending).2.meanShare m = t.meanShare m := by
          unfold meanShare
          rw [hbehind, eligibleIds_eq, hchoices m hmn, ← eligibleIds_eq]
        exact hmean ▸ h.mean m hm

theorem grow (h : t.Measured) (hn : n < t.size) {task : TaskId} (hnew : t.child? n task = none)
    (kind : TaskKind) : (t.grow n task kind).Measured := by
  obtain ⟨hchoices, hexplored, hchild, -⟩ := grow_frame hn task kind
  have hend : t.nodes[t.size]? = none := Array.getElem?_eq_none (Nat.le_refl _)
  have hold : ∀ {m}, m < t.size → (t.grow n task kind).unexplored m = t.unexplored m := by
    intro m hm
    rw [unexplored_grow, if_neg (by omega)]
  have hlast : (t.grow n task kind).unexplored t.size = 1 := by
    rw [unexplored_grow, if_pos rfl]
    rfl
  -- a whole before the task was tried, and a whole behind it now
  have hbehind : ∀ m id, (t.grow n task kind).shareBehind m id = t.shareBehind m id := by
    intro m id
    by_cases htask : m = n ∧ id = task
    · obtain ⟨rfl, rfl⟩ := htask
      rw [shareBehind_of_none hnew, shareBehind_of_child (by rw [hchild, if_pos ⟨rfl, rfl⟩]), hlast]
    · have hsame : (t.grow n task kind).child? m id = t.child? m id := by rw [hchild, if_neg htask]
      cases hk : t.child? m id with
      | none => rw [shareBehind_of_none hk, shareBehind_of_none (hsame.trans hk)]
      | some k =>
        rw [shareBehind_of_child hk, shareBehind_of_child (hsame.trans hk), hold (h.lt_size hk)]
  have hmean : ∀ m, (t.grow n task kind).meanShare m = t.meanShare m := by
    intro m
    unfold meanShare
    rw [eligibleIds_eq, hchoices, ← eligibleIds_eq, funext (hbehind m)]
  refine ⟨h.grown.grow hn task kind, fun m hm => ?_, fun m hm => ?_, fun m hm hnone => ?_,
    fun m hm => ?_⟩
  all_goals rw [size_grow] at hm
  all_goals obtain hm | rfl : m < t.size ∨ m = t.size := by omega
  · rw [hold hm]
    exact h.part m hm
  · rw [hlast]
    exact ⟨zero_le_one, le_refl 1⟩
  · rw [hold hm, hexplored]
    exact h.zero m hm
  · rw [hlast, hexplored]
    simp [isExplored, hend]
  · rw [hold hm]
    exact h.whole m hm ((hchoices m).symm.trans hnone)
  · exact hlast
  · rw [hold hm, hmean]
    exact h.mean m hm
  · rw [hlast, hmean]
    exact (h.meanShare_part t.size).2

theorem branch (h : t.Measured) (n : Nat) (id : TaskId) : (t.branch n id).2.Measured ∧
    t.size ≤ (t.branch n id).2.size ∧
    ∀ m < t.size, (t.branch n id).2.unexplored m = t.unexplored m := by
  have hself : t.Measured ∧ t.size ≤ t.size ∧ ∀ m < t.size, t.unexplored m = t.unexplored m :=
    ⟨h, le_refl _, fun _ _ => rfl⟩
  cases hm : t.child? n id with
  | some m =>
    rw [branch_of_child hm]
    exact hself
  | none =>
    rcases t.branch_cases n id with ⟨m, -, hsome⟩ | ⟨e, hbranch⟩ | ⟨kind, hbranch, hn⟩
    · rw [hm] at hsome
      cases hsome
    · rw [hbranch]
      exact hself
    · rw [hbranch]
      refine ⟨h.grow hn hm kind, ?_, fun m hm => ?_⟩
      · rw [size_grow]
        omega
      · rw [unexplored_grow, if_neg (by omega)]

/-! ### Calls -/

theorem empty (order : DeliveryOrder) : (Tree.empty order : Tree Rat).Measured := by
  have hroot : ∀ n < (Tree.empty order : Tree Rat).size, n = root := fun n hn => by
    have hsize : (Tree.empty order : Tree Rat).size = 1 := rfl
    unfold root
    omega
  refine ⟨.empty order, fun n hn => ?_, fun n hn => ?_, fun n hn _ => ?_, fun n hn => ?_⟩
  all_goals obtain rfl := hroot n hn
  · exact ⟨zero_le_one, le_refl 1⟩
  · exact iff_of_false one_ne_zero Bool.false_ne_true
  · rfl
  · exact (div_zero (0 : Rat)).trans_le zero_le_one

/-- **Shares only shrink**, whatever is called. -/
theorem call (h : t.Measured) (c : Call) : (t.call c).Measured ∧ t.size ≤ (t.call c).size ∧
    ∀ n < t.size, (t.call c).unexplored n ≤ t.unexplored n := by
  cases c with
  | observe m finished pending =>
    obtain ⟨hsize, -⟩ := t.observe_frame m finished pending
    exact ⟨h.observe m finished pending, hsize.ge, fun n _ => (unexplored_observe n).le⟩
  | branch m task =>
    obtain ⟨hmeasured, hsize, hsame⟩ := h.branch m task
    exact ⟨hmeasured, hsize, fun n hn => (hsame n hn).le⟩
  | recount path =>
    refine keeps_recountUp (Q := fun u => u.Measured ∧ t.size ≤ u.size ∧
      ∀ n < t.size, u.unexplored n ≤ t.unexplored n) (fun u m hu => ?_) _ t
      ⟨h, le_refl _, fun _ _ => le_refl _⟩
    obtain ⟨hmeasured, hsize, hle⟩ := hu
    obtain ⟨hnext, hless⟩ := hmeasured.recountNode m
    exact ⟨hnext, hsize.trans (u.size_recountNode m).ge,
      fun n hn => (hless n (hn.trans_le hsize)).trans (hle n hn)⟩

theorem calls (h : t.Measured) (l : List Call) : (t.calls l).Measured ∧ t.size ≤ (t.calls l).size ∧
    ∀ n < t.size, (t.calls l).unexplored n ≤ t.unexplored n := by
  induction l generalizing t with
  | nil => exact ⟨h, le_refl _, fun _ _ => le_refl _⟩
  | cons c l ih =>
    obtain ⟨hfirst, hsize, hle⟩ := h.call c
    obtain ⟨hrest, hsize', hle'⟩ := ih hfirst
    exact ⟨hrest, hsize.trans hsize', fun n hn => (hle' n (hn.trans_le hsize)).trans (hle n hn)⟩

end Measured

theorem Built.measured {order : DeliveryOrder} (h : t.Built order) : t.Measured := by
  obtain ⟨l, rfl⟩ := h
  exact ((Measured.empty order).calls l).1

end

end Tree

/-! ### Searches -/

namespace Explorer

/-- An iteration changes the tree by calls only. -/
theorem tree_iterate_eq_calls {F σ μ : Type} [Share F] (x : Explorer F σ μ) :
    ∃ l, x.iterate.2.tree = x.tree.calls l := by
  have hcall : ∀ (c : Tree.Call) (u : Tree F), (∃ l, u = x.tree.calls l) →
      ∃ l, u.call c = x.tree.calls l := by
    rintro c u ⟨l, rfl⟩
    exact ⟨l ++ [c], (x.tree.calls_append l [c]).symm⟩
  have hcourse : ∃ l, x.course.2.2.tree = x.tree.calls l :=
    Iteration.keeps_walk (Q := fun u => ∃ l, u = x.tree.calls l)
      (Walker.keeps_explore (fun u n finished pending => hcall (.observe n finished pending) u)
        (fun u n id => hcall (.branch n id) u) _) ⟨[], rfl⟩
  rw [tree_iterate]
  exact hcall (.recount x.course.2.2.visited) _ hcourse

theorem Reachable.built_runLoop {F σ μ : Type} [Share F] {c : Cluster σ μ} {verifier : Verifier}
    {x : Explorer F σ μ} (h : Reachable c verifier x) (fuel : Nat) :
    (runLoop fuel [] x).2.tree.Built c.config.order :=
  (mem_runLoop (I := fun y => y.tree.Toured c.config.order) (fun _ => toured_iterate) fuel h.toured).1.built

/-- The share of the root does not grow in an iteration. -/
theorem unexplored_iterate_le {σ μ : Type} {order : DeliveryOrder} {x : Explorer Rat σ μ}
    (h : x.tree.Built order) : x.iterate.2.tree.unexplored Tree.root ≤ x.tree.unexplored Tree.root := by
  obtain ⟨l, hl⟩ := x.tree_iterate_eq_calls
  rw [hl]
  exact (h.measured.calls l).2.2 Tree.root h.grown.root.1

end Explorer

namespace Tree

/-- **Unexplored shares measure what is left, and shrink.** In exact fractions, in a tree that was
built by calls in any order, the share of every node is a part of a whole, it is nothing exactly where
the node is explored, and no call makes it grow. So at every iteration of every run of a search, the
test whether the share of the root is no less than before holds exactly if it is the same as before, and
exactly then an iteration that does not fail is followed by one with another switch. -/
theorem unexplored_shrinks :
    (∀ (order : DeliveryOrder) (t : Tree Rat), t.Built order →
      (∀ n < t.size, 0 ≤ t.unexplored n ∧ t.unexplored n ≤ 1) ∧
      (∀ n < t.size, t.unexplored n = 0 ↔ t.isExplored n = true) ∧
      ∀ c, ∀ n < t.size, (t.call c).unexplored n ≤ t.unexplored n) ∧
    ∀ (σ μ : Type) (c : Cluster σ μ) (verifier : Verifier) (x : Explorer Rat σ μ),
      Explorer.Reachable c verifier x → ∀ fuel history y, Explorer.runLoop fuel [] x = (history, y) →
        (Share.le (y.tree.unexplored root) (y.iterate.2.tree.unexplored root) = true ↔
          y.iterate.2.tree.unexplored root = y.tree.unexplored root) ∧
        (y.iterate.1.outcome.isFailure = false → y.iterate.2.switches =
          if y.iterate.2.tree.unexplored root = y.tree.unexplored root then y.switches + 1
          else y.switches) := by
  refine ⟨fun order t hbuilt => ?_, fun σ μ c verifier x hx fuel history y hy => ?_⟩
  · have h := hbuilt.measured
    exact ⟨h.part, h.zero, fun c => (h.call c).2.2⟩
  · have hbuilt := hx.built_runLoop fuel
    rw [hy] at hbuilt
    have hle := Explorer.unexplored_iterate_le hbuilt
    have htest : Share.le (y.tree.unexplored root) (y.iterate.2.tree.unexplored root) = true ↔
        y.iterate.2.tree.unexplored root = y.tree.unexplored root := by
      show decide (_ ≤ _) = true ↔ _
      rw [decide_eq_true_iff]
      exact ⟨fun hge => le_antisymm hle hge, fun heq => heq.ge⟩
    refine ⟨htest, fun hok => ?_⟩
    have hswitches : y.iterate.2.switches = if (!y.iterate.1.outcome.isFailure &&
        Share.le (y.tree.unexplored root) (y.iterate.2.tree.unexplored root)) = true
        then y.switches + 1 else y.switches := rfl
    rw [hswitches, hok, Bool.not_false, Bool.true_and]
    exact if_congr htest rfl rfl

/-- On two peers with nothing to do but to begin, the first iteration leaves one half. The second goes
the same way, for lack of a switch, and so leaves one half again and adds a switch; the third leaves
nothing. -/
theorem unexplored_shrinks_idle :
    let x : Explorer Rat _ _ := Explorer.fresh Broadcast.idle .acceptAll
    let y := (Explorer.runLoop 1 [] x).2
    (∀ c, (y.tree.call c).unexplored root ≤ 1 / 2) ∧
    y.iterate.2.tree.unexplored root = 1 / 2 ∧ y.iterate.2.switches = 1 ∧
    (Explorer.runLoop 3 [] x).2.tree.isExplored root = true := by
  intro x y
  have hnew : Explorer.new Broadcast.idle .acceptAll = .ok x := Explorer.new_eq_fresh rfl
  obtain ⟨hshares, hsearch⟩ := unexplored_shrinks
  have hhalf : y.tree.unexplored root = 1 / 2 := by decide +kernel
  have hsame : y.iterate.2.tree.unexplored root = 1 / 2 := by decide +kernel
  have hlast : (Explorer.runLoop 3 [] x).2.tree.unexplored root = 0 := by decide +kernel
  have hbuilt : ∀ fuel, (Explorer.runLoop fuel [] x).2.tree.Built .fifo :=
    (Explorer.Reachable.new hnew).built_runLoop
  obtain ⟨-, -, hcall⟩ := hshares .fifo y.tree (hbuilt 1)
  obtain ⟨-, hzero, -⟩ := hshares .fifo (Explorer.runLoop 3 [] x).2.tree (hbuilt 3)
  have hrun : Explorer.runLoop 1 [] x = ((Explorer.runLoop 1 [] x).1, y) := (Prod.eta _).symm
  obtain ⟨-, hswitches⟩ := hsearch _ _ _ _ x (.new hnew) 1 _ y hrun
  have hok : y.iterate.1.outcome.isFailure = false := by decide +kernel
  have hnone : y.switches = 0 := by decide +kernel
  have hone := (hswitches hok).trans (if_pos (hsame.trans hhalf.symm))
  rw [hnone] at hone
  exact ⟨fun c => (hcall c root (hbuilt 1).grown.root.1).trans hhalf.le, hsame, hone,
    (hzero root (hbuilt 3).grown.root.1).mp hlast⟩

end Tree

end Interleave
