/-
# What the explored marks stand for

A node is marked as explored when all of its eligible tasks lead to marked nodes.
A mark is deserved if that is so and, where nothing is eligible, if the node has
been certified, for any notion of certificate (`Marks`). Visiting nodes and branching
off keep all marks deserved (`Marks.observe`, `Marks.branch`), and so does computing the
statistics anew along a path whose ends are certified (`Marks.recountUp`).

While an iteration is under way the tree changes by visits and branches only
(`Walker.keeps_explore`), and a replay does not change it at all
(`Iteration.tree_walk_replay`).
-/
import Interleave.Proofs.Chart

namespace Interleave

variable {F σ μ α β : Type}

/-- All marks of a tree are deserved: a marked node was visited, its eligible tasks lead to marked
nodes, and if it has none the node is certified. -/
def Marks (certified : Nat → Prop) (t : Tree F) : Prop :=
  ∀ n x, t.nodes[n]? = some x → x.explored = true → x.eligible.isSome ∧
    (∀ id ∈ x.eligibleIds, t.exploredBehind x id = true) ∧ (x.eligibleIds = [] → certified n)

namespace Tree

theorem isExplored_iff {t : Tree F} {n : Nat} :
    t.isExplored n = true ↔ ∃ x, t.nodes[n]? = some x ∧ x.explored = true := by
  cases h : t.nodes[n]? <;> simp [isExplored, h]

theorem exploredBehind_iff {t : Tree F} {x : TreeNode F} {id : TaskId} :
    t.exploredBehind x id = true ↔ ∃ m, x.child? id = some m ∧ t.isExplored m = true := by
  unfold exploredBehind
  cases x.child? id <;> simp

/-- More marks, more behind. -/
theorem exploredBehind_mono {t t' : Tree F} (h : ∀ n, t.isExplored n = true → t'.isExplored n = true)
    {x : TreeNode F} {id : TaskId} (hx : t.exploredBehind x id = true) :
    t'.exploredBehind x id = true := by
  obtain ⟨m, hm, hexplored⟩ := exploredBehind_iff.mp hx
  exact exploredBehind_iff.mpr ⟨m, hm, h m hexplored⟩

end Tree

namespace Marks

variable {certified certified' : Nat → Prop} {t t' : Tree F}

theorem mono (h : Marks certified t) (himp : ∀ n < t.size, certified n → certified' n) :
    Marks certified' t := by
  intro n x hx hexplored
  obtain ⟨hvisited, hbehind, hleaf⟩ := h n x hx hexplored
  exact ⟨hvisited, hbehind, fun hnil => himp n (Tree.lt_size_of_getElem? hx) (hleaf hnil)⟩

/-- Changes to nodes without a mark, before and after, leave all marks deserved. -/
theorem of_same (h : Marks certified t)
    (same : ∀ (n : Nat) (x : TreeNode F), x.explored = true → (t'.nodes[n]? = some x ↔ t.nodes[n]? = some x)) :
    Marks certified t' := by
  have hkeeps : ∀ n, t.isExplored n = true → t'.isExplored n = true := by
    intro n hn
    obtain ⟨x, hx, hmarked⟩ := Tree.isExplored_iff.mp hn
    exact Tree.isExplored_iff.mpr ⟨x, (same n x hmarked).mpr hx, hmarked⟩
  intro n x hx hmarked
  obtain ⟨hvisited, hbehind, hleaf⟩ := h n x ((same n x hmarked).mp hx) hmarked
  exact ⟨hvisited, fun id hid => Tree.exploredBehind_mono hkeeps (hbehind id hid), hleaf⟩

theorem observe (h : Marks certified t) (n : Nat) (finished : Option TaskView)
    (pending : List TaskView) : Marks certified (t.observe n finished pending).2 := by
  unfold Tree.observe
  dsimp only
  split
  · exact h
  rename_i x hx
  split
  · rename_i hnone
    -- a node visited for the first time has no mark
    have hmark : x.explored ≠ true := fun hmarked => by
      have hvisited := (h n x hx hmarked).1
      rw [hnone] at hvisited
      cases hvisited
    refine h.of_same fun m y hy => ?_
    simp only [Array.getElem?_modify]
    split
    · rename_i hnm
      subst hnm
      rw [hx]
      constructor
      · rintro ⟨⟩
        exact absurd hy hmark
      · rintro ⟨⟩
        exact absurd hy hmark
    · exact Iff.rfl
  · split <;> exact h

variable [Share F]

theorem branch (h : Marks certified t) (n : Nat) (id : TaskId) :
    Marks certified (t.branch n id).2 := by
  unfold Tree.branch
  split
  · exact h
  rename_i x hx
  split
  · exact h
  rename_i hchild
  split
  · exact h
  rename_i kind hkind
  -- a node with an eligible task not tried has no mark
  have hmark : x.explored ≠ true := fun hmarked => by
    have hid : id ∈ x.eligibleIds := by
      obtain ⟨e, he, -⟩ := Option.map_eq_some_iff.mp hkind
      have hkey : e.1 = id := by simpa using List.find?_some he
      exact hkey ▸ List.mem_map_of_mem (List.mem_of_find?_eq_some he)
    obtain ⟨m, hm, -⟩ := Tree.exploredBehind_iff.mp ((h n x hx hmarked).2.1 id hid)
    rw [hchild] at hm
    cases hm
  refine h.of_same fun m y hy => ?_
  by_cases hm : m < t.size
  · rw [Tree.getElem?_grow_of_lt t n id kind hm]
    split
    · rename_i hnm
      subst hnm
      rw [hx]
      constructor
      · rintro ⟨⟩
        exact absurd hy hmark
      · rintro ⟨⟩
        exact absurd hy hmark
    · exact Iff.rfl
  · constructor
    · intro hnew
      have hlt := Tree.lt_size_of_getElem? hnew
      rw [Tree.size_grow] at hlt
      obtain rfl : m = t.size := by omega
      rw [Tree.getElem?_grow_size] at hnew
      cases hnew
      cases hy
    · exact fun hold => absurd (Tree.lt_size_of_getElem? hold) hm

/-! ### Computing the statistics anew -/

/-- A deserved mark stays when a node is computed anew. -/
theorem isExplored_recountNode (h : Marks certified t) (n : Nat) {m : Nat}
    (hm : t.isExplored m = true) : (t.recountNode n).2.isExplored m = true := by
  obtain ⟨x, hx, hmarked⟩ := Tree.isExplored_iff.mp hm
  obtain ⟨hvisited, hbehind, -⟩ := h m x hx hmarked
  rw [Tree.isExplored_iff, Tree.getElem?_recountNode, hx]
  split
  · refine ⟨_, rfl, ?_⟩
    dsimp only
    rw [if_pos hvisited, Tree.explored_recounted]
    exact hbehind
  · exact ⟨x, rfl, hmarked⟩

/-- Computing a node anew, which is certified if nothing is eligible at it. -/
theorem recountNode (h : Marks certified t) {n : Nat}
    (hleaf : ∀ x, t.nodes[n]? = some x → x.eligible = some [] → certified n) :
    Marks certified (t.recountNode n).2 := by
  have hkeeps : ∀ m, t.isExplored m = true → (t.recountNode n).2.isExplored m = true :=
    fun m hm => h.isExplored_recountNode n hm
  have hold : ∀ m x, t.nodes[m]? = some x → x.explored = true → x.eligible.isSome ∧
      (∀ id ∈ x.eligibleIds, (t.recountNode n).2.exploredBehind x id = true) ∧
        (x.eligibleIds = [] → certified m) := by
    intro m x hx hmarked
    obtain ⟨hvisited, hbehind, hcertified⟩ := h m x hx hmarked
    exact ⟨hvisited, fun id hid => Tree.exploredBehind_mono hkeeps (hbehind id hid), hcertified⟩
  intro m y hy hmarked
  rw [Tree.getElem?_recountNode] at hy
  split at hy
  · rename_i hnm
    subst hnm
    obtain ⟨x, hx, rfl⟩ := Option.map_eq_some_iff.mp hy
    split at hmarked
    · rename_i hvisited
      obtain ⟨l, hl⟩ := Option.isSome_iff_exists.mp hvisited
      have hids : x.eligibleIds = l.map (·.1) := by rw [TreeNode.eligibleIds, hl, Option.getD_some]
      have hids' : (t.recounted x x.eligibleIds).eligibleIds = x.eligibleIds := by
        rw [TreeNode.eligibleIds, Tree.eligible_recounted, TreeNode.eligibleIds]
      rw [if_pos hvisited, hids', Tree.eligible_recounted]
      refine ⟨hvisited, fun id hid => ?_, fun hnil => hleaf x hx ?_⟩
      · have hbehind := Tree.exploredBehind_mono hkeeps
          ((t.explored_recounted x _).mp hmarked id hid)
        unfold Tree.exploredBehind TreeNode.child? at hbehind ⊢
        rw [Tree.children_recounted]
        exact hbehind
      · rw [hids] at hnil
        rw [hl, List.map_eq_nil_iff.mp hnil]
    · rename_i hvisited
      rw [if_neg hvisited]
      exact hold n x hx hmarked
  · exact hold m y hy hmarked

theorem recountUp : ∀ {l : List Nat} {t : Tree F}, Marks certified t →
    (∀ n ∈ l, ∀ x, t.nodes[n]? = some x → x.eligible = some [] → certified n) →
    Marks certified (t.recountUp l).2
  | [], _, h, _ => h
  | n :: l, t, h, hleaf => by
    have hnode := h.recountNode (hleaf n List.mem_cons_self)
    have hrest : ∀ m ∈ l, ∀ y, (t.recountNode n).2.nodes[m]? = some y → y.eligible = some [] →
        certified m := by
      intro m hm y hy hnil
      rw [Tree.getElem?_recountNode] at hy
      split at hy
      · obtain ⟨x, hx, rfl⟩ := Option.map_eq_some_iff.mp hy
        refine hleaf m (List.mem_cons_of_mem _ hm) x hx ?_
        split at hnil
        · rwa [Tree.eligible_recounted] at hnil
        · exact hnil
      · exact hleaf m (List.mem_cons_of_mem _ hm) y hy hnil
    unfold Tree.recountUp
    split
    · rename_i t' ht
      rw [ht] at hnode hrest
      exact recountUp hnode hrest
    · rename_i e t' ht
      rw [ht] at hnode
      exact hnode

end Marks

/-! ### What changes the tree -/

namespace Walker

open Attempt

variable {Q : Tree F → Prop} {c : Cluster σ μ}

/-- A property of the tree that a computation keeps, whether it fails or not. -/
def Keeps (Q : Tree F → Prop) (s : Walker F σ μ α) : Prop := ∀ k, Q k.tree → Q (s k).2.tree

theorem keeps_pure (a : α) : Keeps Q (pure a : Walker F σ μ α) := fun _ h => h

theorem keeps_throw (e : Abort) : Keeps Q (throw e : Walker F σ μ α) := fun _ h => h

theorem Keeps.bind {s : Walker F σ μ α} {f : α → Walker F σ μ β} (hs : Keeps Q s)
    (hf : ∀ a, Keeps Q (f a)) : Keeps Q (s >>= f) :=
  Attempt.Keeps.bind (I := fun k : Walk F σ μ => Q k.tree) hs hf

theorem keeps_read {f : Walk F σ μ → Walker F σ μ β} (hf : ∀ k, Keeps Q (f k)) :
    Keeps Q (get >>= f) := fun k hk => hf k k hk

theorem keeps_modify {g : Walk F σ μ → Walk F σ μ} (hg : ∀ k, (g k).tree = k.tree) :
    Keeps Q (modify g : Walker F σ μ PUnit) := fun k hk => by
  rw [modify_apply, hg]
  exact hk

theorem keeps_onTree {f : Tree F → Except TreeError α × Tree F} (hf : ∀ t, Q t → Q (f t).2) :
    Keeps Q (onTree f : Walker F σ μ α) := fun k hk => hf k.tree hk

theorem keeps_execute (id : TaskId) : Keeps Q (execute c id : Walker F σ μ TaskView) := by
  intro k hk
  rw [execute_apply]
  split
  · exact hk
  · split
    · exact hk
    · split <;> exact hk

theorem keeps_drainLoop : ∀ n, Keeps Q (drainLoop c n : Walker F σ μ Unit)
  | 0 => by
    refine keeps_read fun k => ?_
    split
    · exact keeps_throw _
    · exact keeps_pure _
  | n + 1 => by
    refine keeps_read fun k => ?_
    split
    · exact keeps_pure _
    · exact (keeps_execute _).bind fun _ => keeps_drainLoop n

theorem keeps_drain : Keeps Q (drain c : Walker F σ μ Unit) := keeps_read fun _ => keeps_drainLoop _

theorem keeps_endScenario : Keeps Q (endScenario c : Walker F σ μ Unit) := by
  intro k hk
  unfold endScenario
  rw [get_bind]
  rcases tellAll c ((List.range k.world.size).map NodeId.ofIndex) k.world with ⟨_ | e, w⟩
  · exact keeps_drain { k with world := w } hk
  · exact hk

theorem keeps_replay (path : List TaskId) :
    Keeps Q (replay c path : Walker F σ μ Bool) := by
  have hpath : ∀ l : List TaskId,
      Keeps Q (l.forM fun id => (do let _ ← execute c id : Walker F σ μ Unit)) := by
    intro l
    induction l with
    | nil => exact keeps_pure _
    | cons id l ih => exact ((keeps_execute id).bind fun _ => keeps_pure ()).bind fun _ => ih
  exact (hpath path).bind fun _ => keeps_drain.bind fun _ => keeps_pure false

variable [Share F]

/-- Exploring changes the tree by visiting nodes and branching off only. -/
theorem keeps_exploreLoop (hobserve : ∀ t n finished pending, Q t →
    Q (Tree.observe t n finished pending).2) (hbranch : ∀ t n id, Q t → Q (Tree.branch t n id).2) :
    ∀ fuel n path, Keeps Q (exploreLoop c fuel n path : Walker F σ μ Bool)
  | 0, n, path => by
    refine keeps_read fun k => ?_
    split
    · exact keeps_pure _
    · exact keeps_throw _
  | fuel + 1, n, path => by
    refine keeps_read fun k => ?_
    split
    · exact keeps_pure _
    refine keeps_read fun k' => ?_
    split
    · exact keeps_drain.bind fun _ => keeps_pure _
    refine (keeps_execute _).bind fun info => ?_
    refine Keeps.bind (keeps_onTree fun t ht => hbranch t n _ ht) fun m => ?_
    refine Keeps.bind (keeps_modify fun _ => rfl) fun _ => ?_
    refine Keeps.bind (keeps_read fun k'' => keeps_onTree fun t ht => hobserve t m _ _ ht) fun _ => ?_
    exact keeps_exploreLoop hobserve hbranch fuel m _

theorem keeps_explore (hobserve : ∀ t n finished pending, Q t →
    Q (Tree.observe t n finished pending).2) (hbranch : ∀ t n id, Q t → Q (Tree.branch t n id).2)
    (path : List TaskId) : Keeps Q (explore c path : Walker F σ μ Bool) := by
  refine Keeps.bind (keeps_read fun k => keeps_onTree fun t ht => hobserve t _ _ _ ht) fun _ => ?_
  refine Keeps.bind (keeps_modify fun _ => rfl) fun _ => ?_
  exact keeps_read fun k => keeps_exploreLoop hobserve hbranch _ _ _

end Walker

namespace Iteration

variable {c : Cluster σ μ}

theorem keeps_walk {Q : Tree F → Prop} {tasks : Walker F σ μ Bool}
    (htasks : Walker.Keeps Q tasks) {k : Walk F σ μ} (hk : Q k.tree) :
    Q (walk c tasks k).2.2.tree := by
  have hmid := htasks k hk
  unfold walk
  rcases hrun : tasks k with ⟨e | b, mid⟩
  · rw [hrun] at hmid
    exact hmid
  · rw [hrun] at hmid
    have hlast := Walker.keeps_endScenario (c := c) mid hmid
    dsimp only
    rcases hend : Walker.endScenario c mid with ⟨e | u, last⟩ <;> rw [hend] at hlast <;> exact hlast

/-- A replay ends with the tree it was given. -/
theorem tree_walk_replay (c : Cluster σ μ) (path : List TaskId) (tree : Tree F) (w : World σ μ) :
    (walk c (Walker.replay c path) (start c tree w)).2.2.tree = tree :=
  keeps_walk (Q := (· = tree)) (Walker.keeps_replay path) rfl

end Iteration

end Interleave
