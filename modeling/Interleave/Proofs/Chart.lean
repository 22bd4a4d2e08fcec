/-
# Charts of the tree

Every node of the tree stands for one execution from the start of an iteration:
the tasks executed so far and the state they led to. A chart says which. In a
charted tree the eligible tasks kept at a node are those of its execution, and
the child by a task stands for the execution with that task added (`Chart`). Visiting
a node and branching off keep the tree charted and never fail (`Chart.observe`,
`Chart.branch`), and every path that is planned can be walked (`Chart.passable_plan`).
-/
import Mathlib.Logic.Function.Basic
import Interleave.Proofs.Walk
import Interleave.Tree.Choice

namespace Interleave

variable {F σ μ : Type}

/-! ### Eligible tasks -/

theorem Tree.mem_of_eligibleViews {order : DeliveryOrder} {finished : Option TaskView}
    {pending : List TaskView} {v : TaskView} (h : v ∈ eligibleViews order finished pending) :
    v ∈ pending := by
  unfold eligibleViews at h
  dsimp only at h
  split at h <;> exact (List.mem_filter.mp h).1

/-- Eligible tasks are pending. -/
theorem Pending.isSome_get?_of_eligible {order : DeliveryOrder} {finished : Option TaskView}
    {p : Pending μ} {id : TaskId} (hid : id ∈ (Tree.eligible order finished p.views).map (·.1)) :
    (p.get? id).isSome := by
  obtain ⟨v, hv, rfl⟩ := Tree.mem_eligible.mp hid
  obtain ⟨t, ht, rfl⟩ := List.mem_map.mp (Tree.mem_of_eligibleViews hv)
  rw [get?, List.find?_isSome]
  exact ⟨t, ht, by simp [Task.view]⟩

/-- Where nothing is pending nothing is eligible. -/
theorem Tree.eligible_of_isEmpty {order : DeliveryOrder} {finished : Option TaskView}
    {p : Pending μ} (h : p.isEmpty = true) : eligible order finished p.views = [] := by
  have hids : (eligible order finished p.views).map (·.1) = [] := by
    refine List.eq_nil_iff_forall_not_mem.mpr fun id hid => ?_
    have hsome := Pending.isSome_get?_of_eligible hid
    simp [Pending.get?, List.isEmpty_iff.mp h] at hsome
  exact List.map_eq_nil_iff.mp hids

/-! ### Executions -/

/-- A point of an execution: the tasks executed so far, and the state they led to. -/
structure Spot (σ μ : Type) where
  tasks : List (Task μ)
  world : World σ μ

namespace Spot

variable {c : Cluster σ μ} {s : Spot σ μ}

/-- The start of an iteration. -/
def start (c : Cluster σ μ) : Spot σ μ := ⟨[], ((World.new c).reset c).forget⟩

def finished (s : Spot σ μ) : Option TaskView := finishedBy none s.tasks

/-- The tasks worth executing next. -/
def choices (c : Cluster σ μ) (s : Spot σ μ) : List (TaskId × TaskKind) :=
  Tree.eligible c.config.order s.finished s.world.pending.views

/-- After one more task, which led to state `w`. -/
def next (s : Spot σ μ) (t : Task μ) (w : World σ μ) : Spot σ μ := ⟨s.tasks ++ [t], w⟩

@[simp] theorem finished_next (t : Task μ) (w : World σ μ) : (s.next t w).finished = some t.view := by
  simp [finished, next, finishedBy]

/-- Whether the execution consists of eligible tasks. -/
def Reached (c : Cluster σ μ) (s : Spot σ μ) : Prop :=
  Schedule c (.eligible c.config.order) none (start c).world s.tasks s.world

theorem reached_start : (start c).Reached c := .nil _ _

theorem Reached.next (h : s.Reached c) {id : TaskId} (hid : id ∈ (s.choices c).map (·.1))
    {t : Task μ} {w : World σ μ} (hadvance : Step.advance c id s.world = (.ok t, w)) :
    (s.next t w).Reached c := by
  obtain rfl := Step.id_of_advance hadvance
  exact h.snoc hid hadvance

end Spot

/-- A chart: node `n` of the tree stands for execution `spot n`. -/
structure Chart (c : Cluster σ μ) (t : Tree F) (spot : Nat → Spot σ μ) : Prop where
  order : t.order = c.config.order
  root : Tree.root < t.size
  start : spot Tree.root = Spot.start c
  visited : ∀ n x l, t.nodes[n]? = some x → x.eligible = some l → l = (spot n).choices c
  child : ∀ n x id m, t.nodes[n]? = some x → x.child? id = some m →
    m < t.size ∧ ∃ y w, Step.advance c id (spot n).world = (.ok y, w) ∧ spot m = (spot n).next y w
  reached : ∀ n < t.size, (spot n).Reached c

/-! ### Growing a tree -/

namespace Tree

theorem lt_size_of_getElem? {t : Tree F} {n : Nat} {x : TreeNode F} (h : t.nodes[n]? = some x) :
    n < t.size := (Array.getElem?_eq_some_iff.mp h).1

variable [Share F]

theorem size_grow (t : Tree F) (n : Nat) (task : TaskId) (kind : TaskKind) :
    (t.grow n task kind).size = t.size + 1 := by
  simp [grow, size]

/-- The new child stands at the end. -/
theorem getElem?_grow_size (t : Tree F) (n : Nat) (task : TaskId) (kind : TaskKind) :
    (t.grow n task kind).nodes[t.size]? = some (TreeNode.fresh (some (task, kind)) (some n)) := by
  unfold grow
  rw [Array.getElem?_push, Array.size_modify]
  exact if_pos rfl

/-- Another node changes in its children only, if at all. -/
theorem getElem?_grow_of_lt (t : Tree F) (n : Nat) (task : TaskId) (kind : TaskKind) {m : Nat}
    (hm : m < t.size) : (t.grow n task kind).nodes[m]? = if n = m then t.nodes[m]?.map fun x =>
      { x with children := Ascending.put task t.size x.children } else t.nodes[m]? := by
  have hne : m ≠ t.nodes.size := Nat.ne_of_lt hm
  unfold grow
  rw [Array.getElem?_push, Array.size_modify, if_neg hne, Array.getElem?_modify]
  rfl

/-- A node of a grown tree is the new child, or it was there before with the same children but for
the new one. -/
theorem of_getElem?_grow {t : Tree F} {n : Nat} {task : TaskId} {kind : TaskKind} {m : Nat}
    {z : TreeNode F} (hz : (t.grow n task kind).nodes[m]? = some z) :
    (m = t.size ∧ z = TreeNode.fresh (some (task, kind)) (some n)) ∨
      ∃ x, t.nodes[m]? = some x ∧ z.eligible = x.eligible ∧ ∀ id j, z.child? id = some j →
        x.child? id = some j ∨ (m = n ∧ id = task ∧ j = t.size) := by
  have hlt := lt_size_of_getElem? hz
  rw [size_grow] at hlt
  rcases Nat.lt_succ_iff_lt_or_eq.mp hlt with hm | rfl
  · refine .inr ?_
    rw [getElem?_grow_of_lt _ _ _ _ hm] at hz
    split at hz
    · rename_i hnm
      obtain ⟨x, hx, rfl⟩ := Option.map_eq_some_iff.mp hz
      refine ⟨x, hx, rfl, fun id j hj => ?_⟩
      rw [TreeNode.child?, Ascending.lookup_put] at hj
      split at hj
      · rename_i heq
        cases hj
        exact .inr ⟨hnm.symm, heq, rfl⟩
      · exact .inl hj
    · exact ⟨z, hz, rfl, fun _ _ hj => .inl hj⟩
  · rw [getElem?_grow_size] at hz
    exact .inl ⟨rfl, (Option.some.inj hz).symm⟩

/-! ### Statistics -/

theorem eligible_recounted (t : Tree F) (x : TreeNode F) (l : List TaskId) :
    (t.recounted x l).eligible = x.eligible := by
  unfold recounted
  split <;> rfl

theorem children_recounted (t : Tree F) (x : TreeNode F) (l : List TaskId) :
    (t.recounted x l).children = x.children := by
  unfold recounted
  split <;> rfl

theorem explored_recounted (t : Tree F) (x : TreeNode F) (l : List TaskId) :
    (t.recounted x l).explored = true ↔ ∀ id ∈ l, t.exploredBehind x id = true := by
  rw [← List.all_eq_true]
  unfold recounted
  split <;> simp_all

/-- Computing a node anew touches no other node, and the node itself only if it was visited. -/
theorem getElem?_recountNode (t : Tree F) (n m : Nat) : (t.recountNode n).2.nodes[m]? =
    if n = m then t.nodes[m]?.map fun x =>
      if x.eligible.isSome then t.recounted x x.eligibleIds else x else t.nodes[m]? := by
  unfold recountNode
  by_cases hnm : n = m
  · subst hnm
    cases hx : t.nodes[n]? with
    | none => simp [hx]
    | some x =>
      cases hl : x.eligible with
      | none => simp [hx, hl]
      | some l => simp [hx, hl, Array.getElem?_modify]
  · cases t.nodes[n]? with
    | none => simp [hnm]
    | some x =>
      cases hl : x.eligible with
      | none => simp [hl, hnm]
      | some l => simp [hl, Array.getElem?_modify, hnm]

theorem size_recountNode (t : Tree F) (n : Nat) : (t.recountNode n).2.size = t.size := by
  unfold recountNode
  split
  · rfl
  · split
    · rfl
    · exact Array.size_modify ..

theorem order_recountNode (t : Tree F) (n : Nat) : (t.recountNode n).2.order = t.order := by
  unfold recountNode
  split
  · rfl
  · split <;> rfl

end Tree

namespace Chart

variable {c : Cluster σ μ} {t t' : Tree F} {spot : Nat → Spot σ μ}

theorem exists_getElem? {n : Nat} (hn : n < t.size) : ∃ x, t.nodes[n]? = some x :=
  ⟨_, Array.getElem?_eq_getElem hn⟩

/-- A chart depends on the children and the eligible tasks only. -/
theorem of_nodes (h : Chart c t spot) (order : t'.order = t.order) (size : t'.size = t.size)
    (nodes : ∀ n x', t'.nodes[n]? = some x' → ∃ x, t.nodes[n]? = some x ∧
      x'.children = x.children ∧
      (x'.eligible = x.eligible ∨ x'.eligible = some ((spot n).choices c))) : Chart c t' spot where
  order := order.trans h.order
  root := by rw [size]; exact h.root
  start := h.start
  visited n x' l hx' hl := by
    obtain ⟨x, hx, -, heligible | heligible⟩ := nodes n x' hx'
    · exact h.visited n x l hx (heligible ▸ hl)
    · rw [heligible] at hl
      exact (Option.some.inj hl).symm
  child n x' id m hx' hm := by
    obtain ⟨x, hx, hchildren, -⟩ := nodes n x' hx'
    rw [size]
    refine h.child n x id m hx ?_
    rw [TreeNode.child?, ← hchildren]
    exact hm
  reached n hn := h.reached n (size ▸ hn)

/-- **Visiting a node never fails in a charted tree.** On the first visit the eligible tasks are
kept, and on every later one the same are found. -/
theorem observe (h : Chart c t spot) {n : Nat} (hn : n < t.size) :
    ∃ t', t.observe n (spot n).finished (spot n).world.pending.views = (.ok (), t') ∧
      Chart c t' spot ∧ t'.size = t.size ∧
      ∃ x, t'.nodes[n]? = some x ∧ x.eligible = some ((spot n).choices c) := by
  obtain ⟨x, hx⟩ := exists_getElem? hn
  have hfound : Tree.eligible t.order (spot n).finished (spot n).world.pending.views =
      (spot n).choices c := by rw [h.order, Spot.choices]
  unfold Tree.observe
  simp only [hx, hfound]
  cases heligible : x.eligible with
  | some known =>
    obtain rfl := h.visited n x known hx heligible
    exact ⟨t, by simp, h, rfl, x, hx, heligible⟩
  | none =>
    refine ⟨_, rfl, h.of_nodes rfl (Array.size_modify ..) ?_, Array.size_modify .., ?_⟩
    · intro m y hy
      simp only [Array.getElem?_modify] at hy
      split at hy
      · rename_i hnm
        obtain ⟨z, hz, rfl⟩ := Option.map_eq_some_iff.mp hy
        exact ⟨z, hz, rfl, .inr (hnm ▸ rfl)⟩
      · exact ⟨y, hy, rfl, .inl rfl⟩
    · simp only [Array.getElem?_modify, if_true, hx]
      exact ⟨_, rfl, rfl⟩

/-- A new child by an eligible task stands for the execution with that task added. -/
theorem grow [Share F] (h : Chart c t spot) {n : Nat} (hn : n < t.size) {id : TaskId}
    (hid : id ∈ ((spot n).choices c).map (·.1)) {y : Task μ} {w : World σ μ}
    (hadvance : Step.advance c id (spot n).world = (.ok y, w)) (kind : TaskKind) :
    Chart c (t.grow n id kind) (Function.update spot t.size ((spot n).next y w)) := by
  have hold : ∀ {m}, m < t.size →
      Function.update spot t.size ((spot n).next y w) m = spot m := fun hm =>
    Function.update_of_ne (Nat.ne_of_lt hm) _ _
  have hsize := t.size_grow n id kind
  refine ⟨h.order, ?_, ?_, ?_, ?_, ?_⟩
  · rw [hsize]
    exact Nat.lt_succ_of_lt h.root
  · rw [hold h.root]
    exact h.start
  · intro m z l hz hl
    obtain ⟨rfl, rfl⟩ | ⟨x, hx, heligible, -⟩ := Tree.of_getElem?_grow hz
    · cases hl
    · rw [hold (Tree.lt_size_of_getElem? hx)]
      exact h.visited m x l hx (heligible ▸ hl)
  · intro m z id' j hz hj
    rw [hsize]
    obtain ⟨rfl, rfl⟩ | ⟨x, hx, -, hchildren⟩ := Tree.of_getElem?_grow hz
    · cases hj
    rw [hold (Tree.lt_size_of_getElem? hx)]
    obtain hj | ⟨rfl, rfl, rfl⟩ := hchildren id' j hj
    · obtain ⟨hlt, y', w', hadvance', hspot⟩ := h.child m x id' j hx hj
      exact ⟨Nat.lt_succ_of_lt hlt, y', w', hadvance', (hold hlt).trans hspot⟩
    · exact ⟨Nat.lt_succ_self _, y, w, hadvance, Function.update_self ..⟩
  · intro m hm
    rcases Nat.lt_succ_iff_lt_or_eq.mp (hsize ▸ hm) with hm | rfl
    · rw [hold hm]
      exact h.reached m hm
    · rw [Function.update_self]
      exact (h.reached n hn).next hid hadvance

/-- **Branching off by an eligible task never fails in a charted tree.** -/
theorem branch [Share F] (h : Chart c t spot) {n : Nat} {x : TreeNode F} (hx : t.nodes[n]? = some x)
    (heligible : x.eligible = some ((spot n).choices c)) {id : TaskId}
    (hid : id ∈ ((spot n).choices c).map (·.1)) {y : Task μ} {w : World σ μ}
    (hadvance : Step.advance c id (spot n).world = (.ok y, w)) :
    ∃ m t' spot', t.branch n id = (.ok m, t') ∧ Chart c t' spot' ∧ t.size ≤ t'.size ∧
      (∀ j < t.size, spot' j = spot j) ∧ m < t'.size ∧ spot' m = (spot n).next y w := by
  unfold Tree.branch
  simp only [hx]
  cases hchild : x.child? id with
  | some m =>
    obtain ⟨hm, y', w', hadvance', hspot⟩ := h.child n x id m hx hchild
    rw [hadvance] at hadvance'
    cases hadvance'
    exact ⟨m, t, spot, rfl, h, Nat.le_refl _, fun _ _ => rfl, hm, hspot⟩
  | none =>
    obtain ⟨kind, hkind⟩ := Ascending.exists_lookup hid
    simp only [heligible, Option.getD_some, hkind]
    have hsize := t.size_grow n id kind
    have hn := Tree.lt_size_of_getElem? hx
    refine ⟨t.size, _, Function.update spot t.size ((spot n).next y w), rfl,
      h.grow hn hid hadvance kind, ?_, ?_, ?_, ?_⟩
    · rw [hsize]
      exact Nat.le_succ _
    · intro j hj
      exact Function.update_of_ne (Nat.ne_of_lt hj) _ _
    · rw [hsize]
      exact Nat.lt_succ_self _
    · exact Function.update_self ..

theorem recountNode [Share F] (h : Chart c t spot) (n : Nat) : Chart c (t.recountNode n).2 spot := by
  refine h.of_nodes (t.order_recountNode n) (t.size_recountNode n) fun m y hy => ?_
  rw [Tree.getElem?_recountNode] at hy
  split at hy
  · obtain ⟨x, hx, rfl⟩ := Option.map_eq_some_iff.mp hy
    refine ⟨x, hx, ?_⟩
    split
    · exact ⟨t.children_recounted x _, .inl (t.eligible_recounted x _)⟩
    · exact ⟨rfl, .inl rfl⟩
  · exact ⟨y, hy, rfl, .inl rfl⟩

/-- The statistics play no part in a chart. -/
theorem recountUp [Share F] : ∀ {l : List Nat} {t : Tree F}, Chart c t spot →
    Chart c (t.recountUp l).2 spot
  | [], _, h => h
  | n :: l, t, h => by
    have hnode := h.recountNode n
    unfold Tree.recountUp
    split
    · rename_i t' ht
      rw [ht] at hnode
      exact recountUp hnode
    · rename_i e t' ht
      rw [ht] at hnode
      exact hnode

/-- The tree of a new search. -/
theorem empty [Share F] (c : Cluster σ μ) :
    Chart c (Tree.empty c.config.order : Tree F) fun _ => Spot.start c := by
  have hfresh : ∀ (n : Nat) (x : TreeNode F), (Tree.empty c.config.order : Tree F).nodes[n]? = some x →
      x = TreeNode.fresh none none := by
    intro n x hx
    cases n with
    | zero => cases hx; rfl
    | succ n => cases hx
  refine ⟨rfl, Nat.zero_lt_one, rfl, fun n x l hx hl => ?_, fun n x id m hx hm => ?_,
    fun _ _ => Spot.reached_start⟩
  · rw [hfresh n x hx] at hl
    cases hl
  · rw [hfresh n x hx] at hm
    cases hm

end Chart

/-! ### Planned paths -/

namespace TreeNode

theorem mem_of_canonical : ∀ {l : List (TaskId × TaskKind)} {a : TaskId × TaskKind},
    canonical l = some a → a ∈ l
  | b :: l, a, h => by
    unfold canonical at h
    split at h
    · cases h
      exact List.mem_cons_self
    · rename_i b' hb'
      cases h
      split
      · exact List.mem_cons_of_mem _ (mem_of_canonical hb')
      · exact List.mem_cons_self

theorem canonical_eq_none_iff {l : List (TaskId × TaskKind)} : canonical l = none ↔ l = [] := by
  cases l with
  | nil => simp [canonical]
  | cons a l => simp only [canonical]; split <;> simp

/-- The canonical choice is eligible, at a visited node. -/
theorem mem_of_next? {x : TreeNode F} {id : TaskId} (h : x.next? = some id) :
    ∃ l, x.eligible = some l ∧ id ∈ l.map (·.1) := by
  obtain ⟨a, ha, rfl⟩ := Option.map_eq_some_iff.mp h
  obtain ⟨l, hl, ha⟩ := Option.bind_eq_some_iff.mp ha
  exact ⟨l, hl, List.mem_map_of_mem (mem_of_canonical ha)⟩

end TreeNode

namespace Tree

variable [Share F] {t : Tree F} {x : TreeNode F}

theorem mem_of_locate {id : TaskId} : ∀ {l : List (TaskId × F)} {point : F},
    locate point l = some id → id ∈ l.map (·.1)
  | e :: l, point, h => by
    unfold locate at h
    split at h
    · exact List.mem_cons_of_mem _ (mem_of_locate h)
    · split at h
      · cases h
        exact List.mem_cons_self
      · exact List.mem_cons_of_mem _ (mem_of_locate h)

theorem mem_of_lastPositive {id : TaskId} {l : List (TaskId × F)} (h : lastPositive l = some id) :
    id ∈ l.map (·.1) := by
  obtain ⟨e, he, rfl⟩ := Option.map_eq_some_iff.mp h
  exact List.mem_map_of_mem (List.mem_reverse.mp (List.mem_of_find?_eq_some he))

/-- What is drawn is eligible. -/
theorem mem_of_draw {s : Source} {id : TaskId} (h : (t.draw x s).1 = some id) :
    id ∈ x.eligibleIds := by
  have hids : (x.eligibleIds.map fun id => (id, t.weight x id)).map (·.1) = x.eligibleIds := by
    simp [Function.comp_def]
  unfold draw at h
  dsimp only at h
  split at h
  · cases h
  · split at h
    · rename_i id' hlocate
      cases h
      exact hids ▸ mem_of_locate hlocate
    · exact hids ▸ mem_of_lastPositive h

theorem mem_of_chooseAt {canonical : TaskId} (h : x.next? = some canonical) (switches : Nat)
    (s : Source) : (t.chooseAt x canonical switches s).1 ∈ x.eligibleIds := by
  obtain ⟨l, hl, hmem⟩ := TreeNode.mem_of_next? h
  have hcanonical : canonical ∈ x.eligibleIds := by
    rw [TreeNode.eligibleIds, hl]
    exact hmem
  unfold chooseAt
  split
  · exact hcanonical
  · cases hdraw : (t.draw x s).1 with
    | none => simpa [hdraw] using hcanonical
    | some id => simpa [hdraw] using mem_of_draw hdraw

end Tree

/-- Whether a path of tasks can be walked from a point: each task is eligible after the ones before
it, as far as they succeed. -/
def Passable (c : Cluster σ μ) : Spot σ μ → List TaskId → Prop
  | _, [] => True
  | s, id :: path => id ∈ (s.choices c).map (·.1) ∧
    ∀ t w, Step.advance c id s.world = (.ok t, w) → Passable c (s.next t w) path

namespace Chart

variable [Share F] {c : Cluster σ μ} {t : Tree F} {spot : Nat → Spot σ μ}

theorem passable_descend (h : Chart c t spot) : ∀ (fuel n switches : Nat) (s : Source),
    Passable c (spot n) (t.descend fuel n switches s).1
  | 0, _, _, _ => trivial
  | fuel + 1, n, switches, s => by
    unfold Tree.descend
    split
    · trivial
    · rename_i x hx
      split
      · trivial
      · rename_i canonical hnext
        obtain ⟨l, hl, -⟩ := TreeNode.mem_of_next? hnext
        obtain rfl := h.visited n x l hx hl
        have hchosen := Tree.mem_of_chooseAt (t := t) hnext switches s
        rw [TreeNode.eligibleIds, hl, Option.getD_some] at hchosen
        dsimp only
        split
        · exact ⟨hchosen, fun _ _ _ => trivial⟩
        · rename_i m hm
          refine ⟨hchosen, fun y w hadvance => ?_⟩
          obtain ⟨-, y', w', hadvance', hspot⟩ := h.child n x _ m hx hm
          rw [hadvance] at hadvance'
          cases hadvance'
          exact hspot ▸ passable_descend h fuel m _ _

/-- **Every planned path can be walked.** -/
theorem passable_plan (h : Chart c t spot) (switches : Nat) (s : Source) :
    Passable c (Spot.start c) (t.plan switches s).1 :=
  h.start ▸ h.passable_descend t.size Tree.root switches s

end Chart

end Interleave
