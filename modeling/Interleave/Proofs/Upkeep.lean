/-
# The upkeep of explored marks

A mark says that all walks of eligible choices below a node exist in the tree and
end. It is kept at the node and computed anew only where an iteration passed, while
the tree grows elsewhere. This is sound in whatever order nodes are visited, branched
off and computed anew: what a mark rests on never changes again, so a mark is
deserved when it is set and stays for good.

The other way round, a node that deserves a mark may lack it for a while. Such a node
is stale. Whatever an iteration does on its way down makes only nodes on that way
stale, and to compute a node anew makes none stale but its parent. So if each
iteration computes its whole way anew, from the bottom up to the root, it leaves
nothing stale, and a node is marked exactly when it deserves it.

Key definitions: `Tree.Call`, `Tree.Built`, `Tree.Grown`, `Tree.Exhausted`, `Tree.Stale`,
`Tree.Tour`, `Tree.Toured`.
Key theorems: `Tree.Grown.call`, `Tree.Honest.calls`, `Tree.Honest.exhausted`,
`Tree.stale_recountNode`, `Tree.Toured.not_stale`, `Tree.isExplored_of_exhausted`,
`Explorer.Reachable.toured`, `Tree.explored_exact_and_final`.
-/
import Interleave.Proofs.Conduct
import Interleave.Proofs.Coverage

namespace Interleave

variable {F σ μ : Type}

namespace Tree

/-! ### What can be read off a node -/

/-- What is eligible at node `n`; none before the first visit. -/
def choices? (t : Tree F) (n : Nat) : Option (List (TaskId × TaskKind)) :=
  t.nodes[n]?.bind (·.eligible)

/-- The child of node `n` by a task. -/
def child? (t : Tree F) (n : Nat) (id : TaskId) : Option Nat := t.nodes[n]?.bind (·.child? id)

/-- Node `n` was visited, and all that is eligible there leads to marked nodes. -/
def Due (t : Tree F) (n : Nat) : Prop :=
  ∃ l, t.choices? n = some l ∧ ∀ e ∈ l, ∃ m, t.child? n e.1 = some m ∧ t.isExplored m = true

/-- Node `n` deserves a mark and has none. -/
def Stale (t : Tree F) (n : Nat) : Prop := t.Due n ∧ t.isExplored n = false

section

variable {t t' : Tree F} {n m : Nat} {id : TaskId}

theorem eligibleIds_eq (t : Tree F) (n : Nat) :
    t.eligibleIds n = ((t.choices? n).getD []).map (·.1) := by
  unfold eligibleIds choices?
  cases t.nodes[n]? <;> rfl

theorem Due.congr (h : t.Due n) (hchoices : t'.choices? n = t.choices? n)
    (hchild : ∀ id, t'.child? n id = t.child? n id)
    (hexplored : ∀ id m, t.child? n id = some m → t'.isExplored m = t.isExplored m) : t'.Due n := by
  obtain ⟨l, hl, hall⟩ := h
  refine ⟨l, hchoices.trans hl, fun e he => ?_⟩
  obtain ⟨m, hm, hmarked⟩ := hall e he
  exact ⟨m, (hchild e.1).trans hm, (hexplored e.1 m hm).trans hmarked⟩

theorem lt_size_of_parent? (h : t.parent? m = some n) : m < t.size := by
  obtain ⟨y, hy, -⟩ := Option.bind_eq_some_iff.mp h
  exact lt_size_of_getElem? hy

theorem legal_cons_iff {path : List TaskId} : t.Legal n (id :: path) ↔ id ∈ t.eligibleIds n ∧
    (∀ m, t.child? n id = some m → t.Legal m path) ∧ (t.child? n id = none → path = []) := by
  rw [Legal, eligibleIds, child?]
  cases t.nodes[n]? with
  | none => simp
  | some x => cases hchild : x.child? id <;> simp [hchild]

theorem trailFrom_cons (t : Tree F) (n : Nat) (id : TaskId) (path : List TaskId) :
    t.trailFrom n (id :: path) = (t.child? n id).bind fun m => (t.trailFrom m path).map (n :: ·) := by
  rw [trailFrom, child?]
  cases t.nodes[n]?.bind (·.child? id) <;> rfl

end

/-! ### What each call changes -/

/-- A call that may change a tree. -/
inductive Call where
  | observe (n : Nat) (finished : Option TaskView) (pending : List TaskView)
  | branch (n : Nat) (task : TaskId)
  /-- The path is listed from the root down. -/
  | recount (path : List Nat)

/-- A visit changes nothing but what is eligible at its node. -/
theorem observe_frame (t : Tree F) (n : Nat) (finished : Option TaskView) (pending : List TaskView) :
    (t.observe n finished pending).2.size = t.size ∧
    (∀ m id, (t.observe n finished pending).2.child? m id = t.child? m id) ∧
    (∀ m, (t.observe n finished pending).2.parent? m = t.parent? m) ∧
    (∀ m, (t.observe n finished pending).2.isExplored m = t.isExplored m) ∧
    ∀ m, m ≠ n → (t.observe n finished pending).2.choices? m = t.choices? m := by
  unfold observe
  dsimp only
  split
  · exact ⟨rfl, fun _ _ => rfl, fun _ => rfl, fun _ => rfl, fun _ _ => rfl⟩
  · rename_i x hx
    split
    · refine ⟨Array.size_modify .., fun m id => ?_, fun m => ?_, fun m => ?_, fun m hm => ?_⟩
      all_goals simp only [child?, parent?, isExplored, choices?, Array.getElem?_modify]
      · split <;> cases t.nodes[m]? <;> rfl
      · split <;> cases t.nodes[m]? <;> rfl
      · split <;> cases t.nodes[m]? <;> rfl
      · rw [if_neg (Ne.symm hm)]
    · split <;> exact ⟨rfl, fun _ _ => rfl, fun _ => rfl, fun _ => rfl, fun _ _ => rfl⟩

/-! ### Parents and children -/

/-- The root has no parent, and a child stands after its parent and knows it. -/
structure Grown (t : Tree F) : Prop where
  root : root < t.size ∧ t.parent? root = none
  child : ∀ {n id m}, t.child? n id = some m → n < m ∧ t.parent? m = some n

namespace Grown

variable {t t' : Tree F}

theorem congr (h : t.Grown) (hsize : t'.size = t.size) (hparent : ∀ m, t'.parent? m = t.parent? m)
    (hchild : ∀ m id, t'.child? m id = t.child? m id) : t'.Grown := by
  refine ⟨?_, fun {n id m} hm => ?_⟩
  · rw [hsize, hparent]
    exact h.root
  · rw [hchild] at hm
    rw [hparent]
    exact h.child hm

theorem observe (h : t.Grown) (n : Nat) (finished : Option TaskView) (pending : List TaskView) :
    (t.observe n finished pending).2.Grown := by
  obtain ⟨hsize, hchild, hparent, -, -⟩ := t.observe_frame n finished pending
  exact h.congr hsize hparent hchild

end Grown

variable [Share F]

/-- The tree that a call leaves, whether it fails or not. -/
def call (t : Tree F) : Call → Tree F
  | .observe n finished pending => (t.observe n finished pending).2
  | .branch n task => (t.branch n task).2
  | .recount path => (t.recount path).2

/-- The tree that calls leave, in order. -/
def calls (t : Tree F) (l : List Call) : Tree F := l.foldl call t

theorem calls_append (t : Tree F) (l l' : List Call) : t.calls (l ++ l') = (t.calls l).calls l' :=
  List.foldl_append

/-- The tree was built by calls in any order. -/
def Built (order : DeliveryOrder) (t : Tree F) : Prop := ∃ l, (empty order).calls l = t

section

variable {t : Tree F} {n : Nat}

theorem getElem?_grow (t : Tree F) (n : Nat) (task : TaskId) (kind : TaskKind) (m : Nat) :
    (t.grow n task kind).nodes[m]? =
      if m = t.size then some (TreeNode.fresh (some (task, kind)) (some n))
      else if n = m then
        t.nodes[m]?.map fun x => { x with children := Ascending.put task t.size x.children }
      else t.nodes[m]? := by
  unfold grow
  rw [Array.getElem?_push, Array.size_modify, Array.getElem?_modify]
  rfl

/-- A new child is all that a tree grows by. -/
theorem grow_frame (hn : n < t.size) (task : TaskId) (kind : TaskKind) :
    (∀ m, (t.grow n task kind).choices? m = t.choices? m) ∧
    (∀ m, (t.grow n task kind).isExplored m = t.isExplored m) ∧
    (∀ m id, (t.grow n task kind).child? m id =
      if m = n ∧ id = task then some t.size else t.child? m id) ∧
    ∀ m, (t.grow n task kind).parent? m = if m = t.size then some n else t.parent? m := by
  have hend : t.nodes[t.size]? = none := Array.getElem?_eq_none (Nat.le_refl _)
  refine ⟨fun m => ?_, fun m => ?_, fun m id => ?_, fun m => ?_⟩
  all_goals simp only [choices?, isExplored, child?, parent?, getElem?_grow]
  all_goals by_cases hm : m = t.size
  · simp [hm, hend, TreeNode.fresh]
  · rw [if_neg hm]
    split <;> cases t.nodes[m]? <;> rfl
  · simp [hm, hend, TreeNode.fresh]
  · rw [if_neg hm]
    split <;> cases t.nodes[m]? <;> rfl
  · simp [hm, hend, TreeNode.fresh, TreeNode.child?, Ascending.lookup, Nat.ne_of_gt hn]
  · rw [if_neg hm]
    by_cases hnm : n = m
    · subst hnm
      obtain ⟨x, hx⟩ := Chart.exists_getElem? hn
      simp [hx, TreeNode.child?, Ascending.lookup_put]
    · simp [hnm, Ne.symm hnm]
  · simp [hm, TreeNode.fresh]
  · rw [if_neg hm, if_neg hm]
    split <;> cases t.nodes[m]? <;> rfl

/-- Branching off finds a child or makes one, if it does anything. -/
theorem branch_cases (t : Tree F) (n : Nat) (id : TaskId) :
    (∃ m, t.branch n id = (.ok m, t) ∧ t.child? n id = some m) ∨
    (∃ e, t.branch n id = (.error e, t)) ∨
    ∃ kind, t.branch n id = (.ok t.size, t.grow n id kind) ∧ n < t.size := by
  unfold branch child?
  cases hx : t.nodes[n]? with
  | none => exact .inr (.inl ⟨_, rfl⟩)
  | some x =>
    cases hchild : x.child? id with
    | some m => exact .inl ⟨m, by simp [hchild], hchild⟩
    | none =>
      refine .inr ?_
      simp only [hchild]
      cases Ascending.lookup id (x.eligible.getD []) with
      | none => exact .inl ⟨_, rfl⟩
      | some kind => exact .inr ⟨kind, rfl, lt_size_of_getElem? hx⟩

/-- To compute a node anew changes nothing but its own mark. -/
theorem recountNode_frame (t : Tree F) (n : Nat) :
    (∀ m, (t.recountNode n).2.choices? m = t.choices? m) ∧
    (∀ m id, (t.recountNode n).2.child? m id = t.child? m id) ∧
    (∀ m, (t.recountNode n).2.parent? m = t.parent? m) ∧
    ∀ m, m ≠ n → (t.recountNode n).2.isExplored m = t.isExplored m := by
  have hparent : ∀ (x : TreeNode F) l, (t.recounted x l).parent = x.parent := by
    intro x l
    unfold recounted
    split <;> rfl
  refine ⟨fun m => ?_, fun m id => ?_, fun m => ?_, fun m hm => ?_⟩
  all_goals simp only [choices?, child?, parent?, isExplored, getElem?_recountNode]
  · split
    · cases t.nodes[m]? with
      | none => rfl
      | some x => by_cases hx : x.eligible.isSome <;> simp [hx, eligible_recounted]
    · rfl
  · split
    · cases t.nodes[m]? with
      | none => rfl
      | some x =>
        by_cases hx : x.eligible.isSome <;> simp [hx, TreeNode.child?, children_recounted]
    · rfl
  · split
    · cases t.nodes[m]? with
      | none => rfl
      | some x => by_cases hx : x.eligible.isSome <;> simp [hx, hparent]
    · rfl
  · rw [if_neg (Ne.symm hm)]

end

/-- What to compute a node anew keeps is kept along any path. -/
theorem keeps_recountUp {Q : Tree F → Prop} (hnode : ∀ t n, Q t → Q (recountNode t n).2) :
    ∀ (l : List Nat) (t : Tree F), Q t → Q (t.recountUp l).2
  | [], _, h => h
  | n :: l, t, h => by
    have hfirst := hnode t n h
    unfold recountUp
    split
    · rename_i t' ht
      rw [ht] at hfirst
      exact keeps_recountUp hnode l t' hfirst
    · rename_i ht
      rw [ht] at hfirst
      exact hfirst

/-! ### Keeping parents and children -/

namespace Grown

variable {t : Tree F}

theorem empty (order : DeliveryOrder) : (Tree.empty order : Tree F).Grown := by
  refine ⟨⟨Nat.zero_lt_one, rfl⟩, fun {n id m} hm => ?_⟩
  cases n with
  | zero => cases hm
  | succ n => cases hm

theorem grow (h : t.Grown) {n : Nat} (hn : n < t.size) (task : TaskId) (kind : TaskKind) :
    (t.grow n task kind).Grown := by
  obtain ⟨-, -, hchild, hparent⟩ := grow_frame hn task kind
  have hroot := h.root
  refine ⟨⟨?_, ?_⟩, fun {p id m} hm => ?_⟩
  · rw [size_grow]
    omega
  · rw [hparent, if_neg (by omega)]
    exact hroot.2
  · rw [hchild] at hm
    rw [hparent]
    split at hm
    · rename_i hnew
      cases hm
      rw [if_pos rfl, hnew.1]
      exact ⟨hn, rfl⟩
    · obtain ⟨hlt, hknows⟩ := h.child hm
      have hm := lt_size_of_parent? hknows
      rw [if_neg (by omega)]
      exact ⟨hlt, hknows⟩

theorem branch (h : t.Grown) (n : Nat) (id : TaskId) : (t.branch n id).2.Grown := by
  rcases t.branch_cases n id with ⟨m, hbranch, -⟩ | ⟨e, hbranch⟩ | ⟨kind, hbranch, hn⟩
  · rw [hbranch]
    exact h
  · rw [hbranch]
    exact h
  · rw [hbranch]
    exact h.grow hn id kind

theorem recountNode (h : t.Grown) (n : Nat) : (t.recountNode n).2.Grown := by
  obtain ⟨-, hchild, hparent, -⟩ := t.recountNode_frame n
  exact h.congr (t.size_recountNode n) hparent hchild

theorem call (h : t.Grown) (c : Call) : (t.call c).Grown := by
  cases c with
  | observe n finished pending => exact h.observe n finished pending
  | branch n task => exact h.branch n task
  | recount path => exact keeps_recountUp (fun _ n ht => ht.recountNode n) _ t h

theorem calls (h : t.Grown) (l : List Call) : (t.calls l).Grown := by
  induction l generalizing t with
  | nil => exact h
  | cons c l ih => exact ih (h.call c)

end Grown

theorem Built.grown {order : DeliveryOrder} {t : Tree F} (h : t.Built order) : t.Grown := by
  obtain ⟨l, rfl⟩ := h
  exact (Grown.empty order).calls l

end Tree

/-! ### Marks that stay -/

/-- All marks of the tree are deserved. -/
abbrev Tree.Honest (t : Tree F) : Prop := Marks (fun _ => True) t

namespace Tree.Honest

variable {t : Tree F} {n : Nat}

theorem due (h : t.Honest) (hn : t.isExplored n = true) : t.Due n := by
  obtain ⟨x, hx, hmarked⟩ := isExplored_iff.mp hn
  obtain ⟨hvisited, hbehind, -⟩ := h n x hx hmarked
  obtain ⟨l, hl⟩ := Option.isSome_iff_exists.mp hvisited
  refine ⟨l, by simp [choices?, hx, hl], fun e he => ?_⟩
  have hid : e.1 ∈ x.eligibleIds := by
    rw [TreeNode.eligibleIds, hl]
    exact List.mem_map_of_mem he
  obtain ⟨m, hm, hexplored⟩ := exploredBehind_iff.mp (hbehind e.1 hid)
  exact ⟨m, by rw [child?, hx]; exact hm, hexplored⟩

variable [Share F]

theorem empty (order : DeliveryOrder) : (Tree.empty order : Tree F).Honest := by
  intro n x hx hmarked
  cases n with
  | zero =>
    cases hx
    cases hmarked
  | succ n => cases hx

theorem recountNode (h : t.Honest) (n : Nat) : (t.recountNode n).2.Honest :=
  Marks.recountNode h fun _ _ _ => trivial

/-- Marks are deserved and stay, whatever is called. -/
theorem call (h : t.Honest) (c : Call) :
    (t.call c).Honest ∧ ∀ n, t.isExplored n = true → (t.call c).isExplored n = true := by
  cases c with
  | observe m finished pending =>
    refine ⟨Marks.observe h m finished pending, fun n hn => ?_⟩
    obtain ⟨-, -, -, hexplored, -⟩ := t.observe_frame m finished pending
    exact (hexplored n).trans hn
  | branch m task =>
    refine ⟨Marks.branch h m task, fun n hn => ?_⟩
    show (t.branch m task).2.isExplored n = true
    rcases t.branch_cases m task with ⟨k, hbranch, -⟩ | ⟨e, hbranch⟩ | ⟨kind, hbranch, hm⟩
    · rwa [hbranch]
    · rwa [hbranch]
    · rw [hbranch]
      exact ((grow_frame hm task kind).2.1 n).trans hn
  | recount path =>
    refine keeps_recountUp (Q := fun u => u.Honest ∧ ∀ n, t.isExplored n = true →
      u.isExplored n = true) (fun u m hu => ?_) _ t ⟨h, fun _ hn => hn⟩
    exact ⟨hu.1.recountNode m, fun n hn => Marks.isExplored_recountNode hu.1 m (hu.2 n hn)⟩

theorem calls (h : t.Honest) (l : List Call) :
    (t.calls l).Honest ∧ ∀ n, t.isExplored n = true → (t.calls l).isExplored n = true := by
  induction l generalizing t with
  | nil => exact ⟨h, fun _ hn => hn⟩
  | cons c l ih =>
    obtain ⟨hfirst, hstays⟩ := h.call c
    obtain ⟨hrest, hstays'⟩ := ih hfirst
    exact ⟨hrest, fun n hn => hstays' n (hstays n hn)⟩

end Tree.Honest

theorem Tree.Built.honest [Share F] {order : DeliveryOrder} {t : Tree F} (h : t.Built order) :
    t.Honest := by
  obtain ⟨l, rfl⟩ := h
  exact ((Honest.empty order).calls l).1

/-! ### Walks of eligible choices -/

namespace Tree

/-- All walks of eligible choices from node `n` exist in the tree, and where a walk cannot go on,
nothing is eligible. -/
structure Exhausted (t : Tree F) (n : Nat) : Prop where
  found : ∀ path, t.Legal n path → ∃ trail, t.trailFrom n path = some trail
  dry : ∀ path trail, t.Legal n path → t.trailFrom n path = some trail →
    (∀ id, ¬ t.Legal n (path ++ [id])) → ∃ m, trail.getLast? = some m ∧ t.choices? m = some []

section

variable {t : Tree F} {n m : Nat} {id : TaskId} {path : List TaskId} {trail : List Nat}

theorem trailFrom_ne_nil (h : t.trailFrom n path = some trail) : trail ≠ [] := by
  cases path with
  | nil =>
    cases h
    simp
  | cons id path =>
    rw [trailFrom_cons] at h
    obtain ⟨m, -, h⟩ := Option.bind_eq_some_iff.mp h
    obtain ⟨rest, -, rfl⟩ := Option.map_eq_some_iff.mp h
    simp

/-- A walk goes on with what is eligible where it ends. -/
theorem Legal.snoc : ∀ {path : List TaskId} {n : Nat} {trail : List Nat}, t.Legal n path →
    t.trailFrom n path = some trail → trail.getLast? = some m → id ∈ t.eligibleIds m →
    t.Legal n (path ++ [id])
  | [], n, trail, _, htrail, hlast, hid => by
    cases htrail
    cases hlast
    exact legal_cons_iff.mpr ⟨hid, fun _ _ => trivial, fun _ => rfl⟩
  | id' :: path, n, trail, hlegal, htrail, hlast, hid => by
    obtain ⟨hfirst, hrest, -⟩ := legal_cons_iff.mp hlegal
    rw [trailFrom_cons] at htrail
    obtain ⟨k, hk, htrail⟩ := Option.bind_eq_some_iff.mp htrail
    obtain ⟨rest, hrest', rfl⟩ := Option.map_eq_some_iff.mp htrail
    have hlast' : rest.getLast? = some m := by
      rwa [List.getLast?_cons_of_ne_nil (trailFrom_ne_nil hrest')] at hlast
    have hlegal' := Legal.snoc (hrest k hk) hrest' hlast' hid
    refine legal_cons_iff.mpr ⟨hfirst, fun k' hk' => ?_, fun hnone => ?_⟩
    · cases hk.symm.trans hk'
      exact hlegal'
    · rw [hk] at hnone
      cases hnone

/-- A walk from a marked node leads to a marked node, further down with every step. -/
theorem exists_trail (hgrown : t.Grown) (hhonest : t.Honest) : ∀ {path : List TaskId} {n : Nat},
    t.isExplored n = true → t.Legal n path → ∃ trail m, t.trailFrom n path = some trail ∧
      trail.getLast? = some m ∧ t.isExplored m = true ∧ n + path.length ≤ m
  | [], n, hn, _ => ⟨[n], n, rfl, rfl, hn, Nat.le_refl n⟩
  | id :: path, n, hn, hlegal => by
    obtain ⟨hid, hrest, -⟩ := legal_cons_iff.mp hlegal
    obtain ⟨l, hl, hall⟩ := hhonest.due hn
    obtain ⟨k, hk, hmarked⟩ : ∃ k, t.child? n id = some k ∧ t.isExplored k = true := by
      rw [eligibleIds_eq, hl, Option.getD_some] at hid
      obtain ⟨e, he, rfl⟩ := List.mem_map.mp hid
      exact hall e he
    obtain ⟨trail, m, htrail, hlast, hm, hle⟩ := exists_trail hgrown hhonest hmarked (hrest k hk)
    have hlt := (hgrown.child hk).1
    refine ⟨n :: trail, m, ?_, ?_, hm, ?_⟩
    · rw [trailFrom_cons, hk, Option.bind_some, htrail, Option.map_some]
    · rw [List.getLast?_cons_of_ne_nil (trailFrom_ne_nil htrail), hlast]
    · rw [List.length_cons]
      omega

/-- **What a mark stands for**: all walks below the node exist, and end. -/
theorem Honest.exhausted (hhonest : t.Honest) (hgrown : t.Grown) (hn : t.isExplored n = true) :
    t.Exhausted n := by
  refine ⟨fun path hpath => ?_, fun path trail hpath htrail hends => ?_⟩
  · obtain ⟨trail, -, htrail, -⟩ := exists_trail hgrown hhonest hn hpath
    exact ⟨trail, htrail⟩
  · obtain ⟨trail', m, htrail', hlast, hm, -⟩ := exists_trail hgrown hhonest hn hpath
    cases htrail.symm.trans htrail'
    obtain ⟨l, hl, -⟩ := hhonest.due hm
    refine ⟨m, hlast, ?_⟩
    cases l with
    | nil => exact hl
    | cons e l =>
      have hid : e.1 ∈ t.eligibleIds m := by
        rw [eligibleIds_eq, hl]
        exact List.mem_cons_self
      exact absurd (hpath.snoc htrail hlast hid) (hends e.1)

theorem Exhausted.child (h : t.Exhausted n) (hid : id ∈ t.eligibleIds n)
    (hm : t.child? n id = some m) : t.Exhausted m := by
  have hcons : ∀ {path}, t.Legal m path ↔ t.Legal n (id :: path) := by
    intro path
    rw [legal_cons_iff, hm]
    simp [hid]
  have htrail : ∀ path, t.trailFrom n (id :: path) = (t.trailFrom m path).map (n :: ·) := by
    intro path
    rw [trailFrom_cons, hm, Option.bind_some]
  refine ⟨fun path hpath => ?_, fun path trail hpath hfound hends => ?_⟩
  · obtain ⟨trail, hfound⟩ := h.found (id :: path) (hcons.mp hpath)
    rw [htrail] at hfound
    obtain ⟨rest, hrest, -⟩ := Option.map_eq_some_iff.mp hfound
    exact ⟨rest, hrest⟩
  · obtain ⟨k, hlast, hk⟩ := h.dry (id :: path) (n :: trail) (hcons.mp hpath)
      (by rw [htrail, hfound, Option.map_some]) fun id' hlonger => hends id' (hcons.mpr hlonger)
    rw [List.getLast?_cons_of_ne_nil (trailFrom_ne_nil hfound)] at hlast
    exact ⟨k, hlast, hk⟩

/-- **Where nothing is stale**, a node below which all walks exist and end is marked. -/
theorem isExplored_of_exhausted (hgrown : t.Grown) (hstale : ∀ m, ¬ t.Stale m) {n : Nat}
    (h : t.Exhausted n) : t.isExplored n = true := by
  have hchild : ∀ id ∈ t.eligibleIds n, ∃ m, t.child? n id = some m ∧ t.isExplored m = true := by
    intro id hid
    have hlegal : t.Legal n [id] := legal_cons_iff.mpr ⟨hid, fun _ _ => trivial, fun _ => rfl⟩
    obtain ⟨trail, htrail⟩ := h.found [id] hlegal
    rw [trailFrom_cons] at htrail
    obtain ⟨m, hm, -⟩ := Option.bind_eq_some_iff.mp htrail
    -- children stand after their parents, so this ends
    have hlater := hgrown.child hm
    have hlast := lt_size_of_parent? hlater.2
    exact ⟨m, hm, isExplored_of_exhausted hgrown hstale (h.child hid hm)⟩
  have hdue : t.Due n := by
    cases hl : t.choices? n with
    | some l =>
      refine ⟨l, hl, fun e he => hchild e.1 ?_⟩
      rw [eligibleIds_eq, hl]
      exact List.mem_map_of_mem he
    | none =>
      have hnone : t.eligibleIds n = [] := by rw [eligibleIds_eq, hl]; rfl
      obtain ⟨m, hm, hdry⟩ := h.dry [] [n] trivial rfl fun id hlegal => by
        have hid := (legal_cons_iff.mp hlegal).1
        rw [hnone] at hid
        cases hid
      obtain rfl : n = m := by simpa using hm
      rw [hl] at hdry
      cases hdry
  by_contra hmark
  exact hstale n ⟨hdue, by simpa using hmark⟩
termination_by t.size - n

end

/-! ### Nothing is left stale -/

section

variable {t t' : Tree F} {n m : Nat} {id : TaskId}

/-- The nodes of a way up to the root. -/
def Rises (t : Tree F) : List Nat → Prop
  | [] => True
  | n :: up => n < t.size ∧ t.parent? n = up.head? ∧ t.Rises up

theorem Rises.mono (hsize : t.size ≤ t'.size) (hparent : ∀ m < t.size, t'.parent? m = t.parent? m) :
    ∀ {up : List Nat}, t.Rises up → t'.Rises up
  | [], _ => trivial
  | n :: up, h => by
    obtain ⟨hn, hhead, hrest⟩ := h
    exact ⟨Nat.lt_of_lt_of_le hn hsize, (hparent n hn).trans hhead, hrest.mono hsize hparent⟩

theorem stale_observe {finished : Option TaskView} {pending : List TaskView}
    (h : (t.observe n finished pending).2.Stale m) : m = n ∨ t.Stale m := by
  obtain ⟨-, hchild, -, hexplored, hchoices⟩ := t.observe_frame n finished pending
  by_cases hm : m = n
  · exact .inl hm
  · refine .inr ⟨h.1.congr (hchoices m hm).symm (fun id => (hchild m id).symm)
      fun _ k _ => (hexplored k).symm, ?_⟩
    rw [← hexplored]
    exact h.2

variable [Share F]

/-- A new child has no mark, so no node comes to deserve one. -/
theorem stale_grow (hn : n < t.size) {kind : TaskKind} (h : (t.grow n id kind).Stale m) :
    t.Stale m := by
  obtain ⟨hchoices, hexplored, hchild, -⟩ := grow_frame hn id kind
  obtain ⟨⟨l, hl, hall⟩, hmark⟩ := h
  refine ⟨⟨l, (hchoices m).symm.trans hl, fun e he => ?_⟩, (hexplored m).symm.trans hmark⟩
  obtain ⟨k, hk, hmarked⟩ := hall e he
  rw [hexplored] at hmarked
  rw [hchild] at hk
  split at hk
  · cases hk
    have hend : t.isExplored t.size = false := by
      simp [isExplored, size]
    rw [hend] at hmarked
    cases hmarked
  · exact ⟨k, hk, hmarked⟩

theorem isExplored_recountNode_of_due (h : t.Due n) : (t.recountNode n).2.isExplored n = true := by
  obtain ⟨l, hl, hall⟩ := h
  obtain ⟨x, hx, hxl⟩ := Option.bind_eq_some_iff.mp hl
  rw [isExplored_iff, getElem?_recountNode, if_pos rfl, hx]
  refine ⟨_, rfl, ?_⟩
  dsimp only
  rw [hxl, Option.isSome_some, if_pos rfl, explored_recounted, TreeNode.eligibleIds, hxl]
  intro id hid
  obtain ⟨e, he, rfl⟩ := List.mem_map.mp hid
  obtain ⟨k, hk, hmarked⟩ := hall e he
  rw [child?, hx] at hk
  exact exploredBehind_iff.mpr ⟨k, hk, hmarked⟩

/-- **To compute a node anew** makes no other node stale than its parent. -/
theorem stale_recountNode (hgrown : t.Grown) (h : (t.recountNode n).2.Stale m) :
    m ≠ n ∧ (t.Stale m ∨ t.parent? n = some m) := by
  obtain ⟨hchoices, hchild, -, hexplored⟩ := t.recountNode_frame n
  have hne : m ≠ n := by
    rintro rfl
    -- a node is no child of its own, so it deserved the mark already
    have hdue : t.Due m := h.1.congr (hchoices m).symm (fun id => (hchild m id).symm) fun id k hk => by
      rw [hchild] at hk
      have hlt := (hgrown.child hk).1
      exact (hexplored k (by omega)).symm
    rw [Stale, isExplored_recountNode_of_due hdue] at h
    cases h.2
  refine ⟨hne, ?_⟩
  by_cases hparent : t.parent? n = some m
  · exact .inr hparent
  · refine .inl ⟨h.1.congr (hchoices m).symm (fun id => (hchild m id).symm) fun id k hk => ?_, ?_⟩
    · rw [hchild] at hk
      have hk : k ≠ n := by
        rintro rfl
        exact hparent (hgrown.child hk).2
      exact (hexplored k hk).symm
    · rw [← hexplored m hne]
      exact h.2

/-- On a way up all marks are brought up to date, if only nodes on the way are stale. -/
theorem not_stale_recountUp : ∀ {up : List Nat} {t : Tree F}, t.Grown → t.Rises up →
    (∀ m, t.Stale m → m ∈ up) → ∀ m, ¬ (t.recountUp up).2.Stale m
  | [], _, _, _, hstale, m => fun h => List.not_mem_nil (hstale m h)
  | n :: up, t, hgrown, hrises, hstale, m => by
    obtain ⟨hn, hhead, hrest⟩ := hrises
    obtain ⟨-, -, hparent, -⟩ := t.recountNode_frame n
    have hok : t.recountNode n = (.ok (), (t.recountNode n).2) := by
      obtain ⟨x, hx⟩ := Chart.exists_getElem? hn
      unfold recountNode
      rw [hx]
      cases hl : x.eligible <;> simp [hl]
    have hleft : ∀ k, (t.recountNode n).2.Stale k → k ∈ up := by
      intro k hk
      obtain ⟨hne, hbefore | hup⟩ := stale_recountNode hgrown hk
      · exact (List.mem_cons.mp (hstale k hbefore)).resolve_left hne
      · rw [hhead] at hup
        exact List.mem_of_mem_head? hup
    unfold recountUp
    rw [hok]
    exact not_stale_recountUp (hgrown.recountNode n)
      (hrest.mono (Nat.le_of_eq (t.size_recountNode n).symm) fun k _ => hparent k) hleft m

end

/-! ### Tours -/

/-- A way down from the root, listed from its end up: nodes are visited, and branched off from. -/
inductive Tour [Share F] (t : Tree F) : List Nat → Tree F → Prop
  | start : Tour t [root] t
  | observe {n : Nat} {up : List Nat} {t' : Tree F} (h : Tour t (n :: up) t')
      (finished : Option TaskView) (pending : List TaskView) :
      Tour t (n :: up) (t'.observe n finished pending).2
  | branch {n m : Nat} {id : TaskId} {up : List Nat} {t' t'' : Tree F} (h : Tour t (n :: up) t')
      (branched : t'.branch n id = (.ok m, t'')) : Tour t (m :: n :: up) t''

/-- Trees that grew by tours, each of which was computed anew as a whole. -/
inductive Toured [Share F] (order : DeliveryOrder) : Tree F → Prop
  | empty : Toured order (empty order)
  | tour {t t' : Tree F} {up : List Nat} (h : Toured order t) (tour : Tour t up t') :
      Toured order (t'.recount up.reverse).2

section

variable [Share F] {order : DeliveryOrder} {t t' : Tree F} {up : List Nat}

theorem Tour.calls (h : Tour t up t') : ∃ l, t.calls l = t' := by
  induction h with
  | start => exact ⟨[], rfl⟩
  | @observe n up t' h finished pending ih =>
    obtain ⟨l, rfl⟩ := ih
    exact ⟨l ++ [.observe n finished pending], t.calls_append l _⟩
  | @branch n m id up t' t'' h branched ih =>
    obtain ⟨l, rfl⟩ := ih
    refine ⟨l ++ [.branch n id], ?_⟩
    have hcall : (t.calls l).call (.branch n id) = t'' := congrArg Prod.snd branched
    exact (t.calls_append l _).trans hcall

theorem Toured.built (h : Toured order t) : t.Built order := by
  induction h with
  | empty => exact ⟨[], rfl⟩
  | @tour t t' up h tour ih =>
    obtain ⟨l, rfl⟩ := ih
    obtain ⟨l', rfl⟩ := tour.calls
    refine ⟨l ++ (l' ++ [.recount up.reverse]), ?_⟩
    rw [calls_append, calls_append]
    rfl

/-- A tour makes only nodes on its way stale. -/
theorem Tour.rises (h : Tour t up t') (ht : t.Built order) (hfresh : ∀ m, ¬ t.Stale m) :
    t'.Rises up ∧ ∀ m, t'.Stale m → m ∈ up := by
  have hbuilt : ∀ {up t'}, Tour t up t' → t'.Grown := by
    intro up t' h
    obtain ⟨l, rfl⟩ := h.calls
    exact ht.grown.calls l
  induction h with
  | start => exact ⟨⟨ht.grown.root.1, ht.grown.root.2, trivial⟩, fun m hm => absurd hm (hfresh m)⟩
  | @observe n up t' h finished pending ih =>
    obtain ⟨hrises, hstale⟩ := ih
    obtain ⟨hsize, -, hparent, -, -⟩ := t'.observe_frame n finished pending
    refine ⟨hrises.mono (Nat.le_of_eq hsize.symm) fun m _ => hparent m, fun m hm => ?_⟩
    rcases stale_observe hm with rfl | hm
    · exact List.mem_cons_self
    · exact hstale m hm
  | @branch n m id up t' t'' h branched ih =>
    obtain ⟨hrises, hstale⟩ := ih
    rcases t'.branch_cases n id with ⟨k, hbranch, hk⟩ | ⟨e, hbranch⟩ | ⟨kind, hbranch, hn⟩
    · cases branched.symm.trans hbranch
      have hknows := ((hbuilt h).child hk).2
      exact ⟨⟨lt_size_of_parent? hknows, hknows, hrises⟩,
        fun k hk => List.mem_cons_of_mem m (hstale k hk)⟩
    · cases branched.symm.trans hbranch
    · cases branched.symm.trans hbranch
      obtain ⟨-, -, -, hparent⟩ := grow_frame hn id kind
      have hsize := t'.size_grow n id kind
      refine ⟨⟨by omega, by rw [hparent, if_pos rfl]; rfl, hrises.mono (by omega) fun k hk => ?_⟩,
        fun k hk => List.mem_cons_of_mem _ (hstale k (stale_grow hn hk))⟩
      rw [hparent, if_neg (by omega)]

/-- **Nothing is left stale** where every tour is computed anew as a whole. -/
theorem Toured.not_stale (h : Toured order t) : ∀ m, ¬ t.Stale m := by
  induction h with
  | empty =>
    rintro m ⟨⟨l, hl, -⟩, -⟩
    cases m with
    | zero => cases hl
    | succ m => cases hl
  | @tour t t' up h tour ih =>
    obtain ⟨hrises, hstale⟩ := tour.rises h.built ih
    obtain ⟨l, rfl⟩ := tour.calls
    rw [recount, List.reverse_reverse]
    exact not_stale_recountUp (h.built.grown.calls l) hrises hstale

end

end Tree

/-! ### Searches -/

/-- The iteration stands at node `n` of the tree, after a tour of tree `t`. -/
def Walk.At [Share F] (t : Tree F) (n : Nat) (k : Walk F σ μ) : Prop :=
  ∃ up, k.visited = (n :: up).reverse ∧ Tree.Tour t (n :: up) k.tree

theorem Walk.At.stay [Share F] {t : Tree F} {n : Nat} {k k' : Walk F σ μ} (h : k.At t n)
    (hk : k'.tree = k.tree ∧ k'.visited = k.visited) : k'.At t n := by
  obtain ⟨up, hup, htour⟩ := h
  exact ⟨up, hk.2.trans hup, hk.1 ▸ htour⟩

namespace Walker

open Attempt

variable {c : Cluster σ μ}

section

variable {t : Tree F} {visited : List Nat}

/-- Executing a task follows nothing in the tree, and neither does draining. -/
theorem stays_execute (id : TaskId) :
    Attempt.Keeps (fun k : Walk F σ μ => k.tree = t ∧ k.visited = visited) (execute c id) := by
  intro k hk
  rw [execute_apply]
  split
  · exact hk
  · split
    · exact hk
    · split <;> exact hk

theorem stays_drain :
    Attempt.Keeps (fun k : Walk F σ μ => k.tree = t ∧ k.visited = visited) (drain c) := by
  have hloop : ∀ n, Attempt.Keeps (fun k : Walk F σ μ => k.tree = t ∧ k.visited = visited)
      (drainLoop c n) := by
    intro n
    induction n with
    | zero =>
      refine Attempt.keeps_read fun k _ => ?_
      split
      · exact Attempt.keeps_throw _
      · exact Attempt.keeps_pure _
    | succ n ih =>
      refine Attempt.keeps_read fun k _ => ?_
      split
      · exact Attempt.keeps_pure _
      · exact (stays_execute _).bind fun _ => ih
  exact Attempt.keeps_read fun k _ => hloop k.time

theorem stays_endScenario :
    Attempt.Keeps (fun k : Walk F σ μ => k.tree = t ∧ k.visited = visited) (endScenario c) := by
  intro k hk
  unfold endScenario
  rw [get_bind]
  rcases tellAll c ((List.range k.world.size).map NodeId.ofIndex) k.world with ⟨_ | e, w⟩
  · exact stays_drain { k with world := w } hk
  · exact hk

end

variable [Share F] {t : Tree F}

/-- Following a task in the tree goes one step down, or no further. -/
theorem tours_follow {n : Nat} {id : TaskId} {info : TaskView} {f : Nat → Walker F σ μ Bool}
    {k : Walk F σ μ} (h : k.At t n)
    (hf : ∀ m {k' : Walk F σ μ}, k'.At t m → ∃ m', (f m k').2.At t m') :
    ∃ m, ((do
      let m ← onTree fun tree => tree.branch n id
      enter m
      settle m (some info)
      f m) k).2.At t m := by
  obtain ⟨up, hup, htour⟩ := h
  rcases hbranch : onTree (fun tree => tree.branch n id) k with ⟨r, k₁⟩
  rcases onTree_cases hbranch with ⟨e, t', hfails, rfl, rfl⟩ | ⟨m, t', hbranched, rfl, rfl⟩
  · rw [bind_of_error hbranch]
    exact ⟨n, up, hup, Tree.branch_error hfails ▸ htour⟩
  rw [bind_of_ok hbranch, enter, modify_bind]
  have htour' : Tree.Tour t (m :: n :: up) t' := htour.branch hbranched
  have hup' : k.visited ++ [m] = (m :: n :: up).reverse := by
    rw [hup, List.reverse_cons (a := m)]
  rcases hsettle : settle m (some info)
    ({ k with tree := t', visited := k.visited ++ [m] } : Walk F σ μ) with ⟨r, k₂⟩
  have hobserve := hsettle
  rw [settle, get_bind] at hobserve
  rcases onTree_cases hobserve with ⟨e, t'', hfails, rfl, rfl⟩ | ⟨u, t'', hvisited, rfl, rfl⟩
  · rw [bind_of_error hsettle]
    exact ⟨m, n :: up, hup', Tree.observe_error hfails ▸ htour'⟩
  · rw [bind_of_ok hsettle]
    refine hf m ⟨n :: up, hup', ?_⟩
    have hseen := htour'.observe (some info) k.world.pending.views
    rwa [hvisited] at hseen

/-- The tasks of an exploring iteration tour the tree. -/
theorem tours_exploreLoop : ∀ (fuel n : Nat) (path : List TaskId) {k : Walk F σ μ}, k.At t n →
    ∃ m, (exploreLoop c fuel n path k).2.At t m
  | 0, n, path, k, h => by
    rw [exploreLoop, get_bind]
    split <;> exact ⟨n, h⟩
  | fuel + 1, n, path, k, h => by
    rw [exploreLoop, get_bind]
    split
    · exact ⟨n, h⟩
    rw [get_bind]
    rcases path.head?.or (k.tree.next? n) with _ | id
    · exact ⟨n, h.stay (stays_drain.bind (fun _ => Attempt.keeps_pure true) k ⟨rfl, rfl⟩)⟩
    dsimp only
    have hexecuted := h.stay (stays_execute (c := c) id k ⟨rfl, rfl⟩)
    rcases hexecute : execute c id k with ⟨e | info, k₁⟩
    · rw [bind_of_error hexecute]
      rw [hexecute] at hexecuted
      exact ⟨n, hexecuted⟩
    · rw [bind_of_ok hexecute]
      rw [hexecute] at hexecuted
      exact tours_follow hexecuted fun m _ hm => tours_exploreLoop fuel m path.tail hm

theorem tours_explore (path : List TaskId) {k : Walk F σ μ} (hk : k.tree = t ∧ k.visited = []) :
    (((explore c path k).2.tree = t ∧ (explore c path k).2.visited = []) ∨
      ∃ m, (explore c path k).2.At t m) := by
  obtain ⟨rfl, hnone⟩ := hk
  unfold explore
  rcases hsettle : settle Tree.root none k with ⟨r, k₁⟩
  have hobserve := hsettle
  rw [settle, get_bind] at hobserve
  rcases onTree_cases hobserve with ⟨e, t', hfails, rfl, rfl⟩ | ⟨u, t', hvisited, rfl, rfl⟩
  · rw [bind_of_error hsettle]
    exact .inl ⟨Tree.observe_error hfails, hnone⟩
  · rw [bind_of_ok hsettle, enter, modify_bind, get_bind]
    refine .inr (tours_exploreLoop _ Tree.root path ⟨[], ?_, ?_⟩)
    · rw [hnone]
      rfl
    · have hseen := (Tree.Tour.start (t := k.tree)).observe none k.world.pending.views
      rwa [hvisited] at hseen

end Walker

namespace Explorer

variable [Share F] {c : Cluster σ μ} {verifier : Verifier}

/-- An iteration tours the tree and computes its whole way anew, however it ends. -/
theorem toured_iterate {order : DeliveryOrder} {x : Explorer F σ μ} (h : x.tree.Toured order) :
    x.iterate.2.tree.Toured order := by
  have hcourse : (x.course.2.2.tree = x.tree ∧ x.course.2.2.visited = []) ∨
      ∃ m, x.course.2.2.At x.tree m := by
    have htasks := Walker.tours_explore (c := x.cluster) (x.tree.plan x.switches x.source).1
      (k := Iteration.start x.cluster x.tree x.world) ⟨rfl, rfl⟩
    unfold course Iteration.walk
    rcases hrun : Walker.explore x.cluster (x.tree.plan x.switches x.source).1
      (Iteration.start x.cluster x.tree x.world) with ⟨e | b, mid⟩
    · rw [hrun] at htasks
      exact htasks
    rw [hrun] at htasks
    dsimp only
    have hend := Walker.stays_endScenario (c := x.cluster) mid ⟨rfl, rfl⟩
    rcases htold : Walker.endScenario x.cluster mid with ⟨e | u, last⟩
    all_goals
      rw [htold] at hend
      dsimp only [Walk.At] at htasks ⊢
      rw [hend.1, hend.2]
      exact htasks
  rw [tree_iterate]
  rcases hcourse with ⟨htree, hvisited⟩ | ⟨m, up, hup, htour⟩
  · rw [htree, hvisited]
    exact h
  · rw [hup]
    exact h.tour htour

theorem Reachable.toured {x : Explorer F σ μ} (h : Reachable c verifier x) :
    x.tree.Toured c.config.order :=
  h.keeps (I := fun y => y.tree.Toured c.config.order) .empty (fun _ => toured_iterate) fun _ _ hy => hy

end Explorer

namespace Tree

/-- **Explored marks are exact and final.** In a tree that was built by calls in any order, a marked
node was visited and all that is eligible there leads to marked nodes. So all walks of eligible
choices below it exist in the tree and end, in fewer steps than the tree has nodes, where nothing is
eligible; and the mark stays whatever is called next. If the tree grew by tours that were computed anew
as a whole, then conversely a node below which all walks exist and end is marked. The tree of a search
grows so, whatever the search was asked to do. -/
theorem explored_exact_and_final [Share F] (order : DeliveryOrder) (t : Tree F) :
    (t.Built order → ∀ n, t.isExplored n = true →
      (∃ known, t.choices? n = some known ∧
        ∀ e ∈ known, ∃ m, t.child? n e.1 = some m ∧ t.isExplored m = true) ∧
      t.Exhausted n ∧ (∀ path, t.Legal n path → n + path.length < t.size) ∧
      ∀ more, (t.calls more).isExplored n = true) ∧
    (t.Toured order → ∀ n, t.Exhausted n → t.isExplored n = true) ∧
    ∀ (σ μ : Type) (c : Cluster σ μ) (verifier : Verifier) (x : Explorer F σ μ),
      Explorer.Reachable c verifier x → x.tree.Toured c.config.order := by
  refine ⟨fun hbuilt n hn => ?_, fun htoured n hn => ?_, fun σ μ c verifier x hx => hx.toured⟩
  · refine ⟨hbuilt.honest.due hn, hbuilt.honest.exhausted hbuilt.grown hn, fun path hpath => ?_,
      fun more => (hbuilt.honest.calls more).2 n hn⟩
    obtain ⟨trail, m, -, -, hm, hle⟩ := exists_trail hbuilt.grown hbuilt.honest hn hpath
    obtain ⟨x, hx, -⟩ := isExplored_iff.mp hm
    have hlt := lt_size_of_getElem? hx
    omega
  · exact isExplored_of_exhausted htoured.built.grown htoured.not_stale hn

/-- The tree of a search that explored two peers with nothing to do but to begin. -/
theorem explored_exact_and_final_idle :
    let x := ((Explorer.fresh Broadcast.idle .acceptAll : Explorer Rat _ _).run).2
    x.tree.Exhausted root ∧ x.tree.choices? root = some [(⟨0⟩, .operation), (⟨1⟩, .operation)] ∧
    (∃ m, x.tree.child? root ⟨1⟩ = some m ∧ x.tree.isExplored m = true) ∧
    (∀ path, x.tree.Legal root path → path.length < 4) ∧
    (x.tree.calls [.observe 3 none [], .recount [0]]).isExplored root = true ∧
    (x.tree.Exhausted 2 → x.tree.isExplored 2 = true) := by
  intro x
  have hnew : Explorer.new Broadcast.idle .acceptAll =
      .ok (Explorer.fresh Broadcast.idle .acceptAll : Explorer Rat _ _) := Explorer.new_eq_fresh rfl
  obtain ⟨-, -, htours⟩ := explored_exact_and_final Broadcast.idle.config.order x.tree
  have htoured := htours _ _ Broadcast.idle .acceptAll x (.run (.new hnew))
  obtain ⟨hsound, hcomplete, -⟩ := explored_exact_and_final Broadcast.idle.config.order x.tree
  have hroot : x.tree.isExplored root = true := by decide +kernel
  obtain ⟨⟨known, hknown, hall⟩, hexhausted, hbound, hfinal⟩ := hsound htoured.built root hroot
  have hchoices : x.tree.choices? root = some [(⟨0⟩, .operation), (⟨1⟩, .operation)] := by
    decide +kernel
  have hsize : x.tree.size = 4 := by decide +kernel
  refine ⟨hexhausted, hchoices, ?_, fun path hpath => ?_, hfinal _, hcomplete htoured 2⟩
  · cases hknown.symm.trans hchoices
    exact hall (⟨1⟩, .operation) (by simp)
  · have hlt := hbound path hpath
    rw [hsize] at hlt
    unfold root at hlt
    omega

end Tree

end Interleave
