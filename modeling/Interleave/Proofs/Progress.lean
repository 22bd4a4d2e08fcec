/-
# The search makes progress

A complete iteration visits the root and one node after the other, down to where
nothing is eligible, and computes its whole way anew. In a tree made by such
iterations (`Tree.Surveyed`) every node was visited, and what deserves a mark has one.
So a node without a mark has an eligible task that was not tried or leads to another
node without one, and in exact fractions such a task, and no other, has a share.

As long as a switch is left, a choice is drawn by these shares. A draw never hits a task
without a share (`Tree.draw_open`), so it never enters what is explored, and it does not
stop before it comes to a task that was not tried (`Tree.Descends.progress`). The
iteration that follows such a plan makes a node (`Tree.plan_makes_progress`).
-/
import Interleave.Proofs.Route
import Interleave.Proofs.Shares

namespace Interleave

variable {F σ μ : Type}

namespace Tree

/-! ### Trees that grow -/

/-- Children are only added, each with a node of its own. -/
structure Grows (t t' : Tree F) : Prop where
  size : t.size ≤ t'.size
  child : ∀ {n id m}, t.child? n id = some m → t'.child? n id = some m
  same : t'.size = t.size → ∀ n id, t'.child? n id = t.child? n id

section

variable {t t' t'' : Tree F} {n m : Nat} {id : TaskId} {path : List TaskId}

theorem Grows.refl (t : Tree F) : t.Grows t := ⟨Nat.le_refl _, id, fun _ _ _ => rfl⟩

theorem Grows.trans (h : t.Grows t') (h' : t'.Grows t'') : t.Grows t'' := by
  have hsize := h.size
  have hsize' := h'.size
  refine ⟨hsize.trans hsize', fun hm => h'.child (h.child hm), fun heq n id => ?_⟩
  rw [h'.same (by omega), h.same (by omega)]

theorem Leads.mono (h : ∀ {n id m}, t.child? n id = some m → t'.child? n id = some m) :
    ∀ {path : List TaskId} {n : Nat}, t.Leads n path m → t'.Leads n path m
  | [], _, hleads => leads_nil_iff.mpr (leads_nil_iff.mp hleads)
  | _ :: _, _, hleads => by
    obtain ⟨k, hk, hrest⟩ := leads_cons_iff.mp hleads
    exact leads_cons_iff.mpr ⟨k, h hk, hrest.mono h⟩

theorem leads_append_iff {path' : List TaskId} : ∀ {path : List TaskId} {n : Nat},
    t.Leads n (path ++ path') m ↔ ∃ k, t.Leads n path k ∧ t.Leads k path' m
  | [], n => by simp [leads_nil_iff]
  | id :: path, n => by
    simp only [List.cons_append, leads_cons_iff]
    constructor
    · rintro ⟨j, hj, happend⟩
      obtain ⟨k, hk, hrest⟩ := leads_append_iff.mp happend
      exact ⟨k, ⟨j, hj, hk⟩, hrest⟩
    · rintro ⟨k, ⟨j, hj, hk⟩, hrest⟩
      exact ⟨j, hj, leads_append_iff.mpr ⟨k, hk, hrest⟩⟩

theorem Leads.unique {m' : Nat} (h : t.Leads n path m) (h' : t.Leads n path m') : m' = m := by
  obtain ⟨trail, htrail, hlast⟩ := h
  obtain ⟨trail', htrail', hlast'⟩ := h'
  cases htrail.symm.trans htrail'
  exact Option.some.inj (hlast'.symm.trans hlast)

theorem grows_observe {finished : Option TaskView} {pending : List TaskView} {r : Except TreeError Unit}
    (h : t.observe n finished pending = (r, t')) : t.Grows t' := by
  obtain ⟨hsize, hchild, -⟩ := t.observe_frame n finished pending
  rw [h] at hsize hchild
  exact ⟨hsize.ge, fun hm => (hchild _ _).trans hm, fun _ n id => hchild n id⟩

variable [Share F]

/-- Where branching off goes well there is a child after it: the one there was, or a new one. -/
theorem branch_ok_cases (h : t.branch n id = (.ok m, t')) :
    (t' = t ∧ t.child? n id = some m) ∨
      t.child? n id = none ∧ n < t.size ∧ m = t.size ∧ ∃ kind, t' = t.grow n id kind := by
  cases hk : t.child? n id with
  | some k =>
    cases (branch_of_child hk).symm.trans h
    exact .inl ⟨rfl, rfl⟩
  | none =>
    refine .inr ⟨rfl, ?_⟩
    rcases t.branch_cases n id with ⟨k, -, hsome⟩ | ⟨e, hbranch⟩ | ⟨kind, hbranch, hn⟩
    · rw [hk] at hsome
      cases hsome
    · cases hbranch.symm.trans h
    · cases hbranch.symm.trans h
      exact ⟨hn, rfl, kind, rfl⟩

theorem child?_of_branch (h : t.branch n id = (.ok m, t')) : t'.child? n id = some m := by
  rcases branch_ok_cases h with ⟨rfl, hm⟩ | ⟨-, hn, rfl, kind, rfl⟩
  · exact hm
  · rw [(grow_frame hn id kind).2.2.1, if_pos ⟨rfl, rfl⟩]

theorem grows_branch (h : t.branch n id = (.ok m, t')) : t.Grows t' := by
  rcases branch_ok_cases h with ⟨rfl, -⟩ | ⟨hnew, hn, -, kind, rfl⟩
  · exact .refl t'
  · obtain ⟨-, -, hchild, -⟩ := grow_frame hn id kind
    have hsize := t.size_grow n id kind
    refine ⟨by omega, fun {p i k} hk => ?_, fun heq => by omega⟩
    rw [hchild, if_neg]
    · exact hk
    · rintro ⟨rfl, rfl⟩
      rw [hnew] at hk
      cases hk

/-! ### Complete iterations -/

/-- The way of an iteration down along tasks, its nodes listed from the end up: each node is visited
where the way comes to it, and all goes well. -/
inductive Survey (t : Tree F) : List TaskId → List Nat → Tree F → Prop
  | start {finished : Option TaskView} {pending : List TaskView} {t' : Tree F}
      (visited : t.observe root finished pending = (.ok (), t')) : Survey t [] [root] t'
  | step {tasks : List TaskId} {n m : Nat} {up : List Nat} {id : TaskId} {t₁ t₂ t₃ : Tree F}
      {finished : Option TaskView} {pending : List TaskView} (h : Survey t tasks (n :: up) t₁)
      (branched : t₁.branch n id = (.ok m, t₂))
      (visited : t₂.observe m finished pending = (.ok (), t₃)) :
      Survey t (tasks ++ [id]) (m :: n :: up) t₃

/-- Trees that were made by complete iterations: each goes down to where nothing is eligible and is
computed anew as a whole. -/
inductive Surveyed (order : DeliveryOrder) : Tree F → Prop
  | empty : Surveyed order (empty order)
  | survey {t t' : Tree F} {tasks : List TaskId} {n : Nat} {up : List Nat} (h : Surveyed order t)
      (survey : Survey t tasks (n :: up) t') (dry : t'.choices? n = some []) :
      Surveyed order (t'.recount (n :: up).reverse).2

variable {order : DeliveryOrder} {tasks : List TaskId} {up : List Nat}

theorem Survey.tour (h : t.Survey tasks up t') : t.Tour up t' := by
  have hobserve : ∀ {n up u u' finished pending r}, t.Tour (n :: up) u →
      u.observe n finished pending = (r, u') → t.Tour (n :: up) u' := by
    intro n up u u' finished pending r htour hvisited
    have hseen := htour.observe finished pending
    rwa [hvisited] at hseen
  induction h with
  | start visited => exact hobserve .start visited
  | step _ branched visited ih => exact hobserve (ih.branch branched) visited

theorem Surveyed.toured (h : t.Surveyed order) : t.Toured order := by
  induction h with
  | empty => exact .empty
  | survey _ survey _ ih => exact ih.tour survey.tour

theorem Survey.grows (h : t.Survey tasks up t') : t.Grows t' := by
  induction h with
  | start visited => exact grows_observe visited
  | step _ branched visited ih => exact (ih.trans (grows_branch branched)).trans (grows_observe visited)

/-- After a survey its tasks lead to where it ended. -/
theorem Survey.leads (h : t.Survey tasks up t') : ∃ n rest, up = n :: rest ∧ t'.Leads root tasks n := by
  induction h with
  | start => exact ⟨root, [], rfl, leads_nil_iff.mpr rfl⟩
  | @step tasks n m up id t₁ t₂ t₃ _ _ _ branched visited ih =>
    obtain ⟨n', rest, heq, hleads⟩ := ih
    cases heq
    have hlater := (grows_branch branched).trans (grows_observe visited)
    have hlast : t₃.child? n id = some m := (grows_observe visited).child (child?_of_branch branched)
    exact ⟨m, n :: up, rfl, leads_append_iff.mpr ⟨n, hleads.mono hlater.child,
      leads_cons_iff.mpr ⟨m, hlast, leads_nil_iff.mpr rfl⟩⟩⟩

/-- An iteration that follows a path out of the tree makes a node. -/
theorem Survey.size_lt {before more : List TaskId} {n : Nat}
    (h : t.Survey (before ++ [id] ++ more) up t') (hleads : t.Leads root before n)
    (hnew : t.child? n id = none) : t.size < t'.size := by
  have hgrows := h.grows
  obtain ⟨m, -, -, hm⟩ := h.leads
  obtain ⟨k, hk, -⟩ := leads_append_iff.mp hm
  refine Nat.lt_of_le_of_ne hgrows.size fun heq => ?_
  -- with no new node the path would have been there before
  have hsame := hgrows.same heq.symm
  have hk' : t.Leads root (before ++ [id]) k := hk.mono fun hm => (hsame _ _).symm.trans hm
  obtain ⟨n', hn', hlast⟩ := leads_append_iff.mp hk'
  obtain rfl := hleads.unique hn'
  obtain ⟨m', hm', -⟩ := leads_cons_iff.mp hlast
  rw [hnew] at hm'
  cases hm'

/-- A node that a survey leaves unvisited was there before, unvisited, and is not on its way. -/
theorem Survey.visited (h : t.Survey tasks up t') {m : Nat} (hm : m < t'.size)
    (hnone : t'.choices? m = none) : m < t.size ∧ t.choices? m = none ∧ m ∉ up := by
  have hseen : ∀ {u u' : Tree F} {n finished pending}, u.observe n finished pending = (.ok (), u') →
      u'.size = u.size ∧ u'.choices? n ≠ none ∧ ∀ m, m ≠ n → u'.choices? m = u.choices? m := by
    intro u u' n finished pending hvisited
    obtain ⟨hsize, -, -, -, hchoices⟩ := u.observe_frame n finished pending
    obtain ⟨-, ⟨x, hx, hl⟩, -⟩ := observe_ok hvisited
    rw [hvisited] at hsize hchoices
    exact ⟨hsize, by simp [choices?, hx, hl], hchoices⟩
  induction h with
  | start visited =>
    obtain ⟨hsize, hroot, hother⟩ := hseen visited
    have hne : m ≠ root := fun heq => hroot (heq ▸ hnone)
    exact ⟨hsize ▸ hm, (hother m hne).symm.trans hnone, by simpa using hne⟩
  | @step tasks n k up id t₁ t₂ t₃ finished pending _ branched visited ih =>
    obtain ⟨hsize, hhere, hother⟩ := hseen visited
    have hne : m ≠ k := fun heq => hhere (heq ▸ hnone)
    have hnone₂ := (hother m hne).symm.trans hnone
    obtain ⟨hm₁, hnone₁⟩ : m < t₁.size ∧ t₁.choices? m = none := by
      rcases branch_ok_cases branched with ⟨rfl, -⟩ | ⟨-, hn, rfl, kind, rfl⟩
      · exact ⟨hsize ▸ hm, hnone₂⟩
      · have hgrown := t₁.size_grow n id kind
        exact ⟨by omega, ((grow_frame hn id kind).1 m).symm.trans hnone₂⟩
    obtain ⟨hold, hbefore, hup⟩ := ih hm₁ hnone₁
    exact ⟨hold, hbefore, List.not_mem_cons_of_ne_of_not_mem hne hup⟩

theorem Survey.root_mem (h : t.Survey tasks up t') : root ∈ up := by
  induction h with
  | start => exact List.mem_cons_self
  | step _ _ _ ih => exact List.mem_cons_of_mem _ ih

theorem choices?_recount (t : Tree F) (path : List Nat) (m : Nat) :
    (t.recount path).2.choices? m = t.choices? m ∧ (t.recount path).2.size = t.size := by
  refine keeps_recountUp (Q := fun u => u.choices? m = t.choices? m ∧ u.size = t.size)
    (fun u n hu => ?_) _ t ⟨rfl, rfl⟩
  exact ⟨((u.recountNode_frame n).1 m).trans hu.1, (u.size_recountNode n).trans hu.2⟩

/-- After the first iteration every node was visited. -/
theorem Surveyed.visited (h : t.Surveyed order) :
    t = Tree.empty order ∨ ∀ m < t.size, t.choices? m ≠ none := by
  induction h with
  | empty => exact .inl rfl
  | @survey t t' tasks n up h survey dry ih =>
    refine .inr fun m hm hnone => ?_
    obtain ⟨hchoices, hsize⟩ := t'.choices?_recount (n :: up).reverse m
    obtain ⟨hold, hbefore, hup⟩ := survey.visited (hsize ▸ hm) (hchoices.symm.trans hnone)
    rcases ih with rfl | hall
    · obtain rfl : m = root := Nat.lt_one_iff.mp hold
      exact hup survey.root_mem
    · exact hall m hold hbefore

end

/-! ### Draws -/

section

variable {t : Tree Rat} {x : TreeNode Rat} {n k k' left : Nat} {s s' : Source} {id : TaskId}
  {path : List TaskId}

theorem share_le_iff {a b : Rat} : Share.le a b = true ↔ a ≤ b := decide_eq_true_iff

theorem share_lt_iff {a b : Rat} : Share.lt a b = true ↔ a < b := decide_eq_true_iff

/-- Where the weights are laid end to end, a point is not located at one that is nothing. -/
theorem pos_of_locate : ∀ {l : List (TaskId × Rat)} {point : Rat}, locate point l = some id →
    ∃ w, (id, w) ∈ l ∧ 0 < w
  | [], _, h => by cases h
  | (id', w) :: l, point, h => by
    have hrest : ∀ {point'}, locate point' l = some id → ∃ w', (id, w') ∈ (id', w) :: l ∧ 0 < w' := by
      intro point' hlocated
      obtain ⟨w', hmem, hpos⟩ := pos_of_locate hlocated
      exact ⟨w', List.mem_cons_of_mem _ hmem, hpos⟩
    unfold locate at h
    split at h
    · exact hrest h
    · rename_i hw
      split at h
      · cases h
        rw [share_le_iff, not_le] at hw
        exact ⟨w, List.mem_cons_self, hw⟩
      · exact hrest h

theorem pos_of_lastPositive {l : List (TaskId × Rat)} (h : ∃ e ∈ l, 0 < e.2) :
    ∃ e ∈ l, lastPositive l = some e.1 ∧ 0 < e.2 := by
  obtain ⟨e, he, hpos⟩ := h
  have hsome : (l.reverse.find? fun e => Share.lt Share.zero e.2).isSome := by
    rw [List.find?_isSome]
    exact ⟨e, List.mem_reverse.mpr he, share_lt_iff.mpr hpos⟩
  obtain ⟨e', he'⟩ := Option.isSome_iff_exists.mp hsome
  have hpositive := List.find?_some he'
  refine ⟨e', List.mem_reverse.mp (List.mem_of_find?_eq_some he'), ?_, share_lt_iff.mp hpositive⟩
  rw [lastPositive, he', Option.map_some]

/-- **A draw hits a task with a share**, if there is one, also where the rest of the point is past the
last weight. -/
theorem draw_open (hnonneg : ∀ id, 0 ≤ t.weight x id)
    (hsome : ∃ id ∈ x.eligibleIds, 0 < t.weight x id) (s : Source) :
    ∃ id s', t.draw x s = (some id, s') ∧ 0 < t.weight x id := by
  let weights := x.eligibleIds.map fun id => (id, t.weight x id)
  have hweights : ∀ e ∈ weights, e.2 = t.weight x e.1 := by
    intro e he
    obtain ⟨id, -, rfl⟩ := List.mem_map.mp he
    rfl
  obtain ⟨id, hid, hpos⟩ := hsome
  have hmem : (id, t.weight x id) ∈ weights := List.mem_map_of_mem hid
  have htotal : ¬ Share.le (sum (weights.map (·.2))) (Share.zero : Rat) = true := by
    rw [share_le_iff, not_le, sum_eq]
    refine lt_of_lt_of_le hpos (List.single_le_sum (fun a ha => ?_) _ (List.mem_map_of_mem hmem))
    obtain ⟨e, he, rfl⟩ := List.mem_map.mp ha
    exact hweights e he ▸ hnonneg e.1
  unfold draw
  dsimp only
  rw [if_neg htotal]
  cases hlocated : locate (Source.point (sum (weights.map (·.2))) s).1 weights with
  | some id' =>
    obtain ⟨w, hw, hpositive⟩ := pos_of_locate hlocated
    exact ⟨id', _, rfl, hweights _ hw ▸ hpositive⟩
  | none =>
    obtain ⟨e, he, hlast, hpositive⟩ := pos_of_lastPositive ⟨_, hmem, hpos⟩
    exact ⟨e.1, _, Prod.ext hlast rfl, hweights e he ▸ hpositive⟩

/-! ### Plans with switches left -/

/-- With a switch, no choice at a node that does not deserve a mark enters what is explored. -/
theorem Picks.not_explored (h : t.Measured) (hpick : t.Picks n k s id k' s') (hk : k ≠ 0)
    (hopen : ¬ t.Due n) {m : Nat} (hm : t.child? n id = some m) : t.isExplored m = false := by
  obtain ⟨x, canonical, hx, hnext, hchoose, -⟩ := hpick
  obtain ⟨l, hl, -⟩ := TreeNode.mem_of_next? hnext
  have hchoices : t.choices? n = some l := by simp [choices?, hx, hl]
  have hsome : ∃ id ∈ x.eligibleIds, 0 < t.weight x id := by
    by_contra hnone
    refine hopen ⟨l, hchoices, fun e he => h.shareBehind_eq_zero_iff.mp ?_⟩
    have hid : e.1 ∈ x.eligibleIds := by
      rw [TreeNode.eligibleIds, hl]
      exact List.mem_map_of_mem he
    have hzero : ¬ 0 < t.weight x e.1 := fun hpos => hnone ⟨e.1, hid, hpos⟩
    rw [h.weight_eq hx, not_lt] at hzero
    exact le_antisymm hzero (h.shareBehind_part n e.1).1
  obtain ⟨drawn, s'', hdraw, hpos⟩ :=
    draw_open (fun id => h.weight_eq hx id ▸ (h.shareBehind_part n id).1) hsome s
  have hdrawn : drawn = id := by
    rw [chooseAt, if_neg hk, hdraw] at hchoose
    exact congrArg Prod.fst hchoose
  subst hdrawn
  rw [h.weight_eq hx] at hpos
  by_contra hexplored
  exact hpos.ne' (h.shareBehind_eq_zero_iff.mpr ⟨m, hm, by simpa using hexplored⟩)

/-- **With a switch left to the end**, a descent from a node without a mark enters no node with one,
and comes to a task that was not tried. -/
theorem Descends.progress (h : t.Measured) (hstale : ∀ m, ¬ t.Stale m)
    (hvisited : ∀ m < t.size, t.choices? m ≠ none) (hdescends : t.Descends n k s path left s')
    (hleft : 0 < left) (hopen : t.isExplored n = false) :
    (∃ before id m, path = before ++ [id] ∧ t.Leads n before m ∧ t.child? m id = none) ∧
    ∀ before id after m m', path = before ++ id :: after → t.Leads n before m →
      t.child? m id = some m' → t.isExplored m' = false := by
  have hdue : ∀ {m}, t.isExplored m = false → ¬ t.Due m := fun hm hdue => hstale _ ⟨hdue, hm⟩
  induction hdescends with
  | @stop n k s here none =>
    -- nothing is eligible at a node that was visited, so it deserves a mark
    have hdry := (next?_eq_none_iff.mp none).resolve_left (hvisited n here)
    exact absurd ⟨[], hdry, fun e he => absurd he List.not_mem_nil⟩ (hdue hopen)
  | @last n k k' s s' id pick new =>
    refine ⟨⟨[], id, n, rfl, leads_nil_iff.mpr rfl, new⟩, fun before id' after m m' heq hleads hm' => ?_⟩
    obtain ⟨rfl, hrest⟩ | ⟨rest, rfl, hnil⟩ := List.cons_eq_append_iff.mp heq
    · cases hrest
      obtain rfl := leads_nil_iff.mp hleads
      rw [new] at hm'
      cases hm'
    · simp at hnil
  | @step n m k k' left s s' s'' id path pick child rest ih =>
    have hk : k ≠ 0 := by
      have hswitches := rest.switches
      rcases pick.next?_eq with ⟨-, hk'⟩ | ⟨-, hk'⟩ <;> omega
    have hm := pick.not_explored h hk (hdue hopen) child
    obtain ⟨⟨before, id', p, rfl, hleads, hnew⟩, hentered⟩ := ih hleft hm
    refine ⟨⟨id :: before, id', p, rfl, leads_cons_iff.mpr ⟨m, child, hleads⟩, hnew⟩, ?_⟩
    intro front i after q q' heq hq hq'
    obtain ⟨rfl, hrest⟩ | ⟨back, rfl, hback⟩ := List.cons_eq_append_iff.mp heq
    · cases hrest
      obtain rfl := leads_nil_iff.mp hq
      cases child.symm.trans hq'
      exact hm
    · obtain ⟨j, hj, hq⟩ := leads_cons_iff.mp hq
      cases child.symm.trans hj
      exact hentered back i after q q' hback hq hq'

end

theorem Survey.order [Share F] {t t' : Tree F} {tasks : List TaskId} {up : List Nat}
    (h : t.Survey tasks up t') : t'.order = t.order := by
  induction h with
  | start visited => exact (observe_ok visited).1
  | step _ branched visited ih => exact ((observe_ok visited).1.trans (branch_ok branched).1).trans ih

theorem Surveyed.order [Share F] {order : DeliveryOrder} {t : Tree F} (h : t.Surveyed order) :
    t.order = order := by
  induction h with
  | empty => rfl
  | survey _ survey _ ih => exact (order_recountUp _ _).trans (survey.order.trans ih)

end Tree

/-! ### Complete iterations of a search -/

/-- Where nothing is eligible the path is at its end. -/
theorem Sited.path_eq_nil {c : Cluster σ μ} {finished : Option TaskView} {n : Nat}
    {path : List TaskId} {k : Walk F σ μ} (h : Sited c finished n path k)
    (hdry : Tree.eligible c.config.order finished k.world.pending.views = []) :
    path = [] ∧ k.tree.choices? n = some [] := by
  obtain ⟨x, hx, hl⟩ := h.here
  rw [hdry] at hl
  refine ⟨?_, by simp [Tree.choices?, hx, hl]⟩
  cases path with
  | nil => rfl
  | cons id path =>
    obtain ⟨y, hy, hid, -⟩ := h.legal
    cases hx.symm.trans hy
    simp [TreeNode.eligibleIds, hl] at hid

namespace Walker

open Attempt

variable [Share F] {c : Cluster σ μ} {t : Tree F}

/-- Following a task in the tree goes well if it can be branched off to and visited. -/
theorem follow_ok {n : Nat} {id : TaskId} {info : TaskView} {f : Nat → Walker F σ μ Bool} {b : Bool}
    {k k' : Walk F σ μ} (h : (do
      let m ← onTree fun tree => tree.branch n id
      enter m
      settle m (some info)
      f m) k = (.ok b, k')) :
    ∃ m t₁ t₂, k.tree.branch n id = (.ok m, t₁) ∧
      t₁.observe m (some info) k.world.pending.views = (.ok (), t₂) ∧
      f m { k with tree := t₂, visited := k.visited ++ [m] } = (.ok b, k') := by
  rcases bind_cases h with ⟨e, -, herror⟩ | ⟨m, k₁, hbranch, hrest⟩
  · cases herror
  rcases onTree_cases hbranch with ⟨e, t', -, herror, -⟩ | ⟨m', t₁, hbranched, hok, rfl⟩
  · cases herror
  cases hok
  rw [enter, modify_bind] at hrest
  rcases bind_cases hrest with ⟨e, -, herror⟩ | ⟨u, k₂, hsettle, hrest⟩
  · cases herror
  rw [settle, get_bind] at hsettle
  rcases onTree_cases hsettle with ⟨e, t', -, herror, -⟩ | ⟨u', t₂, hvisited, -, rfl⟩
  · cases herror
  · exact ⟨m, t₁, t₂, hbranched, hvisited, hrest⟩

/-- **An exploring iteration whose tasks come to their end** follows its path and goes on to where
nothing is eligible. -/
theorem surveys_exploreLoop : ∀ (fuel : Nat) {finished : Option TaskView} {n : Nat}
    {path tasks : List TaskId} {up : List Nat} {b : Bool} {k k' : Walk F σ μ},
    Sited c finished n path k → t.Survey tasks (n :: up) k.tree → k.visited = (n :: up).reverse →
    exploreLoop c fuel n path k = (.ok b, k') →
    ∃ more m rest, t.Survey (tasks ++ path ++ more) (m :: rest) k'.tree ∧
      k'.visited = (m :: rest).reverse ∧ k'.tree.choices? m = some []
  | 0, finished, n, path, tasks, up, b, k, k', hsited, hsurvey, hvisited, hrun => by
    rw [exploreLoop, get_bind] at hrun
    split at hrun
    · rename_i hempty
      cases hrun
      obtain ⟨rfl, hdry⟩ := hsited.path_eq_nil (Tree.eligible_of_isEmpty hempty)
      exact ⟨[], n, up, by simpa using hsurvey, hvisited, hdry⟩
    · cases hrun
  | fuel + 1, finished, n, path, tasks, up, b, k, k', hsited, hsurvey, hvisited, hrun => by
    rw [exploreLoop, get_bind] at hrun
    split at hrun
    · rename_i hempty
      cases hrun
      obtain ⟨rfl, hdry⟩ := hsited.path_eq_nil (Tree.eligible_of_isEmpty hempty)
      exact ⟨[], n, up, by simpa using hsurvey, hvisited, hdry⟩
    rw [get_bind] at hrun
    cases hchoice : path.head?.or (k.tree.next? n) with
    | none =>
      rw [hchoice] at hrun
      obtain ⟨rfl, hdry⟩ := hsited.path_eq_nil (hsited.dry hchoice)
      have hstays := (stays_drain (c := c)).bind (fun _ => Attempt.keeps_pure true) k ⟨rfl, rfl⟩
      dsimp only at hrun
      rw [hrun] at hstays
      obtain ⟨htree, hsame⟩ := hstays
      rw [htree]
      exact ⟨[], n, up, by simpa using hsurvey, hsame.trans hvisited, hdry⟩
    | some id =>
      rw [hchoice] at hrun
      rcases bind_cases hrun with ⟨e, -, herror⟩ | ⟨info, k₁, hexecute, hrest⟩
      · cases herror
      have hstays := stays_execute (c := c) id k ⟨rfl, rfl⟩
      rw [hexecute] at hstays
      obtain ⟨htree, hsame⟩ := hstays
      obtain ⟨m, t₁, t₂, hbranched, hobserved, hloop⟩ := follow_ok hrest
      rw [htree] at hbranched
      obtain ⟨horder₁, hlegal₁⟩ := Tree.branch_ok hbranched
      obtain ⟨horder₂, hhere, hlegal₂⟩ := Tree.observe_ok hobserved
      have htail : t₁.Legal m path.tail := by
        cases path with
        | nil => trivial
        | cons id' path =>
          cases hchoice
          exact hlegal₁ path hsited.legal
      have horder : t₁.order = c.config.order := horder₁.trans hsited.order
      have hsited' : Sited c (some info) m path.tail
          { k₁ with tree := t₂, visited := k₁.visited ++ [m] } :=
        ⟨horder₂.trans horder, horder ▸ hhere, hlegal₂ _ htail⟩
      have hvisited' : k₁.visited ++ [m] = (m :: n :: up).reverse := by
        rw [hsame, hvisited, List.reverse_cons (a := m)]
      obtain ⟨more, m', rest, hsurvey', hlast, hdry⟩ :=
        surveys_exploreLoop fuel hsited' (hsurvey.step hbranched hobserved) hvisited' hloop
      cases path with
      | nil => exact ⟨id :: more, m', rest, by simpa using hsurvey', hlast, hdry⟩
      | cons id' path =>
        cases hchoice
        exact ⟨more, m', rest, by simpa using hsurvey', hlast, hdry⟩

/-- The tasks of an exploring iteration from its start. -/
theorem surveys_explore {path : List TaskId} {w : World σ μ} {b : Bool} {k' : Walk F σ μ}
    (horder : t.order = c.config.order) (hlegal : t.Legal Tree.root path)
    (hrun : explore c path (Iteration.start c t w) = (.ok b, k')) :
    ∃ more m rest, t.Survey (path ++ more) (m :: rest) k'.tree ∧
      k'.visited = (m :: rest).reverse ∧ k'.tree.choices? m = some [] := by
  rcases bind_cases hrun with ⟨e, -, herror⟩ | ⟨u, k₁, hsettle, hrest⟩
  · cases herror
  rw [settle, get_bind] at hsettle
  rcases onTree_cases hsettle with ⟨e, t', -, herror, -⟩ | ⟨a, t₁, hvisited, -, rfl⟩
  · cases herror
  obtain ⟨horder₁, hhere, hlegal₁⟩ := Tree.observe_ok hvisited
  rw [enter, modify_bind, get_bind] at hrest
  have hsited : Sited c none Tree.root path
      { Iteration.start c t w with tree := t₁, visited := [Tree.root] } :=
    ⟨horder₁.trans horder, horder ▸ hhere, hlegal₁ path hlegal⟩
  exact surveys_exploreLoop _ hsited (.start hvisited) rfl hrest

end Walker

namespace Explorer

variable [Share F]

/-- **An iteration that does not fail** is a complete one along its plan. -/
theorem exists_survey {x : Explorer F σ μ} (horder : x.tree.order = x.cluster.config.order)
    (hok : x.iterate.1.outcome.isFailure = false) :
    ∃ more m up t', x.tree.Survey ((x.tree.plan x.switches x.source).1 ++ more) (m :: up) t' ∧
      t'.choices? m = some [] ∧ x.iterate.2.tree = (t'.recount (m :: up).reverse).2 := by
  have hclose : (Iteration.close x.cluster x.verifier true x.course).1.outcome.isFailure = false := hok
  obtain ⟨b, hb⟩ := ok_of_not_isFailure hclose
  rw [tree_iterate]
  revert hb
  unfold course Iteration.walk
  rcases htasks : Walker.explore x.cluster (x.tree.plan x.switches x.source).1
    (Iteration.start x.cluster x.tree x.world) with ⟨e | b', mid⟩
  · intro hb
    cases hb
  intro hb
  have hstays := Walker.stays_endScenario (c := x.cluster) mid ⟨rfl, rfl⟩
  obtain ⟨more, m, up, hsurvey, hvisited, hdry⟩ :=
    Walker.surveys_explore horder (x.tree.legal_plan x.switches x.source) htasks
  refine ⟨more, m, up, mid.tree, hsurvey, hdry, ?_⟩
  dsimp only
  rcases htold : Walker.endScenario x.cluster mid with ⟨e | u, last⟩
  all_goals
    rw [htold] at hstays
    dsimp only at hstays ⊢
    rw [hstays.1, hstays.2, hvisited]

/-- Iterations that do not fail make surveyed trees. -/
theorem surveyed_iterate {order : DeliveryOrder} {x : Explorer F σ μ} (h : x.tree.Surveyed order)
    (horder : x.cluster.config.order = order) (hok : x.iterate.1.outcome.isFailure = false) :
    x.iterate.2.tree.Surveyed order := by
  obtain ⟨more, m, up, t', hsurvey, hdry, htree⟩ := exists_survey (h.order.trans horder.symm) hok
  rw [htree]
  exact h.survey hsurvey hdry

end Explorer

namespace Tree

/-- A plan that leaves a switch ends with a task without a child, unless nothing was tried at all, and
enters no node with a mark. -/
theorem Surveyed.plan_new {order : DeliveryOrder} {t : Tree Rat} (h : t.Surveyed order)
    (hroot : t.isExplored root = false) {switches : Nat} {s : Source}
    (hleft : t.switchesOn root (t.plan switches s).1 < switches) :
    (t = Tree.empty order ∧ (t.plan switches s).1 = [] ∨
      ∃ before id n, (t.plan switches s).1 = before ++ [id] ∧ t.Leads root before n ∧
        t.child? n id = none) ∧
    ∀ before id after n m, (t.plan switches s).1 = before ++ id :: after → t.Leads root before n →
      t.child? n id = some m → t.isExplored m = false := by
  rcases h.visited with rfl | hvisited
  · have hnil : ((Tree.empty order : Tree Rat).plan switches s).1 = [] := rfl
    exact ⟨.inl ⟨rfl, hnil⟩, fun before id after n m heq => by simp [hnil] at heq⟩
  have hbuilt := h.toured.built
  obtain ⟨left, hdescends⟩ :=
    descends_descend hbuilt.grown t.size root switches s hbuilt.grown.root.1 (by omega)
  have hswitches := hdescends.switches
  obtain ⟨hnew, hentered⟩ := hdescends.progress hbuilt.measured h.toured.not_stale hvisited
    (by rw [plan] at hleft; omega) hroot
  exact ⟨.inr hnew, hentered⟩

/-- A complete iteration along a path that ends with a task without a child makes a node, and so does
the first one that has a task at all. -/
theorem Survey.size_lt_or {order : DeliveryOrder} [Share F] {t t' : Tree F} {path more : List TaskId}
    {up : List Nat} (h : t.Survey (path ++ more) up t')
    (hlast : t = empty order ∧ path = [] ∨
      ∃ before id n, path = before ++ [id] ∧ t.Leads root before n ∧ t.child? n id = none) :
    t.size < t'.size ∨ t = empty order ∧ path ++ more = [] := by
  rcases hlast with ⟨rfl, rfl⟩ | ⟨before, id, n, rfl, hleads, hnew⟩
  · cases more with
    | nil => exact .inr ⟨rfl, rfl⟩
    | cons id more =>
      have htried : (empty order).Survey ([] ++ [id] ++ more) up t' := h
      exact .inl (htried.size_lt (leads_nil_iff.mpr rfl) rfl)
  · exact .inl (h.size_lt hleads hnew)

/-- **The search makes progress while a switch is left.** Take a tree that was made by complete
iterations, whose root is not marked, and a plan with any number of switches and any source that does
not use up its switches. Its last task has no child, unless the tree is still empty, and none of its
tasks enters a node with a mark. So every complete iteration along the plan makes a node, and with it
every iteration of a search that does not fail; the one exception is the first, if nothing is eligible
at its start. -/
theorem plan_makes_progress {order : DeliveryOrder} {t : Tree Rat} (h : t.Surveyed order)
    (hroot : t.isExplored root = false) (switches : Nat) (s : Source)
    (hleft : t.switchesOn root (t.plan switches s).1 < switches) :
    (t = empty order ∧ (t.plan switches s).1 = [] ∨
      ∃ before id n, (t.plan switches s).1 = before ++ [id] ∧ t.Leads root before n ∧
        t.child? n id = none) ∧
    (∀ before id after n m, (t.plan switches s).1 = before ++ id :: after → t.Leads root before n →
      t.child? n id = some m → t.isExplored m = false) ∧
    (∀ more up t', t.Survey ((t.plan switches s).1 ++ more) up t' →
      t.size < t'.size ∨ t = empty order ∧ (t.plan switches s).1 ++ more = []) ∧
    ∀ {σ μ : Type} (x : Explorer Rat σ μ), x.tree = t → x.cluster.config.order = order →
      x.switches = switches → x.source = s → x.iterate.1.outcome.isFailure = false →
      t.size < x.iterate.2.tree.size ∨ t = empty order ∧ x.iterate.2.tree.choices? root = some [] := by
  obtain ⟨hlast, hentered⟩ := h.plan_new hroot hleft
  refine ⟨hlast, hentered, fun more up t' hsurvey => hsurvey.size_lt_or hlast, ?_⟩
  rintro σ μ x rfl horder rfl rfl hok
  obtain ⟨more, m, up, t', hsurvey, hdry, htree⟩ :=
    Explorer.exists_survey (h.order.trans horder.symm) hok
  obtain ⟨hchoices, hsize⟩ := t'.choices?_recount (m :: up).reverse root
  rw [htree, hsize, hchoices]
  refine (hsurvey.size_lt_or hlast).imp_right fun ⟨hempty, hnil⟩ => ⟨hempty, ?_⟩
  -- an iteration without tasks ends where it starts
  obtain ⟨n, rest, heq, hleads⟩ := hsurvey.leads
  cases heq
  rw [hnil] at hleads
  exact leads_nil_iff.mp hleads ▸ hdry

/-- On two peers with nothing to do but to begin, with two switches after the first iteration: the plan
is to begin with the second peer, which uses one of them, and the iteration makes a node. -/
theorem plan_makes_progress_idle :
    let x : Explorer Rat _ _ := Explorer.fresh Broadcast.idle .acceptAll
    let x' := x.iterate.2
    let y := { x' with switches := 2 }
    (y.tree.plan 2 y.source).1 = [⟨1⟩] ∧ y.tree.switchesOn root [⟨1⟩] = 1 ∧
      (∃ n, y.tree.Leads root [] n ∧ y.tree.child? n ⟨1⟩ = none) ∧
      y.tree.size < y.iterate.2.tree.size := by
  intro x x' y
  have hempty : x.tree.Surveyed .fifo := .empty
  have horder : x.cluster.config.order = .fifo := rfl
  have hok : x.iterate.1.outcome.isFailure = false := by decide +kernel
  have hsurveyed : x'.tree.Surveyed .fifo := Explorer.surveyed_iterate hempty horder hok
  have htree : y.tree = x'.tree := by dsimp only [y]
  rw [← htree] at hsurveyed
  have hplan : (y.tree.plan 2 y.source).1 = [⟨1⟩] := by decide +kernel
  have hswitches : y.tree.switchesOn root [⟨1⟩] = 1 := by decide +kernel
  have hroot : y.tree.isExplored root = false := by decide +kernel
  have hsize : y.tree.size = 3 := by decide +kernel
  obtain ⟨hlast, -, -, hsearch⟩ := plan_makes_progress hsurveyed hroot 2 y.source
    (by rw [hplan, hswitches]; decide)
  have hsome : y.tree ≠ empty .fifo := fun hempty => by
    rw [hempty] at hsize
    cases hsize
  obtain ⟨before, id, n, heq, hleads, hnew⟩ := hlast.resolve_left fun h => hsome h.1
  rw [hplan] at heq
  have hok' : y.iterate.1.outcome.isFailure = false := by decide +kernel
  have horder' : y.cluster.config.order = .fifo := by decide +kernel
  have hgrows := (hsearch y rfl horder' rfl rfl hok').resolve_right fun h => hsome h.1
  obtain ⟨rfl, hid⟩ | ⟨rest, -, hrest⟩ := List.cons_eq_append_iff.mp heq
  · cases hid
    exact ⟨hplan, hswitches, ⟨n, hleads, hnew⟩, hgrows⟩
  · simp at hrest

end Tree

end Interleave
