/-
# The way of a plan

A plan descends from the root of the tree. At each node it takes the canonical choice,
or uses a switch to take another one, and it goes on as far as the tree does. As the
model runs it, the descent is given as many steps as the tree has nodes. `Tree.Descends`
says what it does without counting them: children stand after their parents, so the
steps never run out (`Tree.descends_descend`), and a switch is used only where one is
left.

All that a plan promises can be read off that relation, whatever numbers the shares
are (`Tree.plan_within_switches`): every task is eligible where it is taken, the tasks off
the canonical order are as many as the switches that were used
(`Tree.Descends.switches`), and the plan ends only where the tree ends
(`Tree.Descends.ends`).
-/
import Interleave.Proofs.Plan

namespace Interleave

variable {F : Type}

namespace Tree

/-! ### Paths down the tree -/

/-- The path exists in the tree and leads from node `n` to node `m`. -/
def Leads (t : Tree F) (n : Nat) (path : List TaskId) (m : Nat) : Prop :=
  ∃ trail, t.trailFrom n path = some trail ∧ trail.getLast? = some m

/-- How many tasks of a path from node `n` are not the canonical choice where they are taken. -/
def switchesOn (t : Tree F) : Nat → List TaskId → Nat
  | _, [] => 0
  | n, id :: path =>
    (if t.next? n = some id then 0 else 1) +
      ((t.child? n id).map fun m => t.switchesOn m path).getD path.length

/-- The canonical choices from node `n` on, as far as the tree goes: down to a node that was not
visited or where nothing is eligible, or to a choice without a child. -/
inductive CanonicalRoute (t : Tree F) : Nat → List TaskId → Prop
  | stop {n : Nat} (here : n < t.size) (none : t.next? n = none) : CanonicalRoute t n []
  | last {n : Nat} {id : TaskId} (next : t.next? n = some id) (new : t.child? n id = none) :
      CanonicalRoute t n [id]
  | step {n m : Nat} {id : TaskId} {path : List TaskId} (next : t.next? n = some id)
      (child : t.child? n id = some m) (rest : CanonicalRoute t m path) :
      CanonicalRoute t n (id :: path)

section

variable {t : Tree F} {n m : Nat} {id : TaskId} {path : List TaskId}

theorem leads_nil_iff : t.Leads n [] m ↔ m = n := by
  constructor
  · rintro ⟨trail, htrail, hlast⟩
    cases htrail
    cases hlast
    rfl
  · rintro rfl
    exact ⟨[m], rfl, rfl⟩

theorem leads_cons_iff : t.Leads n (id :: path) m ↔ ∃ k, t.child? n id = some k ∧ t.Leads k path m := by
  unfold Leads
  constructor
  · rintro ⟨trail, htrail, hlast⟩
    rw [trailFrom_cons] at htrail
    obtain ⟨k, hk, htrail⟩ := Option.bind_eq_some_iff.mp htrail
    obtain ⟨rest, hrest, rfl⟩ := Option.map_eq_some_iff.mp htrail
    rw [List.getLast?_cons_of_ne_nil (trailFrom_ne_nil hrest)] at hlast
    exact ⟨k, hk, rest, hrest, hlast⟩
  · rintro ⟨k, hk, rest, hrest, hlast⟩
    refine ⟨n :: rest, ?_, ?_⟩
    · rw [trailFrom_cons, hk, Option.bind_some, hrest, Option.map_some]
    · rw [List.getLast?_cons_of_ne_nil (trailFrom_ne_nil hrest), hlast]

/-- A task of a legal path is eligible at the node that the tasks before it lead to. -/
theorem Legal.leads {after : List TaskId} : ∀ {before : List TaskId} {n : Nat},
    t.Legal n (before ++ id :: after) → ∃ m, t.Leads n before m ∧ id ∈ t.eligibleIds m
  | [], n, h => ⟨n, leads_nil_iff.mpr rfl, (legal_cons_iff.mp h).1⟩
  | id' :: before, n, h => by
    obtain ⟨-, hrest, hnone⟩ := legal_cons_iff.mp h
    cases hk : t.child? n id' with
    | none =>
      have hnil := hnone hk
      simp at hnil
    | some k =>
      obtain ⟨m, hm, hid⟩ := Legal.leads (hrest k hk)
      exact ⟨m, leads_cons_iff.mpr ⟨k, hk, hm⟩, hid⟩

theorem next?_eq_none_iff : t.next? n = none ↔ t.choices? n = none ∨ t.choices? n = some [] := by
  rw [next?_eq, Option.map_eq_none_iff]
  cases t.choices? n with
  | none => simp
  | some l => simp [TreeNode.canonical_eq_none_iff]

/-- There is one canonical route from a node at most. -/
theorem CanonicalRoute.unique {other : List TaskId} (h : t.CanonicalRoute n path)
    (hother : t.CanonicalRoute n other) : other = path := by
  induction h generalizing other with
  | stop _ none =>
    cases hother with
    | stop => rfl
    | last next => cases none.symm.trans next
    | step next => cases none.symm.trans next
  | last next new =>
    cases hother with
    | stop _ none => cases none.symm.trans next
    | last next' =>
      cases next.symm.trans next'
      rfl
    | step next' child' =>
      cases next.symm.trans next'
      cases new.symm.trans child'
  | step next child _ ih =>
    cases hother with
    | stop _ none => cases none.symm.trans next
    | last next' new' =>
      cases next.symm.trans next'
      cases new'.symm.trans child
    | step next' child' rest' =>
      cases next.symm.trans next'
      cases child.symm.trans child'
      rw [ih rest']

end

/-! ### The descent without counting steps -/

variable [Share F]

/-- The choice at node `n` with `k` switches: a task, the switches that are left and the source after
it. Any but the canonical task uses a switch, so there has to be one. -/
def Picks (t : Tree F) (n k : Nat) (s : Source) (id : TaskId) (k' : Nat) (s' : Source) : Prop :=
  ∃ x canonical, t.nodes[n]? = some x ∧ x.next? = some canonical ∧
    t.chooseAt x canonical k s = (id, s') ∧ (id = canonical ∧ k' = k ∨ id ≠ canonical ∧ k' + 1 = k)

/-- The descent from node `n` with `k` switches: a path, the switches that are left and the source at
its end. -/
inductive Descends (t : Tree F) : Nat → Nat → Source → List TaskId → Nat → Source → Prop
  | stop {n k : Nat} {s : Source} (here : n < t.size) (none : t.next? n = none) :
      Descends t n k s [] k s
  | last {n k k' : Nat} {s s' : Source} {id : TaskId} (pick : t.Picks n k s id k' s')
      (new : t.child? n id = none) : Descends t n k s [id] k' s'
  | step {n m k k' left : Nat} {s s' s'' : Source} {id : TaskId} {path : List TaskId}
      (pick : t.Picks n k s id k' s') (child : t.child? n id = some m)
      (rest : Descends t m k' s' path left s'') : Descends t n k s (id :: path) left s''

section

variable {t : Tree F} {n k k' : Nat} {s s' : Source} {id : TaskId} {path : List TaskId} {left : Nat}

theorem Picks.next?_eq (h : t.Picks n k s id k' s') :
    t.next? n = some id ∧ k' = k ∨ t.next? n ≠ some id ∧ k' + 1 = k := by
  obtain ⟨x, canonical, hx, hnext, -, hpaid⟩ := h
  have hhere : t.next? n = some canonical := by simp [next?, hx, hnext]
  rcases hpaid with ⟨rfl, hk⟩ | ⟨hne, hk⟩
  · exact .inl ⟨hhere, hk⟩
  · exact .inr ⟨fun hid => hne (Option.some.inj (hid.symm.trans hhere)), hk⟩

theorem Picks.unique (h : t.Picks n k s id k' s') {id' : TaskId} {l : Nat} {r : Source}
    (h' : t.Picks n k s id' l r) : id' = id ∧ l = k' ∧ r = s' := by
  obtain ⟨x, canonical, hx, hnext, hchoose, hpaid⟩ := h
  obtain ⟨x', canonical', hx', hnext', hchoose', hpaid'⟩ := h'
  cases hx.symm.trans hx'
  cases hnext.symm.trans hnext'
  cases hchoose.symm.trans hchoose'
  refine ⟨rfl, ?_, rfl⟩
  rcases hpaid with ⟨heq, hk⟩ | ⟨hne, hk⟩ <;> rcases hpaid' with ⟨heq', hk'⟩ | ⟨hne', hk'⟩
  · omega
  · exact absurd heq hne'
  · exact absurd heq' hne
  · omega

/-- Without switches the canonical choice is taken, and the source is not asked. -/
theorem Picks.of_zero (h : t.Picks n 0 s id k' s') : t.next? n = some id ∧ k' = 0 ∧ s' = s := by
  rcases h.next?_eq with ⟨hnext, hk⟩ | ⟨-, hk⟩
  · obtain ⟨x, canonical, -, -, hchoose, -⟩ := h
    cases hchoose
    exact ⟨hnext, hk, rfl⟩
  · omega

theorem picks_chooseAt {x : TreeNode F} {canonical : TaskId} (hx : t.nodes[n]? = some x)
    (hnext : x.next? = some canonical) (k : Nat) (s : Source) :
    t.Picks n k s (t.chooseAt x canonical k s).1
      (if (t.chooseAt x canonical k s).1 = canonical then k else k - 1)
      (t.chooseAt x canonical k s).2 := by
  refine ⟨x, canonical, hx, hnext, rfl, ?_⟩
  by_cases hsame : (t.chooseAt x canonical k s).1 = canonical
  · exact .inl ⟨hsame, if_pos hsame⟩
  · have hk : k ≠ 0 := by
      rintro rfl
      exact hsame rfl
    rw [if_neg hsame]
    exact .inr ⟨hsame, by omega⟩

/-- **The steps do not run out**: from a node of the tree the nodes after it are enough of them. -/
theorem descends_descend (hgrown : t.Grown) : ∀ (fuel n k : Nat) (s : Source), n < t.size →
    t.size ≤ n + fuel → ∃ left, t.Descends n k s (t.descend fuel n k s).1 left (t.descend fuel n k s).2
  | 0, n, k, s, hn, hfuel => by omega
  | fuel + 1, n, k, s, hn, hfuel => by
    obtain ⟨x, hx⟩ := Chart.exists_getElem? hn
    have hhere : t.next? n = x.next? := by simp [next?, hx]
    cases hnext : x.next? with
    | none =>
      simp only [descend, hx, hnext]
      exact ⟨k, .stop hn (hhere.trans hnext)⟩
    | some canonical =>
      have hpick := picks_chooseAt hx hnext k s
      have hchild : t.child? n (t.chooseAt x canonical k s).1 =
          x.child? (t.chooseAt x canonical k s).1 := by simp [child?, hx]
      simp only [descend, hx, hnext]
      cases hm : x.child? (t.chooseAt x canonical k s).1 with
      | none => exact ⟨_, .last hpick (hchild.trans hm)⟩
      | some m =>
        obtain ⟨hlater, hparent⟩ := hgrown.child (hchild.trans hm)
        obtain ⟨left, hrest⟩ := descends_descend hgrown fuel m _ (t.chooseAt x canonical k s).2
          (lt_size_of_parent? hparent) (by omega)
        exact ⟨left, .step hpick (hchild.trans hm) hrest⟩

theorem Descends.unique (h : t.Descends n k s path left s') {path' : List TaskId} {l : Nat}
    {r : Source} (h' : t.Descends n k s path' l r) : path' = path ∧ r = s' := by
  have hpicked : ∀ {n k s id k' s'}, t.Picks n k s id k' s' → t.next? n ≠ none := by
    intro n k s id k' s' hpick hnone
    obtain ⟨x, canonical, hx, hnext, -⟩ := hpick
    simp [next?, hx, hnext] at hnone
  induction h generalizing path' with
  | stop _ none =>
    cases h' with
    | stop => exact ⟨rfl, rfl⟩
    | last pick => exact absurd none (hpicked pick)
    | step pick => exact absurd none (hpicked pick)
  | last pick new =>
    cases h' with
    | stop _ none => exact absurd none (hpicked pick)
    | last pick' =>
      obtain ⟨rfl, rfl, rfl⟩ := pick.unique pick'
      exact ⟨rfl, rfl⟩
    | step pick' child' =>
      obtain ⟨rfl, rfl, rfl⟩ := pick.unique pick'
      cases new.symm.trans child'
  | step pick child _ ih =>
    cases h' with
    | stop _ none => exact absurd none (hpicked pick)
    | last pick' new' =>
      obtain ⟨rfl, rfl, rfl⟩ := pick.unique pick'
      cases new'.symm.trans child
    | step pick' child' rest' =>
      obtain ⟨rfl, rfl, rfl⟩ := pick.unique pick'
      cases child.symm.trans child'
      obtain ⟨rfl, rfl⟩ := ih rest'
      exact ⟨rfl, rfl⟩

/-- More steps than there are nodes change nothing. -/
theorem descend_eq_plan (hgrown : t.Grown) (more k : Nat) (s : Source) :
    t.descend (t.size + more) root k s = t.plan k s := by
  obtain ⟨left, h⟩ := descends_descend hgrown t.size root k s hgrown.root.1 (by omega)
  obtain ⟨left', h'⟩ := descends_descend hgrown (t.size + more) root k s hgrown.root.1 (by omega)
  obtain ⟨hpath, hsource⟩ := h.unique h'
  exact Prod.ext hpath hsource

/-! ### What the descent promises -/

/-- **The switches add up**: those that are left, and one for each task off the canonical order. -/
theorem Descends.switches (h : t.Descends n k s path left s') : left + t.switchesOn n path = k := by
  induction h with
  | stop => rfl
  | @last n k k' _ _ id pick new =>
    rcases pick.next?_eq with ⟨hnext, rfl⟩ | ⟨hnext, rfl⟩
    · simp [switchesOn, hnext, new]
    · simp [switchesOn, hnext, new]
  | @step n m k k' left _ _ _ id path pick child _ ih =>
    rcases pick.next?_eq with ⟨hnext, rfl⟩ | ⟨hnext, rfl⟩
    · simp [switchesOn, hnext, child, ih]
    · simp only [switchesOn, if_neg hnext, child, Option.map_some, Option.getD_some]
      omega

/-- **A descent ends where the tree ends**: at a node with no choice, or at a task without a child. -/
theorem Descends.ends (h : t.Descends n k s path left s') :
    (∃ m, t.Leads n path m ∧ m < t.size ∧ t.next? m = none) ∨
      ∃ before id m, path = before ++ [id] ∧ t.Leads n before m ∧ t.child? m id = none := by
  induction h with
  | @stop n _ _ here none => exact .inl ⟨n, leads_nil_iff.mpr rfl, here, none⟩
  | @last n _ _ _ _ id pick new => exact .inr ⟨[], id, n, rfl, leads_nil_iff.mpr rfl, new⟩
  | @step n m _ _ _ _ _ _ id path pick child _ ih =>
    rcases ih with ⟨m', hleads, hm'⟩ | ⟨before, id', m', rfl, hleads, hnew⟩
    · exact .inl ⟨m', leads_cons_iff.mpr ⟨m, child, hleads⟩, hm'⟩
    · exact .inr ⟨id :: before, id', m', rfl, leads_cons_iff.mpr ⟨m, child, hleads⟩, hnew⟩

theorem Descends.canonicalRoute (h : t.Descends n k s path left s') (hk : k = 0) :
    t.CanonicalRoute n path ∧ s' = s := by
  induction h with
  | stop here none => exact ⟨.stop here none, rfl⟩
  | last pick new =>
    subst hk
    obtain ⟨hnext, -, hsource⟩ := pick.of_zero
    exact ⟨.last hnext new, hsource⟩
  | step pick child _ ih =>
    subst hk
    obtain ⟨hnext, hleft, rfl⟩ := pick.of_zero
    obtain ⟨hroute, hsource⟩ := ih hleft
    exact ⟨.step hnext child hroute, hsource⟩

end

/-- **Plans are legal and within their switches.** In a tree that was built by calls in any order, for
every number of switches and every source, the descent comes to its end, in no more steps than there
are nodes, and uses a switch that it has for each task off the canonical order. Every task of the
plan is eligible at the node that the tasks before it lead to, so all that comes before a task exists in
the tree. The plan ends at a node that was not visited or where nothing is eligible, or with a task
without a child. Without switches it is the one canonical route, and the source is not asked. -/
theorem plan_within_switches {order : DeliveryOrder} {t : Tree F} (hbuilt : t.Built order)
    (switches : Nat) (s : Source) :
    (∃ left, t.Descends root switches s (t.plan switches s).1 left (t.plan switches s).2 ∧
      left + t.switchesOn root (t.plan switches s).1 = switches) ∧
    (∀ more, t.descend (t.size + more) root switches s = t.plan switches s) ∧
    (∀ before id after, (t.plan switches s).1 = before ++ id :: after →
      ∃ n, t.Leads root before n ∧ id ∈ t.eligibleIds n) ∧
    ((∃ n, t.Leads root (t.plan switches s).1 n ∧ n < t.size ∧
        (t.choices? n = none ∨ t.choices? n = some [])) ∨
      ∃ before id n, (t.plan switches s).1 = before ++ [id] ∧ t.Leads root before n ∧
        t.child? n id = none) ∧
    (switches = 0 → (∀ path, t.CanonicalRoute root path ↔ path = (t.plan switches s).1) ∧
      (t.plan switches s).2 = s) := by
  have hgrown := hbuilt.grown
  obtain ⟨left, h⟩ := descends_descend hgrown t.size root switches s hgrown.root.1 (by omega)
  refine ⟨⟨left, h, h.switches⟩, fun more => descend_eq_plan hgrown more switches s,
    fun before id after heq => ?_, ?_, fun hzero => ?_⟩
  · have hlegal := t.legal_plan switches s
    rw [heq] at hlegal
    exact hlegal.leads
  · rcases h.ends with ⟨n, hleads, hn, hnone⟩ | hnew
    · exact .inl ⟨n, hleads, hn, next?_eq_none_iff.mp hnone⟩
    · exact .inr hnew
  · obtain ⟨hroute, hsource⟩ := h.canonicalRoute hzero
    exact ⟨fun path => ⟨hroute.unique, fun heq => heq ▸ hroute⟩, hsource⟩

/-- Two operations of different nodes are eligible at first. The lower one was tried, and after it the
other one. -/
def tried : List Call :=
  let first : TaskView := ⟨⟨0⟩, ⟨0⟩, ⟨[1, 0]⟩, .operation, none, none⟩
  let second : TaskView := ⟨⟨1⟩, ⟨1⟩, ⟨[0, 1]⟩, .operation, none, none⟩
  [.observe root none [first, second], .branch root first.id, .observe 1 (some first) [second],
    .branch 1 second.id, .observe 2 (some second) [], .recount [root, 1, 2]]

/-- With a switch the higher operation is next, without one the two in order again. -/
theorem plan_within_switches_tried :
    let t : Tree Rat := (empty .fifo).calls tried
    (t.plan 1 ⟨fun _ => 0, 0⟩).1 = [⟨1⟩] ∧ (∃ left, left + t.switchesOn root [⟨1⟩] = 1) ∧
    (∃ n, t.Leads root [] n ∧ ⟨1⟩ ∈ t.eligibleIds n) ∧
    ∀ path, t.CanonicalRoute root path ↔ path = [⟨0⟩, ⟨1⟩] := by
  intro t
  have hbuilt : t.Built .fifo := ⟨tried, rfl⟩
  obtain ⟨⟨left, -, hleft⟩, -, heligible, -, -⟩ := plan_within_switches hbuilt 1 ⟨fun _ => 0, 0⟩
  obtain ⟨-, -, -, -, hroute⟩ := plan_within_switches hbuilt 0 ⟨fun _ => 0, 0⟩
  have hone : (t.plan 1 ⟨fun _ => 0, 0⟩).1 = [⟨1⟩] := by decide +kernel
  have hnone : (t.plan 0 ⟨fun _ => 0, 0⟩).1 = [⟨0⟩, ⟨1⟩] := by decide +kernel
  rw [hone] at hleft heligible
  refine ⟨hone, ⟨left, hleft⟩, heligible [] ⟨1⟩ [] rfl, fun path => ?_⟩
  rw [← hnone]
  exact (hroute rfl).1 path

end Tree

end Interleave
