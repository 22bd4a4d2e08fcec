/-
# The plan of an exhausted tree

When everything below the root is explored there is nothing to draw for: every choice
weighs nothing, so at each node the canonical one is taken, however many switches are
left (`Tree.draw_of_explored`). It leads to an explored node again. So the plan is the
walk of canonical choices down to where nothing is eligible, and the source of random
numbers is not asked (`Tree.plan_of_explored`).

Of the shares it matters only that nothing and nothing make nothing, and that nothing
is at most nothing.
-/
import Interleave.Proofs.Upkeep

namespace Interleave

variable {F : Type}

namespace Tree

/-! ### The canonical walk -/

/-- The walk of canonical choices from node `n`, down to a node where nothing is eligible. -/
inductive CanonicalWalk (t : Tree F) : Nat → List TaskId → Prop
  | stop {n : Nat} (dry : t.choices? n = some []) : CanonicalWalk t n []
  | step {n m : Nat} {id : TaskId} {path : List TaskId} (next : t.next? n = some id)
      (child : t.child? n id = some m) (rest : CanonicalWalk t m path) :
      CanonicalWalk t n (id :: path)

section

variable {t : Tree F} {n : Nat} {id : TaskId}

theorem next?_eq (t : Tree F) (n : Nat) :
    t.next? n = ((t.choices? n).bind TreeNode.canonical).map (·.1) := by
  unfold next? choices?
  cases t.nodes[n]? <;> rfl

theorem mem_of_next? (h : t.next? n = some id) : ∃ l, t.choices? n = some l ∧ ∃ e ∈ l, e.1 = id := by
  rw [next?_eq] at h
  obtain ⟨e, he, rfl⟩ := Option.map_eq_some_iff.mp h
  obtain ⟨l, hl, hcanonical⟩ := Option.bind_eq_some_iff.mp he
  exact ⟨l, hl, e, TreeNode.mem_of_canonical hcanonical, rfl⟩

/-- There is one canonical walk from a node at most. -/
theorem CanonicalWalk.unique {path other : List TaskId} (h : t.CanonicalWalk n path)
    (hother : t.CanonicalWalk n other) : other = path := by
  have hstops : ∀ {n id}, t.choices? n = some [] → t.next? n ≠ some id := by
    intro n id hdry hnext
    obtain ⟨l, hl, e, he, -⟩ := mem_of_next? hnext
    cases hdry.symm.trans hl
    cases he
  induction h generalizing other with
  | stop dry =>
    cases hother with
    | stop => rfl
    | step next => exact absurd next (hstops dry)
  | step next child _ ih =>
    cases hother with
    | stop dry => exact absurd next (hstops dry)
    | step next' child' rest' =>
      cases next.symm.trans next'
      cases child.symm.trans child'
      rw [ih rest']

end

/-! ### Choices that weigh nothing -/

section

variable [Share F] {t : Tree F} {x : TreeNode F}

theorem sum_of_zeros (hadd : Share.add (Share.zero : F) Share.zero = Share.zero) {l : List F}
    (hl : ∀ a ∈ l, a = Share.zero) : sum l = Share.zero := by
  unfold sum
  induction l with
  | nil => rfl
  | cons a l ih =>
    rw [List.foldl_cons, hl a List.mem_cons_self, hadd]
    exact ih fun b hb => hl b (List.mem_cons_of_mem a hb)

theorem weight_of_explored {id : TaskId} (h : t.exploredBehind x id = true) :
    t.weight x id = Share.zero := by
  obtain ⟨m, hm, hmarked⟩ := exploredBehind_iff.mp h
  unfold weight
  rw [hm]
  exact if_pos hmarked

variable (hadd : Share.add (Share.zero : F) Share.zero = Share.zero)
  (hle : Share.le (Share.zero : F) Share.zero = true)

include hadd hle

/-- Nothing is drawn where all that is eligible is explored. -/
theorem draw_of_explored (hx : ∀ id ∈ x.eligibleIds, t.exploredBehind x id = true) (s : Source) :
    t.draw x s = (none, s) := by
  have htotal : sum ((x.eligibleIds.map fun id => (id, t.weight x id)).map (·.2)) = Share.zero := by
    apply sum_of_zeros hadd
    intro a ha
    simp only [List.map_map, List.mem_map, Function.comp_apply] at ha
    obtain ⟨id, hid, rfl⟩ := ha
    exact weight_of_explored (hx id hid)
  unfold draw
  simp only [htotal, hle, if_true]

theorem chooseAt_of_explored (hx : ∀ id ∈ x.eligibleIds, t.exploredBehind x id = true)
    (canonical : TaskId) (switches : Nat) (s : Source) :
    t.chooseAt x canonical switches s = (canonical, s) := by
  unfold chooseAt
  rw [draw_of_explored hadd hle hx]
  split <;> rfl

/-- From a marked node the descent is canonical, whatever switches are left. A child stands after its
parent, so the nodes that are left are enough. -/
theorem descend_of_explored (hgrown : t.Grown) (hhonest : t.Honest) : ∀ (fuel n : Nat),
    t.size ≤ n + fuel → t.isExplored n = true →
      ∃ path, t.CanonicalWalk n path ∧ ∀ switches s, t.descend fuel n switches s = (path, s)
  | 0, n, hfuel, hn => by
    obtain ⟨x, hx, -⟩ := isExplored_iff.mp hn
    have hlt := lt_size_of_getElem? hx
    omega
  | fuel + 1, n, hfuel, hn => by
    obtain ⟨x, hx, hmarked⟩ := isExplored_iff.mp hn
    obtain ⟨l, hl, hall⟩ := hhonest.due hn
    have hbehind := (hhonest n x hx hmarked).2.1
    have hhere : t.next? n = x.next? := by
      unfold next?
      rw [hx]
      rfl
    cases hnext : x.next? with
    | none =>
      have hdry : l = [] := by
        rw [← hhere, next?_eq, hl] at hnext
        simpa [TreeNode.canonical_eq_none_iff] using hnext
      refine ⟨[], .stop (hdry ▸ hl), fun switches s => ?_⟩
      simp only [descend, hx, hnext]
    | some id =>
      obtain ⟨l', hl', e, he, rfl⟩ := mem_of_next? (hhere.trans hnext)
      cases hl.symm.trans hl'
      obtain ⟨m, hm, hexplored⟩ := hall e he
      have hlater := (hgrown.child hm).1
      obtain ⟨path, hwalk, hdescends⟩ :=
        descend_of_explored hgrown hhonest fuel m (by omega) hexplored
      refine ⟨e.1 :: path, .step (hhere.trans hnext) hm hwalk, fun switches s => ?_⟩
      have hchild : x.child? e.1 = some m := by simpa [child?, hx] using hm
      simp only [descend, hx, hnext, chooseAt_of_explored hadd hle hbehind, hchild, hdescends]

end

/-- **An exhausted tree plans one fixed path.** In a tree that was built by calls in any order, let the
root be marked as explored. Then there is one walk of canonical choices from the root down to where
nothing is eligible; and it is the plan for every number of switches and every source, and leaves the
source as it is. -/
theorem plan_of_explored [Share F] {order : DeliveryOrder} {t : Tree F}
    (hadd : Share.add (Share.zero : F) Share.zero = Share.zero)
    (hle : Share.le (Share.zero : F) Share.zero = true) (hbuilt : t.Built order)
    (hroot : t.isExplored root = true) :
    ∃ path, (∀ other, t.CanonicalWalk root other ↔ other = path) ∧
      ∀ switches s, t.plan switches s = (path, s) := by
  obtain ⟨path, hwalk, hplan⟩ := descend_of_explored hadd hle hbuilt.grown hbuilt.honest t.size root
    (Nat.le_add_left _ _) hroot
  exact ⟨path, fun other => ⟨hwalk.unique, fun hother => hother ▸ hwalk⟩, hplan⟩

/-- On doubles, the tree of a search that explored two peers with nothing to do but to begin plans that
they begin in order. -/
theorem plan_of_explored_idle :
    let x := ((Explorer.fresh Broadcast.idle .acceptAll : Explorer Float _ _).run).2
    x.tree.CanonicalWalk root [⟨0⟩, ⟨1⟩] ∧
      ∀ switches s, x.tree.plan switches s = ([⟨0⟩, ⟨1⟩], s) := by
  intro x
  have hnew : Explorer.new Broadcast.idle .acceptAll =
      .ok (Explorer.fresh Broadcast.idle .acceptAll : Explorer Float _ _) := Explorer.new_eq_fresh rfl
  have hbuilt := (Explorer.Reachable.run (.new hnew)).toured.built
  obtain ⟨path, hwalk, hplan⟩ := plan_of_explored (t := x.tree) rfl rfl hbuilt (by decide +kernel)
  have hcanonical : x.tree.CanonicalWalk root [⟨0⟩, ⟨1⟩] :=
    .step (m := 1) (by decide +kernel) (by decide +kernel)
      (.step (m := 2) (by decide +kernel) (by decide +kernel) (.stop (by decide +kernel)))
  cases (hwalk _).mp hcanonical
  exact ⟨hcanonical, hplan⟩

end Tree

end Interleave
