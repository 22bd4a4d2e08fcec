/-
# Splits of the network

A fault state comes about from the healthy one by crashes and partitions, and
recoveries and heals undo them one at a time. How many heals that takes is the
number of cuts: one while the network is in halves, otherwise one for each cut
link (`FaultState.cuts`). A partition adds one cut (`FaultState.Sound.partition`), a heal
succeeds while there is one and takes one away (`FaultState.Sound.exists_heal?`,
`FaultState.Sound.heal`). Component labels are those of the links cut, so that with no
cut left and no node down nothing tells the state from the healthy one
(`FaultState.Sound.eq_healthy`).
-/
import Interleave.Proofs.Bookkeeping
import Mathlib.Algebra.Group.Nat.Defs

namespace Interleave

/-! ### Random entries -/

namespace Source

/-- A draw below a bound is below it, whether accepted or taken past the limit. -/
theorem belowLoop_lt {bits n : Nat} {draw : Source → Nat × Source} (hn : 0 < n)
    (hdraw : ∀ s, (draw s).1 < 2 ^ bits) : ∀ fuel s, (belowLoop bits draw n fuel s).1 < n := by
  have hhigh : ∀ s, (draw s).1 * n / 2 ^ bits < n := fun s => by
    apply Nat.div_lt_of_lt_mul
    exact Nat.mul_lt_mul_of_pos_right (hdraw s) hn
  intro fuel
  induction fuel with
  | zero => exact hhigh
  | succ fuel ih =>
    intro s
    show (if (draw s).1 * n % 2 ^ bits ≤ zone bits n then ((draw s).1 * n / 2 ^ bits, (draw s).2)
      else belowLoop bits draw n fuel (draw s).2).1 < n
    split
    · exact hhigh s
    · exact ih _

theorem below_lt {n : Nat} (hn : 0 < n) (s : Source) : (below n s).1 < n :=
  belowLoop_lt hn (fun s => (s.word s.pos).toNat_lt) attempts s

/-- From a list that is not empty an entry is drawn. -/
theorem exists_choose {α : Type} {l : List α} (hl : l ≠ []) (s : Source) :
    ∃ a s', a ∈ l ∧ choose l s = (some a, s') := by
  have hlt : (below l.length s).1 < l.length := below_lt (List.length_pos_iff.mpr hl) s
  refine ⟨l[(below l.length s).1], (below l.length s).2, List.getElem_mem hlt, ?_⟩
  simp [choose, hl, hlt]

end Source

/-! ### Components without cuts -/

namespace Link

/-- The places next to `i` that have no label. -/
def fresh (cut : List Link) (i : Nat) (labels : List (Option Nat)) : List Nat :=
  (List.range labels.length).filter fun j => labels[j]? = some none && joined cut i j

/-- The labels after place `i` has been taken off. -/
def relabelled (cut : List Link) (k i : Nat) (labels : List (Option Nat)) : List (Option Nat) :=
  (fresh cut i labels).foldl (fun l j => l.set j (some k)) labels

/-- A place looks at each other one once, so what it labels is what had no label before. -/
theorem foldl_visit (cut : List Link) (k i : Nat) : ∀ {places : List Nat}, places.Nodup →
    ∀ (stack : List Nat) (labels : List (Option Nat)),
      places.foldl (visit cut k i) (stack, labels) =
        ((places.filter fun j => labels[j]? = some none && joined cut i j).reverse ++ stack,
          (places.filter fun j => labels[j]? = some none && joined cut i j).foldl
            (fun l j => l.set j (some k)) labels)
  | [], _, _, _ => rfl
  | j :: places, hnodup, stack, labels => by
    obtain ⟨hj, hplaces⟩ := List.nodup_cons.mp hnodup
    rw [List.foldl_cons, visit, List.filter_cons]
    dsimp only
    split
    · -- labelling `j` makes no difference to the places after it
      have hsame : (places.filter fun l => (labels.set j (some k))[l]? = some none && joined cut i l) =
          places.filter fun l => labels[l]? = some none && joined cut i l := by
        refine List.filter_congr fun l hl => ?_
        have hne : j ≠ l := fun heq => hj (heq ▸ hl)
        rw [List.getElem?_set_ne hne]
      rw [foldl_visit cut k i hplaces, hsame, List.reverse_cons, List.foldl_cons, List.append_assoc]
      rfl
    · exact foldl_visit cut k i hplaces stack labels

theorem spread_cons (cut : List Link) (k fuel i : Nat) (stack : List Nat) (labels : List (Option Nat)) :
    spread cut k (fuel + 1) (i :: stack) labels =
      spread cut k fuel ((fresh cut i labels).reverse ++ stack) (relabelled cut k i labels) := by
  rw [spread, foldl_visit cut k i List.nodup_range]
  rfl

theorem spread_of_full {cut : List Link} {k : Nat} {labels : List (Option Nat)}
    (hfull : none ∉ labels) : ∀ fuel stack, spread cut k fuel stack labels = labels
  | 0, _ => rfl
  | _ + 1, [] => rfl
  | fuel + 1, i :: stack => by
    have hnone : ∀ j, labels[j]? ≠ some none := fun j hj => hfull (List.mem_of_getElem? hj)
    have hfresh : fresh cut i labels = [] := by simp [fresh, hnone]
    rw [spread_cons, relabelled, hfresh]
    exact spread_of_full hfull fuel stack

theorem labelFrom_of_full {cut : List Link} {labels : List (Option Nat)} (hfull : none ∉ labels) :
    ∀ places k, labelFrom cut places k labels = labels
  | [], _ => rfl
  | i :: places, k => by
    have hnone : labels[i]? ≠ some none := fun hi => hfull (List.mem_of_getElem? hi)
    rw [labelFrom, if_neg hnone]
    exact labelFrom_of_full hfull places k

theorem length_foldl_set {α : Type} {a : α} : ∀ {places : List Nat} {l : List α},
    (places.foldl (fun l j => l.set j a) l).length = l.length
  | [], _ => rfl
  | j :: places, l => by rw [List.foldl_cons, length_foldl_set, List.length_set]

theorem getElem?_foldl_set {α : Type} {a : α} {i : Nat} : ∀ {places : List Nat} {l : List α},
    (places.foldl (fun l j => l.set j a) l)[i]? =
      if i ∈ places then l[i]?.map fun _ => a else l[i]?
  | [], l => by simp
  | j :: places, l => by
    rw [List.foldl_cons, getElem?_foldl_set]
    by_cases hij : i = j
    · subst hij
      by_cases hi : i < l.length <;> simp [hi]
    · have hne : j ≠ i := fun h => hij h.symm
      simp [hij, hne]

theorem foldl_set_rest {n : Nat} {places : List Nat} (hall : ∀ i, i < n → i + 1 ∈ places) :
    places.foldl (fun l j => l.set j (some 0)) (some 0 :: List.replicate n none) =
      List.replicate (n + 1) (some 0) := by
  refine List.ext_getElem? fun i => ?_
  rw [getElem?_foldl_set]
  cases i with
  | zero => simp
  | succ i =>
    by_cases hi : i < n
    · simp [hi, hall i hi]
    · simp [hi]

/-- Without cuts the first place already labels everything. -/
theorem spread_first (n : Nat) :
    spread [] 0 (n + 1) [0] (some 0 :: List.replicate n none) = List.replicate (n + 1) (some 0) := by
  have hfull : none ∉ List.replicate (n + 1) (some 0) := by simp [List.mem_replicate]
  have hall : relabelled [] 0 0 (some 0 :: List.replicate n none) = List.replicate (n + 1) (some 0) :=
    foldl_set_rest fun i hi => by simp [fresh, joined, hi]
  rw [spread_cons, hall]
  exact spread_of_full hfull _ _

/-- Without cuts all nodes are in one component. -/
theorem labels_nil (n : Nat) : labels n [] = List.replicate n 0 := by
  cases n with
  | zero => rfl
  | succ n =>
    have hfull : none ∉ List.replicate (n + 1) (some 0) := by simp [List.mem_replicate]
    have hset : (List.replicate (n + 1) (none : Option Nat)).set 0 (some 0) =
        some 0 :: List.replicate n none := rfl
    rw [labels, List.range_succ_eq_map, labelFrom, if_pos (by simp), List.length_replicate, hset,
      spread_first, labelFrom_of_full hfull, List.map_replicate]
    rfl

theorem mainLabel_replicate (n : Nat) : mainLabel (List.replicate n 0) = 0 := by
  have hmost : ∀ k, ¬ (List.replicate n 0).count 0 < (List.replicate n 0).count k := fun k => by
    have hle := List.count_le_length (a := k) (l := List.replicate n 0)
    rw [List.length_replicate] at hle
    rw [List.count_replicate_self]
    omega
  have hfold : ∀ places : List Nat, places.foldl (fun best k =>
      if (List.replicate n 0).count best < (List.replicate n 0).count k then k else best) 0 = 0 := by
    intro places
    induction places with
    | nil => rfl
    | cons k places ih => rw [List.foldl_cons, if_neg (hmost k), ih]
  exact hfold _

/-- No node is outside the only component. -/
theorem outside_replicate (n : Nat) : outside (List.replicate n 0) = [] := by
  unfold outside
  rw [mainLabel_replicate, List.map_eq_nil_iff, List.filter_eq_nil_iff]
  intro i hi
  have hlt : i < n := by simpa using hi
  simp [hlt]

theorem low_lt_high_of_between? {a b : NodeId} {l : Link} (h : between? a b = some l) :
    l.low < l.high := by
  unfold between? at h
  split_ifs at h with hab hba
  · cases h; exact hab
  · cases h; exact hba

theorem between?_of_lt {l : Link} (h : l.low < l.high) : between? l.low l.high = some l := by
  rw [between?, if_pos h]

end Link

/-! ### Fault states -/

namespace FaultState

/-- How many heals it takes to make the network whole. -/
def cuts (m : FaultState) : Nat :=
  match m.split with
  | .halves minority => if minority.isEmpty then 0 else 1
  | .links cut _ _ => cut.length

/-- What holds of all fault states with these roles and settings: the budget is the one they give,
no node is down and no link cut twice, and the split is of the shape asked for, labelled by its cut
links. -/
structure Sound (roles : List Role) (config : Config) (m : FaultState) : Prop where
  budget : m.budget = (healthy roles config).budget
  crashed : m.crashed.Nodup
  split : match m.split with
    | .halves _ => config.partitionMode = .halves
    | .links cut labels outside => config.partitionMode = .singleEdge ∧
      labels = Link.labels m.size cut ∧ outside = Link.outside labels ∧ cut.Nodup ∧
      ∀ l ∈ cut, l.low < l.high

variable {roles : List Role} {config : Config} {m m' : FaultState} {v : NodeId} {s s' : Source}

theorem sound_healthy (roles : List Role) (config : Config) :
    Sound roles config (healthy roles config) := by
  refine ⟨rfl, List.nodup_nil, ?_⟩
  cases hmode : config.partitionMode with
  | halves => simp [healthy, hmode]
  | singleEdge =>
    simp [healthy, hmode, size, Allowance.size, Link.labels_nil, Link.outside_replicate]

theorem cuts_healthy (roles : List Role) (config : Config) : (healthy roles config).cuts = 0 := by
  cases hmode : config.partitionMode <;> simp [healthy, cuts, hmode]

theorem frame_of_crash? (h : m.crash? v = some m') : m'.budget = m.budget ∧ m'.split = m.split := by
  unfold crash? at h
  split_ifs at h
  cases h
  exact ⟨rfl, rfl⟩

theorem frame_of_recover? (h : m.recover? v = some m') :
    m'.budget = m.budget ∧ m'.split = m.split := by
  unfold recover? at h
  split_ifs at h
  cases h
  exact ⟨rfl, rfl⟩

theorem cuts_congr (h : m'.split = m.split) : m'.cuts = m.cuts := by
  rw [cuts, h]
  rfl

namespace Sound

/-- Which nodes are down does not matter to the shape of the split. -/
theorem of_frame (hm : Sound roles config m) (hframe : m'.budget = m.budget ∧ m'.split = m.split)
    (hcrashed : m'.crashed.Nodup) : Sound roles config m' := by
  have hsize : m'.size = m.size := by rw [size, hframe.1]; rfl
  refine ⟨hframe.1.trans hm.budget, hcrashed, ?_⟩
  rw [hframe.2, hsize]
  exact hm.split

theorem crash (hm : Sound roles config m) (h : m.crash? v = some m') : Sound roles config m' := by
  obtain ⟨hperm, hnot⟩ := crashed_of_crash? h
  exact hm.of_frame (frame_of_crash? h)
    (hperm.nodup_iff.mpr (List.nodup_cons.mpr ⟨hnot, hm.crashed⟩))

theorem recover (hm : Sound roles config m) (h : m.recover? v = some m') :
    Sound roles config m' :=
  hm.of_frame (frame_of_recover? h) ((crashed_of_recover? h).2 ▸ hm.crashed.erase v)

/-- Other links are cut, and the labels follow. -/
theorem withCut {cut : List Link} (hm : Sound roles config m)
    (hmode : config.partitionMode = .singleEdge) (hnodup : cut.Nodup)
    (hlow : ∀ l ∈ cut, l.low < l.high) : Sound roles config (m.withCut cut) :=
  ⟨hm.budget, hm.crashed, hmode, rfl, rfl, hnodup, hlow⟩

theorem cut {a b : NodeId} (hm : Sound roles config m) (h : m.cut? a b = some m') :
    Sound roles config m' ∧ m'.cuts = m.cuts + 1 := by
  have hsplit := hm.split
  unfold cut? at h
  cases hkind : m.split with
  | halves minority => rw [hkind] at h; cases h
  | links cut labels outside =>
    rw [hkind] at h hsplit
    obtain ⟨hmode, -, -, hnodup, hlow⟩ := hsplit
    cases hlink : Link.between? a b with
    | none => rw [hlink] at h; cases h
    | some link =>
      rw [hlink] at h
      dsimp only at h
      split_ifs at h with hfree
      · cases h
        have hnot : link ∉ cut := fun hmem => hfree (by simp [hmem])
        have hperm := Ascending.insert_perm hnot
        have hnodup' := hperm.nodup_iff.mpr (List.nodup_cons.mpr ⟨hnot, hnodup⟩)
        refine ⟨hm.withCut hmode hnodup' fun l hl => ?_, ?_⟩
        · rcases List.mem_cons.mp (hperm.subset hl) with rfl | hl
          · exact Link.low_lt_high_of_between? hlink
          · exact hlow l hl
        · have hlength : (Ascending.insert link cut).length = cut.length + 1 := hperm.length_eq
          rw [cuts, cuts, hkind]
          exact hlength

/-- A partition is one more cut. -/
theorem partition (hm : Sound roles config m) (h : m.partition? s = (some m', s')) :
    Sound roles config m' ∧ m'.cuts = m.cuts + 1 := by
  have hsplit := hm.split
  unfold partition? at h
  cases hkind : m.split with
  | halves minority =>
    rw [hkind] at h hsplit
    dsimp only at h
    split at h
    · cases h
    · rename_i hwhole
      have hempty : minority = [] := by
        by_contra hne
        exact hwhole (by simp [hne])
      split at h
      · cases h
      · rename_i chosen hchosen
        cases h
        refine ⟨⟨hm.budget, hm.crashed, hsplit⟩, ?_⟩
        have hsome : m.gather (Source.between 1 m.minorityLimit s).1
            (Source.shuffle m.up (Source.between 1 m.minorityLimit s).2).1 [] ≠ [] := hchosen
        simp [cuts, hkind, hempty, hsome]
  | links cut labels outside =>
    rw [hkind] at h
    dsimp only at h
    split at h
    · exact hm.cut (Prod.mk.inj h).1
    · cases h

/-- While there is a cut, a heal undoes one. -/
theorem exists_heal? (hm : Sound roles config m) (hcuts : m.cuts ≠ 0) (s : Source) :
    ∃ m' s', m.heal? s = (some m', s') := by
  have hsplit := hm.split
  unfold heal?
  cases hkind : m.split with
  | halves minority =>
    have hne : minority.isEmpty = false := by
      rw [← Bool.not_eq_true]
      exact fun hempty => hcuts (by simp [cuts, hkind, hempty])
    exact ⟨{ m with split := .halves [] }, s, by simp [hne]⟩
  | links cut labels outside =>
    rw [hkind] at hsplit
    have hne : cut ≠ [] := fun hempty => hcuts (by simp [cuts, hkind, hempty])
    obtain ⟨link, s', hmem, hchoose⟩ := Source.exists_choose hne s
    refine ⟨m.withCut (cut.erase link), s', ?_⟩
    simp [hchoose, restore?, hkind, Link.between?_of_lt (hsplit.2.2.2.2 link hmem), hmem]

/-- Restoring a link is one cut less. -/
theorem restore {a b : NodeId} (hm : Sound roles config m) (h : m.restore? a b = some m') :
    Sound roles config m' ∧ m'.cuts + 1 = m.cuts := by
  have hsplit := hm.split
  unfold restore? at h
  cases hkind : m.split with
  | halves minority => rw [hkind] at h; cases h
  | links cut labels outside =>
    rw [hkind] at h hsplit
    obtain ⟨hmode, -, -, hnodup, hlow⟩ := hsplit
    cases hlink : Link.between? a b with
    | none => rw [hlink] at h; cases h
    | some l =>
      rw [hlink] at h
      dsimp only at h
      split_ifs at h with hmem
      · cases h
        have hl : l ∈ cut := by simpa using hmem
        refine ⟨hm.withCut hmode (hnodup.erase l) fun x hx => hlow x (List.mem_of_mem_erase hx), ?_⟩
        have hlength := List.length_erase_of_mem hl
        have hpos := List.length_pos_of_mem hl
        rw [cuts, cuts, hkind]
        show (cut.erase l).length + 1 = cut.length
        omega

/-- A heal is one cut less. -/
theorem heal (hm : Sound roles config m) (h : m.heal? s = (some m', s')) :
    Sound roles config m' ∧ m'.cuts + 1 = m.cuts := by
  have hsplit := hm.split
  unfold heal? at h
  cases hkind : m.split with
  | halves minority =>
    rw [hkind] at h hsplit
    dsimp only at h
    split_ifs at h with hempty
    · cases h
    · cases h
      exact ⟨⟨hm.budget, hm.crashed, hsplit⟩, by simp [cuts, hkind, hempty]⟩
  | links cut labels outside =>
    rw [hkind] at h
    dsimp only at h
    split at h
    · exact hm.restore (Prod.mk.inj h).1
    · cases h

/-- With all nodes up and nothing cut the state is the healthy one. -/
theorem eq_healthy (hm : Sound roles config m) (hcrashed : m.crashed = []) (hcuts : m.cuts = 0) :
    m = healthy roles config := by
  have hsplit := hm.split
  have hsize : m.size = roles.length := by rw [size, hm.budget]; rfl
  have hbudget := hm.budget
  obtain ⟨budget, crashed, split⟩ := m
  dsimp only at hbudget hcrashed
  subst hbudget hcrashed
  cases split with
  | halves minority =>
    have hempty : minority = [] := by
      by_contra hne
      simp [cuts, hne] at hcuts
    subst hempty
    simp [healthy, show config.partitionMode = .halves from hsplit]
  | links cut labels outside =>
    obtain ⟨hmode, hlabels, houtside, -⟩ := hsplit
    have hempty : cut = [] := List.length_eq_zero_iff.mp hcuts
    subst hempty
    rw [hsize, Link.labels_nil] at hlabels
    rw [hlabels, Link.outside_replicate] at houtside
    simp [healthy, hmode, hlabels, houtside]

end Sound

end FaultState

end Interleave
