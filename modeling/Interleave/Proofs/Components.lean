/-
# Connected components

The network is the complete graph on the nodes, less the links that are cut. Its labels
are found by a search: from a place without a label, places are put on a stack and
labelled, and for each one that is taken off, its neighbours without a label are put on.
All neighbours of a labelled place that is not on the stack are labelled, so when the
stack is empty the component is labelled as a whole; and a component that has no label
yet has none at all, so the search stays within. The components are labelled in the
order of their lowest place, and a label that is compared first wins a tie.

Places past the last address share addresses with others, and a link is named by its
addresses. With so many nodes the network is connected whatever is cut, and so is what
the search sees of it.

Key definitions: `Link.network`, `Link.wiring`, `Link.Spreading`, `Link.Enlarged`,
`Link.Labelling`, `Link.Numbers`, `Link.IsMain`.
Key theorems: `Link.Spreading.step`, `Link.Spreading.spread`, `Link.Labelling.step`,
`Link.Labelling.labelFrom`, `Link.exists_numbers`, `Link.mainLabel_max`,
`Link.reachable_wiring_iff`, `FaultState.single_edge_components`.
-/
import Interleave.Proofs.Budget
import Interleave.Proofs.Counters
import Mathlib.Combinatorics.SimpleGraph.Connectivity.Connected
import Mathlib.Combinatorics.SimpleGraph.DeleteEdges
import Mathlib.Data.Fintype.Fin
import Mathlib.Data.Set.Card

namespace Interleave

namespace Link

/-- All of `n` nodes linked with each other, less the links that are cut. -/
def network (n : Nat) (cut : List Link) : SimpleGraph (Fin n) :=
  (⊤ : SimpleGraph (Fin n)).deleteEdges
    {e | ∃ l ∈ cut, ∃ a b : Fin n, a.val = l.low.index ∧ b.val = l.high.index ∧ e = s(a, b)}

theorem joined_comm (cut : List Link) (i j : Nat) : joined cut i j = joined cut j i := by
  unfold joined
  rw [min_comm, max_comm, decide_eq_decide.mpr (ne_comm (a := i) (b := j))]

/-- The direct links between `n` places. -/
def wiring (n : Nat) (cut : List Link) : SimpleGraph (Fin n) where
  Adj a b := joined cut a b = true
  symm := ⟨fun a b h => (joined_comm cut b a).trans h⟩
  loopless := ⟨fun a => by simp [joined]⟩

/-! ### One component -/

section

variable {n : Nat} {cut : List Link} {k i : Nat} {start a b : Fin n} {stack : List Nat}
  {labels : List (Option Nat)}

/-- A place that gets a label is one less without. -/
theorem count_set {j : Nat} (hj : labels[j]? = some none) :
    (labels.set j (some k)).count none + 1 = labels.count none := by
  obtain ⟨hlt, hnone⟩ := List.getElem?_eq_some_iff.mp hj
  have hpos : 0 < labels.count none := List.count_pos_iff.mpr (hnone ▸ List.getElem_mem hlt)
  rw [List.count_set hlt, hnone]
  simp only [beq_self_eq_true, if_true, Option.some_beq_none, Bool.false_eq_true, if_false]
  omega

theorem count_foldl_set : ∀ {places : List Nat} {labels : List (Option Nat)}, places.Nodup →
    (∀ j ∈ places, labels[j]? = some none) →
    (places.foldl (fun l j => l.set j (some k)) labels).count none + places.length = labels.count none
  | [], _, _, _ => rfl
  | j :: places, labels, hnodup, hnone => by
    obtain ⟨hj, hplaces⟩ := List.nodup_cons.mp hnodup
    have hrest : ∀ l ∈ places, (labels.set j (some k))[l]? = some none := by
      intro l hl
      have hne : j ≠ l := fun heq => hj (heq ▸ hl)
      rw [List.getElem?_set_ne hne]
      exact hnone l (List.mem_cons_of_mem _ hl)
    have hfirst := count_set (k := k) (hnone j List.mem_cons_self)
    have hothers := count_foldl_set hplaces hrest
    rw [List.foldl_cons, List.length_cons]
    omega

theorem mem_fresh {j : Nat} : j ∈ fresh cut i labels ↔ labels[j]? = some none ∧ joined cut i j = true := by
  have hlt : labels[j]? = some none → j < labels.length := fun h => (List.getElem?_eq_some_iff.mp h).1
  simp only [fresh, List.mem_filter, List.mem_range, Bool.and_eq_true, decide_eq_true_eq]
  exact ⟨fun h => h.2, fun h => ⟨hlt h.1, h⟩⟩

theorem getElem?_relabelled (j : Nat) : (relabelled cut k i labels)[j]? =
    if j ∈ fresh cut i labels then some (some k) else labels[j]? := by
  rw [relabelled, getElem?_foldl_set]
  split_ifs with hj
  · rw [(mem_fresh.mp hj).1, Option.map_some]
  · rfl

theorem count_relabelled (cut : List Link) (k i : Nat) (labels : List (Option Nat)) :
    (relabelled cut k i labels).count none + (fresh cut i labels).length = labels.count none :=
  count_foldl_set (List.nodup_range.filter _) fun _ hj => (mem_fresh.mp hj).1

/-- The search from `start` with label `k`. What has the label can be reached, and what can be reached
has this label or none; the neighbours of all places that are not on the stack have it too. -/
structure Spreading (cut : List Link) (k : Nat) (start : Fin n) (stack : List Nat)
    (labels : List (Option Nat)) : Prop where
  length : labels.length = n
  begun : labels[start.val]? = some (some k)
  marked : ∀ i ∈ stack, labels[i]? = some (some k)
  sound : ∀ a : Fin n, labels[a.val]? = some (some k) → (wiring n cut).Reachable start a
  fits : ∀ a : Fin n, (wiring n cut).Reachable start a →
    labels[a.val]? = some none ∨ labels[a.val]? = some (some k)
  closed : ∀ a b : Fin n, labels[a.val]? = some (some k) → a.val ∉ stack → (wiring n cut).Adj a b →
    labels[b.val]? = some (some k)

namespace Spreading

/-- Once the stack is empty, all that can be reached has the label. -/
theorem complete (h : Spreading cut k start [] labels) (ha : (wiring n cut).Reachable start a) :
    labels[a.val]? = some (some k) := by
  rw [SimpleGraph.reachable_iff_reflTransGen] at ha
  induction ha with
  | refl => exact h.begun
  | tail _ hab ih => exact h.closed _ _ ih List.not_mem_nil hab

/-- A neighbour of a labelled place has the label, or gets it from the place on top. -/
theorem adj (h : Spreading cut k start (i :: stack) labels) (ha : labels[a.val]? = some (some k))
    (hstack : a.val ∉ stack) (hab : (wiring n cut).Adj a b) :
    b.val ∈ fresh cut i labels ∨ labels[b.val]? = some (some k) := by
  by_cases htop : a.val = i
  · refine (h.fits b ((h.sound a ha).trans hab.reachable)).imp_left fun hnone => ?_
    exact mem_fresh.mpr ⟨hnone, htop ▸ hab⟩
  · have hnot : a.val ∉ i :: stack := fun hmem => (List.mem_cons.mp hmem).elim htop hstack
    exact .inr (h.closed a b ha hnot hab)

/-- The place on top is taken off, and its neighbours go on. -/
theorem step (h : Spreading cut k start (i :: stack) labels) :
    Spreading cut k start ((fresh cut i labels).reverse ++ stack) (relabelled cut k i labels) := by
  have hkeeps : ∀ {j : Nat}, labels[j]? = some (some k) →
      (relabelled cut k i labels)[j]? = some (some k) := by
    intro j hj
    rw [getElem?_relabelled, hj, ite_self]
  have htop := h.marked i List.mem_cons_self
  have hin : i < n := h.length ▸ (List.getElem?_eq_some_iff.mp htop).1
  refine ⟨?_, hkeeps h.begun, fun j hj => ?_, fun a ha => ?_, fun a ha => ?_, fun a b ha hold hab => ?_⟩
  · exact length_foldl_set.trans h.length
  · rcases List.mem_append.mp hj with hj | hj
    · rw [getElem?_relabelled, if_pos (List.mem_reverse.mp hj)]
    · exact hkeeps (h.marked j (List.mem_cons_of_mem _ hj))
  · rw [getElem?_relabelled] at ha
    split_ifs at ha with hfresh
    · have hadj : (wiring n cut).Adj ⟨i, hin⟩ a := (mem_fresh.mp hfresh).2
      exact (h.sound ⟨i, hin⟩ htop).trans hadj.reachable
    · exact h.sound a ha
  · rw [getElem?_relabelled]
    split_ifs
    · exact .inr rfl
    · exact h.fits a ha
  · rw [List.mem_append, List.mem_reverse, not_or] at hold
    rw [getElem?_relabelled, if_neg hold.1] at ha
    rcases h.adj ha hold.2 hab with hfresh | hb
    · rw [getElem?_relabelled, if_pos hfresh]
    · exact hkeeps hb

/-- **A component is labelled as a whole**, and nothing else, if as many places may be taken off as
are on the stack or have no label. -/
theorem spread : ∀ (fuel : Nat) {stack : List Nat} {labels : List (Option Nat)},
    Spreading cut k start stack labels → stack.length + labels.count none ≤ fuel →
    (spread cut k fuel stack labels).length = n ∧ ∀ a : Fin n,
      ((wiring n cut).Reachable start a → (spread cut k fuel stack labels)[a.val]? = some (some k)) ∧
      (¬ (wiring n cut).Reachable start a →
        (spread cut k fuel stack labels)[a.val]? = labels[a.val]?)
  | 0, [], _, h, _ | _ + 1, [], _, h, _ => ⟨h.length, fun _ => ⟨h.complete, fun _ => rfl⟩⟩
  | 0, _ :: stack, _, _, hfuel => by
    rw [List.length_cons] at hfuel
    omega
  | fuel + 1, i :: stack, labels, h, hfuel => by
    have hcount := count_relabelled cut k i labels
    have hfewer : ((fresh cut i labels).reverse ++ stack).length +
        (relabelled cut k i labels).count none ≤ fuel := by
      rw [List.length_append, List.length_reverse]
      rw [List.length_cons] at hfuel
      omega
    obtain ⟨hlength, hspread⟩ := Spreading.spread fuel h.step hfewer
    rw [spread_cons]
    refine ⟨hlength, fun a => ⟨(hspread a).1, fun ha => ?_⟩⟩
    -- what is labelled now can be reached, so the rest is as before
    rw [(hspread a).2 ha, getElem?_relabelled, if_neg]
    intro hfresh
    refine ha (h.step.sound a ?_)
    rw [getElem?_relabelled, if_pos hfresh]

end Spreading

/-- The component of `start`, which had no label, has label `k` now; all else is as it was. -/
structure Enlarged (cut : List Link) (k : Nat) (start : Fin n) (labels labels' : List (Option Nat)) :
    Prop where
  length : labels'.length = n
  new : ∀ a : Fin n, (wiring n cut).Reachable start a →
    labels[a.val]? = some none ∧ labels'[a.val]? = some (some k)
  old : ∀ a : Fin n, ¬ (wiring n cut).Reachable start a → labels'[a.val]? = labels[a.val]?

theorem Enlarged.cases {labels' : List (Option Nat)} (h : Enlarged cut k start labels labels') {j : Nat}
    (hj : labels'[a.val]? = some (some j)) :
    (wiring n cut).Reachable start a ∧ j = k ∨
      ¬ (wiring n cut).Reachable start a ∧ labels[a.val]? = some (some j) := by
  by_cases ha : (wiring n cut).Reachable start a
  · rw [(h.new a ha).2] at hj
    cases hj
    exact .inl ⟨ha, rfl⟩
  · exact .inr ⟨ha, (h.old a ha).symm.trans hj⟩

end

/-! ### All components -/

/-- The labels when the places before `i` are done and `k` labels are used: the labels tell
components apart, and each of them has a place that is not after any place of a later label. -/
structure Labelling (n : Nat) (cut : List Link) (i k : Nat) (labels : List (Option Nat)) : Prop where
  length : labels.length = n
  few : k ≤ i
  below : ∀ (a : Fin n) j, labels[a.val]? = some (some j) → j < k
  done : ∀ a : Fin n, a.val < i → labels[a.val]? ≠ some none
  known : ∀ (a b : Fin n) j, labels[a.val]? = some (some j) →
    (labels[b.val]? = some (some j) ↔ (wiring n cut).Reachable a b)
  low : ∀ (a : Fin n) j, labels[a.val]? = some (some j) → ∃ low : Fin n, low.val < i ∧
    labels[low.val]? = some (some j) ∧ ∀ (b : Fin n) j', labels[b.val]? = some (some j') → j ≤ j' →
      low ≤ b

namespace Labelling

variable {n : Nat} {cut : List Link} {i k : Nat} {labels : List (Option Nat)}

theorem start (n : Nat) (cut : List Link) : Labelling n cut 0 0 (List.replicate n none) := by
  have hbare : ∀ (a : Fin n) j, (List.replicate n (none : Option Nat))[a.val]? ≠ some (some j) := by
    intro a j h
    simp at h
  exact ⟨List.length_replicate, Nat.le_refl 0, fun a j h => absurd h (hbare a j), fun a h => by omega,
    fun a b j h => absurd h (hbare a j), fun a j h => absurd h (hbare a j)⟩

theorem bare_or_label (h : Labelling n cut i k labels) (a : Fin n) :
    labels[a.val]? = some none ∨ ∃ j, labels[a.val]? = some (some j) := by
  have hlt : a.val < labels.length := h.length ▸ a.isLt
  rw [List.getElem?_eq_getElem hlt]
  cases labels[a.val] with
  | none => exact .inl rfl
  | some j => exact .inr ⟨j, rfl⟩

/-- A component with a place without a label has no label at all. -/
theorem bare_of_reachable (h : Labelling n cut i k labels) {a b : Fin n}
    (ha : labels[a.val]? = some none) (hab : (wiring n cut).Reachable a b) :
    labels[b.val]? = some none := by
  refine (h.bare_or_label b).resolve_right ?_
  rintro ⟨j, hb⟩
  have hsame := (h.known b a j hb).mpr hab.symm
  rw [ha] at hsame
  cases hsame

/-- A place without a label, labelled by itself, is where the search of its component begins. -/
theorem spreading (h : Labelling n cut i k labels) (hi : i < n) (hbare : labels[i]? = some none) :
    Spreading cut k ⟨i, hi⟩ [i] (labels.set i (some k)) := by
  have hset : ∀ j : Nat, (labels.set i (some k))[j]? = if j = i then some (some k) else labels[j]? := by
    intro j
    have hlt : i < labels.length := h.length ▸ hi
    rw [List.getElem?_set]
    split_ifs with hij hji hji
    · rfl
    · exact absurd hij.symm hji
    · exact absurd hji.symm hij
    · rfl
  have hnew : ∀ a : Fin n, (labels.set i (some k))[a.val]? = some (some k) → a.val = i := by
    intro a ha
    by_contra hne
    rw [hset, if_neg hne] at ha
    exact absurd (h.below a k ha) (Nat.lt_irrefl k)
  refine ⟨?_, ?_, fun j hj => ?_, fun a ha => ?_, fun a ha => ?_, fun a b ha hold => ?_⟩
  · rw [List.length_set, h.length]
  · rw [hset, if_pos rfl]
  · rw [hset, if_pos (List.mem_singleton.mp hj)]
  · obtain rfl : a = ⟨i, hi⟩ := Fin.ext (hnew a ha)
    exact .rfl
  · rw [hset]
    split_ifs
    · exact .inr rfl
    · exact .inl (h.bare_of_reachable (a := ⟨i, hi⟩) hbare ha)
  · exact absurd (List.mem_singleton.mpr (hnew a ha)) hold

/-- One component more: the search labels all of it, and nothing else. -/
theorem enlarged (h : Labelling n cut i k labels) (hi : i < n) (hbare : labels[i]? = some none) :
    Enlarged cut k ⟨i, hi⟩ labels (spread cut k labels.length [i] (labels.set i (some k))) := by
  have hfuel : [i].length + (labels.set i (some k)).count none ≤ labels.length := by
    rw [List.length_singleton, Nat.add_comm, count_set hbare]
    exact List.count_le_length
  obtain ⟨hlength, hspread⟩ := (h.spreading hi hbare).spread labels.length hfuel
  refine ⟨hlength, fun a ha => ⟨h.bare_of_reachable (a := ⟨i, hi⟩) hbare ha, (hspread a).1 ha⟩,
    fun a ha => ?_⟩
  have hne : i ≠ a.val := by
    rintro rfl
    exact ha .rfl
  rw [(hspread a).2 ha, List.getElem?_set_ne hne]

variable {labels' : List (Option Nat)} {hi : i < n} {a b : Fin n} {j : Nat}

theorem known_enlarged (h : Labelling n cut i k labels) (he : Enlarged cut k ⟨i, hi⟩ labels labels')
    (hj : labels'[a.val]? = some (some j)) :
    labels'[b.val]? = some (some j) ↔ (wiring n cut).Reachable a b := by
  rcases he.cases hj with ⟨ha, rfl⟩ | ⟨ha, hj⟩
  · refine ⟨fun hb => ?_, fun hab => (he.new b (ha.trans hab)).2⟩
    rcases he.cases hb with ⟨hb, -⟩ | ⟨-, hb⟩
    · exact ha.symm.trans hb
    · exact absurd (h.below b j hb) (Nat.lt_irrefl j)
  · refine ⟨fun hb => ?_, fun hab => ?_⟩
    · rcases he.cases hb with ⟨-, rfl⟩ | ⟨-, hb⟩
      · exact absurd (h.below a j hj) (Nat.lt_irrefl j)
      · exact (h.known a b j hj).mp hb
    · rw [he.old b fun hb => ha (hb.trans hab.symm)]
      exact (h.known a b j hj).mpr hab

theorem low_enlarged (h : Labelling n cut i k labels) (he : Enlarged cut k ⟨i, hi⟩ labels labels')
    (hj : labels'[a.val]? = some (some j)) : ∃ low : Fin n, low.val < i + 1 ∧
      labels'[low.val]? = some (some j) ∧ ∀ (b : Fin n) j', labels'[b.val]? = some (some j') →
        j ≤ j' → low ≤ b := by
  -- the places before `i` have labels, so those of the new component are not before it
  have hlate : ∀ b : Fin n, (wiring n cut).Reachable ⟨i, hi⟩ b → i ≤ b.val :=
    fun b hb => Nat.le_of_not_lt fun hlt => h.done b hlt (he.new b hb).1
  rcases he.cases hj with ⟨ha, rfl⟩ | ⟨ha, hj⟩
  · refine ⟨⟨i, hi⟩, Nat.lt_succ_self i, (he.new _ .rfl).2, fun b j' hb hle => ?_⟩
    rcases he.cases hb with ⟨hb, -⟩ | ⟨-, hb⟩
    · exact hlate b hb
    · exact absurd (h.below b j' hb) (by omega)
  · obtain ⟨low, hlow, hsame, hfirst⟩ := h.low a j hj
    have hout : ¬ (wiring n cut).Reachable ⟨i, hi⟩ low := fun hreach => by
      rw [(he.new low hreach).1] at hsame
      cases hsame
    refine ⟨low, Nat.lt_succ_of_lt hlow, (he.old low hout).trans hsame, fun b j' hb hle => ?_⟩
    rcases he.cases hb with ⟨hb, -⟩ | ⟨-, hb⟩
    · exact Fin.le_def.mpr (hlow.le.trans (hlate b hb))
    · exact hfirst b j' hb hle

theorem step (h : Labelling n cut i k labels) (hi : i < n) (hbare : labels[i]? = some none) :
    Labelling n cut (i + 1) (k + 1) (spread cut k labels.length [i] (labels.set i (some k))) := by
  have he := h.enlarged hi hbare
  refine ⟨he.length, Nat.succ_le_succ h.few, fun a j hj => ?_, fun a ha hnone => ?_,
    fun a b j hj => h.known_enlarged he hj, fun a j hj => h.low_enlarged he hj⟩
  · rcases he.cases hj with ⟨-, rfl⟩ | ⟨-, hj⟩
    · exact Nat.lt_succ_self j
    · exact Nat.lt_succ_of_lt (h.below a j hj)
  · by_cases hreach : (wiring n cut).Reachable ⟨i, hi⟩ a
    · rw [(he.new a hreach).2] at hnone
      cases hnone
    · have hne : a.val ≠ i := by
        rintro rfl
        exact hreach .rfl
      exact h.done a (by omega) ((he.old a hreach).symm.trans hnone)

/-- **All places are labelled**, from place `i` on. -/
theorem labelFrom : ∀ (m : Nat) {i k : Nat} {labels : List (Option Nat)}, i + m = n →
    Labelling n cut i k labels →
    ∃ k', Labelling n cut n k' (labelFrom cut (List.range' i m) k labels)
  | 0, i, k, labels, hm, h => by
    obtain rfl : i = n := by omega
    exact ⟨k, h⟩
  | m + 1, i, k, labels, hm, h => by
    rw [List.range'_succ, Link.labelFrom]
    split_ifs with hbare
    · exact Labelling.labelFrom m (by omega) (h.step (by omega) hbare)
    · refine Labelling.labelFrom m (by omega) ⟨h.length, h.few.trans (by omega), h.below,
        fun a ha => ?_, h.known, fun a j ha => ?_⟩
      · rcases Nat.lt_or_eq_of_le (Nat.le_of_lt_succ ha) with ha | ha
        · exact h.done a ha
        · exact ha ▸ hbare
      · obtain ⟨low, hlow, hrest⟩ := h.low a j ha
        exact ⟨low, by omega, hrest⟩

end Labelling

/-- A numbering of the components of a graph, in the order of their lowest node. -/
structure Numbers {n : Nat} (G : SimpleGraph (Fin n)) (f : Fin n → Nat) : Prop where
  same : ∀ a b, f a = f b ↔ G.Reachable a b
  below : ∀ a, f a < n
  low : ∀ a, ∃ low, f low = f a ∧ ∀ b, f a ≤ f b → low ≤ b

/-- **The labels number the components.** -/
theorem exists_numbers (n : Nat) (cut : List Link) :
    ∃ f : Fin n → Nat, labels n cut = List.ofFn f ∧ Numbers (wiring n cut) f := by
  obtain ⟨k, h⟩ := (Labelling.start n cut).labelFrom n (Nat.zero_add n)
  rw [← List.range_eq_range'] at h
  choose f hf using fun a => (h.bare_or_label a).resolve_left (h.done a a.isLt)
  refine ⟨f, List.ext_getElem? fun i => ?_, fun a b => ?_, fun a => ?_, fun a => ?_⟩
  · by_cases hi : i < n
    · rw [labels, List.getElem?_map, hf ⟨i, hi⟩, List.getElem?_ofFn]
      simp [hi]
    · have hlength : (labels n cut).length = n := by rw [labels, List.length_map, h.length]
      rw [List.getElem?_eq_none_iff.mpr (by omega), List.getElem?_eq_none_iff.mpr (by simpa using hi)]
  · rw [← h.known a b (f a) (hf a), hf b, Option.some.injEq, Option.some.injEq, eq_comm]
  · exact (h.below a _ (hf a)).trans_le h.few
  · obtain ⟨low, -, hlow, hfirst⟩ := h.low a (f a) (hf a)
    refine ⟨low, ?_, fun b hle => hfirst b (f b) (hf b) hle⟩
    simpa [hf low] using hlow

/-! ### The largest component -/

/-- The label below `m` that occurs most often; of several, the lowest. -/
def bestBelow (labels : List Nat) (m : Nat) : Nat :=
  (List.range m).foldl (fun best k => if labels.count best < labels.count k then k else best) 0

theorem bestBelow_succ (labels : List Nat) (m : Nat) : bestBelow labels (m + 1) =
    if labels.count (bestBelow labels m) < labels.count m then m else bestBelow labels m := by
  rw [bestBelow, List.range_succ, List.foldl_append]
  rfl

theorem bestBelow_le (labels : List Nat) : ∀ m, bestBelow labels m ≤ m
  | 0 => Nat.le_refl 0
  | m + 1 => by
    rw [bestBelow_succ]
    have hle := bestBelow_le labels m
    split_ifs <;> omega

theorem bestBelow_max (labels : List Nat) : ∀ (m : Nat) {k : Nat}, k < m →
    labels.count k ≤ labels.count (bestBelow labels m) ∧
      (labels.count k = labels.count (bestBelow labels m) → bestBelow labels m ≤ k)
  | m + 1, k, hk => by
    have hle := bestBelow_le labels m
    rw [bestBelow_succ]
    rcases Nat.lt_or_eq_of_le (Nat.le_of_lt_succ hk) with hk | rfl
    · have hbefore := bestBelow_max labels m hk
      split_ifs with hmore
      · exact ⟨by omega, by omega⟩
      · exact hbefore
    · split_ifs with hmore
      · exact ⟨Nat.le_refl _, fun _ => Nat.le_refl _⟩
      · exact ⟨Nat.le_of_not_lt hmore, fun _ => hle⟩

/-- **The main label** occurs most often, and no lower one as often. -/
theorem mainLabel_max (labels : List Nat) {k : Nat} (hk : k < labels.length) :
    labels.count k ≤ labels.count (mainLabel labels) ∧
      (labels.count k = labels.count (mainLabel labels) → mainLabel labels ≤ k) :=
  bestBelow_max labels labels.length hk

/-- A component of the largest size; of several, the one that has the lowest node of all of them. -/
structure IsMain {n : Nat} {G : SimpleGraph (Fin n)} (K : G.ConnectedComponent) : Prop where
  largest : ∀ K' : G.ConnectedComponent, K'.supp.ncard ≤ K.supp.ncard
  first : ∃ low ∈ K.supp, ∀ K' : G.ConnectedComponent, K'.supp.ncard = K.supp.ncard →
    ∀ a ∈ K'.supp, low ≤ a

section

variable {n : Nat} {G : SimpleGraph (Fin n)} {f : Fin n → Nat} {a b : Fin n}

theorem IsMain.unique {K K' : G.ConnectedComponent} (h : IsMain K) (h' : IsMain K') : K' = K := by
  obtain ⟨low, hlow, hfirst⟩ := h.first
  obtain ⟨low', hlow', hfirst'⟩ := h'.first
  have hsize : K'.supp.ncard = K.supp.ncard := Nat.le_antisymm (h.largest K') (h'.largest K)
  have heq : low = low' := le_antisymm (hfirst K' hsize low' hlow') (hfirst' K hsize.symm low hlow)
  subst heq
  exact ((SimpleGraph.ConnectedComponent.mem_supp_iff K' low).mp hlow').symm.trans
    ((SimpleGraph.ConnectedComponent.mem_supp_iff K low).mp hlow)

theorem Numbers.mem_supp_iff (h : Numbers G f) :
    b ∈ (G.connectedComponentMk a).supp ↔ f b = f a := by
  rw [SimpleGraph.ConnectedComponent.mem_supp_iff, SimpleGraph.ConnectedComponent.eq, h.same]

theorem Numbers.count_eq_ncard (h : Numbers G f) :
    (List.ofFn f).count (f a) = (G.connectedComponentMk a).supp.ncard := by
  have hsupp : (G.connectedComponentMk a).supp = ({b | f b = f a} : Finset (Fin n)) := by
    ext b
    simp [h.mem_supp_iff]
  rw [hsupp, Set.ncard_coe_finset]
  have hcount := Fin.card_filter_univ_eq_vector_get_eq_count (f a) (List.Vector.ofFn f)
  simpa using hcount.symm

/-- The component with the main label is the main one. -/
theorem Numbers.isMain (h : Numbers G f) (ha : f a = mainLabel (List.ofFn f)) :
    IsMain (G.connectedComponentMk a) := by
  have hmax : ∀ b, (List.ofFn f).count (f b) ≤ (List.ofFn f).count (f a) ∧
      ((List.ofFn f).count (f b) = (List.ofFn f).count (f a) → f a ≤ f b) := by
    intro b
    rw [ha]
    exact mainLabel_max (List.ofFn f) (by simpa using h.below b)
  obtain ⟨low, hlow, hfirst⟩ := h.low a
  refine ⟨fun K' => ?_, low, h.mem_supp_iff.mpr hlow, fun K' hsize c hc => ?_⟩
  · induction K' using SimpleGraph.ConnectedComponent.ind with
    | h b =>
      rw [← h.count_eq_ncard, ← h.count_eq_ncard]
      exact (hmax b).1
  · induction K' using SimpleGraph.ConnectedComponent.ind with
    | h b =>
      rw [← h.count_eq_ncard, ← h.count_eq_ncard] at hsize
      exact hfirst c (((hmax b).2 hsize).trans (h.mem_supp_iff.mp hc).ge)

theorem Numbers.exists_main (h : Numbers G f) (hn : 0 < n) : ∃ a, f a = mainLabel (List.ofFn f) := by
  have hfirst : 0 < (List.ofFn f).count (f ⟨0, hn⟩) := List.count_pos_iff.mpr (List.mem_ofFn.mpr ⟨_, rfl⟩)
  have hmax := (mainLabel_max (List.ofFn f) (k := f ⟨0, hn⟩) (by simpa using h.below _)).1
  exact List.mem_ofFn.mp (List.count_pos_iff.mp (hfirst.trans_le hmax))

end

/-! ### Places and addresses -/

section

variable {n : Nat} {cut : List Link} {a b : Fin n}

theorem wiring_adj_iff : (wiring n cut).Adj a b ↔ a ≠ b ∧
    (⟨NodeId.ofIndex (min a.val b.val), NodeId.ofIndex (max a.val b.val)⟩ : Link) ∉ cut := by
  simp [wiring, joined, Fin.ext_iff]

theorem network_adj_iff : (network n cut).Adj a b ↔ a ≠ b ∧
    ∀ l ∈ cut, ¬ (a.val = l.low.index ∧ b.val = l.high.index) ∧
      ¬ (b.val = l.low.index ∧ a.val = l.high.index) := by
  simp only [network, SimpleGraph.deleteEdges_adj, SimpleGraph.top_adj, Set.mem_ofPred_eq, not_exists]
  refine and_congr_right fun _ => ⟨fun h l hl => ⟨fun hab => ?_, fun hba => ?_⟩, ?_⟩
  · exact h l ⟨hl, a, b, hab.1, hab.2, rfl⟩
  · exact h l ⟨hl, b, a, hba.1, hba.2, Sym2.eq_swap⟩
  · rintro h l ⟨hl, a', b', hlow, hhigh, heq⟩
    rcases Sym2.eq_iff.mp heq with ⟨rfl, rfl⟩ | ⟨rfl, rfl⟩
    · exact (h l hl).1 ⟨hlow, hhigh⟩
    · exact (h l hl).2 ⟨hlow, hhigh⟩

/-- Places that have an address each are joined as the nodes are. -/
theorem wiring_eq_network (hcut : ∀ l ∈ cut, l.low < l.high) (hn : n ≤ UInt32.size) :
    wiring n cut = network n cut := by
  ext a b
  rw [wiring_adj_iff, network_adj_iff]
  refine and_congr_right fun _ => ⟨fun hnot l hl => ?_, fun hnone hmem => ?_⟩
  · have hnamed : ∀ i j, i = l.low.index → j = l.high.index →
        (⟨NodeId.ofIndex (min i j), NodeId.ofIndex (max i j)⟩ : Link) = l := by
      rintro i j rfl rfl
      have hlt : l.low.index < l.high.index := hcut l hl
      rw [min_eq_left hlt.le, max_eq_right hlt.le, NodeId.ofIndex_index, NodeId.ofIndex_index]
    refine ⟨fun h => hnot (hnamed _ _ h.1 h.2 ▸ hl), fun h => hnot ?_⟩
    rw [min_comm, max_comm, hnamed _ _ h.1 h.2]
    exact hl
  · have haddress : ∀ c : Fin n, (NodeId.ofIndex c.val).index = c.val :=
      fun c => NodeId.index_ofIndex (c.isLt.trans_le hn)
    rcases le_total a.val b.val with hab | hba
    · rw [min_eq_left hab, max_eq_right hab] at hmem
      exact (hnone _ hmem).1 ⟨(haddress a).symm, (haddress b).symm⟩
    · rw [min_eq_right hba, max_eq_left hba] at hmem
      exact (hnone _ hmem).2 ⟨(haddress b).symm, (haddress a).symm⟩

/-- Past the last address there is a node whose links are never cut. -/
theorem network_connected (hn : UInt32.size < n) (a b : Fin n) : (network n cut).Reachable a b := by
  have hlast : ∀ c : Fin n, (network n cut).Reachable c ⟨UInt32.size, hn⟩ := by
    intro c
    by_cases hc : c = ⟨UInt32.size, hn⟩
    · rw [hc]
    · refine (network_adj_iff.mpr ⟨hc, fun l _ => ⟨fun h => ?_, fun h => ?_⟩⟩).reachable
      · exact absurd h.2 (Nat.ne_of_gt l.high.val.toNat_lt)
      · exact absurd h.1 (Nat.ne_of_gt l.low.val.toNat_lt)
  exact (hlast a).trans (hlast b).symm

theorem wiring_connected (hcut : ∀ l ∈ cut, l.low < l.high) (hn : UInt32.size < n) (a b : Fin n) :
    (wiring n cut).Reachable a b := by
  have hsize : UInt32.size - 1 < UInt32.size := by decide
  have hedge : UInt32.size - 1 < n := hsize.trans hn
  -- an address past the last one counts from zero again, so it is not the higher one of a link
  have hbelow : ∀ c : Fin n, c.val < UInt32.size → (wiring n cut).Adj c ⟨UInt32.size, hn⟩ := by
    intro c hc
    refine wiring_adj_iff.mpr ⟨fun heq => by rw [heq] at hc; exact Nat.lt_irrefl _ hc, fun hmem => ?_⟩
    rw [min_eq_left hc.le, max_eq_right hc.le] at hmem
    have hlt : (NodeId.ofIndex c.val).index < (NodeId.ofIndex UInt32.size).index := hcut _ hmem
    exact Nat.not_lt_zero _ hlt
  -- and the last address is not the lower one
  have habove : ∀ c : Fin n, UInt32.size ≤ c.val → (wiring n cut).Adj ⟨UInt32.size - 1, hedge⟩ c := by
    intro c hc
    have hle : UInt32.size - 1 ≤ c.val := by omega
    refine wiring_adj_iff.mpr ⟨fun heq => by rw [← heq] at hc; exact hsize.not_ge hc, fun hmem => ?_⟩
    rw [min_eq_left hle, max_eq_right hle] at hmem
    have hlt : (NodeId.ofIndex (UInt32.size - 1)).index < (NodeId.ofIndex c.val).index := hcut _ hmem
    rw [NodeId.index_ofIndex hsize] at hlt
    have hword : (NodeId.ofIndex c.val).index < UInt32.size := (NodeId.ofIndex c.val).val.toNat_lt
    omega
  have hlast : ∀ c : Fin n, (wiring n cut).Reachable c ⟨UInt32.size, hn⟩ := by
    intro c
    rcases Nat.lt_or_ge c.val UInt32.size with hc | hc
    · exact (hbelow c hc).reachable
    · exact (habove c hc).symm.reachable.trans (hbelow _ hsize).reachable
  exact (hlast a).trans (hlast b).symm

theorem reachable_wiring_iff (hcut : ∀ l ∈ cut, l.low < l.high) :
    (wiring n cut).Reachable a b ↔ (network n cut).Reachable a b := by
  rcases Nat.lt_or_ge UInt32.size n with hn | hn
  · exact iff_of_true (wiring_connected hcut hn a b) (network_connected hn a b)
  · rw [wiring_eq_network hcut hn]

end

theorem Numbers.congr {n : Nat} {G H : SimpleGraph (Fin n)} {f : Fin n → Nat} (h : Numbers G f)
    (hsame : ∀ a b, G.Reachable a b ↔ H.Reachable a b) : Numbers H f :=
  ⟨fun a b => (h.same a b).trans (hsame a b), h.below, h.low⟩

/-- The nodes outside are those whose label is not the main one, if the places of all that have
another one have an address each. -/
theorem mem_outside_iff {n : Nat} {f : Fin n → Nat} {v : NodeId}
    (haddress : ∀ a, f a ≠ mainLabel (List.ofFn f) → a.val < UInt32.size) :
    v ∈ outside (List.ofFn f) ↔
      ∃ hv : v.index < n, f ⟨v.index, hv⟩ ≠ mainLabel (List.ofFn f) := by
  simp only [outside, List.mem_map, List.mem_filter, List.mem_range, List.length_ofFn, decide_eq_true_eq]
  constructor
  · rintro ⟨i, ⟨hi, hne⟩, rfl⟩
    have hlabel : f ⟨i, hi⟩ ≠ mainLabel (List.ofFn f) := by simpa [List.getElem?_ofFn, hi] using hne
    have hindex : (NodeId.ofIndex i).index = i := NodeId.index_ofIndex (haddress ⟨i, hi⟩ hlabel)
    refine ⟨by rw [hindex]; exact hi, ?_⟩
    simpa only [hindex] using hlabel
  · rintro ⟨hv, hne⟩
    refine ⟨v.index, ⟨hv, ?_⟩, NodeId.ofIndex_index v⟩
    simpa [List.getElem?_ofFn, hv] using hne

end Link

namespace FaultState

variable {roles : List Role} {config : Config} {m m' : FaultState} {a b : NodeId}

/-- The links that are cut. -/
def cutLinks (m : FaultState) : List Link :=
  match m.split with
  | .halves _ => []
  | .links cut _ _ => cut

/-- A cut takes the link between two nodes away, and no other. -/
theorem mem_cutLinks_of_cut? (h : m.cut? a b = some m') (l : Link) :
    l ∈ m'.cutLinks ↔ Link.between? a b = some l ∨ l ∈ m.cutLinks := by
  unfold cut? at h
  cases hkind : m.split with
  | halves minority => rw [hkind] at h; cases h
  | links cut labels outside =>
    rw [hkind] at h
    cases hlink : Link.between? a b with
    | none => rw [hlink] at h; cases h
    | some link =>
      simp only [hlink] at h
      split_ifs at h with hfree
      cases h
      have hnot : link ∉ cut := fun hmem => hfree (by simp [hmem])
      have hcut : m.cutLinks = cut := by rw [cutLinks, hkind]
      have hcut' : (m.withCut (Ascending.insert link cut)).cutLinks = Ascending.insert link cut := rfl
      rw [hcut, hcut', (Ascending.insert_perm hnot).mem_iff, List.mem_cons, Option.some.injEq, eq_comm]

/-- A restored link is back, and no other. -/
theorem Sound.mem_cutLinks_of_restore? (hm : Sound roles config m) (h : m.restore? a b = some m')
    (l : Link) : l ∈ m'.cutLinks ↔ Link.between? a b ≠ some l ∧ l ∈ m.cutLinks := by
  have hsplit := hm.split
  unfold restore? at h
  cases hkind : m.split with
  | halves minority => rw [hkind] at h; cases h
  | links cut labels outside =>
    rw [hkind] at h hsplit
    obtain ⟨-, -, -, hnodup, -⟩ := hsplit
    cases hlink : Link.between? a b with
    | none => rw [hlink] at h; cases h
    | some link =>
      simp only [hlink] at h
      split_ifs at h
      cases h
      have hcut : m.cutLinks = cut := by rw [cutLinks, hkind]
      have hcut' : (m.withCut (cut.erase link)).cutLinks = cut.erase link := rfl
      rw [hcut, hcut', hnodup.mem_erase_iff, ne_eq, ne_eq, Option.some.injEq, eq_comm]

/-- The labels of a state in which single links are cut number the components of its network. -/
theorem Reached.exists_numbers (hmode : config.partitionMode = .singleEdge)
    (h : Reached roles config m) : ∃ f : Fin roles.length → Nat,
      m.split = .links m.cutLinks (List.ofFn f) (Link.outside (List.ofFn f)) ∧
      Link.Numbers (Link.network roles.length m.cutLinks) f := by
  have htidy := h.tidy
  have hsplit := htidy.sound.split
  cases hkind : m.split with
  | halves minority =>
    rw [hkind] at hsplit
    cases hmode.symm.trans hsplit
  | links cut labels outside =>
    rw [hkind, htidy.size_eq] at hsplit
    obtain ⟨-, rfl, rfl, -, hcut⟩ := hsplit
    have hlinks : m.cutLinks = cut := by rw [cutLinks, hkind]
    obtain ⟨f, hf, hnumbers⟩ := Link.exists_numbers roles.length cut
    rw [hlinks]
    exact ⟨f, by rw [hf], hnumbers.congr fun a b => Link.reachable_wiring_iff hcut⟩

/-- The nodes that are cut off are those without the main label. -/
theorem mem_cutOff_iff {f : Fin roles.length → Nat}
    (hf : Link.Numbers (Link.network roles.length m.cutLinks) f)
    (hsplit : m.split = .links m.cutLinks (List.ofFn f) (Link.outside (List.ofFn f))) (v : NodeId) :
    v ∈ m.cutOff ↔
      ∃ hv : v.index < roles.length, f ⟨v.index, hv⟩ ≠ Link.mainLabel (List.ofFn f) := by
  rw [cutOff, hsplit]
  refine Link.mem_outside_iff fun a ha => ?_
  -- with more nodes than addresses there is one component only
  by_contra hlarge
  have hn : UInt32.size < roles.length := by omega
  obtain ⟨b, hb⟩ := hf.exists_main (by omega)
  exact ha (((hf.same a b).mpr (Link.network_connected hn a b)).trans hb)

/-- **Where single links are cut, messages pass within components.** However a state came about from
the healthy one, a message reaches a node if its sender is down, or if both are existing nodes and one
can be reached from the other in the network less the links that are cut. The nodes that are cut off
are exactly those outside one component, if there are nodes at all: it is of the largest size, and of
several it is the one with the lowest node. A cut takes one link away, the one between its two nodes,
and a restore puts it back. -/
theorem single_edge_components (hmode : config.partitionMode = .singleEdge)
    (h : Reached roles config m) :
    (∀ a b, m.reaches a b = true ↔ a ∈ m.crashed ∨
      ∃ (ha : a.index < roles.length) (hb : b.index < roles.length),
        (Link.network roles.length m.cutLinks).Reachable ⟨a.index, ha⟩ ⟨b.index, hb⟩) ∧
    (∀ v ∈ m.cutOff, v.index < roles.length) ∧
    (0 < roles.length → ∃ K : (Link.network roles.length m.cutLinks).ConnectedComponent,
      Link.IsMain K ∧ (∀ K', Link.IsMain K' → K' = K) ∧
      ∀ v, v ∈ m.cutOff ↔ ∃ hv : v.index < roles.length, ⟨v.index, hv⟩ ∉ K.supp) ∧
    (∀ a b m', m.cut? a b = some m' →
      ∀ l, l ∈ m'.cutLinks ↔ Link.between? a b = some l ∨ l ∈ m.cutLinks) ∧
    ∀ a b m', m.restore? a b = some m' →
      ∀ l, l ∈ m'.cutLinks ↔ Link.between? a b ≠ some l ∧ l ∈ m.cutLinks := by
  obtain ⟨f, hsplit, hf⟩ := h.exists_numbers hmode
  have houtside := mem_cutOff_iff hf hsplit
  refine ⟨fun a b => ?_, fun v hv => ((houtside v).mp hv).1, fun hn => ?_,
    fun a b m' hcut => mem_cutLinks_of_cut? hcut,
    fun a b m' hrestore => h.tidy.sound.mem_cutLinks_of_restore? hrestore⟩
  · rw [reaches, hsplit]
    simp only [Bool.or_eq_true, isCrashed, List.contains_iff_mem, List.getElem?_ofFn]
    refine or_congr_right ?_
    by_cases ha : a.index < roles.length <;> by_cases hb : b.index < roles.length
    · simp [ha, hb, hf.same]
    all_goals simp [ha, hb]
  · obtain ⟨a, ha⟩ := hf.exists_main hn
    refine ⟨_, hf.isMain ha, fun K' => (hf.isMain ha).unique, fun v => ?_⟩
    rw [houtside v, ← ha]
    simp only [hf.mem_supp_iff]

/-- Cuts several links, in order. -/
def cutAll (links : List (NodeId × NodeId)) (m : FaultState) : Option FaultState :=
  links.foldlM (fun m l => m.cut? l.1 l.2) m

theorem Reached.cutAll {links : List (NodeId × NodeId)} : ∀ {m : FaultState}, Reached roles config m →
    m.cutAll links = some m' → Reached roles config m' := by
  induction links with
  | nil =>
    intro m hm h
    cases h
    exact hm
  | cons l links ih =>
    intro m hm h
    obtain ⟨m₁, hcut, hrest⟩ := Option.bind_eq_some_iff.mp h
    exact ih (hm.tail (.harm (.cut hcut))) hrest

/-- Four nodes, the links between the lower two and the higher two cut, and the highest node down. -/
def parted : Option FaultState :=
  ((healthy [⟨"node"⟩, ⟨"node"⟩, ⟨"node"⟩, ⟨"node"⟩] brittle).cutAll
    [(⟨0⟩, ⟨2⟩), (⟨0⟩, ⟨3⟩), (⟨1⟩, ⟨2⟩), (⟨1⟩, ⟨3⟩)]).bind (·.crash? ⟨3⟩)

/-- The two parts are of the same size, so the lower one is the main one. A node that is down is still
heard in it, another one of the higher part is not. -/
theorem single_edge_components_parted : ∃ m, parted = some m ∧ m.cutOff = [⟨2⟩, ⟨3⟩] ∧
    m.reaches ⟨3⟩ ⟨0⟩ = true ∧ ¬ (Link.network 4 m.cutLinks).Reachable 2 0 ∧
    (Link.network 4 m.cutLinks).Reachable 2 3 ∧
    ∃ K : (Link.network 4 m.cutLinks).ConnectedComponent, Link.IsMain K ∧ 1 ∈ K.supp ∧ 2 ∉ K.supp := by
  have hrun : (parted.map fun m => (m.cutOff, m.crashed, m.reaches ⟨2⟩ ⟨0⟩, m.reaches ⟨2⟩ ⟨3⟩)) =
      some ([⟨2⟩, ⟨3⟩], [⟨3⟩], false, true) := by decide +kernel
  obtain ⟨m, hm, hfacts⟩ := Option.map_eq_some_iff.mp hrun
  simp only [Prod.mk.injEq] at hfacts
  obtain ⟨hcutOff, hcrashed, hapart, hside⟩ := hfacts
  obtain ⟨m₁, hcuts, hcrash⟩ := Option.bind_eq_some_iff.mp hm
  have hreached : Reached [⟨"node"⟩, ⟨"node"⟩, ⟨"node"⟩, ⟨"node"⟩] brittle m :=
    (Reached.cutAll .refl hcuts).tail (.harm (.crash hcrash))
  obtain ⟨hreaches, -, hmain, -, -⟩ := single_edge_components rfl hreached
  obtain ⟨K, hK, -, hsupp⟩ := hmain (by decide)
  rw [hcrashed] at hreaches
  rw [hcutOff] at hsupp
  obtain ⟨_, htwo⟩ := (hsupp ⟨2⟩).mp (by decide)
  refine ⟨m, hm, hcutOff, (hreaches ⟨3⟩ ⟨0⟩).mpr (.inl (by decide)), fun hab => ?_, ?_, K, hK, ?_, htwo⟩
  · have htrue := (hreaches ⟨2⟩ ⟨0⟩).mpr (.inr ⟨by decide, by decide, hab⟩)
    rw [hapart] at htrue
    cases htrue
  · obtain hdown | ⟨_, _, hab⟩ := (hreaches ⟨2⟩ ⟨3⟩).mp hside
    · exact absurd hdown (by decide)
    · exact hab
  · by_contra hone
    exact absurd ((hsupp ⟨1⟩).mpr ⟨by decide, hone⟩) (by decide)

end FaultState

end Interleave
