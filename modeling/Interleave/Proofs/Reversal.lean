/-
# Faults undone

Every fault has a change that undoes it, and undoing it right away leaves no trace:
the state is the one before, down to the labels of its components. A recovery takes
a node back from where the crash put it, a restored link leaves the cut links as
they were (`FaultState.Sound.restore?_of_cut?`), and the labels follow from those;
halves are joined to one whole network (`FaultState.Sound.heal?_of_partition?`).

Nor does the order of faults leave a trace (`FaultState.faults_leave_no_trace`). The
nodes that are down and the links that are cut are listed in ascending order, so that
the members alone tell the list, and all else of a state in which single links are cut
is computed from them (`FaultState.Sound.eq_of_cutLinks_eq`).
-/
import Interleave.Proofs.Components
import Mathlib.Data.List.Sort

namespace Interleave

/-! ### Links and nodes in order -/

namespace Link

theorem between?_comm (a b : NodeId) : between? a b = between? b a := by
  unfold between?
  by_cases hab : a < b
  · have hba : ¬ b < a := Nat.lt_asymm hab
    rw [if_pos hab, if_neg hba, if_pos hab]
  · by_cases hba : b < a
    · rw [if_neg hab, if_pos hba, if_pos hba]
    · rw [if_neg hab, if_neg hba, if_neg hba, if_neg hab]

instance : IsStrictTotalOrder Link (· < ·) where
  irrefl l := by
    rintro (hlow | ⟨-, hhigh⟩)
    · exact Nat.lt_irrefl _ hlow
    · exact Nat.lt_irrefl _ hhigh
  trans l₁ l₂ l₃ := by
    rintro (h₁₂ | ⟨h₁₂, hhigh₁₂⟩) (h₂₃ | ⟨h₂₃, hhigh₂₃⟩)
    · exact .inl (Nat.lt_trans h₁₂ h₂₃)
    · exact .inl (h₂₃ ▸ h₁₂)
    · exact .inl (h₁₂ ▸ h₂₃)
    · exact .inr ⟨h₁₂.trans h₂₃, Nat.lt_trans hhigh₁₂ hhigh₂₃⟩
  trichotomous l l' h h' := by
    obtain ⟨low, high⟩ := l
    obtain ⟨low', high'⟩ := l'
    have hlow : low = low' :=
      NodeId.eq_of_not_lt (fun hlt => h (.inl hlt)) fun hlt => h' (.inl hlt)
    subst hlow
    have hhigh : high = high' :=
      NodeId.eq_of_not_lt (fun hlt => h (.inr ⟨rfl, hlt⟩)) fun hlt => h' (.inr ⟨rfl, hlt⟩)
    rw [hhigh]

end Link

namespace FaultState

variable {roles : List Role} {config : Config} {m m' : FaultState} {v a b : NodeId}
  {s s' : Source}

/-! ### What a change does to the cut links -/

theorem cut?_eq_some_iff : m.cut? a b = some m' ↔ ∃ cut labels outside l,
    m.split = .links cut labels outside ∧ Link.between? a b = some l ∧ l.high.index < m.size ∧
    l ∉ cut ∧ m' = m.withCut (Ascending.insert l cut) ∧ m.budget.allows m'.failed = true := by
  unfold cut?
  constructor
  · intro h
    cases hkind : m.split with
    | halves minority => rw [hkind] at h; cases h
    | links cut labels outside =>
      rw [hkind] at h
      cases hlink : Link.between? a b with
      | none => rw [hlink] at h; cases h
      | some l =>
        simp only [hlink] at h
        split_ifs at h with hfree hallows
        cases h
        simp only [Bool.or_eq_true, decide_eq_true_eq, List.contains_iff_mem, not_or] at hfree
        exact ⟨cut, labels, outside, l, rfl, rfl, Nat.lt_of_not_le hfree.1, hfree.2, rfl, hallows⟩
  · rintro ⟨cut, labels, outside, l, hkind, hlink, hin, hnot, rfl, hallows⟩
    have hout : ¬ m.size ≤ l.high.index := Nat.not_le_of_lt hin
    simp [hkind, hlink, hout, hnot, hallows]

theorem restore?_eq_some_iff : m.restore? a b = some m' ↔ ∃ cut labels outside l,
    m.split = .links cut labels outside ∧ Link.between? a b = some l ∧ l ∈ cut ∧
    m' = m.withCut (cut.erase l) := by
  unfold restore?
  constructor
  · intro h
    cases hkind : m.split with
    | halves minority => rw [hkind] at h; cases h
    | links cut labels outside =>
      rw [hkind] at h
      cases hlink : Link.between? a b with
      | none => rw [hlink] at h; cases h
      | some l =>
        simp only [hlink] at h
        split_ifs at h with hmem
        cases h
        exact ⟨cut, labels, outside, l, rfl, rfl, List.contains_iff_mem.mp hmem, rfl⟩
  · rintro ⟨cut, labels, outside, l, hkind, hlink, hmem, rfl⟩
    simp [hkind, hlink, hmem]

/-- A partition cuts one link, or it cuts a minority off a network that is whole. -/
theorem cut?_or_halves_of_partition? (h : m.partition? s = (some m', s')) :
    (∃ a b, m.cut? a b = some m') ∨
      ∃ chosen, m.split = .halves [] ∧ m' = { m with split := .halves chosen } := by
  cases hkind : m.split with
  | halves minority =>
    obtain ⟨chosen, rfl, -⟩ := partition?_halves hkind h
    unfold partition? at h
    rw [hkind] at h
    dsimp only at h
    split at h
    · cases h
    · rename_i hadmitted
      have hempty : minority = [] := by
        by_contra hne
        exact hadmitted (by simp [hne])
      exact .inr ⟨chosen, by rw [hempty], rfl⟩
  | links cut labels outside =>
    unfold partition? at h
    rw [hkind] at h
    dsimp only at h
    split at h
    · exact .inl ⟨_, _, (Prod.mk.inj h).1⟩
    · cases h

/-- A heal restores one link, or it joins the halves. -/
theorem restore?_or_joined_of_heal? (h : m.heal? s = (some m', s')) :
    (∃ a b, m.restore? a b = some m') ∨ m' = { m with split := .halves [] } := by
  unfold heal? at h
  split at h
  · split_ifs at h
    · cases h
    · cases h
      exact .inr rfl
  · split at h
    · exact .inl ⟨_, _, (Prod.mk.inj h).1⟩
    · cases h

/-! ### One step back -/

theorem recover?_of_crash? (h : m.crash? v = some m') : m'.recover? v = some m := by
  obtain ⟨-, hup, -, rfl⟩ := crash?_eq_some_iff.mp h
  have hdown : isCrashed { m with crashed := Ascending.insert v m.crashed } v = true :=
    isCrashed_iff.mpr (Ascending.mem_insert.mpr (.inl rfl))
  rw [recover?, if_pos hdown, Ascending.erase_insert hup]

namespace Sound

/-- The labels of a state are those of its cut links. -/
theorem withCut_cutLinks (hm : Sound roles config m)
    (hmode : config.partitionMode = .singleEdge) : m.withCut m.cutLinks = m := by
  have hsplit := hm.split
  obtain ⟨budget, crashed, split⟩ := m
  cases split with
  | halves minority => cases hmode.symm.trans hsplit
  | links cut labels outside =>
    obtain ⟨-, hlabels, houtside, -⟩ := hsplit
    rw [houtside, hlabels]
    rfl

theorem singleEdge {cut : List Link} {labels : List Nat} {outside : List NodeId}
    (hm : Sound roles config m) (hkind : m.split = .links cut labels outside) :
    config.partitionMode = .singleEdge := by
  have hsplit := hm.split
  rw [hkind] at hsplit
  exact hsplit.1

/-- A link that is cut and restored, from whichever side, leaves the state as it was. -/
theorem restore?_of_cut? (hm : Sound roles config m) (h : m.cut? a b = some m') :
    m'.restore? b a = some m := by
  obtain ⟨cut, labels, outside, l, hkind, hlink, -, hnot, rfl, -⟩ := cut?_eq_some_iff.mp h
  rw [Link.between?_comm] at hlink
  refine restore?_eq_some_iff.mpr ⟨_, _, _, l, rfl, hlink, Ascending.mem_insert.mpr (.inl rfl), ?_⟩
  have hcut : m.cutLinks = cut := by rw [cutLinks, hkind]
  rw [Ascending.erase_insert hnot, ← hcut]
  exact (hm.withCut_cutLinks (hm.singleEdge hkind)).symm

/-- Halves that are joined right away leave the state as it was. -/
theorem heal?_of_partition? (hm : Sound roles config m) (hmode : config.partitionMode = .halves)
    (h : m.partition? s = (some m', s')) (s₁ : Source) : m'.heal? s₁ = (some m, s₁) := by
  obtain ⟨minority, hkind⟩ := hm.exists_halves hmode
  obtain ⟨chosen, rfl, hsome, -⟩ := partition?_halves hkind h
  rcases cut?_or_halves_of_partition? h with ⟨a, b, hcut⟩ | ⟨-, hwhole, -⟩
  · obtain ⟨cut, labels, outside, -, hlinks, -⟩ := cut?_eq_some_iff.mp hcut
    cases hkind.symm.trans hlinks
  · rw [heal?]
    simp [hsome, ← hwhole]

/-- Where single links are cut, the nodes that are down and the cut links make up the state. -/
theorem eq_of_cutLinks_eq (hm : Sound roles config m) (hm' : Sound roles config m')
    (hmode : config.partitionMode = .singleEdge) (hcrashed : m'.crashed = m.crashed)
    (hcut : m'.cutLinks = m.cutLinks) : m' = m := by
  have hbudget : m'.budget = m.budget := hm'.budget.trans hm.budget.symm
  rw [← hm.withCut_cutLinks hmode, ← hm'.withCut_cutLinks hmode, hcut]
  unfold FaultState.withCut size
  rw [hbudget, hcrashed]

end Sound

/-! ### The order of the cut links -/

theorem cutLinks_congr (h : m'.split = m.split) : m'.cutLinks = m.cutLinks := by
  unfold cutLinks
  rw [h]

theorem sorted_of_cut? (h : m.cut? a b = some m') (hsorted : m.cutLinks.Pairwise (· < ·)) :
    m'.cutLinks.Pairwise (· < ·) := by
  obtain ⟨cut, labels, outside, l, hkind, -, -, -, rfl, -⟩ := cut?_eq_some_iff.mp h
  rw [cutLinks, hkind] at hsorted
  exact Ascending.pairwise_insert hsorted

theorem sorted_of_restore? (h : m.restore? a b = some m')
    (hsorted : m.cutLinks.Pairwise (· < ·)) : m'.cutLinks.Pairwise (· < ·) := by
  obtain ⟨cut, labels, outside, l, hkind, -, -, rfl⟩ := restore?_eq_some_iff.mp h
  rw [cutLinks, hkind] at hsorted
  exact hsorted.sublist List.erase_sublist

theorem Move.sorted_cutLinks (h : Move m m') (hsorted : m.cutLinks.Pairwise (· < ·)) :
    m'.cutLinks.Pairwise (· < ·) := by
  cases h with
  | harm hharm =>
    cases hharm with
    | crash hcrash => rwa [cutLinks_congr (frame_of_crash? hcrash).2]
    | cut hcut => exact sorted_of_cut? hcut hsorted
    | partition hpartition =>
      rcases cut?_or_halves_of_partition? hpartition with ⟨a, b, hcut⟩ | ⟨chosen, -, rfl⟩
      · exact sorted_of_cut? hcut hsorted
      · exact List.Pairwise.nil
  | relief hrelief =>
    cases hrelief with
    | recover hrecover => rwa [cutLinks_congr (frame_of_recover? hrecover).2]
    | mend hmend =>
      cases hmend with
      | restore hrestore => exact sorted_of_restore? hrestore hsorted
      | heal hheal =>
        rcases restore?_or_joined_of_heal? hheal with ⟨a, b, hrestore⟩ | rfl
        · exact sorted_of_restore? hrestore hsorted
        · exact List.Pairwise.nil

/-- The cut links of every state are listed in ascending order. -/
theorem Reached.sorted_cutLinks (h : Reached roles config m) : m.cutLinks.Pairwise (· < ·) := by
  induction h with
  | refl =>
    unfold cutLinks healthy
    cases config.partitionMode <;> exact List.Pairwise.nil
  | tail _ hmove ih => exact hmove.sorted_cutLinks ih

/-- **Faults leave no trace.** However a state came about from the healthy one, a crash undone by the
recovery of its node, a cut undone by restoring the link from the other side, and halves that are
joined again all give back the very state. Where single links are cut, two states with the same nodes
down and the same links cut are equal, whatever led to each of them. -/
theorem faults_leave_no_trace (h : Reached roles config m) :
    (∀ v m', m.crash? v = some m' → m'.recover? v = some m) ∧
    (∀ a b m', m.cut? a b = some m' → m'.restore? b a = some m) ∧
    (config.partitionMode = .halves → ∀ s m' s', m.partition? s = (some m', s') →
      ∀ s₁, m'.heal? s₁ = (some m, s₁)) ∧
    (config.partitionMode = .singleEdge → ∀ m', Reached roles config m' →
      (∀ v, v ∈ m'.crashed ↔ v ∈ m.crashed) → (∀ l, l ∈ m'.cutLinks ↔ l ∈ m.cutLinks) →
      m' = m) := by
  have htidy := h.tidy
  refine ⟨fun v m' hcrash => recover?_of_crash? hcrash,
    fun a b m' hcut => htidy.sound.restore?_of_cut? hcut,
    fun hmode s m' s' hpartition => htidy.sound.heal?_of_partition? hmode hpartition,
    fun hmode m' h' hcrashed hcut => ?_⟩
  have htidy' := h'.tidy
  refine htidy.sound.eq_of_cutLinks_eq htidy'.sound hmode ?_ ?_
  · exact htidy'.sorted.eq_of_mem_iff htidy.sorted (fun v => hcrashed v)
  · exact h'.sorted_cutLinks.eq_of_mem_iff h.sorted_cutLinks (fun l => hcut l)

/-- Two links between four nodes cut, then the last node down. -/
def cutThenCrashed : Option FaultState :=
  ((healthy [⟨"node"⟩, ⟨"node"⟩, ⟨"node"⟩, ⟨"node"⟩] brittle).cutAll
    [(⟨0⟩, ⟨1⟩), (⟨2⟩, ⟨3⟩)]).bind (·.crash? ⟨3⟩)

/-- The same faults in the opposite order. -/
def crashedThenCut : Option FaultState :=
  ((healthy [⟨"node"⟩, ⟨"node"⟩, ⟨"node"⟩, ⟨"node"⟩] brittle).crash? ⟨3⟩).bind
    (·.cutAll [(⟨3⟩, ⟨2⟩), (⟨1⟩, ⟨0⟩)])

/-- The two orders come to the same state, and a third link may be cut and restored in it. -/
theorem faults_leave_no_trace_four : ∃ m m₁, cutThenCrashed = some m ∧ crashedThenCut = some m ∧
    m.cut? ⟨0⟩ ⟨2⟩ = some m₁ ∧ m₁ ≠ m ∧ m₁.restore? ⟨2⟩ ⟨0⟩ = some m := by
  have hrun : cutThenCrashed.map (fun m => (m.crashed, m.cutLinks)) =
        some ([⟨3⟩], [⟨⟨0⟩, ⟨1⟩⟩, ⟨⟨2⟩, ⟨3⟩⟩]) ∧
      crashedThenCut.map (fun m => (m.crashed, m.cutLinks)) =
        some ([⟨3⟩], [⟨⟨0⟩, ⟨1⟩⟩, ⟨⟨2⟩, ⟨3⟩⟩]) ∧
      (cutThenCrashed.bind (·.cut? ⟨0⟩ ⟨2⟩)).map (·.cutLinks.length) = some 3 := by decide +kernel
  obtain ⟨hfirst, hsecond, hthird⟩ := hrun
  obtain ⟨m, hm, hparts⟩ := Option.map_eq_some_iff.mp hfirst
  obtain ⟨m', hm', hparts'⟩ := Option.map_eq_some_iff.mp hsecond
  obtain ⟨m₁, hcut, hthree⟩ := Option.map_eq_some_iff.mp hthird
  rw [hm] at hcut
  obtain ⟨hcrashed, hlinks⟩ := Prod.mk.inj hparts
  obtain ⟨hcrashed', hlinks'⟩ := Prod.mk.inj hparts'
  have hreached : Reached [⟨"node"⟩, ⟨"node"⟩, ⟨"node"⟩, ⟨"node"⟩] brittle m := by
    obtain ⟨m₀, hcuts, hcrash⟩ := Option.bind_eq_some_iff.mp hm
    exact (Reached.cutAll .refl hcuts).tail (.harm (.crash hcrash))
  have hreached' : Reached [⟨"node"⟩, ⟨"node"⟩, ⟨"node"⟩, ⟨"node"⟩] brittle m' := by
    obtain ⟨m₀, hcrash, hcuts⟩ := Option.bind_eq_some_iff.mp hm'
    exact Reached.cutAll (.single (.harm (.crash hcrash))) hcuts
  obtain ⟨-, hrestore, -, hsame⟩ := faults_leave_no_trace hreached
  have heq : m' = m := by
    refine hsame rfl m' hreached' (fun v => ?_) fun l => ?_
    · rw [hcrashed, hcrashed']
    · rw [hlinks, hlinks']
  refine ⟨m, m₁, hm, heq ▸ hm', hcut, fun hback => ?_, hrestore _ _ _ hcut⟩
  rw [hback, hlinks] at hthree
  cases hthree

end FaultState

end Interleave
