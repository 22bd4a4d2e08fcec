/-
# The failure budget

Faults are of two kinds. Crashes, cuts and partitions do harm, and each of them is
checked: the nodes that have failed afterwards are within the budget, in all and of
each role. Recoveries, restored links and heals undo harm and are not checked.

With the network in halves none is needed. Undoing harm leaves fewer failed nodes,
so all states are within the budget. Where single links are cut this is not so: the
failed nodes are those outside the largest component, and a restored link can make
another component the largest one. Every state outside the budget goes back to such
a restored link, with nothing but harm undone since.

Key definitions: `FaultState.Harm`, `FaultState.Mend`, `FaultState.Relief`, `FaultState.Move`,
`FaultState.Reached`, `Config.Admits`.
Key theorems: `Source.shuffle_perm`, `FaultState.partition?_halves`, `FaultState.Harm.allows`,
`FaultState.Reached.tidy`, `FaultState.Reached.within_halves`, `FaultState.Reached.within_or_shifted`,
`FaultState.halves_within_budget`, `FaultState.single_edge_budget`.
-/
import Interleave.Proofs.Viable
import Mathlib.Logic.Relation

namespace Interleave

/-! ### Random draws -/

namespace Source

variable {α : Type}

theorem lt_of_belowLoop {bits n fuel k : Nat} {draw : Source → Nat × Source} {s s' : Source}
    (h : belowLoop bits draw n fuel s = (k, s')) (hn : 0 < n)
    (hdraw : ∀ s, (draw s).1 < 2 ^ bits) : k < n := by
  have hlt := belowLoop_lt hn hdraw fuel s
  rwa [h] at hlt

theorem between_le {lo hi : Nat} (h : lo ≤ hi) (s : Source) : (between lo hi s).1 ≤ hi := by
  unfold between
  split
  rename_i k s' hdrawn
  have hlt : k < hi - lo + 1 := by
    refine lt_of_belowLoop hdrawn (by omega) fun s => ?_
    exact (word64 s).1.toNat_lt
  show lo + k ≤ hi
  omega

theorem swapAt_perm (l : List α) (i j : Nat) : (swapAt l i j).Perm l := by
  unfold swapAt
  split
  · rename_i a b ha hb
    obtain ⟨hi, rfl⟩ := List.getElem?_eq_some_iff.mp ha
    obtain ⟨hj, rfl⟩ := List.getElem?_eq_some_iff.mp hb
    exact List.set_set_perm hi hj
  · exact .refl _

theorem shuffleFrom_perm : ∀ (i : Nat) (l : List α) (s : Source), (shuffleFrom i l s).1.Perm l
  | 0, l, _ => .refl l
  | i + 1, l, _ => (shuffleFrom_perm i _ _).trans (swapAt_perm l _ _)

/-- A random order has the same entries. -/
theorem shuffle_perm (l : List α) (s : Source) : (shuffle l s).1.Perm l := shuffleFrom_perm _ l s

end Source

/-! ### What the budget allows -/

theorem NodeId.index_ofIndex_le (i : Nat) : (NodeId.ofIndex i).index ≤ i := by
  show i.toUInt32.toNat ≤ i
  rw [Nat.toUInt32, UInt32.toNat_ofNat']
  exact Nat.mod_le _ _

/-- Two addresses below `2 ^ 32` are different. -/
theorem NodeId.nodup_addresses {n : Nat} (hn : n ≤ UInt32.size) :
    ((List.range n).map NodeId.ofIndex).Nodup := by
  refine List.Nodup.map_on (fun i hi j hj hij => ?_) List.nodup_range
  have hindex := congrArg NodeId.index hij
  have hi' : i < UInt32.size := Nat.lt_of_lt_of_le (List.mem_range.mp hi) hn
  have hj' : j < UInt32.size := Nat.lt_of_lt_of_le (List.mem_range.mp hj) hn
  rwa [NodeId.index_ofIndex hi', NodeId.index_ofIndex hj'] at hindex

/-- The limits of a setting, in all and for each role, on the nodes down at a time. -/
def Config.Admits (config : Config) (roles : List Role) (failed : List NodeId) : Prop :=
  failed.length ≤ config.maxFailed ∧
    ∀ limit ∈ config.maxFailedByRole,
      failed.countP (fun v => roles[v.index]? = some limit.1) ≤ limit.2

namespace FaultState

variable {roles : List Role} {config : Config} {m m' : FaultState} {v : NodeId} {s s' : Source}
  {minority : List NodeId}

theorem Sound.admits_iff (h : Sound roles config m) {failed : List NodeId} :
    config.Admits roles failed ↔ m.budget.allows failed = true := by
  have hallows : m.budget.allows failed = true ↔ failed.length ≤ m.budget.maxFailed ∧
      ∀ limit ∈ m.budget.maxFailedByRole, m.budget.countOfRole limit.1 failed ≤ limit.2 := by
    simp only [Allowance.allows, Bool.and_eq_true, decide_eq_true_eq, List.all_eq_true]
  rw [hallows, h.budget]
  rfl

theorem crash?_eq_some_iff : m.crash? v = some m' ↔ v.index < m.size ∧ v ∉ m.crashed ∧
    m.budget.allows (Ascending.insert v m.failed) = true ∧
    m' = { m with crashed := Ascending.insert v m.crashed } := by
  constructor
  · intro h
    obtain ⟨hin, hup, hallows⟩ := isSome_crash?_iff.mp (Option.isSome_iff_exists.mpr ⟨m', h⟩)
    unfold crash? at h
    split_ifs at h
    cases h
    exact ⟨hin, hup, hallows, rfl⟩
  · rintro ⟨hin, hup, hallows, rfl⟩
    have hout : ¬ m.size ≤ v.index := by omega
    simp [crash?, isCrashed, hout, hup, hallows]

/-! ### Taking nodes into the minority -/

theorem length_insert_le (v : NodeId) (l : List NodeId) :
    (Ascending.insert v l).length ≤ l.length + 1 := by
  induction l with
  | nil => simp [Ascending.insert]
  | cons u l ih =>
    unfold Ascending.insert
    split_ifs
    · simp
    · simp
    · simpa using ih

/-- What is gathered is as many as asked for at most, fits the budget and comes from the list. -/
theorem gather_spec (m : FaultState) (size : Nat) : ∀ (l chosen : List NodeId), chosen.length ≤ size →
    (chosen = [] ∨ m.budget.allows (Ascending.union m.crashed chosen) = true) →
    (m.gather size l chosen).length ≤ size ∧
      (m.gather size l chosen = [] ∨
        m.budget.allows (Ascending.union m.crashed (m.gather size l chosen)) = true) ∧
      ∀ u ∈ m.gather size l chosen, u ∈ chosen ∨ u ∈ l
  | [], chosen, hlength, hfits => ⟨hlength, hfits, fun _ hu => .inl hu⟩
  | v :: l, chosen, hlength, hfits => by
    unfold gather
    by_cases hfull : chosen.length = size
    · rw [if_pos hfull]
      exact ⟨hlength, hfits, fun _ hu => .inl hu⟩
    rw [if_neg hfull]
    by_cases hallowed : m.budget.allows (Ascending.union m.crashed (Ascending.insert v chosen)) = true
    · rw [if_pos hallowed]
      have hmore : (Ascending.insert v chosen).length ≤ size := by
        have hinsert := length_insert_le v chosen
        omega
      obtain ⟨hle, hfits', hmem⟩ := gather_spec m size l _ hmore (.inr hallowed)
      refine ⟨hle, hfits', fun u hu => ?_⟩
      rcases hmem u hu with hu | hu
      · rcases Ascending.mem_insert.mp hu with rfl | hu
        · exact .inr List.mem_cons_self
        · exact .inl hu
      · exact .inr (List.mem_cons_of_mem _ hu)
    · rw [if_neg hallowed]
      obtain ⟨hle, hfits', hmem⟩ := gather_spec m size l _ hlength hfits
      exact ⟨hle, hfits', fun u hu => (hmem u hu).imp_right (List.mem_cons_of_mem _)⟩

theorem mem_up : v ∈ m.up ↔ v ∉ m.crashed ∧ ∃ i < m.size, NodeId.ofIndex i = v := by
  simp [up, isCrashed, and_comm]

/-- With the network in halves, a partition cuts off some of the nodes that are up, never all of
them, within the budget. -/
theorem partition?_halves (hsplit : m.split = .halves minority)
    (h : m.partition? s = (some m', s')) : ∃ chosen, m' = { m with split := .halves chosen } ∧
      chosen ≠ [] ∧ chosen ⊆ m.up ∧ chosen.length < m.up.length ∧
      m.budget.allows (Ascending.union m.crashed chosen) = true := by
  unfold partition? at h
  rw [hsplit] at h
  dsimp only at h
  split at h
  · cases h
  rename_i hadmitted
  have hlimit : m.minorityLimit ≠ 0 := fun hzero => hadmitted (by simp [hzero])
  have hdrawn := Source.between_le (Nat.one_le_iff_ne_zero.mpr hlimit) s
  obtain ⟨hle, hfits, hmem⟩ := gather_spec m (Source.between 1 m.minorityLimit s).1
    (Source.shuffle m.up (Source.between 1 m.minorityLimit s).2).1 [] (Nat.zero_le _) (.inl rfl)
  split at h
  · cases h
  · rename_i hsome
    cases h
    have hne : m.gather (Source.between 1 m.minorityLimit s).1
        (Source.shuffle m.up (Source.between 1 m.minorityLimit s).2).1 [] ≠ [] := hsome
    refine ⟨_, rfl, hne, fun u hu => ?_, ?_, hfits.resolve_left hne⟩
    · have hmember := (hmem u hu).resolve_left List.not_mem_nil
      exact (Source.shuffle_perm _ _).subset hmember
    · have hroom : m.minorityLimit ≤ m.up.length - 1 := Nat.min_le_right _ _
      omega

/-! ### Moves -/

/-- Harm is done: a node goes down, a link is cut, or the network is split at random. -/
inductive Harm (m m' : FaultState) : Prop
  | crash {v : NodeId} (h : m.crash? v = some m')
  | cut {a b : NodeId} (h : m.cut? a b = some m')
  | partition {s s' : Source} (h : m.partition? s = (some m', s'))

/-- The network is mended: a link is restored, or a split undone. -/
inductive Mend (m m' : FaultState) : Prop
  | restore {a b : NodeId} (h : m.restore? a b = some m')
  | heal {s s' : Source} (h : m.heal? s = (some m', s'))

/-- Harm is undone. -/
inductive Relief (m m' : FaultState) : Prop
  | recover {v : NodeId} (h : m.recover? v = some m')
  | mend (h : Mend m m')

/-- The successful changes of a fault state. -/
inductive Move (m m' : FaultState) : Prop
  | harm (h : Harm m m')
  | relief (h : Relief m m')

/-- The fault states that the healthy one can become. -/
def Reached (roles : List Role) (config : Config) (m : FaultState) : Prop :=
  Relation.ReflTransGen Move (healthy roles config) m

theorem Mend.frame (h : Mend m m') (hm : Sound roles config m) :
    Sound roles config m' ∧ m'.crashed = m.crashed := by
  cases h with
  | restore h => exact ⟨(hm.restore h).1, crashed_of_restore? h⟩
  | heal h => exact ⟨(hm.heal h).1, crashed_of_heal? h⟩

/-- What holds however the network is split: the nodes that are down are existing ones, listed in
order and by themselves within the budget. -/
structure Tidy (roles : List Role) (config : Config) (m : FaultState) : Prop where
  sound : Sound roles config m
  sorted : m.crashed.Pairwise (· < ·)
  known : ∀ v ∈ m.crashed, v.index < roles.length
  allowed : m.budget.allows m.crashed = true

namespace Tidy

theorem size_eq (h : Tidy roles config m) : m.size = roles.length := by
  rw [size, h.sound.budget]
  rfl

theorem healthy (roles : List Role) (config : Config) :
    Tidy roles config (healthy roles config) := by
  refine ⟨sound_healthy roles config, List.Pairwise.nil, fun v hv => absurd hv List.not_mem_nil, ?_⟩
  simp [FaultState.healthy, Allowance.allows, Allowance.countOfRole]

theorem sorted_failed (h : Tidy roles config m) : m.failed.Pairwise (· < ·) :=
  Ascending.pairwise_union h.sorted

/-- If more nodes could have failed, the budget is kept. -/
theorem allows (h : Tidy roles config m) (failed : List NodeId) (hsubset : m.failed ⊆ failed)
    (hallows : m.budget.allows failed = true) : m.budget.allows m.failed = true :=
  Allowance.allows_of_subperm (Ascending.subperm_of_subset h.sorted_failed hsubset) hallows

theorem cutOff_healthy (roles : List Role) (config : Config) :
    (FaultState.healthy roles config).cutOff = [] := by
  unfold cutOff FaultState.healthy
  cases config.partitionMode <;> rfl

/-- At first no node has failed. -/
theorem allows_healthy (roles : List Role) (config : Config) :
    (FaultState.healthy roles config).budget.allows (FaultState.healthy roles config).failed = true := by
  have htidy := healthy roles config
  refine htidy.allows _ (fun u hu => ?_) htidy.allowed
  rcases mem_failed.mp hu with hu | hu
  · exact hu
  · rw [cutOff_healthy] at hu
    cases hu

/-- No other node is down and the limits are the same. -/
theorem ease (h : Tidy roles config m) (hsound : Sound roles config m')
    (hcrashed : m'.crashed.Sublist m.crashed) : Tidy roles config m' := by
  refine ⟨hsound, h.sorted.sublist hcrashed, fun v hv => h.known v (hcrashed.subset hv), ?_⟩
  rw [hsound.budget, ← h.sound.budget]
  exact Allowance.allows_of_subperm hcrashed.subperm h.allowed

theorem crash (h : Tidy roles config m) (hcrash : m.crash? v = some m') : Tidy roles config m' := by
  have hsound := h.sound.crash hcrash
  obtain ⟨hin, -, hallows, rfl⟩ := crash?_eq_some_iff.mp hcrash
  have hsorted : (Ascending.insert v m.crashed).Pairwise (· < ·) := Ascending.pairwise_insert h.sorted
  refine ⟨hsound, hsorted, fun u hu => ?_, ?_⟩
  · rcases Ascending.mem_insert.mp hu with rfl | hu
    · exact h.size_eq ▸ hin
    · exact h.known u hu
  · refine Allowance.allows_of_subperm (Ascending.subperm_of_subset hsorted fun u hu => ?_) hallows
    rcases Ascending.mem_insert.mp hu with rfl | hu
    · exact Ascending.mem_insert.mpr (.inl rfl)
    · exact Ascending.mem_insert.mpr (.inr (mem_failed.mpr (.inl hu)))

theorem move (h : Tidy roles config m) (hmove : Move m m') : Tidy roles config m' := by
  cases hmove with
  | harm hharm =>
    cases hharm with
    | crash hcrash => exact h.crash hcrash
    | cut hcut => exact h.ease (h.sound.cut hcut).1 (crashed_of_cut? hcut ▸ .refl _)
    | partition hpartition =>
      exact h.ease (h.sound.partition hpartition).1 (crashed_of_partition? hpartition ▸ .refl _)
  | relief hrelief =>
    cases hrelief with
    | recover hrecover =>
      refine h.ease (h.sound.recover hrecover) ?_
      rw [(crashed_of_recover? hrecover).2]
      exact List.erase_sublist
    | mend hmend =>
      obtain ⟨hsound, hcrashed⟩ := hmend.frame h.sound
      exact h.ease hsound (hcrashed ▸ .refl _)

end Tidy

theorem Reached.tidy (h : Reached roles config m) : Tidy roles config m := by
  induction h with
  | refl => exact .healthy roles config
  | tail _ hmove ih => exact ih.move hmove

/-! ### Harm is checked -/

theorem allows_of_cut? {a b : NodeId} (h : m.cut? a b = some m') :
    m'.budget = m.budget ∧ m.budget.allows m'.failed = true := by
  unfold cut? at h
  split at h
  · cases h
  · split at h
    · cases h
    · dsimp only at h
      split_ifs at h with _ hallows
      cases h
      exact ⟨rfl, hallows⟩

/-- **Harm is checked**: after it the nodes that have failed are within the budget. -/
theorem Harm.allows (h : Harm m m') (hm : Tidy roles config m) :
    m'.budget.allows m'.failed = true := by
  cases h with
  | crash hcrash =>
    have htidy := hm.crash hcrash
    obtain ⟨-, -, hallows, rfl⟩ := crash?_eq_some_iff.mp hcrash
    refine htidy.allows _ (fun u hu => ?_) hallows
    rw [Ascending.mem_insert, mem_failed]
    rcases mem_failed.mp hu with hu | hu
    · exact (Ascending.mem_insert.mp hu).imp_right .inl
    · exact .inr (.inr hu)
  | cut hcut =>
    obtain ⟨hbudget, hallows⟩ := allows_of_cut? hcut
    rw [hbudget]
    exact hallows
  | partition hpartition =>
    cases hsplit : m.split with
    | halves minority =>
      obtain ⟨chosen, rfl, -, -, -, hallows⟩ := partition?_halves hsplit hpartition
      exact hallows
    | links cut labels outside =>
      unfold partition? at hpartition
      rw [hsplit] at hpartition
      dsimp only at hpartition
      split at hpartition
      · obtain ⟨hbudget, hallows⟩ := allows_of_cut? (Prod.mk.inj hpartition).1
        rw [hbudget]
        exact hallows
      · cases hpartition

/-! ### The network in halves -/

theorem Relief.eases (h : Relief m m') (hsplit : m.split = .halves minority) : Eases m m' := by
  cases h with
  | recover hrecover => exact eases_of_recover? hrecover hsplit
  | mend hmend =>
    cases hmend with
    | restore hrestore =>
      unfold restore? at hrestore
      rw [hsplit] at hrestore
      cases hrestore
    | heal hheal => exact eases_of_heal? hheal hsplit

theorem known_of_up (h : Tidy roles config m) (hv : v ∈ m.up) : v.index < roles.length := by
  obtain ⟨-, i, hi, rfl⟩ := mem_up.mp hv
  rw [h.size_eq] at hi
  exact Nat.lt_of_le_of_lt (NodeId.index_ofIndex_le i) hi

/-- Harm in halves cuts off existing nodes. -/
theorem Harm.known (h : Harm m m') (hm : Tidy roles config m) (hsplit : m.split = .halves minority)
    (hknown : ∀ v ∈ m.cutOff, v.index < roles.length) : ∀ v ∈ m'.cutOff, v.index < roles.length := by
  cases h with
  | crash hcrash =>
    have hcutOff : m'.cutOff = m.cutOff := by
      rw [cutOff, (frame_of_crash? hcrash).2]
      rfl
    rw [hcutOff]
    exact hknown
  | cut hcut =>
    unfold cut? at hcut
    rw [hsplit] at hcut
    cases hcut
  | partition hpartition =>
    obtain ⟨chosen, rfl, -, hup, -⟩ := partition?_halves hsplit hpartition
    exact fun v hv => known_of_up hm (hup hv)

theorem Eases.cutOff (h : Eases m m') : m'.cutOff ⊆ m.cutOff := by
  obtain ⟨minority, minority', hsplit, hsplit', hsubset⟩ := h.split
  rw [FaultState.cutOff, FaultState.cutOff, hsplit, hsplit']
  exact hsubset

/-- With the network in halves all states are within the budget. -/
theorem Reached.within_halves (hmode : config.partitionMode = .halves)
    (h : Reached roles config m) :
    m.budget.allows m.failed = true ∧ ∀ v ∈ m.cutOff, v.index < roles.length := by
  induction h with
  | refl =>
    refine ⟨Tidy.allows_healthy roles config, fun v hv => ?_⟩
    rw [Tidy.cutOff_healthy] at hv
    cases hv
  | tail hreached hmove ih =>
    rename_i m₁ m₂
    have htidy : Tidy roles config m₁ := Reached.tidy hreached
    obtain ⟨minority, hsplit⟩ := htidy.sound.exists_halves hmode
    obtain ⟨hallows, hknown⟩ := ih
    cases hmove with
    | harm hharm => exact ⟨hharm.allows htidy, hharm.known htidy hsplit hknown⟩
    | relief hrelief =>
      have heases := hrelief.eases hsplit
      have htidy' : Tidy roles config m₂ := htidy.move (.relief hrelief)
      refine ⟨htidy'.allows _ heases.failed ?_, fun v hv => hknown v (heases.cutOff hv)⟩
      rw [heases.budget]
      exact hallows

theorem nodup_up (hsize : m.size ≤ UInt32.size) : m.up.Nodup :=
  (NodeId.nodup_addresses hsize).filter _

/-- A shorter list than that of the nodes that are up leaves one of them out. -/
theorem exists_up_not_mem {chosen : List NodeId} (hsize : m.size ≤ UInt32.size)
    (hfewer : chosen.length < m.up.length) : ∃ v ∈ m.up, v ∉ chosen := by
  by_contra hall
  push Not at hall
  have hle : m.up.length ≤ chosen.length := ((nodup_up hsize).subperm hall).length_le
  omega

/-- **With the network in halves the budget is kept.** However a state came about from the healthy
one, the nodes that are down or cut off are existing ones and within the limits, in all and for
each role. A partition cuts off some nodes, none of them down, and fewer than are up; since
addresses are 32-bit words, with no more nodes than addresses a node that is up stays in the other
half. -/
theorem halves_within_budget (hmode : config.partitionMode = .halves)
    (h : Reached roles config m) :
    m.numFailed ≤ config.maxFailed ∧
    (∀ limit ∈ config.maxFailedByRole,
      m.failed.countP (fun v => roles[v.index]? = some limit.1) ≤ limit.2) ∧
    (∀ v, v ∈ m.crashed ∨ v ∈ m.cutOff → v.index < roles.length) ∧
    ∀ s m' s', m.partition? s = (some m', s') →
      m'.cutOff ≠ [] ∧ (∀ v ∈ m'.cutOff, v ∉ m'.crashed) ∧ m'.cutOff.length < m'.up.length ∧
      (roles.length ≤ UInt32.size →
        ∃ v, v.index < roles.length ∧ v ∉ m'.crashed ∧ v ∉ m'.cutOff) := by
  have htidy := h.tidy
  obtain ⟨hallows, hknown⟩ := h.within_halves hmode
  obtain ⟨hall, hrole⟩ := htidy.sound.admits_iff.mpr hallows
  refine ⟨hall, hrole, fun v hv => hv.elim (htidy.known v) (hknown v), fun s m' s' hpartition => ?_⟩
  obtain ⟨minority, hsplit⟩ := htidy.sound.exists_halves hmode
  obtain ⟨chosen, rfl, hsome, hup, hfewer, -⟩ := partition?_halves hsplit hpartition
  refine ⟨hsome, fun v hv => (mem_up.mp (hup hv)).1, hfewer, fun hsize => ?_⟩
  obtain ⟨v, hv, hout⟩ := exists_up_not_mem (htidy.size_eq ▸ hsize) hfewer
  exact ⟨v, known_of_up htidy hv, (mem_up.mp hv).1, hout⟩

/-- Two nodes may fail, one peer among them at most. -/
def frugal : Config :=
  { Config.default with maxFailed := 2, maxFailedByRole := [(⟨"peer"⟩, 1)] }

/-- A peer goes down, then the network is split by a source of zeros. -/
theorem halves_within_budget_frugal : ∃ m m' s',
    (healthy [⟨"peer"⟩, ⟨"peer"⟩, ⟨"keeper"⟩, ⟨"keeper"⟩] frugal).crash? ⟨0⟩ = some m ∧
      m.partition? ⟨fun _ => 0, 0⟩ = (some m', s') ∧ m'.numFailed = 2 ∧
      m'.numFailed ≤ frugal.maxFailed ∧ m'.failed.countP (fun v =>
        [(⟨"peer"⟩ : Role), ⟨"peer"⟩, ⟨"keeper"⟩, ⟨"keeper"⟩][v.index]? = some ⟨"peer"⟩) ≤ 1 ∧
      ∃ v : NodeId, v.index < 4 ∧ v ∉ m'.crashed ∧ v ∉ m'.cutOff := by
  have hrun : (((healthy [⟨"peer"⟩, ⟨"peer"⟩, ⟨"keeper"⟩, ⟨"keeper"⟩] frugal).crash? ⟨0⟩).bind
      fun m => (m.partition? ⟨fun _ => 0, 0⟩).1.map numFailed) = some 2 := by decide +kernel
  obtain ⟨m, hcrash, hpartition⟩ := Option.bind_eq_some_iff.mp hrun
  obtain ⟨m', hpartition, hfailed⟩ := Option.map_eq_some_iff.mp hpartition
  have hsplit : m.partition? ⟨fun _ => 0, 0⟩ = (some m', (m.partition? ⟨fun _ => 0, 0⟩).2) :=
    Prod.ext hpartition rfl
  have hm : Reached [⟨"peer"⟩, ⟨"peer"⟩, ⟨"keeper"⟩, ⟨"keeper"⟩] frugal m :=
    .single (.harm (.crash hcrash))
  have hm' : Reached [⟨"peer"⟩, ⟨"peer"⟩, ⟨"keeper"⟩, ⟨"keeper"⟩] frugal m' :=
    hm.tail (.harm (.partition hsplit))
  obtain ⟨-, -, -, hhalves⟩ := halves_within_budget rfl hm
  obtain ⟨hall, hrole, -⟩ := halves_within_budget rfl hm'
  obtain ⟨-, -, -, hother⟩ := hhalves _ _ _ hsplit
  exact ⟨m, m', _, hcrash, hsplit, hfailed, hall, hrole _ List.mem_cons_self, hother (by decide)⟩

/-! ### Single links -/

/-- A mended network in which no other node is outside than before is within the budget still. -/
theorem Mend.allows (h : Mend m m') (hm : Tidy roles config m) (hcutOff : m'.cutOff ⊆ m.cutOff)
    (hallows : m.budget.allows m.failed = true) : m'.budget.allows m'.failed = true := by
  obtain ⟨hsound, hcrashed⟩ := h.frame hm.sound
  have htidy : Tidy roles config m' := hm.move (.relief (.mend h))
  refine htidy.allows m.failed (fun u hu => ?_) ?_
  · rcases mem_failed.mp hu with hu | hu
    · exact mem_failed.mpr (.inl (hcrashed ▸ hu))
    · exact mem_failed.mpr (.inr (hcutOff hu))
  · rw [hsound.budget, ← hm.sound.budget]
    exact hallows

theorem allows_of_recover? (h : m.recover? v = some m') (hm : Tidy roles config m)
    (hallows : m.budget.allows m.failed = true) : m'.budget.allows m'.failed = true := by
  obtain ⟨hbudget, hsplit⟩ := frame_of_recover? h
  have htidy : Tidy roles config m' := hm.move (.relief (.recover h))
  have hcutOff : m'.cutOff = m.cutOff := by
    rw [cutOff, hsplit]
    rfl
  refine htidy.allows m.failed (fun u hu => ?_) (hbudget ▸ hallows)
  rcases mem_failed.mp hu with hu | hu
  · rw [(crashed_of_recover? h).2] at hu
    exact mem_failed.mpr (.inl (List.mem_of_mem_erase hu))
  · exact mem_failed.mpr (.inr (hcutOff ▸ hu))

/-- The network of a state within the budget was mended so that a node is outside the largest
component that was not, and nothing but harm has been undone since. -/
def Shifted (roles : List Role) (config : Config) (m : FaultState) : Prop :=
  ∃ m₀ m₁, Reached roles config m₀ ∧ config.Admits roles m₀.failed ∧ Mend m₀ m₁ ∧
    ¬ m₁.cutOff ⊆ m₀.cutOff ∧ Relation.ReflTransGen Relief m₁ m

/-- However the network is split, a state outside the budget goes back to a mended link. -/
theorem Reached.within_or_shifted (h : Reached roles config m) :
    config.Admits roles m.failed ∨ Shifted roles config m := by
  induction h with
  | refl =>
    exact .inl ((sound_healthy roles config).admits_iff.mpr (Tidy.allows_healthy roles config))
  | tail hreached hmove ih =>
    rename_i m₁ m₂
    have htidy : Tidy roles config m₁ := Reached.tidy hreached
    have htidy' : Tidy roles config m₂ := htidy.move hmove
    cases hmove with
    | harm hharm => exact .inl (htidy'.sound.admits_iff.mpr (hharm.allows htidy))
    | relief hrelief =>
      rcases ih with hadmits | ⟨m₀, m₀', hm₀, hadmits, hmend, hshift, hsince⟩
      · have hallows := htidy.sound.admits_iff.mp hadmits
        cases hrelief with
        | recover hrecover =>
          exact .inl (htidy'.sound.admits_iff.mpr (allows_of_recover? hrecover htidy hallows))
        | mend hmend =>
          by_cases hcutOff : m₂.cutOff ⊆ m₁.cutOff
          · exact .inl (htidy'.sound.admits_iff.mpr (hmend.allows htidy hcutOff hallows))
          · exact .inr ⟨m₁, m₂, hreached, hadmits, hmend, hcutOff, .refl⟩
      · exact .inr ⟨m₀, m₀', hm₀, hadmits, hmend, hshift, hsince.tail hrelief⟩

/-- **Where single links are cut, only a restored link exceeds the budget.** The nodes that are down
are within the limits by themselves, and after every crash, cut and partition so are all failed
ones. A state outside the limits goes back to one inside them in which a restored link put a node
outside the largest component, and since then harm was only undone. -/
theorem single_edge_budget (h : Reached roles config m) :
    config.Admits roles m.crashed ∧ (∀ m', Harm m m' → config.Admits roles m'.failed) ∧
      (config.Admits roles m.failed ∨ Shifted roles config m) := by
  have htidy := h.tidy
  refine ⟨htidy.sound.admits_iff.mpr htidy.allowed, fun m' hharm => ?_, h.within_or_shifted⟩
  exact (htidy.move (.harm hharm)).sound.admits_iff.mpr (hharm.allows htidy)

/-- Two of three nodes may fail, and single links are cut. -/
def brittle : Config := { Config.default with maxFailed := 2, partitionMode := .singleEdge }

/-- Three nodes, all links cut, and all but the first node down. -/
def scattered : Option FaultState :=
  ((((healthy [⟨"node"⟩, ⟨"node"⟩, ⟨"node"⟩] brittle).cut? ⟨0⟩ ⟨1⟩).bind (·.cut? ⟨0⟩ ⟨2⟩)).bind
    (·.cut? ⟨1⟩ ⟨2⟩)).bind (·.crash? ⟨1⟩) |>.bind (·.crash? ⟨2⟩)

theorem reached_scattered {m : FaultState} (h : scattered = some m) :
    Reached [⟨"node"⟩, ⟨"node"⟩, ⟨"node"⟩] brittle m := by
  obtain ⟨m₄, h, hfifth⟩ := Option.bind_eq_some_iff.mp h
  obtain ⟨m₃, h, hfourth⟩ := Option.bind_eq_some_iff.mp h
  obtain ⟨m₂, h, hthird⟩ := Option.bind_eq_some_iff.mp h
  obtain ⟨m₁, hfirst, hsecond⟩ := Option.bind_eq_some_iff.mp h
  have hcut : Reached [⟨"node"⟩, ⟨"node"⟩, ⟨"node"⟩] brittle m₃ :=
    ((Relation.ReflTransGen.single (.harm (.cut hfirst))).tail (.harm (.cut hsecond))).tail
      (.harm (.cut hthird))
  exact (hcut.tail (.harm (.crash hfourth))).tail (.harm (.crash hfifth))

/-- With all links cut the first node is in the main component and within the budget the others
may be down. -/
theorem single_edge_budget_scattered : ∃ m, scattered = some m ∧ m.numFailed = 2 ∧
    brittle.Admits [⟨"node"⟩, ⟨"node"⟩, ⟨"node"⟩] m.crashed := by
  have hrun : scattered.map numFailed = some 2 := by decide +kernel
  obtain ⟨m, hm, hfailed⟩ := Option.map_eq_some_iff.mp hrun
  exact ⟨m, hm, hfailed, (single_edge_budget (reached_scattered hm)).1⟩

/-- Restoring the link between the two nodes that are down makes them the largest component: the
first node is outside then, and all three have failed where two may. -/
theorem restored_link_exceeds_budget : ∃ m, Reached [⟨"node"⟩, ⟨"node"⟩, ⟨"node"⟩] brittle m ∧
    brittle.partitionMode = .singleEdge ∧ brittle.maxFailed < m.numFailed := by
  have hrun : (scattered.bind (·.restore? ⟨1⟩ ⟨2⟩)).map numFailed = some 3 := by decide +kernel
  obtain ⟨m', hrun, hfailed⟩ := Option.map_eq_some_iff.mp hrun
  obtain ⟨m, hm, hrestore⟩ := Option.bind_eq_some_iff.mp hrun
  refine ⟨m', (reached_scattered hm).tail (.relief (.mend (.restore hrestore))), rfl, ?_⟩
  rw [hfailed]
  decide

end FaultState

end Interleave
