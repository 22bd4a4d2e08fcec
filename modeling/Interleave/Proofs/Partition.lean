/-
# When a partition succeeds

A partition is drawn at random, and before it is tried a quick test tells whether
it may be: `canPartition` counts nodes only. How good the test is depends on how the
network is split.

In halves a size is drawn, and nodes that are up are taken into the minority in a
random order while they fit the budget. A node that was passed over does not fit
later either, since the minority only grows. So a minority short of its size cannot be
extended (`FaultState.gather_maximal`), in whatever order the nodes came, and none is
found at all only if no single node may fail (`FaultState.gather_ne_nil_iff`). Together
with the test this decides success, whatever is drawn
(`FaultState.halves_partition_exact`).

Where single links are cut the test is too strict. A cut that puts no further node
outside the largest component needs no room and succeeds with the budget exhausted,
where the test says no. With room in the budget no cut is missed
(`FaultState.single_edge_partition_offered`).
-/
import Interleave.Proofs.Reversal

namespace Interleave

/-- Nothing is offered at a message if the quick test says no. -/
theorem Step.offerPartition_eq_nil_iff {σ μ : Type} {c : Cluster σ μ} {w : World σ μ} {v : NodeId}
    {k : Clock} {n : MessageId} (hsplits : c.config.splits = true) :
    Step.offerPartition c v k n w = (.ok [], w) ↔ w.fault.canPartition = false := by
  rw [offerPartition, Attempt.get_bind, hsplits, Bool.true_and]
  cases w.fault.canPartition with
  | true =>
    rw [if_pos rfl]
    refine iff_of_false (fun h => ?_) (by simp)
    obtain ⟨id, w₁, -, hend⟩ := Attempt.bind_ok h
    cases hend
  | false => exact iff_of_true rfl rfl

namespace FaultState

variable {roles : List Role} {config : Config} {m m' : FaultState} {v : NodeId} {s s' : Source}
  {minority : List NodeId}

/-! ### Taking nodes into the minority -/

theorem subset_gather (m : FaultState) (size : Nat) : ∀ (l chosen : List NodeId),
    chosen ⊆ m.gather size l chosen
  | [], _ => List.Subset.refl _
  | v :: l, chosen => by
    unfold gather
    split_ifs
    · exact List.Subset.refl _
    · exact fun u hu => subset_gather m size l _ (Ascending.mem_insert.mpr (.inr hu))
    · exact subset_gather m size l chosen

theorem sorted_gather (m : FaultState) (size : Nat) : ∀ (l chosen : List NodeId),
    chosen.Pairwise (· < ·) → (m.gather size l chosen).Pairwise (· < ·)
  | [], _, h => h
  | v :: l, chosen, h => by
    unfold gather
    split_ifs
    · exact h
    · exact sorted_gather m size l _ (Ascending.pairwise_insert h)
    · exact sorted_gather m size l chosen h

/-- What the budget allows with more nodes cut off it allows with fewer. -/
theorem allows_union_of_subset {cut cut' : List NodeId} (hsorted : m.crashed.Pairwise (· < ·))
    (hsubset : cut ⊆ cut') (hallows : m.budget.allows (Ascending.union m.crashed cut') = true) :
    m.budget.allows (Ascending.union m.crashed cut) = true := by
  refine Allowance.allows_of_subperm ?_ hallows
  refine Ascending.subperm_of_subset (Ascending.pairwise_union hsorted) fun u hu => ?_
  rw [Ascending.mem_union] at hu ⊢
  exact hu.imp_right (fun hmem => hsubset hmem)

/-- A node that was passed over fits no larger minority, so one that is short of its size is
maximal. -/
theorem gather_maximal {size : Nat} (hsorted : m.crashed.Pairwise (· < ·)) :
    ∀ (l chosen : List NodeId), (m.gather size l chosen).length < size →
      ∀ u ∈ l, u ∉ m.gather size l chosen →
        ¬ m.budget.allows
          (Ascending.union m.crashed (Ascending.insert u (m.gather size l chosen))) = true
  | [], _, _, u, hu => absurd hu List.not_mem_nil
  | v :: l, chosen, hshort, u, hu => by
    unfold gather at hshort ⊢
    by_cases hfull : chosen.length = size
    · rw [if_pos hfull] at hshort
      omega
    rw [if_neg hfull] at hshort ⊢
    by_cases hfits : m.budget.allows (Ascending.union m.crashed (Ascending.insert v chosen)) = true
    · rw [if_pos hfits] at hshort ⊢
      intro hout
      rcases List.mem_cons.mp hu with rfl | hu
      · exact absurd (subset_gather m size l _ (Ascending.mem_insert.mpr (.inl rfl))) hout
      · exact gather_maximal hsorted l _ hshort u hu hout
    · rw [if_neg hfits] at hshort ⊢
      intro hout hallows
      rcases List.mem_cons.mp hu with rfl | hu
      · refine hfits (allows_union_of_subset hsorted (fun x hx => ?_) hallows)
        rw [Ascending.mem_insert] at hx ⊢
        exact hx.imp_right fun hx => subset_gather m size l chosen hx
      · exact gather_maximal hsorted l chosen hshort u hu hout hallows

/-- Some node is taken if one of them fits by itself, whatever the order. -/
theorem gather_ne_nil_iff {size : Nat} {l : List NodeId} (hsorted : m.crashed.Pairwise (· < ·))
    (hsize : 0 < size) : m.gather size l [] ≠ [] ↔
      ∃ u ∈ l, m.budget.allows (Ascending.insert u m.crashed) = true := by
  constructor
  · intro hsome
    obtain ⟨-, hfits, hmem⟩ := gather_spec m size l [] (Nat.zero_le _) (.inl rfl)
    obtain ⟨u, hu⟩ := List.exists_mem_of_ne_nil _ hsome
    refine ⟨u, (hmem u hu).resolve_left List.not_mem_nil, ?_⟩
    have hone : [u] ⊆ m.gather size l [] := by simpa using hu
    exact allows_union_of_subset hsorted hone (hfits.resolve_left hsome)
  · rintro ⟨u, hu, hallows⟩ hnone
    have hshort : (m.gather size l []).length < size := by
      rw [hnone]
      exact hsize
    have hmax := gather_maximal hsorted l [] hshort u hu
    rw [hnone] at hmax
    exact hmax List.not_mem_nil hallows

/-! ### The nodes that are up -/

/-- With no more nodes than addresses, those that are not down are up. -/
theorem length_up (hsize : m.size ≤ UInt32.size) (hnodup : m.crashed.Nodup)
    (hknown : ∀ u ∈ m.crashed, u.index < m.size) : m.up.length + m.crashed.length = m.size := by
  have hall := NodeId.nodup_addresses hsize
  have hdown : (((List.range m.size).map NodeId.ofIndex).filter fun u => m.isCrashed u).Perm
      m.crashed := by
    refine (List.perm_ext_iff_of_nodup (hall.filter _) hnodup).mpr fun u => ?_
    rw [List.mem_filter, isCrashed_iff, and_iff_right_iff_imp]
    intro hu
    exact List.mem_map.mpr ⟨u.index, List.mem_range.mpr (hknown u hu), u.ofIndex_index⟩
  have hsplit := List.length_eq_length_filter_add (l := (List.range m.size).map NodeId.ofIndex)
    fun u => m.isCrashed u
  rw [List.length_map, List.length_range, hdown.length_eq] at hsplit
  unfold up
  omega

/-! ### A partition into halves -/

/-- The size that is drawn for a minority. -/
def drawnSize (m : FaultState) (s : Source) : Nat := (Source.between 1 m.minorityLimit s).1

/-- The order in which the nodes that are up are drawn then. -/
def drawnOrder (m : FaultState) (s : Source) : List NodeId :=
  (Source.shuffle m.up (Source.between 1 m.minorityLimit s).2).1

theorem mem_drawnOrder : v ∈ m.drawnOrder s ↔ v ∈ m.up := (Source.shuffle_perm _ _).mem_iff

theorem drawnSize_pos : 1 ≤ m.drawnSize s := by
  unfold drawnSize Source.between
  exact Nat.le_add_right 1 _

theorem partition?_fst (hsplit : m.split = .halves minority) : (m.partition? s).1 =
    if minority = [] ∧ m.minorityLimit ≠ 0 ∧ m.gather (m.drawnSize s) (m.drawnOrder s) [] ≠ [] then
      some { m with split := .halves (m.gather (m.drawnSize s) (m.drawnOrder s) []) }
    else none := by
  unfold partition?
  rw [hsplit]
  by_cases hwhole : minority = []
  · by_cases hlimit : m.minorityLimit = 0
    · simp [hlimit]
    · simp only [hwhole, hlimit, List.isEmpty_nil, Bool.not_true, Bool.false_or, decide_false,
        Bool.false_eq_true, if_false, ne_eq, not_false_eq_true, true_and]
      unfold drawnSize drawnOrder
      split
      · rename_i hnone
        rw [if_neg (not_not_intro hnone)]
      · rename_i hsome
        rw [if_pos hsome]
  · simp [hwhole]

theorem partition?_of_fst (h : (m.partition? s).1 = some m') :
    m.partition? s = (some m', (m.partition? s).2) := Prod.ext h rfl

theorem isSome_partition?_iff (hsplit : m.split = .halves minority)
    (hsorted : m.crashed.Pairwise (· < ·)) : (m.partition? s).1.isSome = true ↔
      minority = [] ∧ m.minorityLimit ≠ 0 ∧
        ∃ u ∈ m.up, m.budget.allows (Ascending.insert u m.crashed) = true := by
  rw [partition?_fst hsplit, Option.isSome_ite, gather_ne_nil_iff hsorted drawnSize_pos]
  simp only [mem_drawnOrder]

theorem failed_of_whole (hsplit : m.split = .halves []) : m.failed = m.crashed := by
  rw [failed, cutOff, hsplit]
  rfl

/-- While the network is whole, a node that is up may go down if the budget has room for it. -/
theorem exists_crash?_iff (hsplit : m.split = .halves []) : (∃ u, (m.crash? u).isSome = true) ↔
    ∃ u ∈ m.up, m.budget.allows (Ascending.insert u m.crashed) = true := by
  have hmem : ∀ u : NodeId, u ∈ m.up ↔ u.index < m.size ∧ u ∉ m.crashed := fun u => by
    rw [mem_up, and_comm]
    refine and_congr_left fun _ => ⟨?_, fun hu => ⟨u.index, hu, u.ofIndex_index⟩⟩
    rintro ⟨i, hi, rfl⟩
    exact Nat.lt_of_le_of_lt (NodeId.index_ofIndex_le i) hi
  simp only [isSome_crash?_iff, failed_of_whole hsplit, hmem, and_assoc]

/-- The quick test and the limit on the minority agree. -/
theorem canPartition_iff_minorityLimit (hm : Tidy roles config m)
    (hsplit : m.split = .halves minority) (hsize : roles.length ≤ UInt32.size) :
    m.canPartition = true ↔ minority = [] ∧ m.minorityLimit ≠ 0 := by
  have hup : m.up.length + m.crashed.length = m.size :=
    length_up (hm.size_eq ▸ hsize) hm.sound.crashed fun u hu => hm.size_eq ▸ hm.known u hu
  rw [canPartition_iff hsplit, and_left_comm]
  refine and_congr_right fun _ => ?_
  unfold minorityLimit numFailed
  omega

/-- **A partition into halves succeeds exactly if the quick test says so and some node may go down**,
whatever the source draws; this is for clusters with no more nodes than there are addresses, since
further nodes share theirs. It cuts off nodes that are up. Their number is the one drawn, which is
at least one, within what is left of the budget and leaves a node over; or it is smaller, and then the
limits, in all and for each role, admit no further node that is up. -/
theorem halves_partition_exact (hmode : config.partitionMode = .halves) (h : Reached roles config m)
    (s : Source) :
    (roles.length ≤ UInt32.size → ((m.partition? s).1.isSome = true ↔
      m.canPartition = true ∧ ∃ v, (m.crash? v).isSome = true)) ∧
    ∀ m' s', m.partition? s = (some m', s') →
      ∃ minority, m' = { m with split := .halves minority } ∧ minority.Nodup ∧
        (∀ v ∈ minority, v ∈ m.up) ∧ 1 ≤ m.drawnSize s ∧
        m.drawnSize s ≤ min (config.maxFailed - m.numFailed) (m.up.length - 1) ∧
        (minority.length = m.drawnSize s ∨ minority.length < m.drawnSize s ∧
          ∀ v ∈ m.up, v ∉ minority → ¬ config.Admits roles (Ascending.insert v m'.failed)) := by
  have htidy := h.tidy
  obtain ⟨before, hsplit⟩ := htidy.sound.exists_halves hmode
  refine ⟨fun hsize => ?_, fun m' s' hpartition => ?_⟩
  · rw [isSome_partition?_iff hsplit htidy.sorted, canPartition_iff_minorityLimit htidy hsplit hsize,
      and_assoc]
    refine and_congr_right fun hwhole => and_congr_right fun _ => ?_
    subst hwhole
    exact (exists_crash?_iff hsplit).symm
  · have hfst := partition?_fst (s := s) hsplit
    rw [hpartition] at hfst
    split_ifs at hfst with hsome
    obtain ⟨hwhole, hlimit, hsome⟩ := hsome
    cases hfst
    have hdrawn : m.drawnSize s ≤ m.minorityLimit :=
      Source.between_le (Nat.one_le_iff_ne_zero.mpr hlimit) s
    have hbudget : m.budget.maxFailed = config.maxFailed := by rw [htidy.sound.budget]; rfl
    obtain ⟨hle, -, hmem⟩ :=
      gather_spec m (m.drawnSize s) (m.drawnOrder s) [] (Nat.zero_le _) (.inl rfl)
    have hsorted := sorted_gather m (m.drawnSize s) (m.drawnOrder s) [] List.Pairwise.nil
    refine ⟨_, rfl, hsorted.imp fun {u v} hlt heq => ?_, fun v hv => ?_, drawnSize_pos,
      hbudget ▸ hdrawn, ?_⟩
    · exact absurd (heq ▸ hlt) (Nat.lt_irrefl _)
    · exact mem_drawnOrder.mp ((hmem v hv).resolve_left List.not_mem_nil)
    · rcases Nat.eq_or_lt_of_le hle with hfull | hshort
      · exact .inl hfull
      · refine .inr ⟨hshort, fun v hv hout hadmits => ?_⟩
        refine gather_maximal htidy.sorted _ [] hshort v (mem_drawnOrder.mpr hv) hout ?_
        refine Allowance.allows_of_subperm ?_ (htidy.sound.admits_iff.mp hadmits)
        refine Ascending.subperm_of_subset (Ascending.pairwise_union htidy.sorted) fun u hu => ?_
        rw [Ascending.mem_union, Ascending.mem_insert] at hu
        rw [Ascending.mem_insert, mem_failed]
        exact or_left_comm.mp hu

/-- Three peers of which one may fail. A minority of two is drawn and cannot be had. -/
theorem halves_partition_exact_peers : ∃ m' s' minority,
    (healthy [⟨"peer"⟩, ⟨"peer"⟩, ⟨"peer"⟩] frugal).partition? ⟨fun _ => 0x80000000, 0⟩ = (some m', s') ∧
      m'.split = .halves minority ∧ minority.length < 2 ∧
      (∃ v, ((healthy [⟨"peer"⟩, ⟨"peer"⟩, ⟨"peer"⟩] frugal).crash? v).isSome = true) ∧
      ∀ v ∈ (healthy [⟨"peer"⟩, ⟨"peer"⟩, ⟨"peer"⟩] frugal).up, v ∉ minority →
        ¬ frugal.Admits [⟨"peer"⟩, ⟨"peer"⟩, ⟨"peer"⟩] (Ascending.insert v m'.failed) := by
  have hrun : ((healthy [⟨"peer"⟩, ⟨"peer"⟩, ⟨"peer"⟩] frugal).partition?
        ⟨fun _ => 0x80000000, 0⟩).1.map (·.cutOff.length) = some 1 ∧
      (healthy [⟨"peer"⟩, ⟨"peer"⟩, ⟨"peer"⟩] frugal).drawnSize ⟨fun _ => 0x80000000, 0⟩ = 2 := by
    decide +kernel
  obtain ⟨hcut, hdrawn⟩ := hrun
  obtain ⟨m', hpartition, hone⟩ := Option.map_eq_some_iff.mp hcut
  obtain ⟨hiff, hpicks⟩ := halves_partition_exact (m := healthy [⟨"peer"⟩, ⟨"peer"⟩, ⟨"peer"⟩] frugal)
    rfl .refl ⟨fun _ => 0x80000000, 0⟩
  have hsome := Option.isSome_iff_exists.mpr ⟨m', hpartition⟩
  obtain ⟨minority, rfl, -, -, -, -, hsize⟩ := hpicks m' _ (partition?_of_fst hpartition)
  rw [hdrawn] at hsize
  have hlength : minority.length = 1 := hone
  have hshort := hsize.resolve_left (by omega)
  exact ⟨_, _, minority, partition?_of_fst hpartition, rfl, hshort.1, ((hiff (by decide)).mp hsome).2,
    hshort.2⟩

/-! ### A single link -/

theorem canPartition_iff_room (hm : Tidy roles config m)
    (hmode : config.partitionMode = .singleEdge) :
    m.canPartition = true ↔ m.numFailed < config.maxFailed ∧ 2 ≤ roles.length := by
  have hbudget : m.budget.maxFailed = config.maxFailed := by rw [hm.sound.budget]; rfl
  have hsplit := hm.sound.split
  unfold canPartition
  rw [hbudget, hm.size_eq]
  cases hkind : m.split with
  | halves minority =>
    rw [hkind] at hsplit
    cases hmode.symm.trans hsplit
  | links cut labels outside => simp only [Bool.and_eq_true, decide_eq_true_eq]

/-- What is cut joins two existing nodes, and leaves the failed ones within the budget. -/
theorem room_of_partition? (hm : Tidy roles config m) (hmode : config.partitionMode = .singleEdge)
    (h : m.partition? s = (some m', s')) :
    2 ≤ roles.length ∧ m'.numFailed ≤ config.maxFailed := by
  have hallows := Harm.allows (.partition h) hm
  have hadmits := (hm.move (.harm (.partition h))).sound.admits_iff.mpr hallows
  refine ⟨?_, hadmits.1⟩
  rcases cut?_or_halves_of_partition? h with ⟨a, b, hcut⟩ | ⟨chosen, hwhole, -⟩
  · obtain ⟨-, -, -, l, -, hlink, hin, -⟩ := cut?_eq_some_iff.mp hcut
    have hlow : l.low.index < l.high.index := Link.low_lt_high_of_between? hlink
    rw [hm.size_eq] at hin
    omega
  · have hsplit := hm.sound.split
    rw [hwhole] at hsplit
    cases hmode.symm.trans hsplit

/-- **Where single links are cut, the quick test withholds only cuts that cost nothing.** Let a
partition succeed in a state that came about from the healthy one. The quick test said so beforehand
exactly if there was room in the budget; with none left, the cut let no further node fail. So a
message that is sent is offered no partition, and the candidates offered before are pruned, exactly
when the budget is exhausted. -/
theorem single_edge_partition_offered (hmode : config.partitionMode = .singleEdge)
    (h : Reached roles config m) (hpartition : m.partition? s = (some m', s')) :
    (m.canPartition = true ↔ m.numFailed < config.maxFailed) ∧
    (config.maxFailed ≤ m.numFailed → m'.numFailed ≤ m.numFailed) ∧
    ∀ (σ μ : Type) (c : Cluster σ μ) (w : World σ μ), w.fault = m →
      (c.config.splits = true → ∀ v k n,
        Step.offerPartition c v k n w = (.ok [], w) ↔ config.maxFailed ≤ m.numFailed) ∧
      ∀ t, w.pending.get? t.id = some t → t.kind = .partition →
        (Step.applicable w t.id = false ↔ config.maxFailed ≤ m.numFailed) := by
  obtain ⟨htwo, hwithin⟩ := room_of_partition? h.tidy hmode hpartition
  have htest : m.canPartition = true ↔ m.numFailed < config.maxFailed := by
    rw [canPartition_iff_room h.tidy hmode, and_iff_left htwo]
  have hrefused : m.canPartition = false ↔ config.maxFailed ≤ m.numFailed := by
    rw [← Bool.not_eq_true, htest, Nat.not_lt]
  refine ⟨htest, hwithin.trans, fun σ μ c w hfault => ⟨fun hsplits v k n => ?_, fun t hget hkind => ?_⟩⟩
  · rw [← hrefused, ← hfault, Step.offerPartition_eq_nil_iff hsplits]
  · rw [← hrefused]
    simp [Step.applicable, hget, hkind, hfault]

/-- One of four nodes may fail, and single links are cut. -/
def guarded : Config := { Config.default with maxFailed := 1, partitionMode := .singleEdge }

/-- While all nodes are up, a cut is tried and found. -/
theorem single_edge_partition_offered_four : ∃ m' s',
    (healthy [⟨"node"⟩, ⟨"node"⟩, ⟨"node"⟩, ⟨"node"⟩] guarded).partition? ⟨fun _ => 0, 0⟩ =
      (some m', s') ∧ m'.cutLinks = [⟨⟨0⟩, ⟨1⟩⟩] ∧
      (healthy [⟨"node"⟩, ⟨"node"⟩, ⟨"node"⟩, ⟨"node"⟩] guarded).canPartition = true := by
  have hrun : ((healthy [⟨"node"⟩, ⟨"node"⟩, ⟨"node"⟩, ⟨"node"⟩] guarded).partition?
        ⟨fun _ => 0, 0⟩).1.map cutLinks = some [⟨⟨0⟩, ⟨1⟩⟩] ∧
      (healthy [⟨"node"⟩, ⟨"node"⟩, ⟨"node"⟩, ⟨"node"⟩] guarded).numFailed = 0 := by decide +kernel
  obtain ⟨hcut, hnone⟩ := hrun
  obtain ⟨m', hpartition, hlinks⟩ := Option.map_eq_some_iff.mp hcut
  obtain ⟨htest, -, -⟩ := single_edge_partition_offered rfl .refl (partition?_of_fst hpartition)
  refine ⟨m', _, partition?_of_fst hpartition, hlinks, htest.mpr ?_⟩
  rw [hnone]
  decide

/-- With the last of four nodes down no other may fail, and the quick test says no. But the others
stay connected without the link between the first two, so this cut succeeds. -/
theorem costless_cut_withheld : ∃ m m' s s',
    Reached [⟨"node"⟩, ⟨"node"⟩, ⟨"node"⟩, ⟨"node"⟩] guarded m ∧
      guarded.partitionMode = .singleEdge ∧ m.partition? s = (some m', s') ∧
      m'.failed = m.failed ∧ m.canPartition = false := by
  have hrun : ((healthy [⟨"node"⟩, ⟨"node"⟩, ⟨"node"⟩, ⟨"node"⟩] guarded).crash? ⟨3⟩).map (fun m =>
      ((m.partition? ⟨fun _ => 0, 0⟩).1.map failed, m.failed, m.canPartition)) =
        some (some [⟨3⟩], [⟨3⟩], false) := by decide +kernel
  obtain ⟨m, hcrash, hfacts⟩ := Option.map_eq_some_iff.mp hrun
  simp only [Prod.mk.injEq] at hfacts
  obtain ⟨hcut, hfailed, htest⟩ := hfacts
  obtain ⟨m', hpartition, hfailed'⟩ := Option.map_eq_some_iff.mp hcut
  exact ⟨m, m', _, _, .single (.harm (.crash hcrash)), rfl, partition?_of_fst hpartition,
    hfailed'.trans hfailed.symm, htest⟩

end FaultState

end Interleave
