/-
# No fault candidate is stale

A fault is offered at a message while its sender is up and the budget has room for
it. What can take that away later is a crash of the sender, which takes its
candidates with it, or another crash or partition, after which all candidates that
the budget no longer allows are pruned. A node that comes back and a network that
is joined again only give room: the budget is about the nodes that have failed,
and with the network in halves there are fewer of them then (`FaultState.Eases`). So no
task leaves a stale candidate (`Reaches.candidate_viable`). Where single links are cut
this is not so, since the largest component may be another one after a link is
restored.
-/
import Interleave.Proofs.Balance
import Interleave.Proofs.Candidates
import Interleave.Proofs.Silence

namespace Interleave

variable {σ μ : Type}

/-! ### Room for a fault -/

/-- A budget that allows some nodes to be down allows a part of them. -/
theorem Allowance.allows_of_subperm {b : Allowance} {failed failed' : List NodeId}
    (h : failed'.Subperm failed) (hallows : b.allows failed = true) : b.allows failed' = true := by
  simp only [allows, Bool.and_eq_true, decide_eq_true_eq, List.all_eq_true] at hallows ⊢
  refine ⟨h.length_le.trans hallows.1, fun limit hlimit => ?_⟩
  calc b.countOfRole limit.1 failed' ≤ b.countOfRole limit.1 failed := h.countP_le _
    _ ≤ limit.2 := hallows.2 limit hlimit

/-! ### Faults in force -/

namespace FaultState

variable {m m' : FaultState} {v : NodeId} {s s' : Source} {minority : List NodeId}
  {roles : List Role} {config : Config} {t : Task μ}

theorem mem_failed : v ∈ m.failed ↔ v ∈ m.crashed ∨ v ∈ m.cutOff := Ascending.mem_union

theorem isSome_crash?_iff : (m.crash? v).isSome = true ↔
    v.index < m.size ∧ v ∉ m.crashed ∧ m.budget.allows (Ascending.insert v m.failed) = true := by
  unfold crash?
  by_cases hout : m.size ≤ v.index
  · have hnot : ¬ v.index < m.size := by omega
    simp [hout, hnot]
  have hin : v.index < m.size := by omega
  by_cases hdown : v ∈ m.crashed
  · simp [isCrashed, hdown]
  · simp [isCrashed, hout, hin, hdown]

theorem canPartition_iff (hsplit : m.split = .halves minority) : m.canPartition = true ↔
    m.failed.length < m.budget.maxFailed ∧ minority = [] ∧ 2 ≤ m.size - m.crashed.length := by
  unfold canPartition numFailed
  rw [hsplit]
  simp only [Bool.and_eq_true, decide_eq_true_eq, List.isEmpty_iff]

theorem sorted_of_crash? (h : m.crash? v = some m') (hsorted : m.crashed.Pairwise (· < ·)) :
    m'.crashed.Pairwise (· < ·) := by
  unfold crash? at h
  split_ifs at h
  cases h
  exact Ascending.pairwise_insert hsorted

/-- Whether the faults in force allow a candidate to be executed. -/
def permits (m : FaultState) (t : Task μ) : Bool :=
  match t.kind with
  | .crash => (m.crash? t.owner).isSome
  | .partition => m.canPartition
  | _ => true

/-- Under the same budget fewer nodes have failed in `m'` than in `m`, in halves both. -/
structure Eases (m m' : FaultState) : Prop where
  budget : m'.budget = m.budget
  crashed : m'.crashed.Sublist m.crashed
  split : ∃ minority minority', m.split = .halves minority ∧ m'.split = .halves minority' ∧
    minority' ⊆ minority

namespace Eases

theorem size_eq (h : Eases m m') : m'.size = m.size := by rw [size, size, h.budget]

theorem failed (h : Eases m m') : m'.failed ⊆ m.failed := by
  intro u hu
  obtain ⟨minority, minority', hsplit, hsplit', hsubset⟩ := h.split
  rcases mem_failed.mp hu with hcrashed | hcut
  · exact mem_failed.mpr (.inl (h.crashed.subset hcrashed))
  · refine mem_failed.mpr (.inr ?_)
    rw [cutOff, hsplit'] at hcut
    rw [cutOff, hsplit]
    exact hsubset hcut

theorem crash? (h : Eases m m') (hsorted : m.crashed.Pairwise (· < ·))
    (hallowed : (m.crash? v).isSome = true) : (m'.crash? v).isSome = true := by
  obtain ⟨hin, hup, hallows⟩ := isSome_crash?_iff.mp hallowed
  have hsorted' : (Ascending.insert v m'.failed).Pairwise (· < ·) :=
    Ascending.pairwise_insert (Ascending.pairwise_union (hsorted.sublist h.crashed))
  have hsubset : Ascending.insert v m'.failed ⊆ Ascending.insert v m.failed := by
    intro u hu
    rcases Ascending.mem_insert.mp hu with rfl | hu
    · exact Ascending.mem_insert.mpr (.inl rfl)
    · exact Ascending.mem_insert.mpr (.inr (h.failed hu))
  refine isSome_crash?_iff.mpr ⟨h.size_eq ▸ hin, fun hdown => hup (h.crashed.subset hdown), ?_⟩
  rw [h.budget]
  exact Allowance.allows_of_subperm (Ascending.subperm_of_subset hsorted' hsubset) hallows

theorem canPartition (h : Eases m m') (hsorted : m.crashed.Pairwise (· < ·))
    (hallowed : m.canPartition = true) : m'.canPartition = true := by
  obtain ⟨minority, minority', hsplit, hsplit', hsubset⟩ := h.split
  obtain ⟨hroom, hwhole, hmany⟩ := (canPartition_iff hsplit).mp hallowed
  have hsorted' : m'.failed.Pairwise (· < ·) :=
    Ascending.pairwise_union (hsorted.sublist h.crashed)
  have hfailed : m'.failed.length ≤ m.failed.length :=
    (Ascending.subperm_of_subset hsorted' h.failed).length_le
  have hcrashed : m'.crashed.length ≤ m.crashed.length := h.crashed.length_le
  refine (canPartition_iff hsplit').mpr ⟨?_, ?_, ?_⟩
  · rw [h.budget]
    omega
  · subst hwhole
    exact List.subset_nil.mp hsubset
  · rw [h.size_eq]
    omega

/-- What is allowed stays so while there are fewer faults. -/
theorem permits (h : Eases m m') (hsorted : m.crashed.Pairwise (· < ·))
    (hallowed : m.permits t = true) : m'.permits t = true := by
  unfold FaultState.permits at *
  cases hkind : t.kind with
  | crash => rw [hkind] at hallowed; exact h.crash? hsorted hallowed
  | partition => rw [hkind] at hallowed; exact h.canPartition hsorted hallowed
  | _ => rfl

end Eases

theorem Sound.exists_halves (h : Sound roles config m) (hmode : config.partitionMode = .halves) :
    ∃ minority, m.split = .halves minority := by
  have hsplit := h.split
  cases hkind : m.split with
  | halves minority => exact ⟨minority, rfl⟩
  | links cut labels outside =>
    rw [hkind] at hsplit
    cases hmode.symm.trans hsplit.1

theorem eases_of_recover? (h : m.recover? v = some m') (hsplit : m.split = .halves minority) :
    Eases m m' := by
  obtain ⟨hbudget, hsame⟩ := frame_of_recover? h
  refine ⟨hbudget, ?_, minority, minority, hsplit, hsame.trans hsplit, fun _ hu => hu⟩
  rw [(crashed_of_recover? h).2]
  exact List.erase_sublist

theorem eases_of_heal? (h : m.heal? s = (some m', s')) (hsplit : m.split = .halves minority) :
    Eases m m' := by
  unfold heal? at h
  rw [hsplit] at h
  dsimp only at h
  split_ifs at h with hempty
  · cases h
  · cases h
    exact ⟨rfl, .refl _, minority, [], hsplit, rfl, List.nil_subset _⟩

/-- A candidate that is not stale: its node is up and, with the network in halves, the faults in
force allow it. -/
structure Suits (config : Config) (m : FaultState) (t : Task μ) : Prop where
  up : m.isCrashed t.owner = false
  allowed : config.partitionMode = .halves → m.permits t = true

/-- A candidate does not become stale while no node goes down and, in halves, fewer nodes fail. -/
theorem Suits.ease (h : Suits config m t) (hcrashed : m'.crashed ⊆ m.crashed)
    (hsorted : m.crashed.Pairwise (· < ·))
    (heases : config.partitionMode = .halves → Eases m m') : Suits config m' t := by
  refine ⟨?_, fun hmode => (heases hmode).permits hsorted (h.allowed hmode)⟩
  rw [Bool.eq_false_iff]
  intro hdown
  have hbefore : m.isCrashed t.owner = true := isCrashed_iff.mpr (hcrashed (isCrashed_iff.mp hdown))
  rw [h.up] at hbefore
  cases hbefore

end FaultState

namespace World

variable {c : Cluster σ μ} {w : World σ μ} {v : NodeId} {m : MessageId} {t : Task μ}

theorem applicable_eq (hw : w.Numbered) (ht : t ∈ w.pending.tasks) :
    Step.applicable w t.id = w.fault.permits t := by
  have hget := hw.get?_of_mem ht
  cases hkind : t.kind <;> simp [Step.applicable, FaultState.permits, hget, hkind]

/-- What is offered at a message is allowed at that time. -/
theorem Candidate.permits {k : Clock} (h : w.Candidate c v k t) : w.fault.permits t = true := by
  have hbody := h.body
  unfold offers at hbody
  unfold FaultState.permits
  rcases List.mem_append.mp hbody with hbody | hbody
  · split at hbody
    · rename_i hallowed
      have hkind : t.kind = .crash := by simp [Task.kind, List.mem_singleton.mp hbody]
      rw [hkind, h.owner]
      exact (Bool.and_eq_true_iff.mp hallowed).2
    · cases hbody
  · split at hbody
    · rename_i hallowed
      have hkind : t.kind = .partition := by simp [Task.kind, List.mem_singleton.mp hbody]
      rw [hkind]
      exact (Bool.and_eq_true_iff.mp hallowed).2
    · cases hbody

end World

/-! ### Candidates that are not stale -/

/-- No pending fault is stale, and a node that is down has no instance that could send. -/
structure Viable (c : Cluster σ μ) (w : World σ μ) : Prop where
  sound : w.fault.Sound c.registry.roles c.config
  sorted : w.fault.crashed.Pairwise (· < ·)
  vacant : ∀ u, w.fault.isCrashed u = true → w.instances[u.index]?.join = none
  tasks : ∀ t ∈ w.pending.tasks, t.kind.isFault = true → w.fault.Suits c.config t

namespace Viable

variable {c : Cluster σ μ} {v : NodeId} {w w' : World σ μ} {t : Task μ}

/-- The faults in force are the same, no fault is added, and no instance is put where a node is
down. -/
theorem less (h : Viable c w) (hfault : w'.fault = w.fault)
    (hinstances : ∀ u, w.fault.isCrashed u = true → w'.instances[u.index]? = w.instances[u.index]?)
    (htasks : ∀ t ∈ w'.pending.tasks, t.kind.isFault = true → t ∈ w.pending.tasks) : Viable c w' := by
  refine ⟨?_, ?_, fun u hu => ?_, fun t ht hkind => ?_⟩
  · rw [hfault]
    exact h.sound
  · rw [hfault]
    exact h.sorted
  · rw [hfault] at hu
    rw [hinstances u hu]
    exact h.vacant u hu
  · rw [hfault]
    exact h.tasks t (htasks t ht hkind) hkind

theorem congr (h : Viable c w) (hfault : w'.fault = w.fault) (hinstances : w'.instances = w.instances)
    (hpending : w'.pending = w.pending) : Viable c w' :=
  h.less hfault (fun _ _ => by rw [hinstances]) fun _ ht _ => hpending ▸ ht

theorem take (h : Viable c w) {id : TaskId} {pending : Pending μ}
    (htake : w.pending.take id = some (t, pending)) : Viable c { w with pending := pending } := by
  obtain ⟨-, rfl⟩ := Pending.take_eq_some_iff.mp htake
  exact h.less rfl (fun _ _ => rfl) fun u hu _ => (List.mem_filter.mp hu).1

theorem withdrawn (h : Viable c w) (m : MessageId) : Viable c (w.withdrawn m) :=
  h.less rfl (fun _ _ => rfl) fun _ hu _ => (w.withdrawn_sublist m).subset hu

theorem scheduled {body : Work μ} (h : Viable c w) (hw : w.Numbered) (hscheduled : Scheduled v body w w')
    (hcrash : ∀ m, body ≠ .crash m) (hpartition : ∀ m, body ≠ .partition m) : Viable c w' := by
  obtain ⟨k, k', next, -, -, -, rfl⟩ := hscheduled
  have hticked : (Step.ticked w v .work k').Numbered := hw.congr rfl rfl rfl
  refine h.less rfl (fun _ _ => rfl) fun t ht hkind => ?_
  rw [hticked.enqueued_tasks] at ht
  rcases List.mem_append.mp ht with ht | ht
  · exact ht
  · cases List.mem_singleton.mp ht
    cases body <;> simp_all [Task.kind, TaskKind.isFault]

theorem queued (h : Viable c w) (hw : w.Numbered) (hqueued : Queued c v w w') : Viable c w' := by
  obtain ⟨a, -, hqueued⟩ := hqueued
  split at hqueued
  · exact h.scheduled hw hqueued (by simp) (by simp)
  · exact hqueued ▸ h

theorem ended {result : Answer} {i : UInt64} (h : Viable c w) (ends : Ends v result i w w') :
    Viable c w' := by
  obtain ⟨a, rs, -, -, -, -, rfl⟩ := ends
  exact h.congr rfl rfl rfl

/-- What a node that is up asks for. -/
theorem request (h : Viable c w) (hw : w.Numbered) (hup : w.fault.isCrashed v = false)
    (hrequest : Request c v w w') : Viable c w' := by
  cases hrequest with
  | lose => exact h.congr rfl rfl rfl
  | @post w₁ k k' next nextTask ids message target known clock ticks number reached place offered =>
    obtain ⟨-, new, last, rfl, -, hnew⟩ := hw.of_posted place offered
    obtain ⟨candidates, hattached⟩ := World.attached_eq _ w.nextMessage ids
    rw [hattached]
    refine ⟨h.sound, h.sorted, h.vacant, fun t ht hkind => ?_⟩
    rcases List.mem_append.mp ht with ht | ht
    · exact h.tasks t ht hkind
    rcases List.mem_cons.mp ht with rfl | ht
    · cases hkind
    · have hoffer := hnew t ht
      exact ⟨hoffer.owner ▸ hup, fun _ => hoffer.permits⟩
  | note => exact h.congr rfl rfl rfl
  | conclude real ends queued => exact (h.ended ends).queued (hw.ended ends) queued
  | start => exact h.congr rfl rfl rfl
  | lend =>
    refine h.less rfl (fun u hu => ?_) fun _ ht _ => ht
    have hne : v.index ≠ u.index := fun heq => by
      rw [NodeId.index_inj.mp heq, hu] at hup
      cases hup
    exact List.getElem?_set_ne hne

theorem requests (h : Viable c w) (hw : w.Numbered) (hup : w.fault.isCrashed v = false)
    (hrequests : Requests c v w w') :
    Viable c w' ∧ w'.Numbered ∧ w'.fault.isCrashed v = false := by
  induction hrequests with
  | refl => exact ⟨h, hw, hup⟩
  | tail _ last ih =>
    obtain ⟨h₁, hw₁, hup₁⟩ := ih
    exact ⟨h₁.request hw₁ hup₁ last, hw₁.request last, last.fault_eq ▸ hup₁⟩

/-- After new faults the candidates that they leave no room for are pruned. -/
theorem pruned (hpinned : Pinned [] w) (hsound : w.fault.Sound c.registry.roles c.config)
    (hsorted : w.fault.crashed.Pairwise (· < ·))
    (hvacant : ∀ u, w.fault.isCrashed u = true → w.instances[u.index]?.join = none)
    (hup : ∀ t ∈ w.pending.tasks, t.kind.isFault = true → w.fault.isCrashed t.owner = false) :
    Viable c w.pruned := by
  refine ⟨hsound, hsorted, hvacant, fun t ht hkind => ?_⟩
  obtain ⟨m, hm⟩ := Task.isFault_iff.mp hkind
  obtain ⟨hmem, happlies⟩ := hpinned.applicable_of_pruned ht hm
  refine ⟨hup t hmem hkind, fun _ => ?_⟩
  show w.fault.permits t = true
  rw [← World.applicable_eq hpinned.numbered hmem]
  exact happlies

theorem crash {m : MessageId} {fault : FaultState} {w₁ : World σ μ} (h : Viable c w)
    (hpinned : Pinned [] w) (hcrash : w.fault.crash? v = some fault)
    (hstops : ((w.stricken v m fault).Idle v ∧ w₁ = (w.stricken v m fault).vacated v) ∨
      ∃ i, Ends v .crashed i ((w.stricken v m fault).vacated v) w₁)
    (hdue : if c.config.recovers then Scheduled v .recover w₁.pruned w' else w' = w₁.pruned) :
    Viable c w' := by
  have hstopped : Pinned [] w₁ := hpinned.stopped hstops
  obtain ⟨pending, candidates, hsub, hstricken⟩ := w.stricken_eq v m fault
  have hframe : w₁.fault = fault ∧ w₁.instances = w.instances.set v.index none ∧
      w₁.pending.tasks ⊆ w.pending.tasks.filter fun t => !Step.diesWith v m t := by
    rw [hstricken] at hstops
    rcases hstops with ⟨-, rfl⟩ | ⟨i, a, rs, -, -, -, -, rfl⟩
    · exact ⟨rfl, rfl, hsub.subset⟩
    · exact ⟨rfl, rfl, hsub.subset⟩
  obtain ⟨hfault₁, hinstances₁, hpending₁⟩ := hframe
  obtain ⟨-, -, hother⟩ := FaultState.isCrashed_of_crash? hcrash
  have hpruned : Viable c w₁.pruned := by
    refine pruned hstopped ?_ ?_ (fun u hu => ?_) fun t ht hkind => ?_
    · exact hfault₁ ▸ h.sound.crash hcrash
    · exact hfault₁ ▸ FaultState.sorted_of_crash? hcrash h.sorted
    · rw [hinstances₁]
      by_cases hvu : v = u
      · subst hvu
        by_cases hlt : v.index < w.instances.length <;> simp [hlt]
      · have hindex : v.index ≠ u.index := fun heq => hvu (NodeId.index_inj.mp heq)
        rw [hfault₁, hother u hvu] at hu
        rw [List.getElem?_set_ne hindex]
        exact h.vacant u hu
    · -- The faults of the node itself went down with it.
      obtain ⟨hmem, hstays⟩ := List.mem_filter.mp (hpending₁ ht)
      have hne : v ≠ t.owner := fun heq => by
        have hheal : t.kind ≠ .heal := fun hheal => by simp [hheal, TaskKind.isFault] at hkind
        simp [Step.diesWith, heq, hheal] at hstays
      rw [hfault₁, hother _ hne]
      exact (h.tasks t hmem hkind).up
  split at hdue
  · exact hpruned.scheduled hstopped.pruned.numbered hdue (by simp) (by simp)
  · exact hdue ▸ hpruned

theorem recover {fault : FaultState} {a : Agenda} {w₁ : World σ μ} (h : Viable c w) (hw : w.Numbered)
    (hrecover : w.fault.recover? v = some fault) (hhook : Requests c v (w.revived c v fault a) w₁)
    (hresumes : w' = w₁ ∨ Queued c v w₁ w') : Viable c w' := by
  obtain ⟨-, hup, hother⟩ := FaultState.isCrashed_of_recover? hrecover h.sound.crashed
  have hcrashed : fault.crashed.Sublist w.fault.crashed := by
    rw [(FaultState.crashed_of_recover? hrecover).2]
    exact List.erase_sublist
  have hrevived : Viable c (w.revived c v fault a) := by
    refine ⟨h.sound.recover hrecover, h.sorted.sublist hcrashed, fun u hu => ?_, fun t ht hkind => ?_⟩
    · have hvu : v ≠ u := fun heq => by
        subst heq
        exact absurd (hup.symm.trans hu) (by simp)
      have hindex : v.index ≠ u.index := fun heq => hvu (NodeId.index_inj.mp heq)
      have hdown : w.fault.isCrashed u = true := (hother u hvu).symm.trans hu
      show (w.instances.set v.index _)[u.index]?.join = none
      rw [List.getElem?_set_ne hindex]
      exact h.vacant u hdown
    · refine (h.tasks t ht hkind).ease hcrashed.subset h.sorted fun hmode => ?_
      obtain ⟨minority, hsplit⟩ := h.sound.exists_halves hmode
      exact FaultState.eases_of_recover? hrecover hsplit
  obtain ⟨hran, hw₁, -⟩ := hrevived.requests (hw.congr rfl rfl rfl) hup hhook
  rcases hresumes with rfl | hqueued
  · exact hran
  · exact hran.queued hw₁ hqueued

theorem split {fault : FaultState} {source : Source} (h : Viable c w) (hpinned : Pinned [] w)
    (hdrawn : w.fault.partition? w.source = (some fault, source))
    (hdue : if c.config.recovers then
        Scheduled v .heal ({ w with source := source, fault := fault : World σ μ }.recorded
          v (.partitioned fault.describe)).pruned w'
      else w' = ({ w with source := source, fault := fault : World σ μ }.recorded v
        (.partitioned fault.describe)).pruned) : Viable c w' := by
  have hcrashed : fault.crashed = w.fault.crashed := FaultState.crashed_of_partition? hdrawn
  have hsame : ∀ u, fault.isCrashed u = w.fault.isCrashed u := fun u => by
    rw [FaultState.isCrashed, hcrashed]
    rfl
  have hcut : Pinned [] ({ w with source := source, fault := fault : World σ μ }.recorded v
      (.partitioned fault.describe)) := hpinned.congr rfl rfl rfl rfl
  have hpruned : Viable c ({ w with source := source, fault := fault : World σ μ }.recorded v
      (.partitioned fault.describe)).pruned := by
    refine pruned hcut (h.sound.partition hdrawn).1 ?_ (fun u hu => ?_) fun t ht hkind => ?_
    · show fault.crashed.Pairwise (· < ·)
      rw [hcrashed]
      exact h.sorted
    · exact h.vacant u ((hsame u).symm.trans hu)
    · exact (hsame t.owner).trans (h.tasks t ht hkind).up
  split at hdue
  · exact hpruned.scheduled hcut.pruned.numbered hdue (by simp) (by simp)
  · exact hdue ▸ hpruned

theorem heal {fault : FaultState} {source : Source} (h : Viable c w)
    (hdrawn : w.fault.heal? w.source = (some fault, source)) :
    Viable c ({ w with source := source, fault := fault : World σ μ }.recorded v
      (.healed fault.describe)) := by
  have hcrashed : fault.crashed = w.fault.crashed := FaultState.crashed_of_heal? hdrawn
  refine ⟨(h.sound.heal hdrawn).1, ?_, fun u hu => ?_, fun t ht hkind => ?_⟩
  · show fault.crashed.Pairwise (· < ·)
    rw [hcrashed]
    exact h.sorted
  · refine h.vacant u ?_
    rw [FaultState.isCrashed, ← hcrashed]
    exact hu
  · refine (h.tasks t ht hkind).ease (fun u hu => hcrashed ▸ hu) h.sorted fun hmode => ?_
    obtain ⟨minority, hsplit⟩ := h.sound.exists_halves hmode
    exact FaultState.eases_of_heal? hdrawn hsplit

/-- No task leaves a stale candidate. -/
theorem shift {id : TaskId} {pending : Pending μ} (h : Viable c w) (hpinned : Pinned [] w)
    (htake : w.pending.take id = some (t, pending))
    (shift : Shift c t { w with pending := pending } w') : Viable c w' := by
  have htaken := h.take htake
  have hw : ({ w with pending := pending } : World σ μ).Numbered := (hpinned.numbered.of_take htake).2
  cases shift with
  | skip void => exact htaken
  | rouse body up woken => exact (htaken.requests hw up woken.requests).1
  | @begin i next operation a w₁ _ body up listed woken agenda number ran =>
    obtain ⟨hwoken, hw₁, hup₁⟩ := htaken.requests hw up woken.requests
    have hbegun : Viable c (w₁.begun t.owner a i next operation.text) := hwoken.congr rfl rfl rfl
    exact (hbegun.requests (hw₁.congr rfl rfl rfl) hup₁ ran).1
  | lose body doomed => exact (htaken.withdrawn _).congr rfl rfl rfl
  | balk body up reached woken =>
    exact ((htaken.withdrawn _).requests (hw.withdrawn _) up woken.requests).1
  | @receive sender message m k k' w₁ _ body up reached woken clock ticks ran =>
    obtain ⟨hwoken, hw₁, hup₁⟩ := (htaken.withdrawn m).requests (hw.withdrawn m) up woken.requests
    have harrived : Viable c (w₁.arrived c t.owner sender message m (k.join t.clock) k') :=
      hwoken.congr rfl rfl rfl
    exact (harrived.requests (hw₁.congr rfl rfl rfl) hup₁ ran).1
  | crash body allowed stops due =>
    have hfree : Pinned [] { w with pending := pending } :=
      (hpinned.take htake).shed (Task.kind_ne_receive (by simp [body]))
    exact htaken.crash hfree allowed stops due
  | recover body allowed agenda hook resumes => exact htaken.recover hw allowed hook resumes
  | split body drawn due =>
    have hfree : Pinned [] { w with pending := pending } :=
      (hpinned.take htake).shed (Task.kind_ne_receive (by simp [body]))
    exact htaken.split hfree drawn due
  | splitRefused body drawn => exact htaken.congr rfl rfl rfl
  | heal body drawn => exact htaken.heal drawn
  | healRefused body drawn => exact htaken.congr rfl rfl rfl

/-- A node that is told of the end has an instance, so it is up. -/
theorem adieu (h : Viable c w) (hw : w.Numbered) (adieu : Adieu c v w w') : Viable c w' := by
  have hup : ∀ {x : σ}, w.instances[v.index]? = some (some x) → w.fault.isCrashed v = false := by
    intro x hx
    rw [Bool.eq_false_iff]
    intro hdown
    have hnone := h.vacant v hdown
    rw [hx] at hnone
    cases hnone
  cases adieu with
  | absent none => exact h
  | cut present hook => exact (h.requests hw (hup present) hook).1
  | @told x w₁ _ present hook settles =>
    obtain ⟨htold, hw₁, hup₁⟩ := h.requests hw (hup present) hook
    have hclosed : Viable c (w₁.recorded v .closed) := htold.congr rfl rfl rfl
    exact (hclosed.requests (hw₁.congr rfl rfl rfl) hup₁ settles).1

theorem reset (w : World σ μ) : Viable c (w.reset c) := by
  refine ⟨FaultState.sound_healthy _ _, List.Pairwise.nil, fun u hu => (by cases hu), ?_⟩
  intro t ht hkind
  obtain ⟨i, -, rfl⟩ := List.mem_map.mp ht
  cases hkind

end Viable

theorem Reaches.viable {c : Cluster σ μ} {w : World σ μ} (hsize : c.size < UInt32.size)
    (hw : Reaches c Abort.Clean w) : Pinned [] w ∧ Viable c w :=
  hw.shifts (P := fun w => Pinned [] w ∧ Viable c w) (fun w => ⟨.reset hsize w, .reset w⟩)
    (fun htake shift h => ⟨h.1.shift htake shift, h.2.shift h.1 htake shift⟩)
    fun adieu h => ⟨h.1.adieu adieu, h.2.adieu h.1.numbered adieu⟩

/-- **No fault candidate is stale**, in any state reached by tasks and hooks in any order, as long
as no counter runs out: a pending fault is listed under its message, the delivery of that message
from the node of the fault is pending under a lower number, and the node is up. If the network is
split into halves, what the faults in force do not allow is never pending. -/
theorem Reaches.candidate_viable {c : Cluster σ μ} {w : World σ μ}
    (haccept : c.toSetup.accept = .ok ()) (hw : Reaches c Abort.Clean w) {t : Task μ}
    (ht : t ∈ w.pending.tasks) {m : MessageId} (hm : t.faultAt? = some m) :
    (∃ ids, Ascending.lookup m w.candidates = some ids ∧ t.id ∈ ids) ∧
      (∃ d ∈ w.pending.tasks, d.id < t.id ∧ ∃ message, d.body = .receive t.owner message m) ∧
      w.fault.isCrashed t.owner = false ∧
      (c.config.partitionMode = .halves →
        (t.kind = .crash → (w.fault.crash? t.owner).isSome = true) ∧
          (t.kind = .partition → w.fault.canPartition = true)) := by
  obtain ⟨hpinned, hviable⟩ := hw.viable (Setup.size_lt_of_accept haccept)
  have hpin := hpinned.pins t ht m hm
  have hsuits := hviable.tasks t ht (Task.isFault_iff.mpr ⟨m, hm⟩)
  refine ⟨hpin.listed, hpin.carried, hsuits.up, fun hmode => ?_⟩
  have hpermits := hsuits.allowed hmode
  unfold FaultState.permits at hpermits
  refine ⟨fun hkind => ?_, fun hkind => ?_⟩
  · rw [hkind] at hpermits
    exact hpermits
  · rw [hkind] at hpermits
    exact hpermits

/-- Three peers, each with one value to broadcast. The network may fall into halves and two of them
may fail at a time. -/
def Broadcast.trio : Cluster Broadcast.Peer String :=
  { Broadcast.pair with
    registry := ⟨[⟨peerRole, 3, fun _ _ => Broadcast.Peer.initial⟩]⟩
    scenario := ⟨[[.named "send" ["a"]], [.named "send" ["b"]], [.named "send" ["c"]]]⟩
    config := { Config.default.allowSplits .halves with maxFailed := 2, recovery := .all } }

/-- The first peer crashed. The faults still pending are those at the message of the second peer to
the third, and both can be injected. -/
theorem Reaches.candidate_viable_trio :
    let w := (Step.advances Broadcast.trio [⟨0⟩, ⟨1⟩, ⟨4⟩]
      ((World.new Broadcast.trio).reset Broadcast.trio)).2
    w.fault.crashed = [⟨0⟩] ∧
      (w.pending.tasks.filter (·.kind.isFault)).map (fun t => (t.id, t.owner, t.faultAt?)) =
        [(⟨13⟩, ⟨1⟩, some ⟨3⟩), (⟨14⟩, ⟨1⟩, some ⟨3⟩)] ∧
      (∃ ids, Ascending.lookup ⟨3⟩ w.candidates = some ids ∧ ⟨13⟩ ∈ ids) ∧
      (∃ d ∈ w.pending.tasks, d.id < ⟨14⟩ ∧ ∃ message, d.body = .receive ⟨1⟩ message ⟨3⟩) ∧
      w.fault.isCrashed ⟨1⟩ = false ∧ (w.fault.crash? ⟨1⟩).isSome = true ∧
      w.fault.canPartition = true := by
  intro w
  have hw : Reaches Broadcast.trio Abort.Clean w :=
    (Reaches.start (World.new Broadcast.trio)).advances (by decide +kernel)
  have hcrash : ∃ t ∈ w.pending.tasks,
      t.id = ⟨13⟩ ∧ t.owner = ⟨1⟩ ∧ t.kind = .crash ∧ t.faultAt? = some ⟨3⟩ := by decide +kernel
  have hpartition : ∃ t ∈ w.pending.tasks,
      t.id = ⟨14⟩ ∧ t.owner = ⟨1⟩ ∧ t.kind = .partition ∧ t.faultAt? = some ⟨3⟩ := by decide +kernel
  obtain ⟨t, ht, hid, howner, hkind, hat⟩ := hcrash
  obtain ⟨u, hu, hid', howner', hkind', hat'⟩ := hpartition
  obtain ⟨hlisted, -, hup, hallowed⟩ := hw.candidate_viable (by decide +kernel) ht hat
  obtain ⟨-, hcarried, -, hallowed'⟩ := hw.candidate_viable (by decide +kernel) hu hat'
  rw [hid] at hlisted
  rw [hid', howner'] at hcarried
  rw [howner] at hup
  have hroom := (hallowed rfl).1 hkind
  rw [howner] at hroom
  exact ⟨by decide +kernel, by decide +kernel, hlisted, hcarried, hup, hroom,
    (hallowed' rfl).2 hkind'⟩

end Interleave
