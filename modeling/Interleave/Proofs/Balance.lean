/-
# Every fault has its undoing

Where faults are to be undone, a crash leaves one task behind that brings the
node back, and a partition one that heals it. The tasks due are those pending,
the one being executed, and the one that a crash or a partition has still to
schedule (`tasksDue`). Counted together they match the faults in force after every
change (`Balanced.change`): a crash drops all other work of its node but neither
its own undoing nor a heal, and after a partition that is refused nothing is due.
So when no task is left, no fault is (`Reaches.faults_balanced`).
-/
import Interleave.Proofs.Splits

namespace Interleave

variable {σ μ : Type}

/-! ### Tasks that undo faults -/

/-- Work that brings node `u` back, at node `v`. -/
def revives (u v : NodeId) : Work μ → Bool
  | .recover => v = u
  | _ => false

/-- Work that heals a partition, wherever it is. -/
def joins (_ : NodeId) : Work μ → Bool
  | .heal => true
  | _ => false

/-- The work picked, by node, undoes faults. -/
def Mends (pick : NodeId → Work μ → Bool) : Prop :=
  ∀ v body, pick v body = true → body = .recover ∨ body = .heal

theorem mends_revives (u : NodeId) : Mends (revives u : NodeId → Work μ → Bool) := by
  intro v body h
  cases body with
  | recover => exact .inl rfl
  | _ => cases h

theorem mends_joins : Mends (joins : NodeId → Work μ → Bool) := by
  intro v body h
  cases body with
  | heal => exact .inr rfl
  | _ => cases h

/-- How many of the tasks are picked. -/
def tally (pick : NodeId → Work μ → Bool) (l : List (Task μ)) : Nat :=
  l.countP fun t => pick t.owner t.body

section

variable {pick : NodeId → Work μ → Bool} {l l' : List (Task μ)} {t : Task μ}

@[simp] theorem tally_nil : tally pick [] = 0 := rfl

theorem tally_cons : tally pick (t :: l) = (pick t.owner t.body).toNat + tally pick l := by
  unfold tally
  rw [List.countP_cons]
  cases pick t.owner t.body <;> simp [Nat.add_comm]

theorem tally_append : tally pick (l ++ l') = tally pick l + tally pick l' := List.countP_append

theorem tally_eq_zero (h : ∀ t ∈ l, pick t.owner t.body = false) : tally pick l = 0 :=
  List.countP_eq_zero.mpr fun t ht => by simp [h t ht]

/-- Removing tasks that are not picked does not change how many are. -/
theorem tally_filter {keep : Task μ → Bool}
    (h : ∀ t ∈ l, keep t = false → pick t.owner t.body = false) :
    tally pick (l.filter keep) = tally pick l := by
  unfold tally
  rw [List.countP_filter]
  refine List.countP_congr fun t ht => ?_
  cases hkeep : keep t with
  | true => simp
  | false => simp [h t ht hkeep]

theorem Mends.eq_false {v : NodeId} {body : Work μ} (hpick : Mends pick) (hrecover : body ≠ .recover)
    (hheal : body ≠ .heal) : pick v body = false := by
  rw [← Bool.not_eq_true]
  intro h
  rcases hpick v body h with rfl | rfl
  · exact hrecover rfl
  · exact hheal rfl

/-- Fault candidates undo nothing. -/
theorem Mends.eq_false_of_isFault (hpick : Mends pick) (h : t.kind.isFault = true) :
    pick t.owner t.body = false := by
  refine hpick.eq_false (fun hbody => ?_) fun hbody => ?_
  · simp [Task.kind, TaskKind.isFault, hbody] at h
  · simp [Task.kind, TaskKind.isFault, hbody] at h

end

/-! ### What a handler leaves alone -/

section

variable {c : Cluster σ μ} {pick : NodeId → Work μ → Bool} {v : NodeId} {w w' : World σ μ}

theorem Scheduled.tally_eq {body : Work μ} (hw : w.Numbered) (h : Scheduled v body w w') :
    tally pick w'.pending.tasks = tally pick w.pending.tasks + (pick v body).toNat := by
  obtain ⟨k, k', next, -, -, -, rfl⟩ := h
  have hticked : (Step.ticked w v .work k').Numbered := hw.congr rfl rfl rfl
  have htasks : (Step.ticked w v .work k').pending.tasks = w.pending.tasks := rfl
  rw [hticked.enqueued_tasks, tally_append, tally_cons, htasks]
  rfl

theorem Scheduled.fault_eq {body : Work μ} (h : Scheduled v body w w') : w'.fault = w.fault := by
  obtain ⟨k, k', next, -, -, -, rfl⟩ := h
  rfl

theorem Queued.tally_eq (hpick : Mends pick) (hw : w.Numbered) (h : Queued c v w w') :
    tally pick w'.pending.tasks = tally pick w.pending.tasks := by
  obtain ⟨a, -, hqueued⟩ := h
  split at hqueued
  · rw [hqueued.tally_eq hw, hpick.eq_false (by simp) (by simp)]
    rfl
  · rw [hqueued]

theorem Queued.fault_eq (h : Queued c v w w') : w'.fault = w.fault := by
  obtain ⟨a, -, hqueued⟩ := h
  split at hqueued
  · exact hqueued.fault_eq
  · rw [hqueued]

/-- Handlers do not concern themselves with faults. -/
theorem Request.tally_eq (hpick : Mends pick) (hw : w.Numbered) (h : Request c v w w') :
    tally pick w'.pending.tasks = tally pick w.pending.tasks := by
  cases h with
  | lose => rfl
  | @post w₁ k k' next nextTask ids message target known clock ticks number reached place offered =>
    obtain ⟨-, new, last, rfl, -, hnew⟩ := hw.of_posted place offered
    obtain ⟨candidates, hattached⟩ := World.attached_eq _ w.nextMessage ids
    have hnone : tally pick new = 0 :=
      tally_eq_zero fun t ht => hpick.eq_false_of_isFault (hnew t ht).isFault
    rw [hattached, tally_append, tally_cons, hnone, hpick.eq_false (by simp) (by simp)]
    rfl
  | note => rfl
  | conclude real ends queued => rw [queued.tally_eq hpick (hw.ended ends), ends.frame.1]
  | start => rfl
  | lend => rfl

/-- Removing fault candidates leaves the tasks that undo faults. -/
theorem tally_erased {ids : List TaskId} (hpick : Mends pick) (hw : w.Numbered)
    (hids : ∀ id ∈ ids, ∃ e ∈ w.candidates, id ∈ e.2) :
    tally pick (ids.foldl Pending.erase w.pending).tasks = tally pick w.pending.tasks := by
  rw [Pending.foldl_erase_tasks]
  refine tally_filter fun t ht hgone => ?_
  have hmem : t.id ∈ ids := by simpa using hgone
  obtain ⟨e, he, hid⟩ := hids t.id hmem
  exact hpick.eq_false_of_isFault ((hw.marked e he t.id hid).2 t ht rfl)

theorem tally_withdrawn (hpick : Mends pick) (hw : w.Numbered) (m : MessageId) :
    tally pick (w.withdrawn m).pending.tasks = tally pick w.pending.tasks :=
  tally_erased hpick hw fun _ hid => Ascending.exists_of_mem_lookup hid

theorem tally_pruned (hpick : Mends pick) (hw : w.Numbered) :
    tally pick w.pruned.pending.tasks = tally pick w.pending.tasks := by
  refine tally_erased hpick hw fun id hid => ?_
  obtain ⟨e, he, hid⟩ := List.mem_flatMap.mp (List.mem_filter.mp hid).1
  exact ⟨e, he, hid⟩

/-- Of the tasks that undo faults a crash drops those that would bring its node back, and no
other. -/
theorem tally_survivors {m : MessageId} (hpick : Mends pick) (hself : pick v .recover = false)
    (l : List (Task μ)) :
    tally pick (l.filter fun t => !Step.diesWith v m t) = tally pick l := by
  refine tally_filter fun t _ hdies => ?_
  rw [← Bool.not_eq_true]
  intro hpicked
  rcases hpick _ _ hpicked with hbody | hbody
  · have howner : t.owner ≠ v := fun heq => by
      rw [hbody, heq, hself] at hpicked
      cases hpicked
    simp [Step.diesWith, howner, Task.sender?, hbody] at hdies
  · simp [Step.diesWith, Task.kind, Task.sender?, hbody] at hdies

end

/-! ### Tasks due -/

/-- How many of the tasks picked are due from the task being executed. What goes down with a node is
due no more, but the node's return is. -/
def Hand.due (pick : NodeId → Work μ → Bool) (h : Hand μ) : Nat :=
  match h.duty with
  | .none => tally pick h.tasks
  | .fall v => (pick v .recover).toNat
  | .undo v body => (pick v body).toNat
  | .resume _ => 0

/-- How many of the tasks picked are due, pending or not. -/
def tasksDue (pick : NodeId → Work μ → Bool) (h : Hand μ) (w : World σ μ) : Nat :=
  h.due pick + tally pick w.pending.tasks

/-- The tasks due match the faults in force. -/
structure Balanced (c : Cluster σ μ) (h : Hand μ) (w : World σ μ) : Prop where
  sound : w.fault.Sound c.registry.roles c.config
  recoveries : ∀ v, tasksDue (revives v) h w = if w.fault.isCrashed v then 1 else 0
  heals : tasksDue joins h w = w.fault.cuts

namespace Balanced

variable {c : Cluster σ μ} {h h' : Hand μ} {w w' : World σ μ}

/-- Neither the faults nor the tasks due change. -/
theorem still (hb : Balanced c h w) (hfault : w'.fault = w.fault)
    (hdue : ∀ pick, Mends pick → tasksDue pick h' w' = tasksDue pick h w) : Balanced c h' w' where
  sound := hfault ▸ hb.sound
  recoveries v := by rw [hdue _ (mends_revives v), hfault, hb.recoveries]
  heals := by rw [hdue _ mends_joins, hfault, hb.heals]

/-- The hand stays, and the pending tasks that undo faults do. -/
theorem pending (hb : Balanced c h w) (hfault : w'.fault = w.fault)
    (htally : ∀ pick, Mends pick → tally pick w'.pending.tasks = tally pick w.pending.tasks) :
    Balanced c h w' :=
  hb.still hfault fun pick hpick => by rw [tasksDue, tasksDue, htally pick hpick]

/-- A task that undoes nothing leaves the hand. -/
theorem shed {t : Task μ} {ts : List (Task μ)} {d : Duty μ} (hb : Balanced c ⟨t :: ts, d⟩ w)
    (hrecover : t.body ≠ .recover) (hheal : t.body ≠ .heal) : Balanced c ⟨ts, d⟩ w := by
  refine hb.still rfl fun pick hpick => ?_
  cases d with
  | none =>
    show tally pick ts + _ = tally pick (t :: ts) + _
    rw [tally_cons, hpick.eq_false hrecover hheal]
    simp
  | _ => rfl

/-- A task is taken for execution. -/
theorem take (hb : Balanced c .free w) (hw : w.Numbered) {id : TaskId} {t : Task μ}
    {pending : Pending μ} (htake : w.pending.take id = some (t, pending)) :
    Balanced c (.of t) { w with pending := pending } := by
  refine hb.still rfl fun pick _ => ?_
  have hperm : tally pick w.pending.tasks = tally pick (t :: pending.tasks) :=
    (hw.of_take htake).1.countP_eq _
  calc tasksDue pick (.of t) { w with pending := pending }
      = (pick t.owner t.body).toNat + tally pick pending.tasks := by
        simp [tasksDue, Hand.due, Hand.of, tally_cons]
    _ = tasksDue pick .free w := by
        rw [← tally_cons, ← hperm]
        simp [tasksDue, Hand.due, Hand.free]

/-- A node goes down: its return is due, and no other task that undoes faults is dropped. -/
theorem crash {t : Task μ} {m : MessageId} {fault : FaultState} (hb : Balanced c (.of t) w)
    (hbody : t.body = .crash m) (hallowed : w.fault.crash? t.owner = some fault) :
    Balanced c ⟨w.pending.tasks.filter (Step.diesWith t.owner m), .fall t.owner⟩
      (w.struck t.owner fault (Step.diesWith t.owner m)) := by
  obtain ⟨hcrashed, hnot⟩ := FaultState.crashed_of_crash? hallowed
  have hb' := hb.shed (by simp [hbody]) (by simp [hbody])
  have hbefore : ∀ pick, tasksDue pick ⟨[], .none⟩ w = tally pick w.pending.tasks := fun pick => by
    simp [tasksDue, Hand.due]
  refine ⟨hb.sound.crash hallowed, fun u => ?_, ?_⟩
  · have hcount := hb'.recoveries u
    rw [hbefore] at hcount
    have hdown : (w.struck t.owner fault (Step.diesWith t.owner m)).fault.isCrashed u =
        decide (u = t.owner ∨ u ∈ w.fault.crashed) := by
      rw [Bool.eq_iff_iff, FaultState.isCrashed_iff, decide_eq_true_iff, ← List.mem_cons]
      exact hcrashed.mem_iff
    show (revives u t.owner (.recover : Work μ)).toNat +
      tally (revives u) (w.pending.tasks.filter fun t' => !Step.diesWith t.owner m t') = _
    rw [hdown]
    by_cases hu : t.owner = u
    · -- The node was up, so none of its returns was pending.
      subst hu
      have hup : w.fault.isCrashed t.owner = false := by
        rw [← Bool.not_eq_true, FaultState.isCrashed_iff]
        exact hnot
      rw [hup] at hcount
      have hzero : tally (revives t.owner)
          (w.pending.tasks.filter fun t' => !Step.diesWith t.owner m t') = 0 :=
        Nat.le_zero.mp (Nat.le_trans List.filter_sublist.countP_le (Nat.le_of_eq hcount))
      simp [hzero, revives]
    · rw [tally_survivors (mends_revives u) (by simp [revives, hu]), hcount]
      have hsame : (u = t.owner ∨ u ∈ w.fault.crashed) ↔ w.fault.isCrashed u = true := by
        rw [FaultState.isCrashed_iff]
        simp [Ne.symm hu]
      simp [revives, hu, hsame]
  · show (joins t.owner (.recover : Work μ)).toNat +
      tally joins (w.pending.tasks.filter fun t' => !Step.diesWith t.owner m t') = fault.cuts
    rw [tally_survivors mends_joins rfl, FaultState.cuts_congr (FaultState.frame_of_crash? hallowed).2,
      ← hb'.heals, hbefore]
    simp [joins]

/-- The undoing that was due is scheduled. -/
theorem undo {v : NodeId} {body : Work μ} (hb : Balanced c ⟨[], .undo v body⟩ w) (hw : w.Numbered)
    (does : Scheduled v body w w') : Balanced c .free w' := by
  refine hb.still does.fault_eq fun pick _ => ?_
  show 0 + tally pick w'.pending.tasks = (pick v body).toNat + tally pick w.pending.tasks
  rw [does.tally_eq hw]
  omega

/-- A node comes back, and its return is no longer due. -/
theorem recover {t : Task μ} {fault : FaultState} {a : Agenda} (hb : Balanced c (.of t) w)
    (hbody : t.body = .recover) (hallowed : w.fault.recover? t.owner = some fault) :
    Balanced c ⟨[], .resume t.owner⟩ (w.revived c t.owner fault a) := by
  obtain ⟨hdown, hcrashed⟩ := FaultState.crashed_of_recover? hallowed
  have hbefore : ∀ pick, tasksDue pick (.of t) w =
      (pick t.owner .recover).toNat + tally pick w.pending.tasks := fun pick => by
    simp [tasksDue, Hand.due, Hand.of, tally_cons, hbody]
  have hafter : ∀ pick, tasksDue pick ⟨[], .resume t.owner⟩ (w.revived c t.owner fault a) =
      tally pick w.pending.tasks := fun pick => Nat.zero_add _
  refine ⟨hb.sound.recover hallowed, fun u => ?_, ?_⟩
  · have hcount := hb.recoveries u
    rw [hbefore] at hcount
    have hstill : (w.revived c t.owner fault a).fault.isCrashed u =
        decide (u ≠ t.owner ∧ u ∈ w.fault.crashed) := by
      rw [Bool.eq_iff_iff, FaultState.isCrashed_iff, decide_eq_true_iff,
        ← hb.sound.crashed.mem_erase_iff, ← hcrashed]
      rfl
    rw [hafter, hstill]
    by_cases hu : t.owner = u
    · subst hu
      rw [FaultState.isCrashed_iff.mpr hdown] at hcount
      have hzero : tally (revives t.owner) w.pending.tasks = 0 := by
        simpa [revives] using hcount
      simp [hzero]
    · have hsame : (u ≠ t.owner ∧ u ∈ w.fault.crashed) ↔ w.fault.isCrashed u = true := by
        rw [FaultState.isCrashed_iff]
        simp [Ne.symm hu]
      simpa [revives, hu, hsame] using hcount
  · have hcount := hb.heals
    rw [hbefore] at hcount
    rw [hafter]
    show _ = fault.cuts
    rw [FaultState.cuts_congr (FaultState.frame_of_recover? hallowed).2, ← hcount]
    exact (Nat.zero_add _).symm

/-- The network is split, and a heal is due. -/
theorem split {t : Task μ} {m : MessageId} {fault : FaultState} {source : Source} {e : Event}
    (hb : Balanced c (.of t) w) (hbody : t.body = .partition m)
    (hdrawn : w.fault.partition? w.source = (some fault, source)) :
    Balanced c ⟨[], .undo t.owner .heal⟩
      ({ w with source := source, fault := fault : World σ μ }.recorded t.owner e) := by
  have hb' := hb.shed (by simp [hbody]) (by simp [hbody])
  obtain ⟨hsound, hcuts⟩ := hb.sound.partition hdrawn
  have hcrashed := FaultState.crashed_of_partition? hdrawn
  refine ⟨hsound, fun u => ?_, ?_⟩
  · have hcount := hb'.recoveries u
    have hsame : fault.isCrashed u = w.fault.isCrashed u := by
      rw [FaultState.isCrashed, hcrashed]
      rfl
    show 0 + _ = if fault.isCrashed u then 1 else 0
    rw [hsame]
    exact hcount
  · have hcount : 0 + tally joins w.pending.tasks = w.fault.cuts := hb'.heals
    show 1 + tally joins w.pending.tasks = fault.cuts
    omega

/-- A heal undoes one cut, and is no longer due. -/
theorem heal {t : Task μ} {fault : FaultState} {source : Source} {e : Event}
    (hb : Balanced c (.of t) w) (hbody : t.body = .heal)
    (hdrawn : w.fault.heal? w.source = (some fault, source)) :
    Balanced c .free
      ({ w with source := source, fault := fault : World σ μ }.recorded t.owner e) := by
  obtain ⟨hsound, hcuts⟩ := hb.sound.heal hdrawn
  have hcrashed := FaultState.crashed_of_heal? hdrawn
  have hbefore : ∀ pick, tasksDue pick (.of t) w =
      (pick t.owner .heal).toNat + tally pick w.pending.tasks := fun pick => by
    simp [tasksDue, Hand.due, Hand.of, tally_cons, hbody]
  refine ⟨hsound, fun u => ?_, ?_⟩
  · have hcount := hb.recoveries u
    have hsame : fault.isCrashed u = w.fault.isCrashed u := by
      rw [FaultState.isCrashed, hcrashed]
      rfl
    rw [hbefore] at hcount
    show 0 + _ = if fault.isCrashed u then 1 else 0
    rw [hsame]
    exact hcount
  · have hcount := hb.heals
    rw [hbefore] at hcount
    have hone : 1 + tally joins w.pending.tasks = w.fault.cuts := hcount
    show 0 + tally joins w.pending.tasks = fault.cuts
    omega

/-- A task that finds nothing to do was not due: it neither recovers nor heals. -/
theorem skip {t : Task μ} (hb : Balanced c (.of t) w) (hvoid : t.Void c w) : Balanced c .free w := by
  refine hb.shed (fun hbody => ?_) fun hbody => ?_
  · -- A pending return belongs to a node that is down, so it would have been carried out.
    have hcount := hb.recoveries t.owner
    have hstill : tasksDue (revives t.owner) (.of t) w ≠ 0 := by
      simp [tasksDue, Hand.due, Hand.of, tally_cons, hbody, revives]
    have hnone : w.fault.recover? t.owner = none := by simpa [Task.Void, hbody] using hvoid
    have hup : w.fault.isCrashed t.owner = false := by
      unfold FaultState.recover? at hnone
      split_ifs at hnone with hdown
      · simpa using hdown
    rw [hup] at hcount
    exact hstill hcount
  · simp [Task.Void, hbody] at hvoid

/-- A heal that is due finds something to heal. -/
theorem heal?_ne_none {t : Task μ} {source : Source} (hb : Balanced c (.of t) w)
    (hbody : t.body = .heal) : w.fault.heal? w.source ≠ (none, source) := by
  have hcuts : w.fault.cuts ≠ 0 := by
    rw [← hb.heals]
    simp [tasksDue, Hand.due, Hand.of, tally_cons, hbody, joins]
  obtain ⟨fault, source', hheal⟩ := hb.sound.exists_heal? hcuts w.source
  rw [hheal]
  simp

/-- Every change keeps tasks due and faults in balance. -/
theorem change (hrecovers : c.config.recovers = true) (hb : Balanced c h w) (hw : w.Numbered)
    (change : Change c h w h' w') : Balanced c h' w' := by
  cases change with
  | request _ does =>
    exact hb.pending does.fault_eq fun pick hpick => does.tally_eq hpick hw
  | prune => exact hb.pending rfl fun pick hpick => tally_pruned hpick hw
  | close => exact hb.pending rfl fun _ _ => rfl
  | withdraw => exact hb.pending rfl fun pick hpick => tally_withdrawn hpick hw _
  | lose body doomed =>
    exact (hb.shed (by simp [body]) (by simp [body])).pending rfl fun _ _ => rfl
  | receive body up reached clock ticks =>
    exact (hb.shed (by simp [body]) (by simp [body])).pending rfl fun _ _ => rfl
  | skip void => exact hb.skip void
  | discard => exact hb.still rfl fun _ _ => rfl
  | begin body up listed agenda number =>
    exact (hb.shed (by simp [body]) (by simp [body])).pending rfl fun _ _ => rfl
  | crash body allowed => exact hb.crash body allowed
  | fall stops =>
    rcases stops with ⟨-, rfl⟩ | ⟨i, ends⟩
    · exact hb.still rfl fun _ _ => rfl
    · refine hb.still ends.frame.2 fun pick _ => ?_
      rw [tasksDue, ends.frame.1]
      rfl
  | undo mends does =>
    rw [if_pos hrecovers] at does
    exact hb.undo hw does
  | recover body allowed agenda => exact hb.recover body allowed
  | resume agenda does =>
    have hfree : Balanced c .free w := hb.still rfl fun _ _ => rfl
    split at does
    · exact hfree.pending does.fault_eq fun pick hpick => does.tally_eq hpick hw
    · exact does ▸ hfree
  | split body drawn => exact hb.split body drawn
  | splitRefused body drawn =>
    exact (hb.shed (by simp [body]) (by simp [body])).pending rfl fun _ _ => rfl
  | heal body drawn => exact hb.heal body drawn
  | healRefused body drawn => exact absurd drawn (hb.heal?_ne_none body)

/-- At the start there is nothing to undo. -/
theorem reset (w : World σ μ) : Balanced c .free (w.reset c) := by
  have hnone : ∀ pick, Mends pick → tasksDue pick .free (w.reset c) = 0 := fun pick hpick => by
    refine (Nat.zero_add _).trans (tally_eq_zero fun t ht => ?_)
    obtain ⟨i, -, rfl⟩ := List.mem_map.mp ht
    exact hpick.eq_false (by simp [World.firstTask]) (by simp [World.firstTask])
  refine ⟨FaultState.sound_healthy _ _, fun v => ?_, ?_⟩
  · rw [hnone _ (mends_revives v)]
    rfl
  · rw [hnone _ mends_joins]
    exact (FaultState.cuts_healthy _ _).symm

end Balanced

variable {c : Cluster σ μ} {w : World σ μ}

/-- Tasks due and faults are in balance in every state reached without an abort. -/
theorem Reaches.balanced (hsize : c.size < UInt32.size) (hrecovers : c.config.recovers = true)
    (hw : Reaches c (fun _ => False) w) : Balanced c .free w := by
  refine (hw.keeps (P := fun h w => w.Numbered ∧ Balanced c h w) (fun _ h => h.elim) ?_ ?_ ?_ ?_).2
  · exact fun w => ⟨World.numbered_reset hsize w, .reset w⟩
  · rintro w id t pending htake ⟨hnumbered, hb⟩
    exact ⟨(hnumbered.of_take htake).2, hb.take hnumbered htake⟩
  · rintro h₁ w₁ h₂ w₂ change ⟨hnumbered, hb⟩
    exact ⟨hnumbered.change change, hb.change hrecovers hnumbered change⟩
  · exact fun h => h.elim

/-- Recoveries and heals balance the faults in every state reached from the start of an iteration by
tasks and hooks in any order, all of which succeed, where faults are to be undone: a node that is
down has exactly one recovery pending and any other node none, and there are as many heals pending
as splits in force. So when nothing is pending, nothing tells the faults from those at the start. -/
theorem Reaches.faults_balanced (haccept : c.toSetup.accept = .ok ())
    (hrecovery : c.config.recovery = .all) (hw : Reaches c (fun _ => False) w) :
    (∀ v, (w.pending.tasks.countP fun t => t.owner = v ∧ t.kind = .recover) =
      if w.fault.isCrashed v then 1 else 0) ∧
    (c.config.partitionMode = .halves →
      (w.pending.tasks.countP fun t => t.kind = .heal) = if w.fault.isSplit then 1 else 0) ∧
    (c.config.partitionMode = .singleEdge → ∃ cut labels outside,
      w.fault.split = .links cut labels outside ∧ cut.Nodup ∧
      (w.pending.tasks.countP fun t => t.kind = .heal) = cut.length) ∧
    (w.pending.isEmpty = true → w.fault = FaultState.healthy c.registry.roles c.config) := by
  have hb := hw.balanced (Setup.size_lt_of_accept haccept) (by simp [Config.recovers, hrecovery])
  have hfree : ∀ pick, tasksDue pick .free w = tally pick w.pending.tasks := fun _ => Nat.zero_add _
  have hrecoveries : ∀ v, (w.pending.tasks.countP fun t => t.owner = v ∧ t.kind = .recover) =
      if w.fault.isCrashed v then 1 else 0 := fun v => by
    rw [← hb.recoveries v, hfree, tally]
    refine List.countP_congr fun t _ => ?_
    cases hbody : t.body <;> simp [Task.kind, revives, hbody]
  have hheals : (w.pending.tasks.countP fun t => t.kind = .heal) = w.fault.cuts := by
    rw [← hb.heals, hfree, tally]
    refine List.countP_congr fun t _ => ?_
    cases hbody : t.body <;> simp [Task.kind, joins, hbody]
  have hsplit := hb.sound.split
  refine ⟨hrecoveries, fun hmode => ?_, fun hmode => ?_, fun hempty => ?_⟩
  · rw [hheals, FaultState.cuts, FaultState.isSplit]
    cases hkind : w.fault.split with
    | halves minority => cases minority <;> rfl
    | links cut labels outside =>
      rw [hkind, hmode] at hsplit
      cases hsplit.1
  · cases hkind : w.fault.split with
    | halves minority =>
      rw [hkind, hmode] at hsplit
      cases hsplit
    | links cut labels outside =>
      rw [hkind] at hsplit
      exact ⟨cut, labels, outside, rfl, hsplit.2.2.2.1, by rw [hheals, FaultState.cuts, hkind]⟩
  · have hnil : w.pending.tasks = [] := List.isEmpty_iff.mp hempty
    refine hb.sound.eq_healthy (List.eq_nil_iff_forall_not_mem.mpr fun v hv => ?_) ?_
    · have hone := hrecoveries v
      rw [hnil, FaultState.isCrashed_iff.mpr hv] at hone
      cases hone
    · rw [← hheals, hnil]
      rfl

/-- Two peers whose link may be cut and of which one may crash, until it is mended. -/
def Broadcast.torn : Cluster Broadcast.Peer String :=
  { Broadcast.pair with
    config := { Config.default.allowSplits .singleEdge with maxFailed := 1, recovery := .all } }

/-- The link is cut and the second peer crashes: one heal and one recovery are pending. Once both
are carried out there is no fault left. -/
theorem Reaches.faults_balanced_torn :
    let w := (Step.advances Broadcast.torn [⟨0⟩, ⟨1⟩, ⟨4⟩, ⟨6⟩]
      ((World.new Broadcast.torn).reset Broadcast.torn)).2
    let w' := (Step.advances Broadcast.torn [⟨0⟩, ⟨1⟩, ⟨4⟩, ⟨6⟩, ⟨9⟩, ⟨8⟩]
      ((World.new Broadcast.torn).reset Broadcast.torn)).2
    (w.fault.isCrashed ⟨1⟩ = true ∧
      (w.pending.tasks.countP fun t => t.owner = ⟨1⟩ ∧ t.kind = .recover) = 1) ∧
    (w.fault.split = .links [⟨⟨0⟩, ⟨1⟩⟩] [0, 1] [⟨1⟩] ∧
      (w.pending.tasks.countP fun t => t.kind = .heal) = 1) ∧
    w'.fault = FaultState.healthy [peerRole, peerRole] Broadcast.torn.config := by
  intro w w'
  have hw : Reaches Broadcast.torn (fun _ => False) w :=
    (Reaches.start (World.new Broadcast.torn)).advances (by decide +kernel)
  have hw' : Reaches Broadcast.torn (fun _ => False) w' :=
    (Reaches.start (World.new Broadcast.torn)).advances (by decide +kernel)
  have hdown : w.fault.isCrashed ⟨1⟩ = true := by decide +kernel
  obtain ⟨hrecoveries, -, hheals, -⟩ := hw.faults_balanced rfl rfl
  obtain ⟨-, -, -, hhealthy⟩ := hw'.faults_balanced rfl rfl
  obtain ⟨cut, labels, outside, hsplit, -, hcount⟩ := hheals rfl
  have hcut : w.fault.split = .links [⟨⟨0⟩, ⟨1⟩⟩] [0, 1] [⟨1⟩] := by decide +kernel
  cases hcut.symm.trans hsplit
  refine ⟨⟨hdown, ?_⟩, ⟨hcut, hcount⟩, hhealthy (by decide +kernel)⟩
  rw [hrecoveries, hdown]
  rfl

end Interleave
