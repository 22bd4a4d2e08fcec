/-
# What a crash does

A crash takes off its node's work, but for the heals that are due, and the deliveries
of all that the node sent from a message on. The deliveries among these are lost, one
by one, and with each of them go the faults that could be injected at its message.
Then the faults are pruned that leave no room in the budget any more, and a recovery
is scheduled where the settings ask for it.

So the tasks are thinned out three times, by three different tests. What is left in the
end is said here task by task: the list under a message holds faults at this message
only, and a message has one delivery, so a fault stays exactly if the delivery that it
is attached to does and the new faults allow it. What the node had sent from the
message on has no delivery any more, and a message without one is never received.

Key definitions: `Onward`, `Spent`, `World.Filed`, `Task.Outlives`, `World.Spares`, `Falls`,
`Halts`, `CrashEffect`.
Key theorems: `Spent.flow`, `Spent.lasting`, `Reaches.filed`, `World.mem_foldl_forfeited`,
`Pinned.mem_pruned`, `Pinned.attached_iff`, `Step.falls_or_overflow`, `Falls.exists_pending`,
`Falls.unheard`, `Reaches.crash_effect`.
-/
import Interleave.Proofs.Overflow
import Interleave.Proofs.Synchrony
import Interleave.Proofs.Viable

namespace Interleave

variable {σ μ : Type} {c : Cluster σ μ} {h h' : Hand μ} {w w' : World σ μ}

/-! ### What comes after a state -/

/-- The states that come after `w` by executing pending tasks and telling nodes that the scenario is
over, in any order. Each of them succeeds or ends in an abort that is spared. -/
inductive Onward (c : Cluster σ μ) (spared : Abort → Prop) (w : World σ μ) : World σ μ → Prop
  | refl : Onward c spared w w
  | task {w₁ w₂ : World σ μ} {r : Except Abort (Task μ)} (id : TaskId)
      (before : Onward c spared w w₁) (run : Step.advance c id w₁ = (r, w₂))
      (spares : ∀ e, r = .error e → spared e) : Onward c spared w w₂
  | farewell {w₁ w₂ : World σ μ} {r : Except Abort Unit} (v : NodeId)
      (before : Onward c spared w w₁) (run : Step.farewell c v w₁ = (r, w₂))
      (spares : ∀ e, r = .error e → spared e) : Onward c spared w w₂

theorem Lasting.onward {spared : Abort → Prop} {P : Hand μ → World σ μ → Prop}
    (lasting : Lasting c spared P) (hw : P .free w) (onward : Onward c spared w w') : P .free w' := by
  induction onward with
  | refl => exact hw
  | task id before run spares ih => exact lasting.advance run spares ih
  | farewell v before run spares ih => exact lasting.farewell run spares ih

/-! ### Messages without a delivery -/

/-- Message `k` was sent and has no delivery, and since `log` was the log it was not received. -/
structure Spent (log : List Occurrence) (k : MessageId) (h : Hand μ) (w : World σ μ) : Prop where
  sent : k < w.nextMessage
  gone : inflight h w k = []
  unheard : ∃ new, w.events = log ++ new ∧
    ∀ o ∈ new, ∀ sender text, o.event ≠ .received k sender text

/-- With no delivery in the hand or pending there is none pending. -/
theorem inflight_free_eq_nil {k : MessageId} (hgone : inflight h w k = []) :
    inflight .free w k = [] := by
  unfold inflight at hgone ⊢
  rw [List.filter_append] at hgone
  exact (List.append_eq_nil_iff.mp hgone).2

namespace Spent

variable {log : List Occurrence} {k : MessageId}

theorem of_gone (hsent : k < w.nextMessage) (hgone : inflight h w k = []) :
    Spent w.events k h w := ⟨hsent, hgone, [], by simp, by simp⟩

/-- The log grows by events that are no receipts of the message. -/
theorem grow (hk : Spent log k h w) {new : List Occurrence} (hlog : w'.events = w.events ++ new)
    (hnew : ∀ o ∈ new, ∀ sender text, o.event ≠ .received k sender text)
    (hsent : k < w'.nextMessage) (hgone : inflight h' w' k = []) : Spent log k h' w' := by
  obtain ⟨old, hevents, hold⟩ := hk.unheard
  refine ⟨hsent, hgone, old ++ new, by rw [hlog, hevents, List.append_assoc], fun o ho => ?_⟩
  exact (List.mem_append.mp ho).elim (hold o) (hnew o)

theorem flow (hk : Spent log k h w) (flow : Flow c h w h' w') : Spent log k h' w' := by
  have hsame : ∀ {h₁ : Hand μ} {w₁ : World σ μ},
      (deliveries h₁.tasks ++ deliveries w₁.pending.tasks).Perm
        (deliveries h.tasks ++ deliveries w.pending.tasks) → inflight h₁ w₁ k = [] := fun hperm =>
    List.perm_nil.mp (hk.gone ▸ hperm.filter (Task.delivers k))
  have hquiet : ∀ {new : List Occurrence}, (∀ o ∈ new, o.event.message? = none) →
      ∀ o ∈ new, ∀ sender text, o.event ≠ .received k sender text := by
    intro new hnew o ho sender text heq
    have hnone := hnew o ho
    rw [heq] at hnone
    cases hnone
  cases flow with
  | still number log hand duty pending =>
    obtain ⟨new, hlog, hnew⟩ := log
    exact hk.grow hlog (hquiet hnew) (number ▸ hk.sent) (hsame (by rw [hand, pending]))
  | crash v number log empty duty moved rest =>
    obtain ⟨new, hlog, hnew⟩ := log
    refine hk.grow hlog (hquiet hnew) (number ▸ hk.sent) (hsame ?_)
    rw [empty]
    exact moved
  | refuse sender target message number log hand pending =>
    refine hk.grow log (by simp) ((MessageId.lt_iff_of_next? number).mpr (.inl hk.sent)) (hsame ?_)
    rw [hand, pending]
  | post t sender message id body number log hand pending =>
    refine hk.grow log (by simp) ((MessageId.lt_iff_of_next? number).mpr (.inl hk.sent)) ?_
    have hother : k ≠ w.nextMessage := fun heq => Nat.lt_irrefl _ (heq ▸ hk.sent)
    have hgone := hk.gone
    unfold inflight at hgone ⊢
    rw [hand, pending, ← List.append_assoc, List.filter_append, hgone]
    simp [t.delivers_of_body body, hother]
  | lose t sender message m body number log hand duty pending =>
    refine hk.grow log (by simp) (number ▸ hk.sent) ?_
    have hgone := hk.gone
    unfold inflight at hgone ⊢
    rw [hand, List.cons_append, List.filter_cons] at hgone
    rw [pending]
    split at hgone
    · cases hgone
    · exact hgone
  | receive t sender message m body number log before after pending =>
    -- What is received was in the hand, so it is another message.
    have hother : k ≠ m := fun heq => by
      have hgone := hk.gone
      unfold inflight at hgone
      rw [before, Hand.of, deliveries_cons (Task.kind_of_receive body), List.cons_append,
        List.filter_cons_of_pos (by simp [t.delivers_of_body body, heq])] at hgone
      cases hgone
    have hfree : inflight h' w' k = [] := by
      rw [after, inflight, pending]
      exact inflight_free_eq_nil hk.gone
    refine hk.grow log ?_ (number ▸ hk.sent) hfree
    simp only [List.mem_singleton, forall_eq]
    intro sender' text heq
    cases heq
    exact hother rfl

/-- A message without a delivery stays so, whatever is executed. -/
theorem lasting (log : List Occurrence) (k : MessageId) :
    Lasting c Abort.Clean fun h w => w.Numbered ∧ Spent log k h w where
  clean _ he := he
  take := by
    rintro w id t pending htake ⟨hnumbered, hk⟩
    obtain ⟨hperm, hrest⟩ := hnumbered.of_take htake
    refine ⟨hrest, hk.sent, List.perm_nil.mp ?_, hk.unheard⟩
    have hsame := (hperm.symm.filter fun t => t.kind = .receive).filter (Task.delivers k)
    unfold inflight
    rw [← deliveries_append]
    exact hsame.trans (List.Perm.of_eq hk.gone)
  change := by
    rintro h₁ w₁ h₂ w₂ change ⟨hnumbered, hk⟩
    exact ⟨hnumbered.change change, hk.flow (change.flow hnumbered)⟩
  drop := by
    rintro e h w - - ⟨hnumbered, hk⟩
    exact ⟨hnumbered, hk.sent, inflight_free_eq_nil hk.gone, hk.unheard⟩

end Spent

/-! ### Faults under their messages -/

/-- What is listed under a message and pending is a fault at this message. -/
def World.Filed (w : World σ μ) : Prop :=
  ∀ e ∈ w.candidates, ∀ id ∈ e.2, ∀ t ∈ w.pending.tasks, t.id = id → t.faultAt? = some e.1

namespace World.Filed

/-- Tasks may go, and lists may be cut down. -/
theorem less (hw : w.Filed) (hpending : w'.pending.tasks ⊆ w.pending.tasks)
    (hcandidates : ∀ e ∈ w'.candidates, ∃ e₀ ∈ w.candidates, e₀.1 = e.1 ∧ e.2 ⊆ e₀.2) :
    w'.Filed := by
  intro e he id hid t ht heq
  obtain ⟨e₀, he₀, hkey, hids⟩ := hcandidates e he
  rw [← hkey]
  exact hw e₀ he₀ id (hids hid) t (hpending ht) heq

theorem congr (hw : w.Filed) (hpending : w'.pending = w.pending)
    (hcandidates : w'.candidates = w.candidates) : w'.Filed :=
  hw.less (by rw [hpending]; exact List.Subset.refl _) fun e he =>
    ⟨e, hcandidates ▸ he, rfl, List.Subset.refl _⟩

/-- New tasks have numbers that no list has. -/
theorem more {new : List (Task μ)} (hw : w.Filed) (hnumbered : w.Numbered)
    (hpending : w'.pending.tasks = w.pending.tasks ++ new)
    (hnew : ∀ t ∈ new, ¬ t.id < w.nextTask) (hcandidates : w'.candidates = w.candidates) :
    w'.Filed := by
  intro e he id hid t ht heq
  rw [hcandidates] at he
  rw [hpending] at ht
  rcases List.mem_append.mp ht with ht | ht
  · exact hw e he id hid t ht heq
  · exact absurd (heq ▸ (hnumbered.marked e he id hid).1) (hnew t ht)

theorem scheduled {v : NodeId} {body : Work μ} (hw : w.Filed) (hnumbered : w.Numbered)
    (hs : Scheduled v body w w') : w'.Filed := by
  obtain ⟨k, k', next, -, -, -, rfl⟩ := hs
  have hticked : (Step.ticked w v .work k').Numbered := hnumbered.congr rfl rfl rfl
  refine hw.more hnumbered (hticked.enqueued_tasks v k' body next) (fun t ht => ?_) rfl
  cases List.mem_singleton.mp ht
  exact Nat.lt_irrefl _

theorem queued {v : NodeId} (hw : w.Filed) (hnumbered : w.Numbered) (hq : Queued c v w w') :
    w'.Filed := by
  obtain ⟨a, -, hq⟩ := hq
  split at hq
  · exact hw.scheduled hnumbered hq
  · exact hq ▸ hw

theorem ended {v : NodeId} {result : Answer} {i : UInt64} (hw : w.Filed)
    (ends : Ends v result i w w') : w'.Filed := by
  obtain ⟨a, rs, -, -, -, -, rfl⟩ := ends
  exact hw.congr rfl rfl

theorem request {v : NodeId} (hw : w.Filed) (hnumbered : w.Numbered) (does : Request c v w w') :
    w'.Filed := by
  have hw' := hnumbered.request does
  cases does with
  | @post w₁ k k' next nextTask ids message target known clock ticks number reached place offered =>
    obtain ⟨-, new, last, heq, hids, hnew⟩ := hnumbered.of_posted place offered
    obtain ⟨candidates, hattached⟩ := World.attached_eq w₁ w.nextMessage ids
    have hpending : (w₁.attached w.nextMessage ids).pending.tasks = w.pending.tasks ++
        ⟨w.nextTask, target, k', .receive v message w.nextMessage⟩ :: new := by
      rw [hattached, heq]
    -- The numbers of what is added start with the next one.
    have hfresh : ∀ t ∈ ⟨w.nextTask, target, k', .receive v message w.nextMessage⟩ :: new,
        ¬ t.id < w.nextTask := by
      have hsorted := hw'.sorted
      rw [hpending] at hsorted
      intro t ht
      rcases List.mem_cons.mp ht with rfl | ht
      · exact Nat.lt_irrefl _
      · exact Nat.lt_asymm
          ((List.pairwise_cons.mp (List.pairwise_append.mp hsorted).2.1).1 t ht)
    have hposted : w₁.Filed := by
      refine hw.more hnumbered ?_ hfresh (by rw [heq]; rfl)
      rw [heq]
    intro e he id hid t ht hid'
    have hold : e ∈ w₁.candidates → t.faultAt? = some e.1 := fun he => by
      refine hposted e he id hid t ?_ hid'
      rw [heq]
      exact hpending ▸ ht
    unfold World.attached at he
    split at he
    · exact hold he
    · rcases Ascending.mem_of_mem_put he with rfl | he
      · obtain ⟨u, hu, rfl⟩ := List.mem_map.mp (hids ▸ hid)
        have hmem : u ∈ (w₁.attached w.nextMessage ids).pending.tasks := by
          rw [hpending]
          simp [hu]
        rw [hw'.eq_of_id_eq ht hmem hid']
        exact World.faultAt?_of_offers (hnew u hu).body
      · exact hold he
  | conclude real ends queued => exact (hw.ended ends).queued (hnumbered.ended ends) queued
  | lose | note | start | lend => exact hw.congr rfl rfl

theorem change (hw : w.Filed) (hnumbered : w.Numbered) (change : Change c h w h' w') : w'.Filed := by
  cases change with
  | request _ does => exact hw.request hnumbered does
  | prune =>
    refine hw.less w.pruned_sublist.subset fun e he => ?_
    obtain ⟨e₀, he₀, rfl⟩ := List.mem_map.mp (List.mem_filter.mp he).1
    exact ⟨e₀, he₀, rfl, List.filter_sublist.subset⟩
  | withdraw =>
    refine hw.less (w.withdrawn_sublist _).subset fun e he => ?_
    exact ⟨e, (List.mem_filter.mp he).1, rfl, List.Subset.refl _⟩
  | crash =>
    exact hw.less List.filter_sublist.subset fun e he => ⟨e, he, rfl, List.Subset.refl _⟩
  | fall stops =>
    rename_i v
    have hvacated : (w.vacated v).Filed := hw.congr rfl rfl
    rcases stops with ⟨-, rfl⟩ | ⟨i, ends⟩
    · exact hvacated
    · exact hvacated.ended ends
  | undo _ does =>
    split at does
    · exact hw.scheduled hnumbered does
    · exact does ▸ hw
  | resume _ does =>
    split at does
    · exact hw.queued hnumbered does
    · exact does ▸ hw
  | _ => exact hw.congr rfl rfl

end World.Filed

/-- Wherever no counter ran out, all lists hold faults at their own message only. -/
theorem Reaches.filed (hsize : c.size < UInt32.size) (hw : Reaches c Abort.Clean w) : w.Filed := by
  refine (hw.keeps (P := fun _ w => w.Numbered ∧ w.Filed) (fun _ he => he) ?_ ?_ ?_ ?_).2
  · exact fun w => ⟨World.numbered_reset hsize w, fun e he => by cases he⟩
  · rintro w id t pending htake ⟨hnumbered, hfiled⟩
    obtain ⟨hperm, hrest⟩ := hnumbered.of_take htake
    refine ⟨hrest, hfiled.less (fun u hu => ?_) fun e he => ⟨e, he, rfl, List.Subset.refl _⟩⟩
    exact hperm.symm.subset (List.mem_cons_of_mem _ hu)
  · rintro h₁ w₁ h₂ w₂ change ⟨hnumbered, hfiled⟩
    exact ⟨hnumbered.change change, hfiled.change hnumbered change⟩
  · exact fun _ _ hP => hP

/-! ### What goes down with a node -/

/-- A crash of node `p` at message `m` leaves the task alone: it is not the node's own, unless it is
a heal, and it delivers nothing that the node sent from that message on. -/
def Task.Outlives (p : NodeId) (m : MessageId) (t : Task μ) : Prop :=
  (t.owner = p → t.kind = .heal) ∧ ∀ message k, t.body = .receive p message k → ¬ m ≤ k

theorem Task.outlives_iff {p : NodeId} {m : MessageId} {t : Task μ} :
    t.Outlives p m ↔ Step.diesWith p m t = false := by
  unfold Outlives Step.diesWith
  cases hbody : t.body with
  | receive sender message k =>
    by_cases howner : t.owner = p <;> by_cases hsender : sender = p <;>
      simp [Task.kind, Task.sender?, Task.message?, hbody, howner, hsender]
  | _ => by_cases howner : t.owner = p <;> simp [Task.kind, Task.sender?, hbody, howner]

theorem filterMap_loss?_deliveries (ts : List (Task μ)) :
    (deliveries ts).filterMap Task.loss? = ts.filterMap Task.loss? := by
  induction ts with
  | nil => rfl
  | cons t ts ih =>
    by_cases hkind : t.kind = .receive
    · rw [deliveries_cons hkind, List.filterMap_cons, List.filterMap_cons, ih]
    · have hnone : t.loss? = none := by
        unfold Task.loss?
        split
        · rename_i hbody
          exact absurd (Task.kind_of_receive hbody) hkind
        · rfl
      rw [deliveries_cons_of_ne hkind, ih, List.filterMap_cons_none hnone]

namespace World

theorem mem_withdrawn {k : MessageId} {u : Task μ} : u ∈ (w.withdrawn k).pending.tasks ↔
    u ∈ w.pending.tasks ∧ u.id ∉ (Ascending.lookup k w.candidates).getD [] := by
  rw [withdrawn, Pending.foldl_erase_tasks]
  simp

/-- With a delivery goes what is listed under its message. -/
theorem mem_foldl_forfeited {ts : List (Task μ)} {u : Task μ} :
    u ∈ (ts.foldl forfeited w).pending.tasks ↔ u ∈ w.pending.tasks ∧ ∀ d ∈ ts, ∀ k,
      d.delivers k = true → u.id ∉ (Ascending.lookup k w.candidates).getD [] := by
  induction ts generalizing w with
  | nil => simp
  | cons t ts ih =>
    rw [List.foldl_cons, ih, List.forall_mem_cons]
    unfold forfeited
    split
    · rename_i sender message m hbody
      have hfirst : (∀ k, t.delivers k = true → u.id ∉ (Ascending.lookup k w.candidates).getD []) ↔
          u.id ∉ (Ascending.lookup m w.candidates).getD [] := by
        simp [t.delivers_of_body hbody]
      rw [hfirst, ← and_assoc]
      refine (and_congr_left' mem_withdrawn).trans (and_congr_right fun hkept => ?_)
      -- The list under the message itself is gone, the others are as before.
      refine forall₂_congr fun d hd => forall₂_congr fun k hk => ?_
      by_cases hkm : k = m
      · subst hkm
        refine iff_of_true ?_ hkept.2
        simp [recorded, withdrawn, Ascending.lookup_drop_self]
      · have hsame : Ascending.lookup k ((w.withdrawn m).recorded sender
            (.lost m t.owner)).candidates = Ascending.lookup k w.candidates :=
          Ascending.lookup_drop_of_ne hkm _
        rw [hsame]
    · rename_i hother
      have hnone : ∀ k, t.delivers k ≠ true := fun k hk => by
        unfold Task.delivers at hk
        split at hk
        · rename_i hbody
          exact hother _ _ _ hbody
        · cases hk
      simp [hnone]

theorem mem_stricken {v : NodeId} {m : MessageId} {fault : FaultState} {u : Task μ} :
    u ∈ (w.stricken v m fault).pending.tasks ↔ u ∈ w.pending.tasks ∧ u.Outlives v m ∧
      ∀ d ∈ w.pending.tasks.filter (Step.diesWith v m), ∀ k, d.delivers k = true →
        u.id ∉ (Ascending.lookup k w.candidates).getD [] := by
  have hstruck : u ∈ (w.struck v fault (Step.diesWith v m)).pending.tasks ↔
      u ∈ w.pending.tasks ∧ u.Outlives v m := by
    rw [Task.outlives_iff]
    exact List.mem_filter.trans (and_congr_right fun _ => by simp)
  rw [stricken, mem_foldl_forfeited, hstruck, and_assoc]
  rfl

end World

/-- What is left after pruning: all that is no fault, and the faults that may still be injected. -/
theorem Pinned.mem_pruned {u : Task μ} (hpinned : Pinned [] w) :
    u ∈ w.pruned.pending.tasks ↔
      u ∈ w.pending.tasks ∧ ∀ k, u.faultAt? = some k → w.fault.permits u = true := by
  constructor
  · intro hu
    have hmem : u ∈ w.pending.tasks := w.pruned_sublist.subset hu
    refine ⟨hmem, fun k hk => ?_⟩
    rw [← World.applicable_eq hpinned.numbered hmem]
    exact (hpinned.applicable_of_pruned hu hk).2
  · rintro ⟨hu, hpermits⟩
    rw [World.pruned, Pending.foldl_erase_tasks]
    refine List.mem_filter.mpr ⟨hu, ?_⟩
    -- Only faults are listed, and this one is applicable.
    simp only [decide_not, Bool.not_eq_true', decide_eq_false_iff_not]
    intro hstale
    obtain ⟨hlisted, hnot⟩ := List.mem_filter.mp hstale
    obtain ⟨e, he, hid⟩ := List.mem_flatMap.mp hlisted
    have hfault := (hpinned.numbered.marked e he u.id hid).2 u hu rfl
    obtain ⟨k, hk⟩ := Task.isFault_iff.mp hfault
    rw [World.applicable_eq hpinned.numbered hu, hpermits k hk] at hnot
    cases hnot

theorem Task.exists_body_of_delivers {t : Task μ} {k : MessageId} (hk : t.delivers k = true) :
    ∃ sender message, t.body = .receive sender message k := by
  unfold delivers at hk
  split at hk
  · rename_i sender message m hbody
    exact ⟨sender, message, of_decide_eq_true hk ▸ hbody⟩
  · cases hk

/-- A message has one delivery at most. -/
theorem Dated.eq_of_delivers {d d' : Task μ} {k : MessageId} (hw : Dated w)
    (hd : d ∈ w.pending.tasks) (hd' : d' ∈ w.pending.tasks) (hk : d.delivers k = true)
    (hk' : d'.delivers k = true) : d = d' := by
  have hmail : ∀ {t : Task μ}, t ∈ w.pending.tasks → t.delivers k = true →
      t ∈ deliveries w.pending.tasks ∧ t.message? = some k := fun ht hk => by
    obtain ⟨sender, message, hbody⟩ := Task.exists_body_of_delivers hk
    exact ⟨List.mem_filter.mpr ⟨ht, by simp [Task.kind_of_receive hbody]⟩, by
      simp [Task.message?, hbody]⟩
  have hapart : (deliveries w.pending.tasks).Pairwise fun t u =>
      ¬ (t.message? = some k ∧ u.message? = some k) :=
    (List.pairwise_filterMap.mp hw.sorted).imp (by
      rintro t u hlt ⟨ht, hu⟩
      exact Nat.lt_irrefl _ (hlt k ht k hu))
  have hsymm : Std.Symm fun t u : Task μ => ¬ (t.message? = some k ∧ u.message? = some k) :=
    ⟨fun t u hnot hboth => hnot hboth.symm⟩
  by_contra hne
  exact hapart.forall (hmail hd hk).1 (hmail hd' hk').1 hne ⟨(hmail hd hk).2, (hmail hd' hk').2⟩

/-- What a crash of node `p` at message `m` leaves of the pending tasks of `w`: they outlive it, and
a fault among them is attached to a delivery that does, and allowed by the faults then in force. -/
def World.Spares (w : World σ μ) (p : NodeId) (m : MessageId) (fault : FaultState) (u : Task μ) :
    Prop :=
  u.Outlives p m ∧ ∀ k, u.faultAt? = some k →
    (∃ d ∈ w.pending.tasks, d.delivers k = true ∧ d.Outlives p m) ∧ fault.permits u = true

/-- Which deliveries are pending is all that counts. -/
theorem World.spares_congr {p : NodeId} {m : MessageId} {fault : FaultState} {u : Task μ}
    (hsame : ∀ d : Task μ, d.kind = .receive → (d ∈ w'.pending.tasks ↔ d ∈ w.pending.tasks)) :
    w'.Spares p m fault u ↔ w.Spares p m fault u := by
  refine and_congr_right fun _ => forall₂_congr fun k _ => and_congr_left' ?_
  refine exists_congr fun d => and_congr_left fun hdelivers => hsame d ?_
  obtain ⟨sender, message, hbody⟩ := Task.exists_body_of_delivers hdelivers.1
  exact Task.kind_of_receive hbody

/-- A fault is withdrawn exactly if the delivery that it is attached to is lost. -/
theorem Pinned.attached_iff {p : NodeId} {m : MessageId} {u : Task μ} (hpinned : Pinned [] w)
    (hfiled : w.Filed) (hdated : Dated w) (hu : u ∈ w.pending.tasks) :
    (∀ d ∈ w.pending.tasks.filter (Step.diesWith p m), ∀ k, d.delivers k = true →
        u.id ∉ (Ascending.lookup k w.candidates).getD []) ↔
      ∀ k, u.faultAt? = some k →
        ∃ d ∈ w.pending.tasks, d.delivers k = true ∧ d.Outlives p m := by
  constructor
  · intro hkept k hk
    obtain ⟨-, ⟨ids, hlookup, hid⟩, d, hd, -, message, hbody⟩ := hpinned.pins u hu k hk
    have hdelivers : d.delivers k = true := by simp [d.delivers_of_body hbody]
    refine ⟨d, hd, hdelivers, Task.outlives_iff.mpr ?_⟩
    rw [Bool.eq_false_iff]
    intro hdies
    refine hkept d (List.mem_filter.mpr ⟨hd, hdies⟩) k hdelivers ?_
    rw [hlookup]
    exact hid
  · intro hattached d hd k hk hlisted
    obtain ⟨hd, hdies⟩ := List.mem_filter.mp hd
    -- The task is a fault at this message, whose only delivery is lost.
    have hat : u.faultAt? = some k := by
      cases hlookup : Ascending.lookup k w.candidates with
      | none =>
        rw [hlookup] at hlisted
        cases hlisted
      | some ids =>
        rw [hlookup] at hlisted
        obtain ⟨e, hfind, rfl⟩ := Option.map_eq_some_iff.mp hlookup
        have hkey : e.1 = k := by simpa using List.find?_some hfind
        exact hkey ▸ hfiled e (List.mem_of_find?_eq_some hfind) u.id hlisted u hu rfl
    obtain ⟨d', hd', hk', hout⟩ := hattached k hat
    rw [hdated.eq_of_delivers hd hd' hk hk'] at hdies
    exact absurd (Task.outlives_iff.mp hout) (by simp [hdies])

/-! ### A node goes down -/

/-- Node `v` goes down at message `m`: what dies with it is lost, its own work ends, what the new
faults leave no room for is pruned, and its recovery is scheduled where the settings ask for it. -/
def Falls (c : Cluster σ μ) (v : NodeId) (m : MessageId) (fault : FaultState) (w w' : World σ μ) :
    Prop :=
  ∃ w₁, (((w.stricken v m fault).Idle v ∧ w₁ = (w.stricken v m fault).vacated v) ∨
      ∃ i, Ends v .crashed i ((w.stricken v m fault).vacated v) w₁) ∧
    if c.config.recovers then Scheduled v .recover w₁.pruned w' else w' = w₁.pruned

/-- A crash that the budget allows succeeds, unless a number is needed for the recovery and there is
none. -/
theorem Step.falls_or_overflow {t : Task μ} {m : MessageId} {fault : FaultState}
    (hw : Sound c (.of t) w) (hbody : t.body = .crash m)
    (hcrash : w.fault.crash? t.owner = some fault) :
    (∃ w', crash c t.owner m w = (.ok (), w') ∧ Falls c t.owner m fault w w') ∨
      (c.config.recovers = true ∧ UInt64.size ≤ w.toil + 2 ∧
        ∃ w', crash c t.owner m w = (.error (.panic .overflow), w')) := by
  have howner : t.owner.index < c.size := hw.booked.owners t (by simp [Hand.of])
  have hlost : Sound c ⟨[], .fall t.owner⟩ (w.stricken t.owner m fault) :=
    (hw.change (.crash hbody hcrash)).changes ((unfolds_lose _ _).done (forM_lose _ _))
  have hstop : Lasts 0 (stop t.owner) (w.stricken t.owner m fault) :=
    lasts_stop (hlost.booked.intact howner)
  obtain ⟨u, w₁, hstop, -⟩ | ⟨hcap, -⟩ := hstop.cases
  swap
  · exact absurd hcap (by decide)
  have hstops := stop_ok hstop
  have hpruned : Sound c ⟨[], .undo t.owner .recover⟩ w₁.pruned :=
    (hlost.change (.fall hstops)).change (.prune _ _)
  rw [crash_eq_stop hcrash, Attempt.bind_of_ok hstop]
  cases hrecovers : c.config.recovers with
  | false => exact .inl ⟨_, rfl, w₁, hstops, by rw [hrecovers]; rfl⟩
  | true =>
    have hclock : t.owner.index < w₁.pruned.clocks.clocks.length :=
      hpruned.booked.sized.clocks.symm ▸ howner
    have htoil : w₁.pruned.toil = w.toil := by
      obtain ⟨pending, candidates, -, heq⟩ := w.stricken_eq t.owner m fault
      have hstricken : (w.stricken t.owner m fault).toil = w.toil := by
        rw [heq]
        rfl
      rcases hstops with ⟨-, rfl⟩ | ⟨i, a, rs, -, -, -, -, rfl⟩
      · exact hstricken
      · exact hstricken
    have hyields := yields_schedule hpruned.numbered hpruned.stamped hclock (Nat.le_refl _) .recover
    rcases hyields.cases with ⟨u, w', hrun, hscheduled⟩ | ⟨hcap, w', hrun⟩
    · exact .inl ⟨w', hrun, w₁, hstops, by rw [hrecovers]; exact hscheduled⟩
    · exact .inr ⟨rfl, htoil ▸ hcap, w', hrun⟩

/-- Node `v` stops: its instance goes and its operation in flight ends, and nothing else of what the
nodes have changes. -/
structure Halts (v : NodeId) (w w' : World σ μ) : Prop where
  fault : w'.fault = w.fault
  number : w'.nextMessage = w.nextMessage
  logs : w'.logs = w.logs
  instances : w'.instances = w.instances.set v.index none
  others : ∀ q, q ≠ v → w'.agendas[q.index]? = w.agendas[q.index]? ∧
    w'.results[q.index]? = w.results[q.index]?
  log : ∃ a, w.agendas[v.index]? = some a ∧
    w'.events = w.events ++ (a.current.map fun i => ⟨v, .finished i .crashed⟩).toList

theorem Halts.of_stops {v : NodeId} (hstops : (w.Idle v ∧ w' = w.vacated v) ∨
    ∃ i, Ends v .crashed i (w.vacated v) w') : Halts v w w' ∧ w'.pending = w.pending := by
  rcases hstops with ⟨⟨a, ha, hcurrent⟩, rfl⟩ | ⟨i, a, rs, ha, hcurrent, hrs, -, rfl⟩
  · refine ⟨⟨rfl, rfl, rfl, rfl, fun _ _ => ⟨rfl, rfl⟩, a, ha, ?_⟩, rfl⟩
    simp [hcurrent, World.vacated]
  · refine ⟨⟨rfl, rfl, rfl, rfl, fun q hq => ?_, a, ha, by rw [hcurrent]; rfl⟩, rfl⟩
    have hne : v.index ≠ q.index := fun heq => hq (NodeId.index_inj.mp heq.symm)
    exact ⟨List.getElem?_set_ne hne, List.getElem?_set_ne hne⟩

namespace Falls

variable {v : NodeId} {m : MessageId} {fault : FaultState}

/-- The tasks that are left are the ones that the crash spares, in their order, and at most one is
added. -/
theorem exists_pending (hfalls : Falls c v m fault w w') (hpinned : Pinned [] w) (hfiled : w.Filed)
    (hdated : Dated w) : ∃ kept new, w'.pending.tasks = kept ++ new ∧
      kept.Sublist w.pending.tasks ∧
      (∀ u, u ∈ kept ↔ u ∈ w.pending.tasks ∧ w.Spares v m fault u) ∧
      new.map (fun u => (u.owner, u.body)) = if c.config.recovers then [(v, .recover)] else [] := by
  obtain ⟨w₁, hstops, hdue⟩ := hfalls
  have hstopped : Pinned [] w₁ := hpinned.stopped hstops
  obtain ⟨hhalts, hpending⟩ := Halts.of_stops hstops
  obtain ⟨pending, candidates, hsub, hstricken⟩ := w.stricken_eq v m fault
  have hsublist : w₁.pruned.pending.tasks.Sublist w.pending.tasks := by
    refine w₁.pruned_sublist.trans ?_
    rw [hpending, hstricken]
    exact hsub.trans List.filter_sublist
  have hkept : ∀ u, u ∈ w₁.pruned.pending.tasks ↔ u ∈ w.pending.tasks ∧ w.Spares v m fault u := by
    intro u
    have hfault : w₁.fault = fault := by rw [hhalts.fault, hstricken]
    rw [hstopped.mem_pruned, hfault, hpending, World.mem_stricken, and_assoc, and_assoc]
    refine and_congr_right fun hu => and_congr_right fun _ => ?_
    refine (and_congr_left' (hpinned.attached_iff hfiled hdated hu)).trans ?_
    simp only [← forall₂_and]
  split at hdue
  · obtain ⟨k, k', next, -, -, -, rfl⟩ := hdue
    have hnumbered : (Step.ticked w₁.pruned v .work k').Numbered :=
      hstopped.pruned.numbered.congr rfl rfl rfl
    refine ⟨_, _, hnumbered.enqueued_tasks v k' .recover next, hsublist, hkept, ?_⟩
    rw [if_pos ‹_›]
    rfl
  · refine ⟨_, [], by rw [hdue, List.append_nil], hsublist, hkept, ?_⟩
    rw [if_neg ‹_›]
    rfl

/-- Pruning and the recovery to come concern the tasks only. -/
theorem halts (hfalls : Falls c v m fault w w') : Halts v (w.stricken v m fault) w' := by
  obtain ⟨w₁, hstops, hdue⟩ := hfalls
  obtain ⟨⟨hfault, hnumber, hlogs, hinstances, hothers, hlog⟩, -⟩ := Halts.of_stops hstops
  split at hdue
  · obtain ⟨k, k', next, -, -, -, rfl⟩ := hdue
    exact ⟨hfault, hnumber, hlogs, hinstances, hothers, hlog⟩
  · exact hdue ▸ ⟨hfault, hnumber, hlogs, hinstances, hothers, hlog⟩

/-- The log tells of the crash, then of the deliveries lost, by task number, then of the operation
in flight. -/
theorem exists_log (hfalls : Falls c v m fault w w') (hnumbered : w.Numbered) :
    ∃ (lost : List (Task μ)) (a : Agenda), lost.Pairwise (fun d d' => d.id < d'.id) ∧
      (∀ d, d ∈ lost ↔ d ∈ w.pending.tasks ∧ d.kind = .receive ∧ ¬ d.Outlives v m) ∧
      w.agendas[v.index]? = some a ∧
      w'.events = w.events ++ ⟨v, .crashed⟩ :: (lost.filterMap Task.loss? ++
        (a.current.map fun i => ⟨v, .finished i .crashed⟩).toList) := by
  obtain ⟨a, ha, hlog⟩ := hfalls.halts.log
  obtain ⟨pending, candidates, -, hstricken⟩ := w.stricken_eq v m fault
  rw [hstricken] at ha hlog
  refine ⟨deliveries (w.pending.tasks.filter (Step.diesWith v m)), a,
    hnumbered.sorted.sublist (List.filter_sublist.trans List.filter_sublist), fun d => ?_, ha, ?_⟩
  · rw [deliveries, List.mem_filter, List.mem_filter, Task.outlives_iff]
    simp [and_comm, and_assoc]
  · rw [hlog, filterMap_loss?_deliveries, List.append_assoc]
    rfl

end Falls

/-- A message in the log has a number, and whoever delivers it has it from the node that sent it. -/
theorem Stamped.sender_eq {v target : NodeId} {k : MessageId} {text : String}
    (hw : Stamped .free w) (hlogged : Logged w) (hsent : ⟨v, .sent k target text⟩ ∈ w.events) :
    k < w.nextMessage ∧ ∀ d ∈ w.pending.tasks, ∀ sender message,
      d.body = .receive sender message k → sender = v := by
  have htold : (v, Cause.sent k) ∈ w.events.filterMap Occurrence.message? :=
    List.mem_filterMap.mpr ⟨_, hsent, rfl⟩
  rw [← hlogged] at htold
  obtain ⟨a, ha, htold⟩ := List.mem_filterMap.mp htold
  unfold Tick.message? at htold
  split at htold
  · cases htold
  · obtain ⟨hnode, hcause⟩ := Prod.mk.inj (Option.some.inj htold)
    refine ⟨hw.ledger.below a ha k (.inl hcause), fun d hd sender message hbody => ?_⟩
    have hpast := (hw.dated d hd).sent_mem hbody
    rw [← hnode, hw.ledger.unique a ha _ hpast k hcause rfl]

/-- What was sent before a crash and dies with its sender is not received any more. -/
theorem Falls.unheard {v target : NodeId} {m k : MessageId} {fault : FaultState} {text : String}
    (hfalls : Falls c v m fault w w') (hpinned : Pinned [] w) (hfiled : w.Filed) (hdated : Dated w)
    (hnumbered : w'.Numbered) (hstamped : Stamped .free w) (hlogged : Logged w)
    (hsent : ⟨v, .sent k target text⟩ ∈ w.events) (hk : m ≤ k) {w'' : World σ μ}
    (onward : Onward c Abort.Clean w' w'') : ∃ new, w''.events = w'.events ++ new ∧
      ∀ o ∈ new, ∀ sender text, o.event ≠ .received k sender text := by
  obtain ⟨hlt, hsender⟩ := hstamped.sender_eq hlogged hsent
  obtain ⟨kept, new, hpending, -, hkept, hnew⟩ := hfalls.exists_pending hpinned hfiled hdated
  have hgone : inflight .free w' k = [] := by
    rw [inflight, List.filter_eq_nil_iff]
    intro d hd hdelivers
    obtain ⟨sender, message, hbody⟩ := Task.exists_body_of_delivers hdelivers
    have hmem : d ∈ w'.pending.tasks := (List.mem_filter.mp hd).1
    rw [hpending] at hmem
    rcases List.mem_append.mp hmem with hmem | hmem
    · obtain ⟨hbefore, ⟨-, hout⟩, -⟩ := (hkept d).mp hmem
      cases hsender d hbefore sender message hbody
      exact hout message k hbody hk
    · -- The only new task is no delivery.
      have hdue := List.mem_map_of_mem (f := fun u : Task μ => (u.owner, u.body)) hmem
      rw [hnew, hbody] at hdue
      split at hdue <;> simp at hdue
  have hnumber : w'.nextMessage = w.nextMessage := by
    obtain ⟨pending, candidates, -, hstricken⟩ := w.stricken_eq v m fault
    rw [hfalls.halts.number, hstricken]
  have hspent : Spent w'.events k .free w' := .of_gone (hnumber ▸ hlt) hgone
  exact ((Spent.lasting w'.events k).onward ⟨hnumbered, hspent⟩ onward).2.unheard

/-- What the crash task `t` at message `m` does, where `fault` are the faults in force after it. -/
structure CrashEffect (c : Cluster σ μ) (t : Task μ) (m : MessageId) (fault : FaultState)
    (w w' : World σ μ) : Prop where
  inForce : w'.fault = fault
  /-- The tasks spared stay in their order, and the recovery of the node is the only new one. -/
  pending : ∃ kept new, w'.pending.tasks = kept ++ new ∧ kept.Sublist w.pending.tasks ∧
    (∀ u, u ∈ kept ↔ u ∈ w.pending.tasks ∧ u ≠ t ∧ w.Spares t.owner m fault u) ∧
    new.map (fun u => (u.owner, u.body)) = if c.config.recovers then [(t.owner, .recover)] else []
  /-- The log tells of the crash, of the deliveries lost by task number, and of the operation in
  flight. -/
  log : ∃ (lost : List (Task μ)) (a : Agenda), lost.Pairwise (fun d d' => d.id < d'.id) ∧
    (∀ d, d ∈ lost ↔ d ∈ w.pending.tasks ∧ d.kind = .receive ∧ ¬ d.Outlives t.owner m) ∧
    w.agendas[t.owner.index]? = some a ∧
    w'.events = w.events ++ ⟨t.owner, .crashed⟩ :: (lost.filterMap Task.loss? ++
      (a.current.map fun i => ⟨t.owner, .finished i .crashed⟩).toList)
  instances : w'.instances = w.instances.set t.owner.index none
  others : ∀ q, q ≠ t.owner → w'.agendas[q.index]? = w.agendas[q.index]? ∧
    w'.results[q.index]? = w.results[q.index]?
  logs : w'.logs = w.logs
  /-- What the node had sent from message `m` on is not received in any continuation. -/
  silenced : ∀ k target text, ⟨t.owner, .sent k target text⟩ ∈ w.events → m ≤ k →
    ∀ w'', Onward c Abort.Clean w' w'' → ∃ new, w''.events = w'.events ++ new ∧
      ∀ o ∈ new, ∀ sender text, o.event ≠ .received k sender text

theorem CrashEffect.of_falls {t : Task μ} {m : MessageId} {fault : FaultState}
    (hsize : c.size < UInt32.size) (hw : Reaches c Abort.Clean w) (ht : t ∈ w.pending.tasks)
    (hkind : t.kind ≠ .receive) (hw' : w'.Numbered)
    (hfalls : Falls c t.owner m fault { w with pending := w.pending.erase t.id } w') :
    CrashEffect c t m fault w w' := by
  obtain ⟨hnumbered, hstamped, hlogged⟩ := hw.stamped hsize
  have htake := hnumbered.take_of_mem ht
  have hpinned := ((hw.pinned_of_clean hsize).take htake).shed hkind
  have hdated := (hw.dated_of_clean hsize).take htake
  have hmem : ∀ u, u ∈ (w.pending.erase t.id).tasks ↔ u ∈ w.pending.tasks ∧ u ≠ t :=
    fun u => hnumbered.mem_erase ht
  -- The crash itself is no delivery, so these are the same with it and without it.
  have hsame : ∀ d : Task μ, d.kind = .receive →
      (d ∈ (w.pending.erase t.id).tasks ↔ d ∈ w.pending.tasks) := fun d hd =>
    (hmem d).trans (and_iff_left fun heq => hkind (heq ▸ hd))
  have hsub : (w.pending.erase t.id).tasks ⊆ w.pending.tasks := fun u hu => ((hmem u).mp hu).1
  have hfiled : World.Filed { w with pending := w.pending.erase t.id } :=
    (hw.filed hsize).less hsub fun e he => ⟨e, he, rfl, List.Subset.refl _⟩
  have hstamped' : Stamped .free { w with pending := w.pending.erase t.id } :=
    hstamped.less rfl rfl rfl hsub
  obtain ⟨pending, candidates, -, hstricken⟩ :=
    World.stricken_eq { w with pending := w.pending.erase t.id } t.owner m fault
  have hhalts := hfalls.halts
  rw [hstricken] at hhalts
  refine ⟨hhalts.fault, ?_, ?_, hhalts.instances, hhalts.others, hhalts.logs, ?_⟩
  · obtain ⟨kept, new, hpending, hsublist, hkept, hnew⟩ :=
      hfalls.exists_pending hpinned hfiled hdated
    refine ⟨kept, new, hpending, hsublist.trans List.filter_sublist, fun u => ?_, hnew⟩
    rw [hkept, hmem, and_assoc]
    exact and_congr_right fun _ => and_congr_right fun _ => World.spares_congr hsame
  · obtain ⟨lost, a, hsorted, hlost, hagenda, hlog⟩ := hfalls.exists_log hpinned.numbered
    refine ⟨lost, a, hsorted, fun d => (hlost d).trans ?_, hagenda, hlog⟩
    exact and_congr_left fun hlost => hsame d hlost.1
  · intro k target text hsent hk w'' onward
    exact hfalls.unheard hpinned hfiled hdated hw' hstamped' hlogged hsent hk onward

/-- **The exact effect of a crash** that the faults in force allow. It succeeds, unless the task of
the recovery finds no number any more. -/
theorem Reaches.crash_effect {t : Task μ} {m : MessageId} {fault : FaultState}
    (haccept : c.toSetup.accept = .ok ()) (hw : Reaches c Abort.Clean w)
    (ht : t ∈ w.pending.tasks) (hbody : t.body = .crash m)
    (hallowed : w.fault.crash? t.owner = some fault) :
    (∃ w', Step.advance c t.id w = (.ok t, w') ∧ CrashEffect c t m fault w w') ∨
      (c.config.recovers = true ∧ UInt64.size ≤ w.toil + 2 ∧
        ∃ w', Step.advance c t.id w = (.error (.panic .overflow), w')) := by
  have hsize := Setup.size_lt_of_accept haccept
  obtain ⟨hnumbered, hstamped, hlogged⟩ := hw.stamped hsize
  have htake := hnumbered.take_of_mem ht
  have hkind : t.kind ≠ .receive := by simp [Task.kind, hbody]
  have hsound : Sound c (.of t) { w with pending := w.pending.erase t.id } :=
    Sound.take ⟨hnumbered, (hw.booked_of_clean hsize).2, hstamped⟩ htake
  have hexecute : Step.execute c t = Step.crash c t.owner m := by
    unfold Step.execute
    rw [hbody]
  rcases Step.falls_or_overflow hsound hbody hallowed with ⟨w', hrun, hfalls⟩ | ⟨hdue, hcap, w', hrun⟩
  · have hadvance : Step.advance c t.id w = (.ok t, w') :=
      Step.advance_ok_iff.mpr ⟨_, htake, by rw [hexecute]; exact hrun⟩
    have hw' : Reaches c Abort.Clean w' := hw.task t.id hadvance fun _ he => by cases he
    exact .inl ⟨w', hadvance, .of_falls hsize hw ht hkind (hw'.stamped hsize).1 hfalls⟩
  · refine .inr ⟨hdue, hcap, w', ?_⟩
    unfold Step.advance
    rw [Attempt.get_bind, htake]
    simp only [Attempt.modify_bind]
    rw [hexecute]
    exact Attempt.bind_of_error hrun

/-- The first two peers broadcast, then the first one crashes at its message to the third. Its
message to the second peer is older and stays, all other mail from it and to it is lost, and so are
the faults at the lost messages. -/
theorem Reaches.crash_effect_trio :
    let w := (Step.advances Broadcast.trio [⟨0⟩, ⟨1⟩]
      ((World.new Broadcast.trio).reset Broadcast.trio)).2
    ∃ t ∈ w.pending.tasks, ∃ fault w', t.owner = ⟨0⟩ ∧ t.body = .crash ⟨1⟩ ∧
      w.fault.crash? ⟨0⟩ = some fault ∧ Step.advance Broadcast.trio ⟨7⟩ w = (.ok t, w') ∧
      CrashEffect Broadcast.trio t ⟨1⟩ fault w w' ∧
      w'.pending.tasks.map (·.id) = [⟨2⟩, ⟨3⟩, ⟨12⟩, ⟨13⟩, ⟨14⟩, ⟨15⟩] ∧
      w'.events.drop w.events.length =
        [⟨⟨0⟩, .crashed⟩, ⟨⟨0⟩, .lost ⟨1⟩ ⟨2⟩⟩, ⟨⟨1⟩, .lost ⟨2⟩ ⟨0⟩⟩] := by
  intro w
  have hw : Reaches Broadcast.trio Abort.Clean w :=
    (Reaches.start (World.new Broadcast.trio)).advances (by decide +kernel)
  obtain ⟨t, ht, hid, howner, hkind, hat⟩ : ∃ t ∈ w.pending.tasks,
      t.id = ⟨7⟩ ∧ t.owner = ⟨0⟩ ∧ t.kind = .crash ∧ t.faultAt? = some ⟨1⟩ := by decide +kernel
  have hbody : t.body = .crash ⟨1⟩ := by
    cases hbody : t.body with
    | crash m =>
      have hm : m = ⟨1⟩ := by
        simpa [Task.faultAt?, Task.message?, hkind, TaskKind.isFault, hbody] using hat
      rw [hm]
    | _ => simp [Task.kind, hbody] at hkind
  obtain ⟨fault, hallowed⟩ : ∃ fault, w.fault.crash? t.owner = some fault := by
    rw [howner]
    exact Option.isSome_iff_exists.mp (by decide +kernel)
  have hshort : ¬ UInt64.size ≤ w.toil + 2 := by decide +kernel
  rcases hw.crash_effect (by decide +kernel) ht hbody hallowed with ⟨w', hrun, heffect⟩ | ⟨-, hcap, -⟩
  · rw [hid] at hrun
    have hlast : w' = (Step.advance Broadcast.trio ⟨7⟩ w).2 := by rw [hrun]
    refine ⟨t, ht, fault, w', howner, hbody, howner ▸ hallowed, hrun, heffect, ?_, ?_⟩
    · rw [hlast]
      decide +kernel
    · rw [hlast]
      decide +kernel
  · exact absurd hcap hshort

end Interleave
