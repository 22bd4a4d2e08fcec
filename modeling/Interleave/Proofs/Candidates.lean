/-
# Fault candidates

The faults that may be injected at a message are added right after the delivery
that the message becomes, and listed under the message. They go when the message
goes: before it is received or lost, all that is listed under it is withdrawn. So
every pending fault is pinned to a delivery under a lower number
(`Reaches.pinned_of_clean`), and the task with the lowest number is never a fault
(`Pinned.isFault_of_first`).

Taking a delivery and withdrawing its candidates are two steps, and a crash takes
many deliveries before it withdraws their candidates. Between the steps a fault
is pinned to a delivery in the hand of the task being executed.
-/
import Interleave.Proofs.Chart
import Interleave.Proofs.Conservation
import Interleave.Proofs.Turn

namespace Interleave

variable {σ μ : Type}

/-- The message that the task injects a fault at. -/
def Task.faultAt? (t : Task μ) : Option MessageId :=
  match t.body with
  | .crash m | .partition m => some m
  | _ => none

theorem Task.isFault_iff {t : Task μ} : t.kind.isFault = true ↔ ∃ m, t.faultAt? = some m := by
  cases hbody : t.body <;> simp [kind, faultAt?, hbody, TaskKind.isFault]

/-! ### Lists of candidates -/

/-- The faults offered at a message. -/
theorem World.faultAt?_of_offers {c : Cluster σ μ} {w : World σ μ} {v : NodeId} {m : MessageId}
    {t : Task μ} (ht : t.body ∈ w.offers c v m) : t.faultAt? = some m := by
  unfold offers at ht
  rcases List.mem_append.mp ht with ht | ht
  · split at ht
    · cases hbody : t.body <;> simp_all [Task.faultAt?]
    · cases ht
  · split at ht
    · cases hbody : t.body <;> simp_all [Task.faultAt?]
    · cases ht

theorem World.lookup_attached (w : World σ μ) (m k : MessageId) (ids : List TaskId) :
    Ascending.lookup k (w.attached m ids).candidates =
      if k = m ∧ ids ≠ [] then some ids else Ascending.lookup k w.candidates := by
  cases ids with
  | nil => simp [attached]
  | cons id ids =>
    have hput : (w.attached m (id :: ids)).candidates = Ascending.put m (id :: ids) w.candidates := rfl
    rw [hput, Ascending.lookup_put]
    simp

/-- A delivery stays pending while no delivery is added or removed. -/
theorem Quiet.mem {w w' : World σ μ} {d : Task μ} (quiet : Quiet w w') (hd : d ∈ w.pending.tasks)
    (hkind : d.kind = .receive) : d ∈ w'.pending.tasks := by
  have hdelivery : d ∈ deliveries w.pending.tasks := List.mem_filter.mpr ⟨hd, by simp [hkind]⟩
  rw [← quiet.pending] at hdelivery
  exact (List.mem_filter.mp hdelivery).1

/-! ### Faults pinned to deliveries -/

/-- The fault task `t` is listed under its message `m`, which was sent, and the delivery of `m` from
the owner of `t` is pending or held, under a lower number. -/
structure Pin (held : List (Task μ)) (w : World σ μ) (t : Task μ) (m : MessageId) : Prop where
  sent : m < w.nextMessage
  listed : ∃ ids, Ascending.lookup m w.candidates = some ids ∧ t.id ∈ ids
  carried : ∃ d ∈ held ++ w.pending.tasks, d.id < t.id ∧
    ∃ message, d.body = .receive t.owner message m

/-- All pending faults are pinned to deliveries that are pending or held. -/
structure Pinned (held : List (Task μ)) (w : World σ μ) : Prop where
  numbered : w.Numbered
  pins : ∀ t ∈ w.pending.tasks, ∀ m, t.faultAt? = some m → Pin held w t m

namespace Pinned

variable {c : Cluster σ μ} {v : NodeId} {held held' : List (Task μ)} {w w' : World σ μ} {t : Task μ}

/-- No fault is added, what is listed stays so, and deliveries go from one place to the other. -/
theorem move (h : Pinned held w) (hw' : w'.Numbered)
    (hfaults : ∀ t ∈ w'.pending.tasks, t.kind.isFault = true → t ∈ w.pending.tasks)
    (hmessages : ∀ m, m < w.nextMessage → m < w'.nextMessage)
    (hcandidates : w'.candidates = w.candidates)
    (hdeliveries : ∀ d ∈ held ++ w.pending.tasks, d.kind = .receive →
      d ∈ held' ++ w'.pending.tasks) : Pinned held' w' := by
  refine ⟨hw', fun t ht m hm => ?_⟩
  obtain ⟨hsent, listed, d, hd, hlt, message, hbody⟩ :=
    h.pins t (hfaults t ht (Task.isFault_iff.mpr ⟨m, hm⟩)) m hm
  exact ⟨hmessages m hsent, hcandidates ▸ listed, d, hdeliveries d hd (Task.kind_of_receive hbody),
    hlt, message, hbody⟩

/-- The state is the same but for what concerns no task. -/
theorem congr (h : Pinned held w) (hpending : w'.pending = w.pending)
    (hnext : w'.nextTask = w.nextTask) (hmessage : w'.nextMessage = w.nextMessage)
    (hcandidates : w'.candidates = w.candidates) : Pinned held w' :=
  h.move (h.numbered.congr hpending hnext hcandidates) (fun _ ht _ => hpending ▸ ht)
    (fun _ hm => hmessage ▸ hm) hcandidates fun _ hd _ => hpending ▸ hd

/-- A task that delivers nothing is let go. -/
theorem shed (h : Pinned (t :: held) w) (hkind : t.kind ≠ .receive) : Pinned held w := by
  refine h.move h.numbered (fun _ ht _ => ht) (fun _ hm => hm) rfl fun d hd hdelivers => ?_
  rcases List.mem_cons.mp hd with rfl | hd
  · exact absurd hdelivers hkind
  · exact hd

theorem take (h : Pinned [] w) {id : TaskId} {pending : Pending μ}
    (htake : w.pending.take id = some (t, pending)) : Pinned [t] { w with pending := pending } := by
  obtain ⟨hperm, hw'⟩ := h.numbered.of_take htake
  exact h.move hw' (fun u hu _ => hperm.symm.subset (List.mem_cons_of_mem _ hu)) (fun _ hm => hm) rfl
    fun d hd _ => hperm.subset hd

/-- The delivery of a message is let go once its candidates are withdrawn. -/
theorem withdrawn {sender : NodeId} {message : μ} {m : MessageId} (h : Pinned (t :: held) w)
    (hbody : t.body = .receive sender message m) : Pinned held (w.withdrawn m) := by
  refine ⟨h.numbered.withdrawn m, fun u hu k hk => ?_⟩
  have hgone : u ∈ w.pending.tasks ∧ u.id ∉ (Ascending.lookup m w.candidates).getD [] := by
    rw [World.withdrawn, Pending.foldl_erase_tasks] at hu
    simpa using List.mem_filter.mp hu
  obtain ⟨hsent, ⟨ids, hlookup, hid⟩, d, hd, hlt, message', hcarries⟩ := h.pins u hgone.1 k hk
  -- What is listed under the message itself is gone.
  have hother : k ≠ m := fun heq => by
    subst heq
    exact hgone.2 (by rw [hlookup]; exact hid)
  refine ⟨hsent, ⟨ids, (Ascending.lookup_drop_of_ne hother _).trans hlookup, hid⟩, d, ?_, hlt,
    message', hcarries⟩
  have hne : d ≠ t := fun heq => by
    rw [heq, hbody] at hcarries
    cases hcarries
    exact hother rfl
  rcases List.mem_append.mp hd with hd | hd
  · exact List.mem_append_left _ ((List.mem_cons.mp hd).resolve_left hne)
  · exact List.mem_append_right _
      ((Quiet.of_withdrawn h.numbered m).mem hd (Task.kind_of_receive hcarries))

/-- A fault that is not pruned is applicable. -/
theorem applicable_of_pruned {m : MessageId} (h : Pinned held w) (ht : t ∈ w.pruned.pending.tasks)
    (hm : t.faultAt? = some m) : t ∈ w.pending.tasks ∧ Step.applicable w t.id = true := by
  have hkept : t ∈ w.pending.tasks ∧
      t.id ∉ (w.candidates.flatMap (·.2)).filter fun id => !Step.applicable w id := by
    rw [World.pruned, Pending.foldl_erase_tasks] at ht
    simpa using List.mem_filter.mp ht
  obtain ⟨ids, hlookup, hid⟩ := (h.pins t hkept.1 m hm).listed
  have hlisted : t.id ∈ w.candidates.flatMap (·.2) := by
    obtain ⟨e, hfind, rfl⟩ := Option.map_eq_some_iff.mp hlookup
    exact List.mem_flatMap.mpr ⟨e, List.mem_of_find?_eq_some hfind, hid⟩
  refine ⟨hkept.1, ?_⟩
  by_contra hnot
  exact hkept.2 (List.mem_filter.mpr ⟨hlisted, by simp [hnot]⟩)

theorem pruned (h : Pinned held w) : Pinned held w.pruned := by
  refine ⟨h.numbered.pruned, fun t ht m hm => ?_⟩
  -- A candidate that stays is applicable, so it stays listed.
  obtain ⟨hkept, happlies⟩ := h.applicable_of_pruned ht hm
  obtain ⟨hsent, ⟨ids, hlookup, hid⟩, d, hd, hlt, message, hcarries⟩ := h.pins t hkept m hm
  have hleft : t.id ∈ ids.filter (Step.applicable w) := List.mem_filter.mpr ⟨hid, happlies⟩
  refine ⟨hsent, ⟨_, Ascending.lookup_filter (List.ne_nil_of_mem hleft) hlookup, hleft⟩, d, ?_, hlt,
    message, hcarries⟩
  rcases List.mem_append.mp hd with hd | hd
  · exact List.mem_append_left _ hd
  · exact List.mem_append_right _
      ((Quiet.of_pruned h.numbered).mem hd (Task.kind_of_receive hcarries))

/-- A task is added that injects no fault. -/
theorem scheduled {body : Work μ} (h : Pinned held w) (hscheduled : Scheduled v body w w')
    (hcrash : ∀ m, body ≠ .crash m) (hpartition : ∀ m, body ≠ .partition m) : Pinned held w' := by
  have hw' := h.numbered.scheduled hscheduled
  obtain ⟨k, k', next, -, -, -, rfl⟩ := hscheduled
  have hticked : (Step.ticked w v .work k').Numbered := h.numbered.congr rfl rfl rfl
  refine h.move hw' (fun t ht hfault => ?_) (fun _ hm => hm) rfl fun d hd _ => ?_
  · rw [hticked.enqueued_tasks] at ht
    rcases List.mem_append.mp ht with ht | ht
    · exact ht
    · cases List.mem_singleton.mp ht
      cases body <;> simp_all [Task.kind, TaskKind.isFault]
  · rw [hticked.enqueued_tasks, ← List.append_assoc]
    exact List.mem_append_left _ hd

theorem queued (h : Pinned held w) (hqueued : Queued c v w w') : Pinned held w' := by
  obtain ⟨a, -, hqueued⟩ := hqueued
  split at hqueued
  · exact h.scheduled hqueued (by simp) (by simp)
  · exact hqueued ▸ h

theorem ended {result : Answer} {i : UInt64} (h : Pinned held w) (ends : Ends v result i w w') :
    Pinned held w' := by
  obtain ⟨a, rs, -, -, -, -, rfl⟩ := ends
  exact h.congr rfl rfl rfl rfl

/-- A message is posted, and the faults offered at it are listed under it. -/
theorem posted {message : μ} {target : NodeId} {k : Clock} {next : MessageId} {nextTask : TaskId}
    {ids : List TaskId} {w₁ : World σ μ} (h : Pinned held w)
    (hnumber : w.nextMessage.next? = some next) (hplace : w.nextTask.next? = some nextTask)
    (hoffered : Offered v k (w.offers c v w.nextMessage) (Step.enqueued
      (w.dispatched c v message target k next) target k (.receive v message w.nextMessage) nextTask)
      ids w₁) (hw' : (w₁.attached w.nextMessage ids).Numbered) :
    Pinned held (w₁.attached w.nextMessage ids) := by
  obtain ⟨-, new, last, heq, hids, hnew⟩ := h.numbered.of_posted hplace hoffered
  obtain ⟨candidates, hattached⟩ := World.attached_eq w₁ w.nextMessage ids
  have hpending : (w₁.attached w.nextMessage ids).pending.tasks = w.pending.tasks ++
      ⟨w.nextTask, target, k, .receive v message w.nextMessage⟩ :: new := by
    rw [hattached, heq]
  have hmessages : (w₁.attached w.nextMessage ids).nextMessage = next := by
    rw [hattached, heq]
    rfl
  have hlisted : w₁.candidates = w.candidates := by
    rw [heq]
    rfl
  have hup : ∀ m, m < w.nextMessage ∨ m = w.nextMessage → m < next := fun m hm =>
    (MessageId.lt_iff_of_next? hnumber).mpr hm
  refine ⟨hw', fun t ht m hm => ?_⟩
  rw [hpending] at ht
  rcases List.mem_append.mp ht with ht | ht
  · -- An earlier fault is attached to an earlier message.
    obtain ⟨hearlier, ⟨old, hlookup, hid⟩, d, hd, hlt, message', hbody⟩ := h.pins t ht m hm
    refine ⟨hmessages ▸ hup m (.inl hearlier), ⟨old, ?_, hid⟩, d, ?_, hlt, message', hbody⟩
    · have hother : m ≠ w.nextMessage := fun hsame => Nat.lt_irrefl _ (hsame ▸ hearlier)
      rw [World.lookup_attached, if_neg fun hnew => hother hnew.1, hlisted, hlookup]
    · rw [hpending, ← List.append_assoc]
      exact List.mem_append_left _ hd
  · rcases List.mem_cons.mp ht with rfl | ht
    · cases hm
    · have hfault := World.faultAt?_of_offers (hnew t ht).body
      cases hm.symm.trans hfault
      have hid : t.id ∈ ids := hids ▸ List.mem_map_of_mem ht
      refine ⟨hmessages ▸ hup _ (.inr rfl), ⟨ids, ?_, hid⟩,
        ⟨w.nextTask, target, k, .receive v message w.nextMessage⟩, ?_, ?_, message, ?_⟩
      · rw [World.lookup_attached, if_pos ⟨rfl, List.ne_nil_of_mem hid⟩]
      · simp [hpending]
      · have hsorted := hw'.sorted
        rw [hpending] at hsorted
        exact (List.pairwise_cons.mp (List.pairwise_append.mp hsorted).2.1).1 t ht
      · rw [(hnew t ht).owner]

theorem request (h : Pinned held w) (hrequest : Request c v w w') : Pinned held w' := by
  have hw' := h.numbered.request hrequest
  cases hrequest with
  | lose message target known clock ticks number cut =>
    refine h.move hw' (fun _ ht _ => ht) (fun m hm => ?_) rfl fun _ hd _ => hd
    exact (MessageId.lt_iff_of_next? number).mpr (.inl hm)
  | post message target known clock ticks number reached place offered =>
    exact h.posted number place offered hw'
  | note => exact h.congr rfl rfl rfl rfl
  | conclude real ends queued => exact (h.ended ends).queued queued
  | start => exact h.congr rfl rfl rfl rfl
  | lend => exact h.congr rfl rfl rfl rfl

theorem requests (h : Pinned held w) (hrequests : Requests c v w w') : Pinned held w' := by
  induction hrequests with
  | refl => exact h
  | tail _ last ih => exact ih.request last

/-- What goes down with a node is lost, one task after the other. -/
theorem forfeited (h : Pinned (t :: held) w) : Pinned held (w.forfeited t) := by
  unfold World.forfeited
  split
  · rename_i sender message m hbody
    exact (h.withdrawn hbody).congr rfl rfl rfl rfl
  · rename_i hother
    exact h.shed (Task.kind_ne_receive hother)

theorem foldl_forfeited {ts : List (Task μ)} (h : Pinned ts w) :
    Pinned [] (ts.foldl World.forfeited w) := by
  induction ts generalizing w with
  | nil => exact h
  | cons t ts ih => exact ih h.forfeited

/-- Tasks go down with a node. -/
theorem struck {fault : FaultState} {drop : Task μ → Bool} (h : Pinned [] w) :
    Pinned (w.pending.tasks.filter drop) (w.struck v fault drop) := by
  have hw' : (w.struck v fault drop).Numbered :=
    h.numbered.less List.filter_sublist rfl fun e he id hid => ⟨e, he, hid⟩
  refine h.move hw' (fun t ht _ => (List.mem_filter.mp ht).1) (fun _ hm => hm) rfl fun d hd _ => ?_
  cases hdrop : drop d with
  | true => exact List.mem_append_left _ (List.mem_filter.mpr ⟨hd, hdrop⟩)
  | false => exact List.mem_append_right _ (List.mem_filter.mpr ⟨hd, by simp [hdrop]⟩)

/-- A node goes down, and its work ends. -/
theorem stopped {m : MessageId} {fault : FaultState} {w₁ : World σ μ} (h : Pinned [] w)
    (hstops : ((w.stricken v m fault).Idle v ∧ w₁ = (w.stricken v m fault).vacated v) ∨
      ∃ i, Ends v .crashed i ((w.stricken v m fault).vacated v) w₁) : Pinned [] w₁ := by
  have hstricken : Pinned [] (w.stricken v m fault) := h.struck.foldl_forfeited
  have hvacated : Pinned [] ((w.stricken v m fault).vacated v) := hstricken.congr rfl rfl rfl rfl
  rcases hstops with ⟨-, rfl⟩ | ⟨i, ends⟩
  · exact hvacated
  · exact hvacated.ended ends

theorem crash {m : MessageId} {fault : FaultState} {w₁ : World σ μ} (h : Pinned [] w)
    (hstops : ((w.stricken v m fault).Idle v ∧ w₁ = (w.stricken v m fault).vacated v) ∨
      ∃ i, Ends v .crashed i ((w.stricken v m fault).vacated v) w₁)
    (hdue : if c.config.recovers then Scheduled v .recover w₁.pruned w' else w' = w₁.pruned) :
    Pinned [] w' := by
  have hstopped : Pinned [] w₁ := h.stopped hstops
  split at hdue
  · exact hstopped.pruned.scheduled hdue (by simp) (by simp)
  · exact hdue ▸ hstopped.pruned

/-- After every task all pending faults are pinned to deliveries that are pending. -/
theorem shift {id : TaskId} {pending : Pending μ} (h : Pinned [] w)
    (htake : w.pending.take id = some (t, pending))
    (shift : Shift c t { w with pending := pending } w') : Pinned [] w' := by
  have htaken := h.take htake
  -- A task that is no delivery is done with as soon as it is taken.
  have hfree : ∀ {body : Work μ}, t.body = body →
      (∀ sender message m, body ≠ .receive sender message m) →
      Pinned [] { w with pending := pending } := fun hbody hother =>
    htaken.shed (Task.kind_ne_receive (hbody ▸ hother))
  cases shift with
  | skip void =>
    refine htaken.shed (Task.kind_ne_receive fun sender message m hbody => ?_)
    simp [Task.Void, hbody] at void
  | rouse body up woken => exact (hfree body (by simp)).requests woken.requests
  | @begin i next operation a w₁ _ body up listed woken agenda number ran =>
    have hwoken := (hfree body (by simp)).requests woken.requests
    have hbegun : Pinned [] (w₁.begun t.owner a i next operation.text) :=
      hwoken.congr rfl rfl rfl rfl
    exact hbegun.requests ran
  | lose body doomed => exact (htaken.withdrawn body).congr rfl rfl rfl rfl
  | balk body up reached woken => exact (htaken.withdrawn body).requests woken.requests
  | @receive sender message m k k' w₁ _ body up reached woken clock ticks ran =>
    have hwoken := (htaken.withdrawn body).requests woken.requests
    have harrived : Pinned [] (w₁.arrived c t.owner sender message m (k.join t.clock) k') :=
      hwoken.congr rfl rfl rfl rfl
    exact harrived.requests ran
  | crash body allowed stops due => exact (hfree body (by simp)).crash stops due
  | @recover fault a w₁ _ body allowed agenda hook resumes =>
    have hrevived : Pinned [] (World.revived c { w with pending := pending } t.owner fault a) :=
      (hfree body (by simp)).congr rfl rfl rfl rfl
    have hran := hrevived.requests hook
    rcases resumes with rfl | hqueued
    · exact hran
    · exact hran.queued hqueued
  | @split m fault source _ body drawn due =>
    have hcut : Pinned [] ({ w with pending := pending, source := source, fault := fault :
        World σ μ }.recorded t.owner (.partitioned fault.describe)) :=
      (hfree body (by simp)).congr rfl rfl rfl rfl
    split at due
    · exact hcut.pruned.scheduled due (by simp) (by simp)
    · exact due ▸ hcut.pruned
  | splitRefused body drawn => exact (hfree body (by simp)).congr rfl rfl rfl rfl
  | heal body drawn => exact (hfree body (by simp)).congr rfl rfl rfl rfl
  | healRefused body drawn => exact (hfree body (by simp)).congr rfl rfl rfl rfl

theorem adieu (h : Pinned [] w) (adieu : Adieu c v w w') : Pinned [] w' := by
  cases adieu with
  | absent none => exact h
  | cut present hook => exact h.requests hook
  | @told x w₁ _ present hook settles =>
    have hclosed : Pinned [] (w₁.recorded v .closed) := (h.requests hook).congr rfl rfl rfl rfl
    exact hclosed.requests settles

theorem reset (hsize : c.size < UInt32.size) (w : World σ μ) : Pinned [] (w.reset c) := by
  refine ⟨World.numbered_reset hsize w, fun t ht m hm => ?_⟩
  obtain ⟨i, -, rfl⟩ := List.mem_map.mp ht
  cases hm

/-- The task with the lowest number injects no fault, since the delivery that a fault is pinned to
comes before it. -/
theorem isFault_of_first (h : Pinned [] w) (hget : w.pending.get? t.id = some t)
    (hfirst : w.pending.first? = some t.id) : t.kind.isFault = false := by
  rw [Bool.eq_false_iff]
  intro hfault
  obtain ⟨m, hm⟩ := Task.isFault_iff.mp hfault
  obtain ⟨d, hd, hlt, -⟩ := (h.pins t (List.mem_of_find?_eq_some hget) m hm).carried
  obtain ⟨u, hhead, hid⟩ := Option.map_eq_some_iff.mp hfirst
  obtain ⟨rest, htasks⟩ := List.head?_eq_some_iff.mp hhead
  have hsorted := h.numbered.sorted
  rw [htasks] at hsorted
  have hbefore : d.id < u.id := hid.symm ▸ hlt
  rcases List.mem_cons.mp (htasks ▸ hd : d ∈ u :: rest) with rfl | hrest
  · exact Nat.lt_irrefl _ hbefore
  · exact Nat.lt_asymm hbefore ((List.pairwise_cons.mp hsorted).1 d hrest)

end Pinned

/-- Wherever no counter ran out, every pending fault is pinned to a pending delivery. -/
theorem Reaches.pinned_of_clean {c : Cluster σ μ} {w : World σ μ} (hsize : c.size < UInt32.size)
    (hw : Reaches c Abort.Clean w) : Pinned [] w :=
  hw.shifts (fun w => .reset hsize w) (fun htake shift h => h.shift htake shift)
    fun adieu h => h.adieu adieu

theorem Reaches.pinned {c : Cluster σ μ} {w : World σ μ} (hsize : c.size < UInt32.size)
    (hw : Reaches c Abort.Returned w) : Pinned [] w :=
  (hw.mono fun _ he => he.clean).pinned_of_clean hsize

end Interleave
