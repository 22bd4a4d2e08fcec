/-
# Message traffic

Of all changes of a state only a few concern messages (`Change.flow`). A message is
posted and becomes a delivery task, or it is sent and lost at once; a delivery in the
hand of the task being executed is received or lost; a crash takes deliveries off the
pending ones into its hand. Every other change leaves the deliveries in place
and records nothing about messages. In particular withdrawing and pruning fault
candidates never removes a delivery, since only fault tasks are attached to
messages.
-/
import Interleave.Proofs.Reached

namespace Interleave

variable {σ μ : Type}

/-! ### Deliveries -/

/-- The delivery tasks of a list. -/
def deliveries (l : List (Task μ)) : List (Task μ) := l.filter fun t => t.kind = .receive

section

variable {l l' : List (Task μ)} {t : Task μ}

@[simp] theorem deliveries_nil : deliveries ([] : List (Task μ)) = [] := rfl

@[simp] theorem deliveries_append : deliveries (l ++ l') = deliveries l ++ deliveries l' :=
  List.filter_append ..

theorem deliveries_cons (h : t.kind = .receive) : deliveries (t :: l) = t :: deliveries l :=
  List.filter_cons_of_pos (by simp [h])

theorem deliveries_cons_of_ne (h : t.kind ≠ .receive) : deliveries (t :: l) = deliveries l :=
  List.filter_cons_of_neg (by simp [h])

theorem deliveries_eq_nil (h : ∀ t ∈ l, t.kind ≠ .receive) : deliveries l = [] :=
  List.filter_eq_nil_iff.mpr fun t ht => by simp [h t ht]

/-- Removing tasks that are no deliveries leaves the deliveries. -/
theorem deliveries_filter {keep : Task μ → Bool}
    (h : ∀ t ∈ l, keep t = false → t.kind ≠ .receive) : deliveries (l.filter keep) = deliveries l := by
  unfold deliveries
  rw [List.filter_filter]
  refine List.filter_congr fun t ht => ?_
  cases hkeep : keep t with
  | true => simp
  | false => simp [h t ht hkeep]

end

theorem Task.kind_of_receive {t : Task μ} {sender : NodeId} {message : μ} {m : MessageId}
    (h : t.body = .receive sender message m) : t.kind = .receive := by
  simp [Task.kind, h]

theorem Task.kind_ne_receive {t : Task μ}
    (h : ∀ sender message m, t.body ≠ .receive sender message m) : t.kind ≠ .receive := by
  cases hbody : t.body <;> simp_all [Task.kind]

/-- The message that an event is about. -/
def Event.message? : Event → Option MessageId
  | .sent id _ _ | .received id _ _ | .lost id _ => some id
  | _ => none

/-! ### Flow -/

/-- What a change does to the traffic of messages. -/
inductive Flow (c : Cluster σ μ) (h : Hand μ) (w : World σ μ) (h' : Hand μ) (w' : World σ μ) : Prop
  | still (number : w'.nextMessage = w.nextMessage)
      (log : ∃ new, w'.events = w.events ++ new ∧ ∀ o ∈ new, o.event.message? = none)
      (hand : deliveries h'.tasks = deliveries h.tasks)
      (duty : h'.duty = h.duty ∨ deliveries h.tasks = [])
      (pending : deliveries w'.pending.tasks = deliveries w.pending.tasks)
  /-- Deliveries go down with a node. -/
  | crash (v : NodeId) (number : w'.nextMessage = w.nextMessage)
      (log : ∃ new, w'.events = w.events ++ new ∧ ∀ o ∈ new, o.event.message? = none)
      (empty : deliveries h.tasks = []) (duty : h'.duty = .fall v)
      (moved : (deliveries h'.tasks ++ deliveries w'.pending.tasks).Perm
        (deliveries w.pending.tasks))
      (rest : (deliveries w'.pending.tasks).Sublist (deliveries w.pending.tasks))
  | refuse (sender target : NodeId) (message : μ)
      (number : w.nextMessage.next? = some w'.nextMessage)
      (log : w'.events = w.events ++
        [⟨sender, .sent w.nextMessage target (c.protocol.messageText message)⟩,
          ⟨sender, .lost w.nextMessage target⟩])
      (hand : h' = h) (pending : deliveries w'.pending.tasks = deliveries w.pending.tasks)
  | post (t : Task μ) (sender : NodeId) (message : μ) (id : t.id = w.nextTask)
      (body : t.body = .receive sender message w.nextMessage)
      (number : w.nextMessage.next? = some w'.nextMessage)
      (log : w'.events = w.events ++
        [⟨sender, .sent w.nextMessage t.owner (c.protocol.messageText message)⟩])
      (hand : h' = h) (pending : deliveries w'.pending.tasks = deliveries w.pending.tasks ++ [t])
  | lose (t : Task μ) (sender : NodeId) (message : μ) (m : MessageId)
      (body : t.body = .receive sender message m) (number : w'.nextMessage = w.nextMessage)
      (log : w'.events = w.events ++ [⟨sender, .lost m t.owner⟩])
      (hand : deliveries h.tasks = t :: deliveries h'.tasks) (duty : h'.duty = h.duty)
      (pending : w'.pending = w.pending)
  | receive (t : Task μ) (sender : NodeId) (message : μ) (m : MessageId)
      (body : t.body = .receive sender message m) (number : w'.nextMessage = w.nextMessage)
      (log : w'.events = w.events ++
        [⟨t.owner, .received m sender (c.protocol.messageText message)⟩])
      (before : h = .of t) (after : h' = .free) (pending : w'.pending = w.pending)

variable {c : Cluster σ μ} {v : NodeId} {h h' : Hand μ} {w w' : World σ μ}

/-- No message is sent, no event recorded and no delivery added or removed. -/
structure Quiet (w w' : World σ μ) : Prop where
  number : w'.nextMessage = w.nextMessage
  log : w'.events = w.events
  pending : deliveries w'.pending.tasks = deliveries w.pending.tasks

namespace Quiet

theorem flow (quiet : Quiet w w') (hand : deliveries h'.tasks = deliveries h.tasks)
    (duty : h'.duty = h.duty ∨ deliveries h.tasks = []) : Flow c h w h' w' :=
  .still quiet.number ⟨[], by simp [quiet.log]⟩ hand duty quiet.pending

/-- The same after an event about no message. -/
theorem flow_recorded {e : Event} (quiet : Quiet (w.recorded v e) w') (he : e.message? = none)
    (hand : deliveries h'.tasks = deliveries h.tasks)
    (duty : h'.duty = h.duty ∨ deliveries h.tasks = []) : Flow c h w h' w' :=
  .still quiet.number ⟨[⟨v, e⟩], quiet.log, by simpa using he⟩ hand duty quiet.pending

theorem of_eq (number : w'.nextMessage = w.nextMessage) (log : w'.events = w.events)
    (pending : w'.pending = w.pending) : Quiet w w' := ⟨number, log, by rw [pending]⟩

theorem trans {w₁ : World σ μ} (first : Quiet w w₁) (second : Quiet w₁ w') : Quiet w w' :=
  ⟨second.number.trans first.number, second.log.trans first.log, second.pending.trans first.pending⟩

theorem of_ends {result : Answer} {i : UInt64} (ends : Ends v result i w w') :
    Quiet (w.recorded v (.finished i result)) w' := by
  obtain ⟨a, rs, -, -, -, -, rfl⟩ := ends
  exact of_eq rfl rfl rfl

theorem of_scheduled {body : Work μ} (hw : w.Numbered)
    (hbody : ∀ sender message m, body ≠ .receive sender message m)
    (scheduled : Scheduled v body w w') : Quiet w w' := by
  obtain ⟨k, k', next, -, -, -, rfl⟩ := scheduled
  refine ⟨rfl, rfl, ?_⟩
  have hticked : (Step.ticked w v .work k').Numbered := hw.congr rfl rfl rfl
  have hkind : Task.kind ⟨w.nextTask, v, k', body⟩ ≠ .receive := Task.kind_ne_receive hbody
  calc deliveries (Step.enqueued (Step.ticked w v .work k') v k' body next).pending.tasks
      = deliveries (w.pending.tasks ++ [⟨w.nextTask, v, k', body⟩]) :=
        congrArg deliveries (hticked.enqueued_tasks v k' body next)
    _ = deliveries w.pending.tasks := by
        rw [deliveries_append, deliveries_cons_of_ne hkind, deliveries_nil, List.append_nil]

theorem of_queued (hw : w.Numbered) (queued : Queued c v w w') : Quiet w w' := by
  obtain ⟨a, -, hqueued⟩ := queued
  split at hqueued
  · exact of_scheduled hw (by simp) hqueued
  · exact of_eq (by rw [hqueued]) (by rw [hqueued]) (by rw [hqueued])

/-- Fault candidates are no deliveries, so removing some leaves the deliveries. -/
theorem of_erased {ids : List TaskId} (hw : w.Numbered)
    (hids : ∀ id ∈ ids, ∃ e ∈ w.candidates, id ∈ e.2) (number : w'.nextMessage = w.nextMessage)
    (log : w'.events = w.events) (pending : w'.pending = ids.foldl Pending.erase w.pending) :
    Quiet w w' := by
  refine ⟨number, log, ?_⟩
  rw [pending, Pending.foldl_erase_tasks]
  refine deliveries_filter fun t ht hgone hkind => ?_
  have hmem : t.id ∈ ids := by simpa using hgone
  obtain ⟨e, he, hid⟩ := hids t.id hmem
  have hfault := (hw.marked e he t.id hid).2 t ht rfl
  rw [hkind] at hfault
  cases hfault

theorem of_withdrawn (hw : w.Numbered) (m : MessageId) : Quiet w (w.withdrawn m) :=
  of_erased hw (fun _ hid => Ascending.exists_of_mem_lookup hid) rfl rfl rfl

theorem of_pruned (hw : w.Numbered) : Quiet w w.pruned := by
  refine of_erased hw (fun id hid => ?_) rfl rfl rfl
  obtain ⟨e, he, hid⟩ := List.mem_flatMap.mp (List.mem_filter.mp hid).1
  exact ⟨e, he, hid⟩

end Quiet

theorem Request.flow (hw : w.Numbered) (request : Request c v w w') : Flow c h w h w' := by
  cases request with
  | lose message target known clock ticks number cut =>
    exact .refuse v target message number (by simp [World.recorded, World.dispatched, Step.ticked])
      rfl rfl
  | @post w₁ k k' next nextTask ids message target known clock ticks number reached place offered =>
    obtain ⟨-, new, last, rfl, -, hnew⟩ := hw.of_posted place offered
    obtain ⟨candidates, hattached⟩ := World.attached_eq _ w.nextMessage ids
    rw [hattached]
    have hnone : deliveries new = [] := deliveries_eq_nil fun t ht hkind => by
      have hfault := (hnew t ht).isFault
      rw [hkind] at hfault
      cases hfault
    refine .post ⟨w.nextTask, target, k', .receive v message w.nextMessage⟩ v message rfl rfl number
      rfl rfl ?_
    rw [deliveries_append, deliveries_cons rfl, hnone]
  | note text => exact Quiet.flow_recorded (.of_eq rfl rfl rfl) rfl rfl (.inl rfl)
  | conclude real ends queued =>
    have quiet := (Quiet.of_ends ends).trans (.of_queued (hw.ended ends) queued)
    exact quiet.flow_recorded rfl rfl (.inl rfl)
  | start agenda => exact Quiet.flow (.of_eq rfl rfl rfl) rfl (.inl rfl)
  | lend x => exact Quiet.flow (.of_eq rfl rfl rfl) rfl (.inl rfl)

/-- The hand of a task that delivers nothing holds no delivery. -/
theorem deliveries_of {t : Task μ} {body : Work μ} (hbody : t.body = body)
    (h : ∀ sender message m, body ≠ .receive sender message m) :
    deliveries (Hand.of t).tasks = [] :=
  deliveries_cons_of_ne (Task.kind_ne_receive (hbody ▸ h))

theorem Task.Void.deliveries_of {t : Task μ} (h : t.Void c w) : deliveries (Hand.of t).tasks = [] := by
  refine deliveries_cons_of_ne (Task.kind_ne_receive fun sender message m hbody => ?_)
  simp [Task.Void, hbody] at h

/-- The tasks that go down with a node and those that stay are all of them. -/
theorem deliveries_drained (l : List (Task μ)) (drop : Task μ → Bool) :
    (deliveries (l.filter drop) ++ deliveries (l.filter fun t => !drop t)).Perm (deliveries l) := by
  rw [← deliveries_append]
  exact (List.filter_append_perm drop l).filter _

/-- Every change does one of these things to the traffic. -/
theorem Change.flow (hw : w.Numbered) (change : Change c h w h' w') : Flow c h w h' w' := by
  cases change with
  | request _ does => exact does.flow hw
  | prune => exact (Quiet.of_pruned hw).flow rfl (.inl rfl)
  | close v => exact Quiet.flow_recorded (.of_eq rfl rfl rfl) rfl rfl (.inl rfl)
  | withdraw => exact (Quiet.of_withdrawn hw _).flow rfl (.inl rfl)
  | lose body doomed =>
    exact .lose _ _ _ _ body rfl rfl (deliveries_cons (Task.kind_of_receive body)) rfl rfl
  | receive body up reached clock ticks => exact .receive _ _ _ _ body rfl rfl rfl rfl rfl
  | skip void =>
    have hnone := void.deliveries_of
    exact Quiet.flow (.of_eq rfl rfl rfl) hnone.symm (.inr hnone)
  | discard w kind =>
    exact Quiet.flow (.of_eq rfl rfl rfl) (deliveries_cons_of_ne kind).symm (.inl rfl)
  | begin body up listed agenda number =>
    have hnone := deliveries_of body (by simp)
    exact Quiet.flow_recorded (.of_eq rfl rfl rfl) rfl hnone.symm (.inr hnone)
  | crash body allowed =>
    refine .crash _ rfl ⟨[⟨_, .crashed⟩], rfl, by simp [Event.message?]⟩ ?_ rfl
      (deliveries_drained _ _) (List.filter_sublist.filter _)
    exact deliveries_of body (by simp)
  | fall stops =>
    rename_i v
    rcases stops with ⟨-, rfl⟩ | ⟨i, ends⟩
    · exact Quiet.flow (.of_eq rfl rfl rfl) rfl (.inr rfl)
    · have hvacated : Quiet (w.recorded v (.finished i .crashed))
          ((w.vacated v).recorded v (.finished i .crashed)) := .of_eq rfl rfl rfl
      exact (hvacated.trans (.of_ends ends)).flow_recorded rfl rfl (.inr rfl)
  | undo mends does =>
    split at does
    · refine (Quiet.of_scheduled hw ?_ does).flow rfl (.inr rfl)
      rcases mends with rfl | rfl <;> simp
    · exact Quiet.flow (.of_eq (by rw [does]) (by rw [does]) (by rw [does])) rfl (.inr rfl)
  | recover body allowed agenda =>
    have hnone := deliveries_of body (by simp)
    exact Quiet.flow_recorded (.of_eq rfl rfl rfl) rfl hnone.symm (.inr hnone)
  | resume agenda does =>
    split at does
    · exact (Quiet.of_queued hw does).flow rfl (.inr rfl)
    · exact Quiet.flow (.of_eq (by rw [does]) (by rw [does]) (by rw [does])) rfl (.inr rfl)
  | split body drawn =>
    have hnone := deliveries_of body (by simp)
    exact Quiet.flow_recorded (.of_eq rfl rfl rfl) rfl hnone.symm (.inr hnone)
  | splitRefused body drawn =>
    have hnone := deliveries_of body (by simp)
    exact Quiet.flow (.of_eq rfl rfl rfl) hnone.symm (.inr hnone)
  | heal body drawn =>
    have hnone := deliveries_of body (by simp)
    exact Quiet.flow_recorded (.of_eq rfl rfl rfl) rfl hnone.symm (.inr hnone)
  | healRefused body drawn =>
    have hnone := deliveries_of body (by simp)
    exact Quiet.flow (.of_eq rfl rfl rfl) hnone.symm (.inr hnone)

end Interleave
