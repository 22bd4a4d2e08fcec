/-
# Messages are conserved

Whatever the nodes do and whichever faults are injected, in any order of the
tasks: the events about a message begin with its send, and then the message is
underway, was received once by the node it was sent to, or was lost once
(`Reaches.message_conserved`). The invariant follows every delivery from the pending
tasks through the hand of the task being executed to the event that ends it
(`Ledger.flow`).
-/
import Interleave.Proofs.Traffic

namespace Interleave

variable {σ μ : Type} {c : Cluster σ μ} {h h' : Hand μ} {w w' : World σ μ} {m : MessageId}

theorem MessageId.lt_iff_of_next? {m m₀ m₁ : MessageId} (h : m₀.next? = some m₁) :
    m < m₁ ↔ m < m₀ ∨ m = m₀ := by
  have hstep : m₁.number = m₀.number + 1 := MessageId.number_of_next? h
  have heq : m = m₀ ↔ m.number = m₀.number := by
    cases m
    cases m₀
    simp [number, UInt64.toNat_inj]
  rw [heq]
  show m.number < m₁.number ↔ m.number < m₀.number ∨ m.number = m₀.number
  omega

/-- Whether the task delivers message `m`. -/
def Task.delivers (m : MessageId) (t : Task μ) : Bool :=
  match t.body with
  | .receive _ _ id => m = id
  | _ => false

theorem Task.delivers_of_body {t : Task μ} {sender : NodeId} {message : μ}
    (h : t.body = .receive sender message m) (k : MessageId) : t.delivers k = decide (k = m) := by
  simp [delivers, h]

namespace World

/-- The events about message `m`, in order. -/
def history (w : World σ μ) (m : MessageId) : List Occurrence :=
  w.events.filter fun o => o.event.message? = some m

/-- The pending deliveries of message `m`. -/
def underway (w : World σ μ) (m : MessageId) : List (Task μ) :=
  w.pending.tasks.filter (Task.delivers m)

theorem history_append {new : List Occurrence} (hlog : w'.events = w.events ++ new) (m : MessageId) :
    w'.history m = w.history m ++ new.filter fun o => o.event.message? = some m := by
  rw [history, hlog, List.filter_append]
  rfl

/-- Events about no message are in no history. -/
theorem history_eq_of_quiet {new : List Occurrence} (hlog : w'.events = w.events ++ new)
    (hnew : ∀ o ∈ new, o.event.message? = none) (m : MessageId) : w'.history m = w.history m := by
  have hnone : (new.filter fun o => o.event.message? = some m) = [] :=
    List.filter_eq_nil_iff.mpr fun o ho => by simp [hnew o ho]
  rw [history_append hlog, hnone, List.append_nil]

end World

/-- The deliveries of message `m` that are pending or in the hand. -/
def inflight (h : Hand μ) (w : World σ μ) (m : MessageId) : List (Task μ) :=
  (deliveries h.tasks ++ deliveries w.pending.tasks).filter (Task.delivers m)

/-- What may have become of message `m`: the deliveries of it and the events about it. -/
inductive Accounted (c : Cluster σ μ) (m : MessageId) : List (Task μ) → List Occurrence → Prop
  | underway (t : Task μ) (sender : NodeId) (message : μ) (body : t.body = .receive sender message m) :
      Accounted c m [t] [⟨sender, .sent m t.owner (c.protocol.messageText message)⟩]
  | received (sender target : NodeId) (text : String) :
      Accounted c m [] [⟨sender, .sent m target text⟩, ⟨target, .received m sender text⟩]
  | lost (sender target : NodeId) (text : String) :
      Accounted c m [] [⟨sender, .sent m target text⟩, ⟨sender, .lost m target⟩]

theorem Accounted.perm {l l' : List (Task μ)} {log : List Occurrence} (ha : Accounted c m l log)
    (hperm : l'.Perm l) : Accounted c m l' log := by
  cases ha with
  | underway t sender message body =>
    rw [List.perm_singleton.mp hperm]
    exact .underway t sender message body
  | received sender target text =>
    rw [List.perm_nil.mp hperm]
    exact .received sender target text
  | lost sender target text =>
    rw [List.perm_nil.mp hperm]
    exact .lost sender target text

/-- Every message with a number was sent and is accounted for; the other numbers are not in use. -/
structure Ledger (c : Cluster σ μ) (h : Hand μ) (w : World σ μ) : Prop where
  used : ∀ m, m < w.nextMessage → Accounted c m (inflight h w m) (w.history m)
  unused : ∀ m, ¬ m < w.nextMessage → inflight h w m = [] ∧ w.history m = []

namespace Ledger

/-- What matters are the deliveries, up to their order, and the histories. -/
theorem congr (hl : Ledger c h w) (hnumber : w'.nextMessage = w.nextMessage)
    (htasks : (deliveries h'.tasks ++ deliveries w'.pending.tasks).Perm
      (deliveries h.tasks ++ deliveries w.pending.tasks))
    (hlog : ∀ m, w'.history m = w.history m) : Ledger c h' w' where
  used m hm := by
    rw [hlog]
    exact (hl.used m (hnumber ▸ hm)).perm (htasks.filter _)
  unused m hm := by
    obtain ⟨htask, hhistory⟩ := hl.unused m (hnumber ▸ hm)
    refine ⟨List.perm_nil.mp ?_, (hlog m).trans hhistory⟩
    exact htask ▸ htasks.filter _

theorem reset (w : World σ μ) : Ledger c .free (w.reset c) := by
  have hnone : deliveries (w.reset c).pending.tasks = [] := deliveries_eq_nil fun t ht hkind => by
    obtain ⟨i, -, rfl⟩ := List.mem_map.mp ht
    cases hkind
  refine ⟨fun m hm => absurd hm (Nat.not_lt_zero _), fun m _ => ⟨?_, rfl⟩⟩
  rw [inflight, hnone]
  rfl

theorem take (hl : Ledger c .free w) (hw : w.Numbered) {id : TaskId} {t : Task μ}
    {pending : Pending μ} (htake : w.pending.take id = some (t, pending)) :
    Ledger c (.of t) { w with pending := pending } := by
  refine hl.congr rfl ?_ fun _ => rfl
  have hperm := (hw.of_take htake).1.symm.filter fun t => t.kind = .receive
  rw [← deliveries_append]
  exact hperm

/-- A message that is given its number joins the accounted ones. -/
theorem of_sent (hl : Ledger c h w) (hnumber : w.nextMessage.next? = some w'.nextMessage)
    (hothers : ∀ m, m ≠ w.nextMessage →
      inflight h' w' m = inflight h w m ∧ w'.history m = w.history m)
    (hsent : inflight h w w.nextMessage = [] → w.history w.nextMessage = [] →
      Accounted c w.nextMessage (inflight h' w' w.nextMessage) (w'.history w.nextMessage)) :
    Ledger c h' w' where
  used m hm := by
    by_cases heq : m = w.nextMessage
    · obtain ⟨htask, hhistory⟩ := hl.unused w.nextMessage (Nat.lt_irrefl _)
      exact heq ▸ hsent htask hhistory
    · have hlt : m < w.nextMessage := ((MessageId.lt_iff_of_next? hnumber).mp hm).resolve_right heq
      rw [(hothers m heq).1, (hothers m heq).2]
      exact hl.used m hlt
  unused m hm := by
    have hnot : ¬ m < w.nextMessage ∧ m ≠ w.nextMessage :=
      not_or.mp fun hor => hm ((MessageId.lt_iff_of_next? hnumber).mpr hor)
    rw [(hothers m hnot.2).1, (hothers m hnot.2).2]
    exact hl.unused m hnot.1

/-- The event that ends a delivery takes its place. -/
theorem of_ended (hl : Ledger c h w) {t : Task μ} {sender : NodeId} {message : μ} {o : Occurrence}
    (hbody : t.body = .receive sender message m) (hnumber : w'.nextMessage = w.nextMessage)
    (hlog : w'.events = w.events ++ [o]) (ho : o.event.message? = some m)
    (htasks : deliveries h.tasks = t :: deliveries h'.tasks) (hpending : w'.pending = w.pending)
    (hend : Accounted c m []
      [⟨sender, .sent m t.owner (c.protocol.messageText message)⟩, o]) : Ledger c h' w' := by
  have hinflight : ∀ k, inflight h w k =
      if k = m then t :: inflight h' w' k else inflight h' w' k := by
    intro k
    unfold inflight
    rw [htasks, hpending, List.cons_append, List.filter_cons, t.delivers_of_body hbody]
    simp
  have hhistory : ∀ k, w'.history k = if k = m then w.history k ++ [o] else w.history k := by
    intro k
    rw [World.history_append hlog]
    by_cases hk : k = m
    · simp [hk, ho]
    · have hne : ¬ m = k := fun heq => hk heq.symm
      simp [hk, ho, hne]
  refine ⟨fun k hk => ?_, fun k hk => ?_⟩
  · have haccounted := hl.used k (hnumber ▸ hk)
    rw [hinflight] at haccounted
    rw [hhistory]
    by_cases heq : k = m
    · subst heq
      rw [if_pos rfl] at haccounted ⊢
      -- The delivery was the only one, and its message was not ended before.
      generalize hl₁ : inflight h' w' k = rest at haccounted ⊢
      generalize w.history k = log at haccounted ⊢
      cases haccounted with
      | underway t sender' message' body =>
        cases hbody.symm.trans body
        exact hend
    · rw [if_neg heq] at haccounted ⊢
      exact haccounted
  · obtain ⟨htask, hlog₀⟩ := hl.unused k (hnumber ▸ hk)
    rw [hinflight] at htask
    by_cases heq : k = m
    · rw [if_pos heq] at htask
      cases htask
    · rw [if_neg heq] at htask
      rw [hhistory, if_neg heq]
      exact ⟨htask, hlog₀⟩

/-- Every change keeps all messages accounted for. -/
theorem flow (hl : Ledger c h w) (flow : Flow c h w h' w') : Ledger c h' w' := by
  cases flow with
  | still number log hand duty pending =>
    obtain ⟨new, hlog, hnew⟩ := log
    exact hl.congr number (by rw [hand, pending]) (World.history_eq_of_quiet hlog hnew)
  | crash v number log empty duty moved rest =>
    obtain ⟨new, hlog, hnew⟩ := log
    exact hl.congr number (by rw [empty]; exact moved) (World.history_eq_of_quiet hlog hnew)
  | refuse sender target message number log hand pending =>
    have hsame : ∀ m, inflight h' w' m = inflight h w m := fun m => by
      rw [inflight, hand, pending]
      rfl
    refine hl.of_sent number (fun m hm => ⟨hsame m, ?_⟩) fun htask hhistory => ?_
    · rw [World.history_append log]
      simp [Event.message?, Ne.symm hm]
    · rw [hsame, htask, World.history_append log, hhistory]
      simpa [Event.message?] using Accounted.lost sender target (c.protocol.messageText message)
  | post t sender message id body number log hand pending =>
    have hmore : ∀ m, inflight h' w' m =
        inflight h w m ++ if m = w.nextMessage then [t] else [] := by
      intro m
      rw [inflight, hand, pending, ← List.append_assoc, List.filter_append, List.filter_cons,
        t.delivers_of_body body]
      simp [inflight]
    refine hl.of_sent number (fun m hm => ⟨?_, ?_⟩) fun htask hhistory => ?_
    · rw [hmore, if_neg hm, List.append_nil]
    · rw [World.history_append log]
      simp [Event.message?, Ne.symm hm]
    · rw [hmore, if_pos rfl, htask, World.history_append log, hhistory]
      simpa [Event.message?] using Accounted.underway t sender message body
  | lose t sender message m body number log hand duty pending =>
    exact hl.of_ended body number log rfl hand pending (.lost ..)
  | receive t sender message m body number log before after pending =>
    subst before after
    exact hl.of_ended body number log rfl (deliveries_cons (Task.kind_of_receive body)) pending
      (.received ..)

end Ledger

/-- All messages are accounted for in every state reached without an abort. -/
theorem Reaches.ledger (hsize : c.size < UInt32.size) (hw : Reaches c (fun _ => False) w) :
    w.Numbered ∧ Ledger c .free w := by
  refine hw.keeps (P := fun h w => w.Numbered ∧ Ledger c h w) (fun _ h => h.elim) ?_ ?_ ?_ ?_
  · exact fun w => ⟨World.numbered_reset hsize w, .reset w⟩
  · rintro w id t pending htake ⟨hnumbered, hl⟩
    exact ⟨(hnumbered.of_take htake).2, hl.take hnumbered htake⟩
  · rintro h₁ w₁ h₂ w₂ change ⟨hnumbered, hl⟩
    exact ⟨hnumbered.change change, hl.flow (change.flow hnumbered)⟩
  · exact fun h => h.elim

theorem inflight_free (w : World σ μ) (m : MessageId) : inflight .free w m = w.underway m := by
  unfold inflight World.underway deliveries
  rw [List.filter_append, List.filter_filter, List.filter_filter]
  refine List.filter_congr fun t _ => ?_
  cases hbody : t.body <;> simp [Task.delivers, Task.kind, hbody]

/-- Messages are conserved: in every state reached from the start of an iteration by tasks and
hooks in any order, all of which succeed, the events about a message are its send, and after it the
receipt at its target or its loss unless exactly one delivery of it is pending. So when nothing is
pending, every message was either received once or lost once. -/
theorem Reaches.message_conserved (haccept : c.toSetup.accept = .ok ())
    (hw : Reaches c (fun _ => False) w) (hm : m < w.nextMessage) :
    ∃ sender target text,
      ((w.history m = [⟨sender, .sent m target text⟩] ∧
          ∃ t, w.underway m = [t] ∧ t.owner = target ∧ t.sender? = some sender) ∨
        (w.underway m = [] ∧
          (w.history m = [⟨sender, .sent m target text⟩, ⟨target, .received m sender text⟩] ∨
            w.history m = [⟨sender, .sent m target text⟩, ⟨sender, .lost m target⟩]))) ∧
      (w.pending.isEmpty = true →
        w.history m = [⟨sender, .sent m target text⟩, ⟨target, .received m sender text⟩] ∨
          w.history m = [⟨sender, .sent m target text⟩, ⟨sender, .lost m target⟩]) := by
  have hledger := (hw.ledger (Setup.size_lt_of_accept haccept)).2
  have haccounted := hledger.used m hm
  rw [inflight_free] at haccounted
  have hempty : w.pending.isEmpty = true → w.underway m = [] := fun h => by
    rw [World.underway, List.isEmpty_iff.mp h]
    rfl
  generalize w.underway m = tasks at haccounted hempty
  generalize w.history m = log at haccounted
  cases haccounted with
  | underway t sender message body =>
    refine ⟨sender, t.owner, _, .inl ⟨rfl, t, rfl, rfl, by simp [Task.sender?, body]⟩, fun h => ?_⟩
    cases hempty h
  | received sender target text =>
    exact ⟨sender, target, text, .inr ⟨rfl, .inl rfl⟩, fun _ => .inl rfl⟩
  | lost sender target text =>
    exact ⟨sender, target, text, .inr ⟨rfl, .inr rfl⟩, fun _ => .inr rfl⟩

/-- The first peer crashes right after its send, and the value of the second one comes while it is
down. -/
theorem Reaches.message_conserved_fragile :
    let w := (Step.advances Broadcast.fragile [⟨0⟩, ⟨3⟩, ⟨1⟩, ⟨5⟩, ⟨4⟩]
      ((World.new Broadcast.fragile).reset Broadcast.fragile)).2
    ⟨1⟩ < w.nextMessage ∧ ∃ sender target text,
      w.history ⟨1⟩ = [⟨sender, .sent ⟨1⟩ target text⟩, ⟨target, .received ⟨1⟩ sender text⟩] ∨
        w.history ⟨1⟩ = [⟨sender, .sent ⟨1⟩ target text⟩, ⟨sender, .lost ⟨1⟩ target⟩] := by
  intro w
  have hw : Reaches Broadcast.fragile (fun _ => False) w :=
    (Reaches.start (World.new Broadcast.fragile)).advances (by decide +kernel)
  have hm : ⟨1⟩ < w.nextMessage := by decide +kernel
  have hempty : w.pending.isEmpty = true := by decide +kernel
  obtain ⟨sender, target, text, -, hend⟩ := hw.message_conserved rfl hm
  exact ⟨hm, sender, target, text, hend hempty⟩

end Interleave
