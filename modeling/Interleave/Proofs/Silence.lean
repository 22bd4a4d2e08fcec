/-
# A node that is down is silent

Four parts of the state say whether a node is down: the list of the crashed nodes,
the table of instances, the log and the pending tasks. They agree wherever all
handlers returned. The log of a node is read from its start by `Event.follow`,
which stops at an event that does not fit: a crash of a node that is down, a
recovery of one that is up, or anything that only a node that is up can do. So all
that the log has to say is that reading it does not stop, and where it ends.

Most of what happens takes no node down and brings none back: `Hush` says what
such a stretch may add to the log and to the pending tasks. A crash and a recovery
are the two that are left.

Key definitions: `Event.follow`, `World.SentSince`, `Hush`, `Hushed`, `Lull`, `Silent`.
Key theorems: `Event.exists_outages`, `Requests.hush`, `Hushed.outage`, `Silent.turn`,
`Reaches.silent`, `Reaches.crashed_silent`.
-/
import Interleave.Proofs.Turn

namespace Interleave

variable {σ μ : Type}

/-! ### Reading the log of a node -/

namespace Event

/-- What only a node that is up does. -/
def isAct : Event → Bool
  | started .. | sent .. | received .. | noted _ | partitioned _ | closed => true
  | _ => false

/-- The node goes down or comes back. -/
def isOutage : Event → Bool
  | crashed | recovered => true
  | _ => false

/-- Whether a node is down after an event, unless the event cannot happen there. -/
def downAfter (down : Bool) : Event → Option Bool
  | crashed => if down then none else some true
  | recovered => if down then some false else none
  | e => if down && e.isAct then none else some down

/-- Whether a node is down after its events, unless one of them cannot happen. -/
def follow (down : Bool) (es : List Event) : Option Bool := es.foldlM downAfter down

variable {down down' : Bool} {e : Event} {es es' : List Event}

theorem follow_append_iff : follow down (es ++ es') = some down' ↔
    ∃ d, follow down es = some d ∧ follow d es' = some down' := by
  simp [follow, List.foldlM_append, Option.bind_eq_some_iff]

theorem follow_cons_iff : follow down (e :: es) = some down' ↔
    ∃ d, downAfter down e = some d ∧ follow d es = some down' := by
  simp [follow, Option.bind_eq_some_iff]

theorem follow_singleton : follow down [e] = downAfter down e := by simp [follow]

theorem downAfter_of_calm (hcalm : e.isOutage = false) (hact : e.isAct = true → down = false) :
    downAfter down e = some down := by
  cases e <;> simp_all [downAfter, isOutage, isAct]

/-- Events that take the node neither down nor back leave it as it was. -/
theorem follow_of_calm (hcalm : ∀ e ∈ es, e.isOutage = false)
    (hact : ∀ e ∈ es, e.isAct = true → down = false) : follow down es = some down := by
  induction es with
  | nil => rfl
  | cons e es ih =>
    have hfirst : downAfter down e = some down :=
      downAfter_of_calm (hcalm e (by simp)) (hact e (by simp))
    exact follow_cons_iff.mpr ⟨down, hfirst, ih (fun x hx => hcalm x (by simp [hx]))
      fun x hx => hact x (by simp [hx])⟩

/-- Crashes and recoveries take turns, and a crash comes first. -/
theorem exists_outages (h : follow false es = some down) :
    ∃ n, es.filter isOutage =
      (List.replicate n [crashed, recovered]).flatten ++ if down then [crashed] else [] := by
  induction es using List.reverseRecOn generalizing down with
  | nil =>
    cases h
    exact ⟨0, rfl⟩
  | append_singleton es e ih =>
    obtain ⟨d, hes, he⟩ := follow_append_iff.mp h
    rw [follow_singleton] at he
    obtain ⟨n, hn⟩ := ih hes
    by_cases hcrash : e = crashed
    · subst hcrash
      cases d <;> cases he
      exact ⟨n, by simp [hn, isOutage]⟩
    by_cases hrecover : e = recovered
    · subst hrecover
      cases d <;> cases he
      refine ⟨n + 1, ?_⟩
      simp [hn, isOutage, List.replicate_succ']
    · -- Any other event leaves the node where it was.
      have hsame : d = down ∧ e.isOutage = false := by
        cases e <;> simp_all [downAfter, isOutage]
      obtain ⟨rfl, hcalm⟩ := hsame
      exact ⟨n, by simp [hn, hcalm]⟩

theorem getLast?_outages (n : Nat) (down : Bool) :
    ((List.replicate n [crashed, recovered]).flatten ++ if down then [crashed] else []).getLast? =
      some crashed ↔ down = true := by
  cases down with
  | true => simp
  | false => cases n <;> simp [List.replicate_succ']

/-- A node that is down does nothing before it is back. -/
theorem isAct_eq_false_of_follow (h : follow true es = some down) (hback : recovered ∉ es) :
    ∀ e ∈ es, e.isAct = false := by
  induction es with
  | nil => simp
  | cons e es ih =>
    obtain ⟨hne, hes⟩ : recovered ≠ e ∧ recovered ∉ es := by simpa using hback
    obtain ⟨d, hfirst, hrest⟩ := follow_cons_iff.mp h
    have hstays : d = true ∧ e.isAct = false := by
      cases e <;> simp_all [downAfter, isAct]
    obtain ⟨rfl, hidle⟩ := hstays
    intro x hx
    rcases List.mem_cons.mp hx with rfl | hx
    · exact hidle
    · exact ih hrest hes x hx

end Event

/-! ### The log of all nodes -/

namespace World

variable {c : Cluster σ μ} {w w' : World σ μ} {p q v : NodeId} {m : MessageId}

theorem eventsAt_of_append {new : List Occurrence} (h : w'.events = w.events ++ new) (p : NodeId) :
    Step.eventsAt w' p =
      Step.eventsAt w p ++ (new.filter (·.node = p)).map Occurrence.event := by
  simp [Step.eventsAt, h]

/-- Node `p` crashed and did not come back, and `sender` sent it message `m` after the crash. -/
def SentSince (w : World σ μ) (p sender : NodeId) (m : MessageId) : Prop :=
  ∃ before after text, w.events = before ++ ⟨p, .crashed⟩ :: after ∧ ⟨p, .recovered⟩ ∉ after ∧
    ⟨sender, .sent m p text⟩ ∈ after

theorem SentSince.append {sender : NodeId} {new : List Occurrence} (h : w.SentSince p sender m)
    (hevents : w'.events = w.events ++ new) (hnew : ⟨p, .recovered⟩ ∉ new) :
    w'.SentSince p sender m := by
  obtain ⟨before, after, text, hsplit, hback, hsent⟩ := h
  refine ⟨before, after ++ new, text, by simp [hevents, hsplit], ?_, by simp [hsent]⟩
  simp [hback, hnew]

/-- The log of a node that is down has a crash with no recovery after it. -/
theorem exists_last_crash {es : List Occurrence}
    (h : Event.follow false ((es.filter (·.node = p)).map Occurrence.event) = some true) :
    ∃ before after, es = before ++ ⟨p, .crashed⟩ :: after ∧ ⟨p, .recovered⟩ ∉ after := by
  induction es using List.reverseRecOn with
  | nil => cases h
  | append_singleton es o ih =>
    obtain ⟨q, e⟩ := o
    rw [List.filter_append, List.map_append] at h
    obtain ⟨d, hes, he⟩ := Event.follow_append_iff.mp h
    by_cases hcrash : (⟨q, e⟩ : Occurrence) = ⟨p, .crashed⟩
    · exact ⟨es, [], by rw [hcrash], by simp⟩
    · -- The last event is not the crash, so the node was down before it and it is no recovery.
      have hdown : d = true ∧ (⟨q, e⟩ : Occurrence) ≠ ⟨p, .recovered⟩ := by
        by_cases hq : q = p
        · subst hq
          simp only [decide_true, List.filter_cons_of_pos, List.filter_nil, List.map_cons,
            List.map_nil, Event.follow_singleton] at he
          cases e <;> simp_all [Event.downAfter]
        · simp_all [Event.follow]
      obtain ⟨rfl, hback⟩ := hdown
      obtain ⟨before, after, rfl, hafter⟩ := ih hes
      exact ⟨before, after ++ [⟨q, e⟩], by simp, by simp [hafter, Ne.symm hback]⟩

end World

/-! ### While no node goes down or comes back -/

/-- The task is none that a node has to be up for: it undoes a fault, or delivers one of the
messages whose sending is among the events `new`. -/
def Task.Harmless (new : List Occurrence) (t : Task μ) : Prop :=
  t.kind = .recover ∨ t.kind = .heal ∨
    ∃ sender message m text, t.body = .receive sender message m ∧ ⟨sender, .sent m t.owner text⟩ ∈ new

theorem Task.Harmless.mono {new new' : List Occurrence} {t : Task μ} (h : t.Harmless new)
    (hnew : ∀ o ∈ new, o ∈ new') : t.Harmless new' := by
  rcases h with h | h | ⟨sender, message, m, text, hbody, hsent⟩
  · exact .inl h
  · exact .inr (.inl h)
  · exact .inr (.inr ⟨sender, message, m, text, hbody, hnew _ hsent⟩)

/-- The events `new` happened while no node went down or came back. Only nodes that are up did
anything, and gave themselves tasks. -/
structure Hush (new : List Occurrence) (w w' : World σ μ) : Prop where
  crashed : w'.fault.crashed = w.fault.crashed
  events : w'.events = w.events ++ new
  calm : ∀ o ∈ new, o.event.isOutage = false
  acts : ∀ o ∈ new, o.event.isAct = true → w.fault.isCrashed o.node = false
  tasks : ∀ t ∈ w'.pending.tasks, t ∈ w.pending.tasks ∨ w.fault.isCrashed t.owner = false ∨
    t.Harmless new

namespace Hush

variable {c : Cluster σ μ} {w w₁ w₂ w' : World σ μ} {new new' : List Occurrence} {v : NodeId}

theorem isCrashed_eq (h : Hush new w w') (p : NodeId) :
    w'.fault.isCrashed p = w.fault.isCrashed p := by
  rw [FaultState.isCrashed, h.crashed, FaultState.isCrashed]

theorem trans (first : Hush new w w₁) (second : Hush new' w₁ w₂) : Hush (new ++ new') w w₂ where
  crashed := second.crashed.trans first.crashed
  events := by rw [second.events, first.events, List.append_assoc]
  calm o ho := by
    rcases List.mem_append.mp ho with ho | ho
    · exact first.calm o ho
    · exact second.calm o ho
  acts o ho hact := by
    rcases List.mem_append.mp ho with ho | ho
    · exact first.acts o ho hact
    · exact first.isCrashed_eq o.node ▸ second.acts o ho hact
  tasks t ht := by
    rcases second.tasks t ht with ht | hup | hharmless
    · exact (first.tasks t ht).imp_right (.imp_right fun h => h.mono fun o ho => by simp [ho])
    · exact .inr (.inl (first.isCrashed_eq t.owner ▸ hup))
    · exact .inr (.inr (hharmless.mono fun o ho => by simp [ho]))

/-- Nothing is logged and no task is added. -/
theorem of_less (hcrashed : w'.fault.crashed = w.fault.crashed) (hevents : w'.events = w.events)
    (htasks : ∀ t ∈ w'.pending.tasks, t ∈ w.pending.tasks) : Hush [] w w' :=
  ⟨hcrashed, by simp [hevents], by simp, by simp, fun t ht => .inl (htasks t ht)⟩

theorem refl (w : World σ μ) : Hush [] w w := of_less rfl rfl fun _ ht => ht

theorem withdrawn (w : World σ μ) (m : MessageId) : Hush [] w (w.withdrawn m) :=
  of_less rfl rfl fun _ ht => (w.withdrawn_sublist m).subset ht

theorem pruned (w : World σ μ) : Hush [] w w.pruned :=
  of_less rfl rfl fun _ ht => w.pruned_sublist.subset ht

theorem take {id : TaskId} {t : Task μ} {pending : Pending μ}
    (htake : w.pending.take id = some (t, pending)) : Hush [] w { w with pending := pending } := by
  obtain ⟨-, rfl⟩ := Pending.take_eq_some_iff.mp htake
  exact of_less rfl rfl fun t ht => (List.mem_filter.mp ht).1

/-- One event is logged, and no task is added. -/
theorem recorded {e : Event} (hcalm : e.isOutage = false)
    (hact : e.isAct = true → w.fault.isCrashed v = false) : Hush [⟨v, e⟩] w (w.recorded v e) where
  crashed := rfl
  events := rfl
  calm := by simpa using hcalm
  acts := by simpa using hact
  tasks _ ht := .inl ht

/-- A state is left as it is but for what the log, the faults and the tasks do not show. -/
theorem congr (h : Hush new w w₁) (hfault : w'.fault = w₁.fault) (hevents : w'.events = w₁.events)
    (htasks : w'.pending = w₁.pending) : Hush new w w' where
  crashed := by rw [hfault, h.crashed]
  events := by rw [hevents, h.events]
  calm := h.calm
  acts := h.acts
  tasks := by rw [htasks]; exact h.tasks

theorem ended {result : Answer} {i : UInt64} (ends : Ends v result i w w') :
    Hush [⟨v, .finished i result⟩] w w' := by
  obtain ⟨a, rs, -, -, -, -, rfl⟩ := ends
  exact (recorded (e := .finished i result) rfl (by simp [Event.isAct])).congr rfl rfl rfl

/-- A task is added. -/
theorem scheduled {body : Work μ} (hw : w.Numbered) (h : Scheduled v body w w')
    (hbody : w.fault.isCrashed v = false ∨ body = .recover ∨ body = .heal) : Hush [] w w' := by
  obtain ⟨k, k', next, -, -, -, rfl⟩ := h
  have hticked : (Step.ticked w v .work k').Numbered := hw.congr rfl rfl rfl
  refine ⟨rfl, (List.append_nil _).symm, by simp, by simp, fun t ht => ?_⟩
  rw [hticked.enqueued_tasks] at ht
  rcases List.mem_append.mp ht with ht | ht
  · exact .inl ht
  · cases List.mem_singleton.mp ht
    rcases hbody with hup | rfl | rfl
    · exact .inr (.inl hup)
    · exact .inr (.inr (.inl rfl))
    · exact .inr (.inr (.inr (.inl rfl)))

theorem queued (hw : w.Numbered) (h : Queued c v w w') (hup : w.fault.isCrashed v = false) :
    Hush [] w w' := by
  obtain ⟨a, -, h⟩ := h
  split at h
  · exact scheduled hw h (.inl hup)
  · exact h ▸ refl w

/-- What a node that is up asks for. -/
theorem request (hw : w.Numbered) (hup : w.fault.isCrashed v = false) (h : Request c v w w') :
    ∃ new, Hush new w w' := by
  cases h with
  | @lose k k' next message target known clock ticks number cut =>
    have hsent : Hush [⟨v, .sent w.nextMessage target (c.protocol.messageText message)⟩] w
        (w.dispatched c v message target k' next) :=
      (recorded rfl fun _ => hup).congr rfl rfl rfl
    exact ⟨_, hsent.trans (recorded rfl (by simp [Event.isAct]))⟩
  | @post w₁ k k' next nextTask ids message target known clock ticks number reached place offered =>
    obtain ⟨-, new, last, heq, -, hnew⟩ := hw.of_posted place offered
    obtain ⟨candidates, hattached⟩ := World.attached_eq w₁ w.nextMessage ids
    refine ⟨[⟨v, .sent w.nextMessage target (c.protocol.messageText message)⟩], ?_⟩
    rw [hattached, heq]
    refine ⟨rfl, rfl, by simp [Event.isOutage], by simp [hup], fun t ht => ?_⟩
    rcases List.mem_append.mp ht with ht | ht
    · exact .inl ht
    rcases List.mem_cons.mp ht with rfl | ht
    · exact .inr (.inr (.inr (.inr ⟨v, message, w.nextMessage, _, rfl, List.mem_singleton_self _⟩)))
    · exact .inr (.inl ((hnew t ht).owner ▸ hup))
  | note text => exact ⟨_, (recorded (e := .noted text) rfl fun _ => hup).congr rfl rfl rfl⟩
  | conclude real ends queued =>
    have hended := ended ends
    exact ⟨_, hended.trans (.queued (hw.ended ends) queued (hended.isCrashed_eq v ▸ hup))⟩
  | start agenda => exact ⟨[], of_less rfl rfl fun _ ht => ht⟩
  | lend x => exact ⟨[], of_less rfl rfl fun _ ht => ht⟩

end Hush

/-- What the handlers of a node that is up do. -/
theorem Requests.hush {c : Cluster σ μ} {v : NodeId} {w w' : World σ μ} (h : Requests c v w w')
    (hw : w.Numbered) (hup : w.fault.isCrashed v = false) :
    w'.Numbered ∧ ∃ new, Hush new w w' := by
  induction h with
  | refl => exact ⟨hw, [], .refl w⟩
  | tail _ last ih =>
    obtain ⟨hnumbered, new, hfirst⟩ := ih
    obtain ⟨new', hlast⟩ := Hush.request hnumbered (hfirst.isCrashed_eq v ▸ hup) last
    exact ⟨hnumbered.request last, _, hfirst.trans hlast⟩

/-! ### Nodes that are down -/

namespace FaultState

variable {m m' : FaultState} {v : NodeId}

theorem isCrashed_of_crash? (h : m.crash? v = some m') : m.isCrashed v = false ∧
    m'.isCrashed v = true ∧ ∀ p, v ≠ p → m'.isCrashed p = m.isCrashed p := by
  obtain ⟨hperm, hnot⟩ := crashed_of_crash? h
  refine ⟨?_, isCrashed_iff.mpr (hperm.symm.subset List.mem_cons_self), fun p hp => ?_⟩
  · rw [Bool.eq_false_iff]
    exact fun hdown => hnot (isCrashed_iff.mp hdown)
  · rw [Bool.eq_iff_iff, isCrashed_iff, isCrashed_iff, hperm.mem_iff]
    simp [Ne.symm hp]

theorem isCrashed_of_recover? (h : m.recover? v = some m') (hnodup : m.crashed.Nodup) :
    m.isCrashed v = true ∧ m'.isCrashed v = false ∧ ∀ p, v ≠ p → m'.isCrashed p = m.isCrashed p := by
  obtain ⟨hmem, herase⟩ := crashed_of_recover? h
  refine ⟨isCrashed_iff.mpr hmem, ?_, fun p hp => ?_⟩
  · rw [Bool.eq_false_iff]
    intro hstill
    rw [isCrashed_iff, herase, hnodup.mem_erase_iff] at hstill
    exact hstill.1 rfl
  · rw [Bool.eq_iff_iff, isCrashed_iff, isCrashed_iff, herase, List.mem_erase_of_ne (Ne.symm hp)]

end FaultState

/-- The log and the pending tasks agree with the list of the crashed nodes. -/
structure Hushed (w : World σ μ) : Prop where
  log : ∀ p, Event.follow false (Step.eventsAt w p) = some (w.fault.isCrashed p)
  tasks : ∀ t ∈ w.pending.tasks, w.fault.isCrashed t.owner = true → t.kind = .recover ∨
    t.kind = .heal ∨ ∃ sender message m, t.body = .receive sender message m ∧
      w.SentSince t.owner sender m

namespace Hushed

variable {c : Cluster σ μ} {w w' : World σ μ} {new : List Occurrence} {v : NodeId}

theorem hush (h : Hushed w) (hush : Hush new w w') : Hushed w' where
  log p := by
    rw [World.eventsAt_of_append hush.events, hush.isCrashed_eq]
    refine Event.follow_append_iff.mpr ⟨_, h.log p, Event.follow_of_calm ?_ ?_⟩
    · intro e he
      obtain ⟨o, ho, rfl⟩ := List.mem_map.mp he
      exact hush.calm o (List.mem_filter.mp ho).1
    · intro e he hact
      obtain ⟨o, ho, rfl⟩ := List.mem_map.mp he
      obtain ⟨hmem, hnode⟩ := List.mem_filter.mp ho
      cases of_decide_eq_true hnode
      exact hush.acts o hmem hact
  tasks t ht hdown := by
    have hback : ⟨t.owner, .recovered⟩ ∉ new := fun ho => by
      have hcalm := hush.calm _ ho
      simp [Event.isOutage] at hcalm
    rw [hush.isCrashed_eq] at hdown
    rcases hush.tasks t ht with hold | hup | hharmless
    · refine (h.tasks t hold hdown).imp_right (.imp_right ?_)
      rintro ⟨sender, message, m, hbody, hsince⟩
      exact ⟨sender, message, m, hbody, hsince.append hush.events hback⟩
    · rw [hup] at hdown
      cases hdown
    · refine hharmless.imp_right (.imp_right ?_)
      rintro ⟨sender, message, m, text, hbody, hsent⟩
      -- The node is down, so its log has the crash that the message was sent after.
      have hcrashed : Event.follow false ((w.events.filter (·.node = t.owner)).map
          Occurrence.event) = some true := hdown ▸ h.log t.owner
      obtain ⟨before, after, hsplit, hafter⟩ := World.exists_last_crash hcrashed
      refine ⟨sender, message, m, hbody, before, after ++ new, text, ?_, ?_, by simp [hsent]⟩
      · rw [hush.events, hsplit, List.append_assoc, List.cons_append]
      · simp [hafter, hback]

/-- Node `v` goes down or comes back. Where it goes down, it keeps none of its tasks but heals. -/
theorem outage {e : Event} (h : Hushed w) (hevents : w'.events = w.events ++ [⟨v, e⟩])
    (hstate : Event.downAfter (w.fault.isCrashed v) e = some (w'.fault.isCrashed v))
    (hother : ∀ p, v ≠ p → w'.fault.isCrashed p = w.fault.isCrashed p)
    (htasks : ∀ t ∈ w'.pending.tasks, t ∈ w.pending.tasks ∧
      (v = t.owner → w'.fault.isCrashed v = true → t.kind = .heal)) : Hushed w' := by
  refine ⟨fun p => ?_, fun t ht hdown => ?_⟩
  · rw [World.eventsAt_of_append hevents]
    by_cases hp : v = p
    · subst hp
      exact Event.follow_append_iff.mpr ⟨_, h.log v, by simpa [Event.follow_singleton] using hstate⟩
    · rw [hother p hp]
      exact Event.follow_append_iff.mpr ⟨_, h.log p, by simp [hp, Event.follow]⟩
  · obtain ⟨hmem, hheal⟩ := htasks t ht
    by_cases howner : v = t.owner
    · exact .inr (.inl (hheal howner (howner ▸ hdown)))
    · refine (h.tasks t hmem (hother _ howner ▸ hdown)).imp_right (.imp_right ?_)
      rintro ⟨sender, message, m, hbody, hsince⟩
      exact ⟨sender, message, m, hbody, hsince.append hevents (by simp [Ne.symm howner])⟩

/-- Node `v` goes down. All that it has pending goes with it, but for heals. -/
theorem struck {fault : FaultState} (h : Hushed w) (hcrash : w.fault.crash? v = some fault)
    (m : MessageId) : Hushed (w.struck v fault (Step.diesWith v m)) := by
  obtain ⟨hup, hdown, hother⟩ := FaultState.isCrashed_of_crash? hcrash
  refine h.outage (e := .crashed) rfl ?_ hother fun t ht => ?_
  · rw [hup]
    exact congrArg some hdown.symm
  · obtain ⟨hmem, hstays⟩ := List.mem_filter.mp ht
    refine ⟨hmem, fun howner _ => ?_⟩
    by_contra hkind
    simp [Step.diesWith, howner, hkind] at hstays

/-- Node `v` comes back. -/
theorem revived {fault : FaultState} {a : Agenda} (h : Hushed w) (hnodup : w.fault.crashed.Nodup)
    (hrecover : w.fault.recover? v = some fault) : Hushed (w.revived c v fault a) := by
  obtain ⟨hdown, hup, hother⟩ := FaultState.isCrashed_of_recover? hrecover hnodup
  refine h.outage (e := .recovered) rfl ?_ hother fun t ht => ⟨ht, fun _ hstill => ?_⟩
  · rw [hdown]
    exact congrArg some hup.symm
  · cases hup.symm.trans hstill

end Hushed

/-! ### Instances -/

/-- The instances, too, agree with the list of the crashed nodes. -/
structure Silent (c : Cluster σ μ) (w : World σ μ) : Prop where
  hushed : Hushed w
  live : ∀ p : NodeId, p.index < c.size →
    (w.instances[p.index]?).map Option.isSome = some (!w.fault.isCrashed p)

/-- No node went down or came back, and every node that had an instance has one. -/
structure Lull (w w' : World σ μ) : Prop where
  numbered : w'.Numbered
  hush : ∃ new, Hush new w w'
  live : w'.instances.map Option.isSome = w.instances.map Option.isSome

namespace Lull

variable {c : Cluster σ μ} {w w₁ w₂ w' : World σ μ} {v : NodeId}

theorem refl (hw : w.Numbered) : Lull w w := ⟨hw, ⟨[], .refl w⟩, rfl⟩

theorem trans (first : Lull w w₁) (second : Lull w₁ w₂) : Lull w w₂ := by
  obtain ⟨new, hfirst⟩ := first.hush
  obtain ⟨new', hsecond⟩ := second.hush
  exact ⟨second.numbered, ⟨_, hfirst.trans hsecond⟩, second.live.trans first.live⟩

theorem isCrashed_eq (h : Lull w w') (p : NodeId) : w'.fault.isCrashed p = w.fault.isCrashed p := by
  obtain ⟨new, hush⟩ := h.hush
  exact hush.isCrashed_eq p

theorem attends (hw : w.Numbered) (hup : w.fault.isCrashed v = false) (h : Attends c v w w') :
    Lull w w' := by
  obtain ⟨hnumbered, hush⟩ := Requests.hush h.requests hw hup
  exact ⟨hnumbered, hush, h.live⟩

theorem withdrawn (hw : w.Numbered) (m : MessageId) : Lull w (w.withdrawn m) :=
  ⟨hw.withdrawn m, ⟨[], .withdrawn w m⟩, rfl⟩

theorem pruned (hw : w.Numbered) : Lull w w.pruned := ⟨hw.pruned, ⟨[], .pruned w⟩, rfl⟩

theorem recorded {e : Event} (hw : w.Numbered) (hcalm : e.isOutage = false)
    (hact : e.isAct = true → w.fault.isCrashed v = false) : Lull w (w.recorded v e) :=
  ⟨hw.congr rfl rfl rfl, ⟨_, .recorded hcalm hact⟩, rfl⟩

theorem scheduled {body : Work μ} (hw : w.Numbered) (h : Scheduled v body w w')
    (hbody : w.fault.isCrashed v = false ∨ body = .recover ∨ body = .heal) : Lull w w' := by
  refine ⟨hw.scheduled h, ⟨[], .scheduled hw h hbody⟩, ?_⟩
  obtain ⟨k, k', next, -, -, -, rfl⟩ := h
  rfl

theorem queued (hw : w.Numbered) (h : Queued c v w w') (hup : w.fault.isCrashed v = false) :
    Lull w w' := by
  obtain ⟨a, -, h⟩ := h
  split at h
  · exact scheduled hw h (.inl hup)
  · subst h
    exact refl hw

theorem ended {result : Answer} {i : UInt64} (hw : w.Numbered) (ends : Ends v result i w w') :
    Lull w w' := by
  refine ⟨hw.ended ends, ⟨_, .ended ends⟩, ?_⟩
  obtain ⟨a, rs, -, -, -, -, rfl⟩ := ends
  rfl

/-- The state is the same but for what neither the log nor the tasks nor the instances show, and the
same nodes are down. -/
theorem congr (hw : w.Numbered) (hcrashed : w'.fault.crashed = w.fault.crashed)
    (hevents : w'.events = w.events) (hpending : w'.pending = w.pending)
    (hinstances : w'.instances = w.instances) (hnext : w'.nextTask = w.nextTask)
    (hcandidates : w'.candidates = w.candidates) : Lull w w' :=
  ⟨hw.congr hpending hnext hcandidates, ⟨[], .of_less hcrashed hevents fun t ht => hpending ▸ ht⟩,
    by rw [hinstances]⟩

theorem begun {a : Agenda} {i next : UInt64} {text : String} (hw : w.Numbered)
    (hup : w.fault.isCrashed v = false) : Lull w (w.begun v a i next text) := by
  have hagenda : Lull w { w with
      agendas := w.agendas.set v.index { a with current := some i, next := next }
      results := w.results.modify v.index (· ++ [.missing]) } :=
    congr hw rfl rfl rfl rfl rfl rfl
  exact hagenda.trans (recorded hagenda.numbered rfl fun _ => hup)

theorem arrived {sender : NodeId} {message : μ} {m : MessageId} {k k' : Clock} (hw : w.Numbered)
    (hup : w.fault.isCrashed v = false) : Lull w (w.arrived c v sender message m k k') := by
  have hticked : Lull w
      (Step.ticked { w with clocks := ⟨w.clocks.clocks.set v.index k⟩ } v (.received m) k') :=
    congr hw rfl rfl rfl rfl rfl rfl
  exact hticked.trans (recorded hticked.numbered rfl fun _ => hup)

/-- What goes down with a node is lost without any node doing something. -/
theorem forfeited (hw : w.Numbered) (t : Task μ) : Lull w (w.forfeited t) := by
  unfold World.forfeited
  split
  · exact (withdrawn hw _).trans (recorded (hw.withdrawn _) rfl (by simp [Event.isAct]))
  · exact refl hw

theorem foldl_forfeited (ts : List (Task μ)) (hw : w.Numbered) :
    Lull w (ts.foldl World.forfeited w) := by
  induction ts generalizing w with
  | nil => exact refl hw
  | cons t ts ih =>
    have hfirst := forfeited hw t
    exact hfirst.trans (ih hfirst.numbered)

end Lull

/-! ### Turns of all kinds -/

namespace Silent

variable {c : Cluster σ μ} {w w' : World σ μ} {v : NodeId} {t : Task μ}

theorem lull (h : Silent c w) (hlull : Lull w w') : Silent c w' := by
  obtain ⟨new, hush⟩ := hlull.hush
  refine ⟨h.hushed.hush hush, fun p hp => ?_⟩
  rw [← List.getElem?_map, hlull.live, List.getElem?_map, hush.isCrashed_eq]
  exact h.live p hp

/-- A node with an instance is up. -/
theorem up_of_instance {x : σ} (h : Silent c w) (hsized : w.Sized c)
    (hx : w.instances[v.index]? = some (some x)) : w.fault.isCrashed v = false := by
  have hv : v.index < c.size := hsized.instances ▸ (List.getElem?_eq_some_iff.mp hx).1
  have hlive := h.live v hv
  rw [hx] at hlive
  simpa using hlive

/-- Node `v` goes down or comes back, and its instance with it. -/
theorem outage (up : Bool) (h : Silent c w) (hsized : w.Sized c) (hhushed : Hushed w')
    (hlive : w'.instances.map Option.isSome = (w.instances.map Option.isSome).set v.index up)
    (hdown : w'.fault.isCrashed v = !up)
    (hother : ∀ p, v ≠ p → w'.fault.isCrashed p = w.fault.isCrashed p) : Silent c w' := by
  refine ⟨hhushed, fun p hp => ?_⟩
  have hplace : p.index < w.instances.length := hsized.instances ▸ hp
  rw [← List.getElem?_map, hlive]
  by_cases hpv : v = p
  · subst hpv
    simp [hplace, hdown]
  · have hindex : v.index ≠ p.index := fun heq => hpv (NodeId.index_inj.mp heq)
    rw [List.getElem?_set_ne hindex, List.getElem?_map, hother p hpv]
    exact h.live p hp

theorem crash {m : MessageId} {fault : FaultState} {w₁ : World σ μ} (h : Silent c w)
    (hw : w.Numbered) (hsized : w.Sized c) (hcrash : w.fault.crash? v = some fault)
    (hstops : ((w.stricken v m fault).Idle v ∧ w₁ = (w.stricken v m fault).vacated v) ∨
      ∃ i, Ends v .crashed i ((w.stricken v m fault).vacated v) w₁)
    (hdue : if c.config.recovers then Scheduled v .recover w₁.pruned w' else w' = w₁.pruned) :
    Silent c w' := by
  obtain ⟨-, hdown, hother⟩ := FaultState.isCrashed_of_crash? hcrash
  have hstruck : (w.struck v fault (Step.diesWith v m)).Numbered :=
    hw.less List.filter_sublist rfl fun e he id hid => ⟨e, he, hid⟩
  have hlost : Lull (w.struck v fault (Step.diesWith v m)) (w.stricken v m fault) :=
    .foldl_forfeited _ hstruck
  have hvacated : ((w.stricken v m fault).vacated v).Numbered := hlost.numbered.congr rfl rfl rfl
  have hsilent : Silent c ((w.stricken v m fault).vacated v) := by
    obtain ⟨new, hush⟩ := hlost.hush
    have hhushed : Hushed (w.stricken v m fault) := (h.hushed.struck hcrash m).hush hush
    refine h.outage (v := v) false hsized (hhushed.hush (.of_less rfl rfl fun _ ht => ht)) ?_ ?_
      fun p hp => ?_
    · rw [World.vacated, List.map_set, hlost.live]
      rfl
    · exact (hush.isCrashed_eq v).trans hdown
    · exact (hush.isCrashed_eq p).trans (hother p hp)
  have hstopped : Lull ((w.stricken v m fault).vacated v) w₁ := by
    rcases hstops with ⟨-, rfl⟩ | ⟨i, ends⟩
    · exact .refl hvacated
    · exact .ended hvacated ends
  have hpruned := hstopped.trans (.pruned hstopped.numbered)
  split at hdue
  · exact hsilent.lull (hpruned.trans (.scheduled hpruned.numbered hdue (.inr (.inl rfl))))
  · exact hdue ▸ hsilent.lull hpruned

theorem recover {fault : FaultState} {a : Agenda} {w₁ : World σ μ} (h : Silent c w)
    (hw : w.Numbered) (hsized : w.Sized c) (hnodup : w.fault.crashed.Nodup) (hv : v.index < c.size)
    (hrecover : w.fault.recover? v = some fault) (hhook : Attends c v (w.revived c v fault a) w₁)
    (hresumes : w' = w₁ ∨ Queued c v w₁ w') : Silent c w' := by
  obtain ⟨-, hup, hother⟩ := FaultState.isCrashed_of_recover? hrecover hnodup
  have hrevived : (w.revived c v fault a).Numbered := hw.congr rfl rfl rfl
  have hsilent : Silent c (w.revived c v fault a) := by
    refine h.outage true hsized (h.hushed.revived hnodup hrecover) ?_ hup hother
    show (w.instances.set v.index (c.registry.spawn? v (w.made.getD v.index 0))).map Option.isSome = _
    rw [List.map_set, Registry.spawn?_isSome hv]
  have hran : Lull (w.revived c v fault a) w₁ := .attends hrevived hup hhook
  rcases hresumes with rfl | hqueued
  · exact hsilent.lull hran
  · exact hsilent.lull (hran.trans (.queued hran.numbered hqueued ((hran.isCrashed_eq v).trans hup)))

/-- A task leaves the parts of the state in agreement. -/
theorem turn {id : TaskId} {pending : Pending μ} (h : Silent c w) (hw : w.Numbered)
    (hb : Booked c .free w) (htake : w.pending.take id = some (t, pending))
    (turn : Turn c t { w with pending := pending } w') : Silent c w' := by
  obtain ⟨hperm, hw₀⟩ := hw.of_take htake
  have ht : t ∈ w.pending.tasks := hperm.symm.subset List.mem_cons_self
  have h₀ : Silent c { w with pending := pending } := h.lull ⟨hw₀, ⟨[], .take htake⟩, rfl⟩
  have hsized : { w with pending := pending }.Sized c := ⟨hb.sized.1, hb.sized.2, hb.sized.3, hb.sized.4⟩
  have howner : t.owner.index < c.size := hb.owners t ht
  cases turn with
  | skip void => exact h₀
  | rouse body up woken => exact h₀.lull (.attends hw₀ up woken)
  | @begin i next operation a w₁ _ body up listed woken agenda number runs =>
    have hwoken := Lull.attends hw₀ up woken
    have hup₁ := (hwoken.isCrashed_eq t.owner).trans up
    have hbegun : Lull _ (w₁.begun t.owner a i next operation.text) :=
      hwoken.trans (.begun hwoken.numbered hup₁)
    exact h₀.lull (hbegun.trans (.attends hbegun.numbered hup₁ runs))
  | @lose sender message m body doomed =>
    have hgone := Lull.withdrawn hw₀ m
    exact h₀.lull (hgone.trans (.recorded hgone.numbered rfl (by simp [Event.isAct])))
  | @balk sender message m _ body up reached woken =>
    have hgone := Lull.withdrawn hw₀ m
    exact h₀.lull (hgone.trans (.attends hgone.numbered up woken))
  | @receive sender message m k k' w₁ _ body up reached woken clock ticks runs =>
    have hgone := Lull.withdrawn hw₀ m
    have hwoken := hgone.trans (.attends hgone.numbered up woken)
    have hup₁ := (hwoken.isCrashed_eq t.owner).trans up
    have harrived : Lull _ (w₁.arrived c t.owner sender message m (k.join t.clock) k') :=
      hwoken.trans (.arrived hwoken.numbered hup₁)
    exact h₀.lull (harrived.trans (.attends harrived.numbered hup₁ runs))
  | crash body allowed stops due => exact h₀.crash hw₀ hsized allowed stops due
  | recover body allowed agenda hook resumes =>
    exact h₀.recover hw₀ hsized hb.crashed howner allowed hook resumes
  | @split m fault source _ body drawn due =>
    -- A node that is down has no partition pending.
    have hup : w.fault.isCrashed t.owner = false := by
      rw [Bool.eq_false_iff]
      intro hdown
      rcases h.hushed.tasks t ht hdown with hkind | hkind | ⟨sender, message, m', hbody, -⟩
      · simp [Task.kind, body] at hkind
      · simp [Task.kind, body] at hkind
      · rw [body] at hbody
        cases hbody
    have hcrashed : fault.crashed = w.fault.crashed := FaultState.crashed_of_partition? drawn
    have hcut : Lull { w with pending := pending }
        { w with pending := pending, source := source, fault := fault } :=
      .congr hw₀ hcrashed rfl rfl rfl rfl rfl
    have hlogged := hcut.trans
      (.recorded (v := t.owner) (e := .partitioned fault.describe) hcut.numbered rfl fun _ =>
        (hcut.isCrashed_eq t.owner).trans hup)
    have hpruned := hlogged.trans (.pruned hlogged.numbered)
    split at due
    · exact h₀.lull (hpruned.trans (.scheduled hpruned.numbered due (.inr (.inr rfl))))
    · exact due ▸ h₀.lull hpruned
  | splitRefused body drawn => exact h₀.lull (.congr hw₀ rfl rfl rfl rfl rfl rfl)
  | @heal fault source body drawn =>
    have hcrashed : fault.crashed = w.fault.crashed := FaultState.crashed_of_heal? drawn
    have hjoined : Lull { w with pending := pending }
        { w with pending := pending, source := source, fault := fault } :=
      .congr hw₀ hcrashed rfl rfl rfl rfl rfl
    exact h₀.lull (hjoined.trans (.recorded hjoined.numbered rfl (by simp [Event.isAct])))
  | healRefused body drawn => exact h₀.lull (.congr hw₀ rfl rfl rfl rfl rfl rfl)

/-- So does telling a node that the scenario is over. -/
theorem parting (h : Silent c w) (hw : w.Numbered) (hsized : w.Sized c) (parting : Parting c v w w') :
    Silent c w' := by
  cases parting with
  | absent none => exact h
  | told present hook settles =>
    have hup := h.up_of_instance hsized present
    have hhook := Lull.attends hw hup hook
    have hup₁ := (hhook.isCrashed_eq v).trans hup
    have hclosed := hhook.trans (.recorded (e := .closed) hhook.numbered rfl fun _ => hup₁)
    exact h.lull (hclosed.trans (.attends hclosed.numbered hup₁ settles))

theorem reset (hsize : c.size < UInt32.size) (w : World σ μ) : Silent c (w.reset c) := by
  refine ⟨⟨fun p => rfl, fun t _ hdown => by cases hdown⟩, fun p hp => ?_⟩
  have hplace : NodeId.ofIndex p.index = p := NodeId.index_inj.mp (NodeId.index_ofIndex (by omega))
  have hspawned := Registry.spawn?_isSome hp (w.made.getD p.index 0)
  show ((List.range c.size).map fun i =>
    c.registry.spawn? (NodeId.ofIndex i) (w.made.getD i 0))[p.index]?.map Option.isSome = some true
  rw [List.getElem?_map, List.getElem?_range hp, Option.map_some, Option.map_some, hplace, hspawned]

end Silent

/-- All parts of the state agree on who is down, wherever all handlers returned. -/
theorem Reaches.silent {c : Cluster σ μ} {w : World σ μ} (hsize : c.size < UInt32.size)
    (hw : Reaches c Abort.Returned w) : Silent c w := by
  have hbooks : ∀ {w : World σ μ}, Reaches c Abort.Returned w → w.Numbered ∧ Booked c .free w :=
    fun hw => (hw.mono fun e he => he.1).booked hsize
  refine hw.turns (fun w => .reset hsize w) ?_ ?_
  · intro w w' id t pending hreached htake turn h
    obtain ⟨hnumbered, hb⟩ := hbooks hreached
    exact h.turn hnumbered hb htake turn
  · intro v w w' hreached parting h
    obtain ⟨hnumbered, hb⟩ := hbooks hreached
    exact h.parting hnumbered hb.sized parting

/-- A node that is down is silent, in every state reached from the start of an iteration by tasks and
hooks in any order that all return. The nodes without an instance are the crashed ones, and those
whose last outage in the log is a crash; the outages of a node alternate, and a crash comes first;
between a crash and the next recovery the node starts, sends, receives, notes, splits and closes
nothing; and what a crashed node has pending undoes a fault or delivers a message that was sent after
the crash. -/
theorem Reaches.crashed_silent {c : Cluster σ μ} {w : World σ μ}
    (haccept : c.toSetup.accept = .ok ()) (hw : Reaches c Abort.Returned w) (p : NodeId) :
    (p.index < c.size → (w.instances[p.index]? = some none ↔ w.fault.isCrashed p = true)) ∧
    (((Step.eventsAt w p).filter Event.isOutage).getLast? = some .crashed ↔
      w.fault.isCrashed p = true) ∧
    (∃ n, (Step.eventsAt w p).filter Event.isOutage =
      (List.replicate n [.crashed, .recovered]).flatten ++
        if w.fault.isCrashed p then [.crashed] else []) ∧
    (∀ before between after, Step.eventsAt w p = before ++ .crashed :: (between ++ after) →
      .recovered ∉ between → ∀ e ∈ between, e.isAct = false) ∧
    (w.fault.isCrashed p = true → ∀ t ∈ w.pending.tasks, t.owner = p → t.kind = .recover ∨
      t.kind = .heal ∨ ∃ sender message m, t.body = .receive sender message m ∧
        w.SentSince p sender m) := by
  have h : Silent c w := hw.silent (Setup.size_lt_of_accept haccept)
  obtain ⟨n, houtages⟩ := Event.exists_outages (h.hushed.log p)
  refine ⟨fun hp => ?_, ?_, ⟨n, houtages⟩, ?_, ?_⟩
  · have hlive := h.live p hp
    cases hx : w.instances[p.index]? with
    | none => rw [hx] at hlive; cases hlive
    | some x =>
      rw [hx] at hlive
      cases x <;> simp_all
  · rw [houtages]
    exact Event.getLast?_outages n _
  · intro before between after hsplit hback
    have hlog := h.hushed.log p
    rw [hsplit] at hlog
    obtain ⟨d, -, hrest⟩ := Event.follow_append_iff.mp hlog
    obtain ⟨d', hcrash, hrest⟩ := Event.follow_cons_iff.mp hrest
    obtain ⟨d'', hbetween, -⟩ := Event.follow_append_iff.mp hrest
    -- Whatever could be read at the crash, the node is down after it.
    have hdown : d' = true := by cases d <;> cases hcrash; rfl
    subst hdown
    exact Event.isAct_eq_false_of_follow hbetween hback
  · rintro hdown t ht rfl
    exact h.hushed.tasks t ht hdown

/-- The first peer crashed after its operation, and then the second one sent it a message. -/
theorem Reaches.crashed_silent_fragile :
    let w := (Step.advances Broadcast.fragile [⟨0⟩, ⟨3⟩, ⟨1⟩]
      ((World.new Broadcast.fragile).reset Broadcast.fragile)).2
    w.fault.crashed = [⟨0⟩] ∧ w.instances[NodeId.index ⟨0⟩]? = some none ∧
      w.pending.tasks.map (fun t => (t.id, t.owner, t.kind)) =
        [(⟨4⟩, ⟨0⟩, .recover), (⟨5⟩, ⟨0⟩, .receive)] ∧
      ∃ sender m, w.SentSince ⟨0⟩ sender m := by
  intro w
  have hw : Reaches Broadcast.fragile Abort.Returned w :=
    (Reaches.start (World.new Broadcast.fragile)).advances (by decide +kernel)
  have hcrashed : w.fault.isCrashed ⟨0⟩ = true := by decide +kernel
  obtain ⟨hinstance, -, -, -, htasks⟩ := hw.crashed_silent rfl ⟨0⟩
  have hpending : w.pending.tasks.map (fun t => (t.id, t.owner, t.kind)) =
      [(⟨4⟩, ⟨0⟩, .recover), (⟨5⟩, ⟨0⟩, .receive)] := by decide +kernel
  refine ⟨by decide +kernel, (hinstance (by decide)).mpr hcrashed, hpending, ?_⟩
  obtain ⟨t, ht, hview⟩ := List.mem_map.mp (hpending ▸ List.mem_cons_of_mem _ List.mem_cons_self)
  obtain ⟨-, howner, hkind⟩ : t.id = ⟨5⟩ ∧ t.owner = ⟨0⟩ ∧ t.kind = .receive := by simpa using hview
  rcases htasks hcrashed t ht howner with hrecover | hheal | ⟨sender, message, m, -, hsince⟩
  · cases hkind.symm.trans hrecover
  · cases hkind.symm.trans hheal
  · exact ⟨sender, m, hsince⟩

end Interleave
