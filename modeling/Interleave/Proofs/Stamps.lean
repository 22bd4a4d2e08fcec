/-
# The stamps of an execution

Every event on a clock is written down with the clock right after it. The stamps
stay faithful whatever is executed (`Stamped.change`): an event of a node's own hears of
the node only, and the receipt of a message hears of its sending as well, for the
delivery carries the clock of the sending and no other message has its number. Every
task carries the clock of the event that made it.

So in every state that is reached, one event's stamp happens before another's
exactly if the one causally precedes the other (`Reaches.stamps_causal`).
-/
import Interleave.Proofs.Causality

namespace Interleave

/-! ### The events of an execution -/

namespace Tick

/-- The stamps are faithful, and the messages sent and received are numbered, each sent once. -/
structure Ledger (l : List Tick) (clocks : List Clock) (next : MessageId) : Prop where
  faithful : Faithful l clocks
  below : ∀ a ∈ l, ∀ m, a.cause = .sent m ∨ a.cause = .received m → m < next
  unique : ∀ a ∈ l, ∀ b ∈ l, ∀ m, a.cause = .sent m → b.cause = .sent m → a = b

namespace Ledger

variable {l : List Tick} {clocks : List Clock} {next next' : MessageId} {v : NodeId} {k k' : Clock}

theorem first {n : Nat} (hn : n < UInt32.size) :
    Ledger ((List.range n).map (Tick.first n)) ((List.range n).map (World.firstClock n)) next := by
  have hwork : ∀ a ∈ (List.range n).map (Tick.first n), a.cause = .work := by
    intro a ha
    obtain ⟨i, -, rfl⟩ := List.mem_map.mp ha
    rfl
  refine ⟨faithful_first hn, fun a ha m hm => ?_, fun a ha b _ m hm _ => ?_⟩
  · rw [hwork a ha] at hm
    rcases hm with hm | hm <;> cases hm
  · rw [hwork a ha] at hm
    cases hm

/-- A new event is about a message with a number, and sends none that was sent. -/
theorem snoc (h : Ledger l clocks next) {x : Tick} {clocks' : List Clock}
    (hfaithful : Faithful (l ++ [x]) clocks') (hnext : ∀ {m : MessageId}, m < next → m < next')
    (hbelow : ∀ m, x.cause = .sent m ∨ x.cause = .received m → m < next')
    (hfresh : ∀ m, x.cause = .sent m → ∀ a ∈ l, a.cause ≠ .sent m) :
    Ledger (l ++ [x]) clocks' next' where
  faithful := hfaithful
  below a ha m hm := by
    rcases List.mem_append.mp ha with ha | ha
    · exact hnext (h.below a ha m hm)
    · cases List.mem_singleton.mp ha
      exact hbelow m hm
  unique a ha b hb m hm hm' := by
    rcases List.mem_append.mp ha with ha | ha
    · rcases List.mem_append.mp hb with hb | hb
      · exact h.unique a ha b hb m hm hm'
      · cases List.mem_singleton.mp hb
        exact absurd hm (hfresh m hm' a ha)
    · cases List.mem_singleton.mp ha
      rcases List.mem_append.mp hb with hb | hb
      · exact absurd hm' (hfresh m hm b hb)
      · exact (List.mem_singleton.mp hb).symm

/-- A node does work of its own. -/
theorem work (h : Ledger l clocks next) (hk : clocks[v.index]? = some k)
    (hticks : k.tick? v = some k') :
    Ledger (l ++ [⟨v, .work, k'⟩]) (clocks.set v.index k') next := by
  have hears : Hears l ⟨v, .work, k'⟩ k := h.faithful.hears_own hk (by simp)
  exact h.snoc (h.faithful.snoc hk hears hticks (by simp)) id (by simp) (by simp)

/-- A node sends the message with the next number. -/
theorem sent (h : Ledger l clocks next) (hk : clocks[v.index]? = some k)
    (hticks : k.tick? v = some k') (hnext : next.next? = some next') :
    Ledger (l ++ [⟨v, .sent next, k'⟩]) (clocks.set v.index k') next' := by
  have hnumber : next'.number = next.number + 1 := MessageId.number_of_next? hnext
  have hlt : ∀ {m : MessageId}, m < next → m < next' := fun {m} hm => by
    show m.number < next'.number
    have hm : m.number < next.number := hm
    omega
  -- No event is about a message that has no number yet.
  have hnew : ∀ a ∈ l, ¬ (a.cause = .sent next ∨ a.cause = .received next) := fun a ha hm =>
    Nat.lt_irrefl next.number (h.below a ha next hm)
  refine h.snoc (h.faithful.snoc hk (h.faithful.hears_own hk (by simp)) hticks ?_) hlt ?_ ?_
  · intro m hm b hb hreceived
    cases hm
    exact hnew b hb (.inr hreceived)
  · intro m hm
    obtain rfl : next = m := by simpa using hm
    show next.number < next'.number
    omega
  · intro m hm a ha hsent
    cases hm
    exact hnew a ha (.inl hsent)

/-- A node receives a message that was sent, and learns what was known then. -/
theorem received (h : Ledger l clocks next) (hk : clocks[v.index]? = some k) {sender : NodeId}
    {m : MessageId} {s : Clock} (hsent : ⟨sender, .sent m, s⟩ ∈ l)
    (hticks : (k.join s).tick? v = some k') :
    Ledger (l ++ [⟨v, .received m, k'⟩]) (clocks.set v.index k') next := by
  have hears : Hears l ⟨v, .received m, k'⟩ (k.join s) :=
    h.faithful.hears_receipt hk hsent rfl fun b hb hm => h.unique b hb _ hsent m hm rfl
  refine h.snoc (h.faithful.snoc hk hears hticks (by simp)) id (fun n hn => ?_) (by simp)
  obtain rfl : m = n := by simpa using hn
  exact h.below _ hsent m (.inl rfl)

end Ledger

end Tick

variable {σ μ : Type} {c : Cluster σ μ} {w w' : World σ μ} {h h' : Hand μ}

/-! ### The clocks of tasks -/

/-- The clock of the task is the stamp of the event that made it: the sending of the message to be
delivered, or an event of the node that the task belongs to. -/
def Task.Dated (l : List Tick) (t : Task μ) : Prop :=
  match t.body with
  | .receive sender _ m => ⟨sender, .sent m, t.clock⟩ ∈ l
  | _ => ∃ a ∈ l, a.node = t.owner ∧ a.stamp = t.clock

namespace Task.Dated

variable {l l' : List Tick} {t : Task μ}

theorem mono (ht : t.Dated l) (hl : l ⊆ l') : t.Dated l' := by
  unfold Task.Dated at ht ⊢
  split at ht
  · exact hl ht
  · obtain ⟨a, ha, h⟩ := ht
    exact ⟨a, hl ha, h⟩

/-- A task that delivers nothing is made by an event of its node. -/
theorem of_own {a : Tick} (ha : a ∈ l) (hnode : a.node = t.owner) (hstamp : a.stamp = t.clock)
    (hkind : t.kind ≠ .receive) : t.Dated l := by
  unfold Task.Dated
  split
  · rename_i hbody
    exact absurd (by rw [Task.kind, hbody]) hkind
  · exact ⟨a, ha, hnode, hstamp⟩

theorem exists_own (ht : t.Dated l) (hkind : t.kind ≠ .receive) :
    ∃ a ∈ l, a.node = t.owner ∧ a.stamp = t.clock := by
  unfold Task.Dated at ht
  split at ht
  · rename_i hbody
    exact absurd (by rw [Task.kind, hbody]) hkind
  · exact ht

theorem sent_mem (ht : t.Dated l) {sender : NodeId} {message : μ} {m : MessageId}
    (hbody : t.body = .receive sender message m) : ⟨sender, .sent m, t.clock⟩ ∈ l := by
  rw [Task.Dated, hbody] at ht
  exact ht

end Task.Dated

/-- The events are written down faithfully, and every task carries the clock of the event that made
it. -/
structure Stamped (h : Hand μ) (w : World σ μ) : Prop where
  ledger : Tick.Ledger w.ticks w.clocks.clocks w.nextMessage
  dated : ∀ t ∈ h.tasks ++ w.pending.tasks, t.Dated w.ticks

namespace Stamped

theorem reset (hsize : c.size < UInt32.size) (w : World σ μ) : Stamped .free (w.reset c) := by
  refine ⟨.first hsize, fun t ht => ?_⟩
  obtain ⟨i, hi, rfl⟩ := List.mem_map.mp ht
  exact .of_own (List.mem_map_of_mem hi) rfl rfl (by simp [World.firstTask, Task.kind])

/-- Tasks may go, and move between the hand and the pending ones. -/
theorem less (hw : Stamped h w) (hticks : w'.ticks = w.ticks) (hclocks : w'.clocks = w.clocks)
    (hnext : w'.nextMessage = w.nextMessage)
    (htasks : h'.tasks ++ w'.pending.tasks ⊆ h.tasks ++ w.pending.tasks) : Stamped h' w' where
  ledger := by
    rw [hticks, hclocks, hnext]
    exact hw.ledger
  dated t ht := by
    rw [hticks]
    exact hw.dated t (htasks ht)

/-- A task is added at the end. -/
theorem enqueued (hw : Stamped h w) (hnumbered : w.Numbered) {owner : NodeId} {k : Clock}
    {body : Work μ} {next : TaskId}
    (hdated : Task.Dated w.ticks ⟨w.nextTask, owner, k, body⟩) :
    Stamped h (Step.enqueued w owner k body next) where
  ledger := hw.ledger
  dated t ht := by
    rw [hnumbered.enqueued_tasks] at ht
    rcases List.mem_append.mp ht with ht | ht
    · exact hw.dated t (by simp [ht])
    · rcases List.mem_append.mp ht with ht | ht
      · exact hw.dated t (by simp [ht])
      · cases List.mem_singleton.mp ht
        exact hdated

theorem scheduled (hw : Stamped h w) (hnumbered : w.Numbered) {v : NodeId} {body : Work μ}
    (hbody : ∀ sender message m, body ≠ .receive sender message m) (hs : Scheduled v body w w') :
    Stamped h w' := by
  obtain ⟨k, k', next, hk, hticks, -, rfl⟩ := hs
  have hticked : Stamped h (Step.ticked w v .work k') :=
    ⟨hw.ledger.work hk hticks, fun t ht => (hw.dated t ht).mono (by simp [Step.ticked])⟩
  refine hticked.enqueued (hnumbered.congr rfl rfl rfl) ?_
  refine .of_own (a := ⟨v, .work, k'⟩) (by simp [Step.ticked]) rfl rfl ?_
  cases body with
  | receive sender message m => exact absurd rfl (hbody sender message m)
  | _ =>
    intro hkind
    cases hkind

theorem queued (hw : Stamped h w) (hnumbered : w.Numbered) {v : NodeId} (hq : Queued c v w w') :
    Stamped h w' := by
  obtain ⟨a, -, hq⟩ := hq
  split at hq
  · exact hw.scheduled hnumbered (by simp) hq
  · exact hq ▸ hw

theorem ended (hw : Stamped h w) {v : NodeId} {result : Answer} {i : UInt64}
    (he : Ends v result i w w') : Stamped h w' := by
  obtain ⟨a, rs, -, -, -, -, rfl⟩ := he
  exact hw.less rfl rfl rfl (List.Subset.refl _)

/-- A message is sent under the next number. -/
theorem dispatched (hw : Stamped h w) {v target : NodeId} {message : μ} {k k' : Clock}
    {next : MessageId} (hk : w.clocks.clocks[v.index]? = some k) (hticks : k.tick? v = some k')
    (hnext : w.nextMessage.next? = some next) :
    Stamped h (w.dispatched c v message target k' next) where
  ledger := hw.ledger.sent hk hticks hnext
  dated t ht := (hw.dated t ht).mono (List.subset_append_left _ _)

theorem request (hw : Stamped h w) (hnumbered : w.Numbered) {v : NodeId}
    (does : Request c v w w') : Stamped h w' := by
  cases does with
  | @lose k k' next message target known clock ticks number cut =>
    have hsent : Stamped h (w.dispatched c v message target k' next) :=
      hw.dispatched clock ticks number
    exact hsent.less rfl rfl rfl (List.Subset.refl _)
  | @post w₁ k k' next nextTask ids message target known clock ticks number reached place offered =>
    have hsent : Stamped h (w.dispatched c v message target k' next) :=
      hw.dispatched clock ticks number
    obtain ⟨-, new, last, rfl, -, hnew⟩ := hnumbered.of_posted place offered
    obtain ⟨candidates, hattached⟩ := World.attached_eq _ w.nextMessage ids
    rw [hattached]
    refine ⟨hsent.ledger, fun t ht => ?_⟩
    have hlast : ⟨v, .sent w.nextMessage, k'⟩ ∈
        (w.dispatched c v message target k' next).ticks := by
      simp [World.dispatched, World.recorded, Step.ticked]
    rcases List.mem_append.mp ht with ht | ht
    · exact hsent.dated t (List.mem_append_left _ ht)
    · rcases List.mem_append.mp ht with ht | ht
      · exact hsent.dated t (List.mem_append_right _ ht)
      · rcases List.mem_cons.mp ht with rfl | ht
        · exact hlast
        · -- A fault offered at the message carries its clock too.
          have hcandidate := hnew t ht
          refine .of_own hlast hcandidate.owner.symm hcandidate.clock.symm fun hkind => ?_
          have hfault := hcandidate.isFault
          rw [hkind] at hfault
          cases hfault
  | note => exact hw.less rfl rfl rfl (List.Subset.refl _)
  | conclude real ends queued =>
    exact (hw.ended ends).queued (hnumbered.ended ends) queued
  | start => exact hw.less rfl rfl rfl (List.Subset.refl _)
  | lend => exact hw.less rfl rfl rfl (List.Subset.refl _)

/-- A message is received: its delivery carries the clock of its sending. -/
theorem arrived {t : Task μ} (hw : Stamped (.of t) w) {sender : NodeId} {message : μ}
    {m : MessageId} {k k' : Clock} (hbody : t.body = .receive sender message m)
    (hk : w.clocks.clocks[t.owner.index]? = some k)
    (hticks : (k.join t.clock).tick? t.owner = some k') :
    Stamped .free (w.arrived c t.owner sender message m (k.join t.clock) k') where
  ledger := by
    have hdated : t.Dated w.ticks := hw.dated t (by simp [Hand.of])
    have hsent : ⟨sender, .sent m, t.clock⟩ ∈ w.ticks := hdated.sent_mem hbody
    have hledger := hw.ledger.received hk hsent hticks
    show Tick.Ledger _ ((w.clocks.clocks.set t.owner.index (k.join t.clock)).set t.owner.index k') _
    rw [List.set_set]
    exact hledger
  dated u hu := (hw.dated u (List.mem_append_right _ hu)).mono (List.subset_append_left _ _)

theorem change (hw : Stamped h w) (hnumbered : w.Numbered) (change : Change c h w h' w') :
    Stamped h' w' := by
  cases change with
  | request _ does => exact hw.request hnumbered does
  | prune => exact hw.less rfl rfl rfl (w.pruned_sublist.append_left _).subset
  | withdraw => exact hw.less rfl rfl rfl ((w.withdrawn_sublist _).append_left _).subset
  | receive body up reached clock ticks => exact hw.arrived body clock ticks
  | crash body allowed =>
    refine hw.less rfl rfl rfl fun t ht => List.mem_append_right _ ?_
    rcases List.mem_append.mp ht with ht | ht
    · exact (List.mem_filter.mp ht).1
    · exact (List.mem_filter.mp ht).1
  | fall stops =>
    rename_i v
    have hvacated : Stamped ⟨[], .undo v .recover⟩ (w.vacated v) :=
      hw.less rfl rfl rfl (List.Subset.refl _)
    rcases stops with ⟨-, rfl⟩ | ⟨i, ends⟩
    · exact hvacated
    · exact hvacated.ended ends
  | undo mends does =>
    have hfree : Stamped .free w := hw.less rfl rfl rfl (List.Subset.refl _)
    split at does
    · refine hfree.scheduled hnumbered ?_ does
      rcases mends with rfl | rfl <;> simp
    · exact does ▸ hfree
  | resume _ does =>
    have hfree : Stamped .free w := hw.less rfl rfl rfl (List.Subset.refl _)
    split at does
    · exact hfree.queued hnumbered does
    · exact does ▸ hfree
  | close => exact hw.less rfl rfl rfl (List.Subset.refl _)
  | begin | skip | recover | split | splitRefused | heal | healRefused =>
    exact hw.less rfl rfl rfl (List.subset_append_right [_] _)
  | lose | discard => exact hw.less rfl rfl rfl (List.subset_cons_self _ _)

end Stamped

/-! ### Events on clocks and in the log -/

/-- The node and the message of a sending or a receipt. -/
def Tick.message? (a : Tick) : Option (NodeId × Cause) :=
  if a.cause = .work then none else some (a.node, a.cause)

def Occurrence.message? (o : Occurrence) : Option (NodeId × Cause) :=
  match o.event with
  | .sent m _ _ => some (o.node, .sent m)
  | .received m _ _ => some (o.node, .received m)
  | _ => none

/-- The log tells of the sendings and receipts on the clocks, in order. -/
def Logged (w : World σ μ) : Prop :=
  w.ticks.filterMap Tick.message? = w.events.filterMap Occurrence.message?

namespace Logged

theorem reset (w : World σ μ) : Logged (w.reset c) := by
  simp [Logged, World.reset, World.blank, Tick.message?]

theorem congr (hw : Logged w) (hticks : w'.ticks = w.ticks) (hevents : w'.events = w.events) :
    Logged w' := by
  rw [Logged, hticks, hevents]
  exact hw

theorem recorded (hw : Logged w) {v : NodeId} {e : Event}
    (he : Occurrence.message? ⟨v, e⟩ = none) : Logged (w.recorded v e) := by
  simpa [Logged, World.recorded, he] using hw

theorem dispatched (hw : Logged w) {v target : NodeId} {message : μ} {k : Clock}
    {next : MessageId} : Logged (w.dispatched c v message target k next) := by
  unfold Logged at hw ⊢
  simp [World.dispatched, World.recorded, Step.ticked, Tick.message?, Occurrence.message?, hw]

theorem arrived (hw : Logged w) {v sender : NodeId} {message : μ} {m : MessageId} {k k' : Clock} :
    Logged (w.arrived c v sender message m k k') := by
  unfold Logged at hw ⊢
  simp [World.arrived, World.recorded, Step.ticked, Tick.message?, Occurrence.message?, hw]

theorem scheduled (hw : Logged w) {v : NodeId} {body : Work μ} (hs : Scheduled v body w w') :
    Logged w' := by
  obtain ⟨k, k', next, -, -, -, rfl⟩ := hs
  unfold Logged at hw ⊢
  simp [Step.enqueued, Step.ticked, Tick.message?, hw]

theorem queued (hw : Logged w) {v : NodeId} (hq : Queued c v w w') : Logged w' := by
  obtain ⟨a, -, hq⟩ := hq
  split at hq
  · exact hw.scheduled hq
  · exact hq ▸ hw

theorem ended (hw : Logged w) {v : NodeId} {result : Answer} {i : UInt64}
    (he : Ends v result i w w') : Logged w' := by
  obtain ⟨a, rs, -, -, -, -, rfl⟩ := he
  exact Logged.recorded (hw.congr rfl rfl) rfl

theorem request (hw : Logged w) (hnumbered : w.Numbered) {v : NodeId} (does : Request c v w w') :
    Logged w' := by
  cases does with
  | lose => exact hw.dispatched.recorded rfl
  | @post w₁ k k' next nextTask ids message target known clock ticks number reached place offered =>
    obtain ⟨-, new, last, rfl, -⟩ := hnumbered.of_posted place offered
    obtain ⟨candidates, hattached⟩ := World.attached_eq _ w.nextMessage ids
    rw [hattached]
    exact hw.dispatched.congr rfl rfl
  | note => exact Logged.recorded (hw.congr rfl rfl) rfl
  | conclude real ends queued => exact (hw.ended ends).queued queued
  | start | lend => exact hw.congr rfl rfl

theorem change (hw : Logged w) (hnumbered : w.Numbered) (change : Change c h w h' w') :
    Logged w' := by
  cases change with
  | request _ does => exact hw.request hnumbered does
  | close | lose => exact hw.recorded rfl
  | receive => exact hw.arrived
  | begin | crash | recover | split | heal => exact Logged.recorded (hw.congr rfl rfl) rfl
  | fall stops =>
    rename_i v
    have hvacated : Logged (w.vacated v) := hw.congr rfl rfl
    rcases stops with ⟨-, rfl⟩ | ⟨i, ends⟩
    · exact hvacated
    · exact hvacated.ended ends
  | undo mends does =>
    split at does
    · exact hw.scheduled does
    · exact does ▸ hw
  | resume agenda does =>
    split at does
    · exact hw.queued does
    · exact does ▸ hw
  | prune | withdraw | skip | discard | splitRefused | healRefused => exact hw.congr rfl rfl

end Logged

/-- The events are written down faithfully in every state reached without a panic but a handler's
own. -/
theorem Reaches.stamped (hsize : c.size < UInt32.size) (hw : Reaches c Abort.Clean w) :
    w.Numbered ∧ Stamped .free w ∧ Logged w := by
  refine hw.keeps (P := fun h w => w.Numbered ∧ Stamped h w ∧ Logged w) (fun _ h => h) ?_ ?_ ?_ ?_
  · exact fun w => ⟨World.numbered_reset hsize w, .reset hsize w, .reset w⟩
  · rintro w id t pending htake ⟨hnumbered, hstamped, hlogged⟩
    obtain ⟨hperm, hrest⟩ := hnumbered.of_take htake
    exact ⟨hrest, hstamped.less rfl rfl rfl hperm.symm.subset, hlogged⟩
  · rintro h₁ w₁ h₂ w₂ change ⟨hnumbered, hstamped, hlogged⟩
    exact ⟨hnumbered.change change, hstamped.change hnumbered change,
      hlogged.change hnumbered change⟩
  · rintro e h w - - ⟨hnumbered, hstamped, hlogged⟩
    exact ⟨hnumbered, hstamped.less rfl rfl rfl (List.subset_append_right _ _), hlogged⟩

/-- **Stamps characterise causality.** In every state reached in any order, as long as no counter
runs out, the stamp of one event happens before that of another exactly if the one causally precedes
the other, and different events have different stamps. No event goes unwritten: the clock of each
node is the stamp of its last event, its own slot counts the events of the node, and the sendings
and receipts are those of the log. -/
theorem Reaches.stamps_causal (haccept : c.toSetup.accept = .ok ())
    (hw : Reaches c Abort.Clean w) :
    (∀ (i j : Nat) (a b : Tick), w.ticks[i]? = some a → w.ticks[j]? = some b →
      (a.stamp.happensBefore b.stamp = true ↔ Tick.Precedes w.ticks i j) ∧
        (a.stamp = b.stamp → i = j)) ∧
      (∀ v : NodeId, v.index < c.size → ∃ k, w.clocks.clocks[v.index]? = some k ∧
        (k.get v).toNat = (w.ticks.filter fun a => a.node = v).length ∧
        ∃ (i : Nat) (a : Tick), w.ticks[i]? = some a ∧ a.node = v ∧ a.stamp = k ∧
          ∀ (j : Nat) (b : Tick), w.ticks[j]? = some b → b.node = v → j ≤ i) ∧
      w.ticks.filterMap Tick.message? = w.events.filterMap Occurrence.message? := by
  have hsize : c.size < UInt32.size := Setup.size_lt_of_accept haccept
  obtain ⟨-, hstamped, hlogged⟩ := hw.stamped hsize
  have hfaithful : Tick.Faithful w.ticks w.clocks.clocks := hstamped.ledger.faithful
  refine ⟨?_, ?_, hlogged⟩
  · intro i j a b ha hb
    exact ⟨hfaithful.happensBefore_iff ha hb, hfaithful.eq_of_stamp_eq ha hb⟩
  · intro v hv
    have hclocks : w.clocks.clocks.length = c.size := (hw.booked_of_clean hsize).2.sized.clocks
    obtain ⟨k, hk⟩ : ∃ k, w.clocks.clocks[v.index]? = some k :=
      ⟨_, List.getElem?_eq_getElem (hclocks ▸ hv)⟩
    obtain ⟨i, a, ha, hnode, hstamp, hlast⟩ := hfaithful.last hk
    exact ⟨k, hk, hfaithful.counted hk, i, a, ha, hnode, hstamp, fun j b => hlast⟩

/-- The second peer received the message of the first, sent one and went down. That it is to come
back follows from the first message; that it was started in the first place does not. -/
theorem Reaches.stamps_causal_fragile :
    let w := (Step.advances Broadcast.fragile [⟨0⟩, ⟨2⟩, ⟨1⟩, ⟨5⟩]
      ((World.new Broadcast.fragile).reset Broadcast.fragile)).2
    w.ticks.map (fun a => (a.node, a.cause)) =
        [(⟨0⟩, .work), (⟨1⟩, .work), (⟨0⟩, .sent ⟨0⟩), (⟨1⟩, .received ⟨0⟩), (⟨1⟩, .sent ⟨1⟩),
          (⟨1⟩, .work)] ∧
      Tick.Precedes w.ticks 2 5 ∧ ¬ Tick.Precedes w.ticks 1 2 ∧ ¬ Tick.Precedes w.ticks 2 1 := by
  intro w
  have hw : Reaches Broadcast.fragile Abort.Clean w :=
    (Reaches.start (World.new Broadcast.fragile)).advances (by decide +kernel)
  obtain ⟨horder, -⟩ := hw.stamps_causal (by decide +kernel)
  have hstarted : w.ticks[1]? = some ⟨⟨1⟩, .work, ⟨[0, 1]⟩⟩ := by decide +kernel
  have hsent : w.ticks[2]? = some ⟨⟨0⟩, .sent ⟨0⟩, ⟨[2, 0]⟩⟩ := by decide +kernel
  have hmending : w.ticks[5]? = some ⟨⟨1⟩, .work, ⟨[2, 4]⟩⟩ := by decide +kernel
  refine ⟨by decide +kernel, ?_, fun h => ?_, fun h => ?_⟩
  · exact (horder 2 5 _ _ hsent hmending).1.mp (by decide)
  · exact absurd ((horder 1 2 _ _ hstarted hsent).1.mpr h) (by decide)
  · exact absurd ((horder 2 1 _ _ hsent hstarted).1.mpr h) (by decide)

end Interleave
