/-
# Tasks follow the task that made them

A task that is executed makes new ones, with the clock of its node at that
moment. The clock of a task is never ahead of its node's, and a message that is
taken over brings its clock along, so what is made follows what made it
(`Shift.follows_iff`). One path goes another way: the delivery of a message starts a
node that has not started yet, and what the start makes carries a clock that has not
heard of the message (`Premature`). Such a node has not heard of any other node
(`Unheard.shift`), so what its start makes never follows a message from another node,
and the search may pass it over (`Reaches.follows_iff_not_premature`).
-/
import Interleave.Proofs.Stamps
import Interleave.Proofs.Turn
import Interleave.Sample.Script

namespace Interleave

variable {σ μ : Type} {c : Cluster σ μ} {w w₁ w₂ w' : World σ μ} {v : NodeId}

/-! ### Events of one node -/

namespace Clock

/-- Clock `b` is clock `a` after some events of node `v`. -/
def Ticks (v : NodeId) : Clock → Clock → Prop :=
  Relation.ReflTransGen fun a b => a.tick? v = some b

/-- Clock `b` is clock `a` after at least one event of node `v`. -/
def Ticked (v : NodeId) : Clock → Clock → Prop :=
  Relation.TransGen fun a b => a.tick? v = some b

variable {a b : Clock}

theorem Ticks.get_eq (h : Ticks v a b) {u : NodeId} (hu : u ≠ v) : b.get u = a.get u := by
  have hindex : u.index ≠ v.index := fun heq => hu (NodeId.index_inj.mp heq)
  induction h with
  | refl => rfl
  | tail _ last ih => rw [get_tick_of_ne last hindex, ih]

theorem Ticked.get_eq (h : Ticked v a b) {u : NodeId} (hu : u ≠ v) : b.get u = a.get u :=
  Ticks.get_eq (Relation.TransGen.to_reflTransGen h) hu

theorem Ticked.happensBefore (h : Ticked v a b) : a.happensBefore b = true := by
  induction h with
  | single h => exact happensBefore_tick h
  | tail _ last ih =>
    have hle := ((happensBefore_iff _ _).mp ih).1
    exact happensBefore_of_le_of_happensBefore hle (happensBefore_tick last)

end Clock

/-! ### What a node does by itself -/

/-- A new task carries the clock it is made with. -/
theorem Pending.clock_of_insertSorted {t u : Task μ} {l : List (Task μ)}
    (h : t ∈ insertSorted u l) : t ∈ l ∨ t.clock = u.clock := by
  rcases mem_insertSorted.mp h with rfl | h
  · exact .inr rfl
  · exact .inl h

/-- Node `v` did something by itself: its clock counted events of its own, the tasks it made carry
its clock after one of them, it did not become one that has yet to start, and no other node's clock
or list of operations was touched. -/
structure Works (v : NodeId) (w w' : World σ μ) : Prop where
  clock : ∀ {k'}, w'.clocks.clocks[v.index]? = some k' →
    ∃ k, w.clocks.clocks[v.index]? = some k ∧ Clock.Ticks v k k'
  tasks : ∀ t ∈ w'.pending.tasks, t ∈ w.pending.tasks ∨
    ∃ k, w.clocks.clocks[v.index]? = some k ∧ Clock.Ticked v k t.clock
  started : ∀ {a'}, w'.agendas[v.index]? = some a' → a'.started = false →
    ∃ a, w.agendas[v.index]? = some a ∧ a.started = false
  clocks : ∀ i : Nat, v.index ≠ i → w'.clocks.clocks[i]? = w.clocks.clocks[i]?
  agendas : ∀ i : Nat, v.index ≠ i → w'.agendas[i]? = w.agendas[i]?

namespace Works

theorem trans (first : Works v w w₁) (second : Works v w₁ w₂) : Works v w w₂ where
  clock hk := by
    obtain ⟨k₁, hk₁, hsecond⟩ := second.clock hk
    obtain ⟨k, hk, hfirst⟩ := first.clock hk₁
    exact ⟨k, hk, Relation.ReflTransGen.trans hfirst hsecond⟩
  tasks t ht := by
    rcases second.tasks t ht with ht | ⟨k₁, hk₁, hticked⟩
    · exact first.tasks t ht
    · obtain ⟨k, hk, hfirst⟩ := first.clock hk₁
      exact .inr ⟨k, hk, Relation.TransGen.trans_right hfirst hticked⟩
  started ha hstarted := by
    obtain ⟨a₁, ha₁, hstarted₁⟩ := second.started ha hstarted
    exact first.started ha₁ hstarted₁
  clocks i hi := (second.clocks i hi).trans (first.clocks i hi)
  agendas i hi := (second.agendas i hi).trans (first.agendas i hi)

/-- No event is counted and no task is made. -/
theorem less (hclocks : w'.clocks = w.clocks) (hagendas : w'.agendas = w.agendas)
    (htasks : w'.pending.tasks ⊆ w.pending.tasks) : Works v w w' where
  clock hk := ⟨_, hclocks ▸ hk, .refl⟩
  tasks t ht := .inl (htasks ht)
  started ha hstarted := ⟨_, hagendas ▸ ha, hstarted⟩
  clocks i _ := by rw [hclocks]
  agendas i _ := by rw [hagendas]

/-- The node stands elsewhere in its list of operations, and has started if it had before. -/
theorem agenda {a a' : Agenda} (ha : w.agendas[v.index]? = some a)
    (hclocks : w'.clocks = w.clocks) (hagendas : w'.agendas = w.agendas.set v.index a')
    (hpending : w'.pending = w.pending) (hstarted : a'.started = false → a.started = false) :
    Works v w w' where
  clock hk := ⟨_, hclocks ▸ hk, .refl⟩
  tasks t ht := .inl (hpending ▸ ht)
  started hx hfalse := by
    have hlt : v.index < w.agendas.length := (List.getElem?_eq_some_iff.mp ha).1
    rw [hagendas, List.getElem?_set_self hlt] at hx
    cases hx
    exact ⟨a, ha, hstarted hfalse⟩
  clocks i _ := by rw [hclocks]
  agendas i hi := by rw [hagendas, List.getElem?_set_ne hi]

/-- One event is counted, and what is made carries the clock after it. -/
theorem tick {k k' : Clock} (hk : w.clocks.clocks[v.index]? = some k) (hticks : k.tick? v = some k')
    (hclocks : w'.clocks.clocks = w.clocks.clocks.set v.index k')
    (hagendas : w'.agendas = w.agendas)
    (htasks : ∀ t ∈ w'.pending.tasks, t ∈ w.pending.tasks ∨ t.clock = k') : Works v w w' where
  clock hx := by
    have hlt : v.index < w.clocks.clocks.length := (List.getElem?_eq_some_iff.mp hk).1
    rw [hclocks, List.getElem?_set_self hlt] at hx
    cases hx
    exact ⟨k, hk, .single hticks⟩
  tasks t ht := by
    refine (htasks t ht).imp_right fun hclock => ⟨k, hk, ?_⟩
    rw [hclock]
    exact .single hticks
  started ha hstarted := ⟨_, hagendas ▸ ha, hstarted⟩
  clocks i hi := by rw [hclocks, List.getElem?_set_ne hi]
  agendas i _ := by rw [hagendas]

theorem scheduled {body : Work μ} (h : Scheduled v body w w') : Works v w w' := by
  obtain ⟨k, k', next, hk, hticks, -, rfl⟩ := h
  exact tick hk hticks rfl rfl fun t ht => Pending.clock_of_insertSorted ht

theorem queued (h : Queued c v w w') : Works v w w' := by
  obtain ⟨a, -, h⟩ := h
  split at h
  · exact scheduled h
  · exact h ▸ less rfl rfl (List.Subset.refl _)

theorem ended {result : Answer} {i : UInt64} (h : Ends v result i w w') : Works v w w' := by
  obtain ⟨a, rs, ha, -, -, -, rfl⟩ := h
  exact agenda ha rfl rfl rfl id

end Works

/-- What is offered carries the clock it is offered at, and nothing else is touched. -/
theorem Offered.frame {k : Clock} {bodies : List (Work μ)} {ids : List TaskId}
    (h : Offered v k bodies w ids w') : w'.clocks = w.clocks ∧ w'.agendas = w.agendas ∧
      ∀ t ∈ w'.pending.tasks, t ∈ w.pending.tasks ∨ t.clock = k := by
  induction h with
  | nil => exact ⟨rfl, rfl, fun t ht => .inl ht⟩
  | cons number rest ih =>
    obtain ⟨hclocks, hagendas, htasks⟩ := ih
    refine ⟨hclocks, hagendas, fun t ht => ?_⟩
    rcases htasks t ht with ht | ht
    · exact Pending.clock_of_insertSorted ht
    · exact .inr ht

namespace Works

theorem request (h : Request c v w w') : Works v w w' := by
  cases h with
  | lose message target known clock ticks number cut =>
    exact tick clock ticks rfl rfl fun t ht => .inl ht
  | @post w₁ k k' next nextTask ids message target known clock ticks number reached place offered =>
    obtain ⟨hclocks, hagendas, htasks⟩ := offered.frame
    obtain ⟨candidates, hattached⟩ := World.attached_eq w₁ w.nextMessage ids
    rw [hattached]
    refine tick clock ticks (congrArg ClockBank.clocks hclocks) hagendas fun t ht => ?_
    rcases htasks t ht with ht | ht
    · exact Pending.clock_of_insertSorted ht
    · exact .inr ht
  | note => exact less rfl rfl (List.Subset.refl _)
  | conclude real ends queues => exact (ended ends).trans (queued queues)
  | start ha => exact agenda ha rfl rfl rfl (by simp)
  | lend => exact less rfl rfl (List.Subset.refl _)

theorem requests (h : Requests c v w w') : Works v w w' := by
  induction h with
  | refl => exact less rfl rfl (List.Subset.refl _)
  | tail _ last ih => exact ih.trans (request last)

theorem withdrawn (w : World σ μ) (m : MessageId) : Works v w (w.withdrawn m) :=
  less rfl rfl (w.withdrawn_sublist m).subset

theorem pruned (w : World σ μ) : Works v w w.pruned := less rfl rfl w.pruned_sublist.subset

theorem recorded (w : World σ μ) (u : NodeId) (e : Event) : Works v w (w.recorded u e) :=
  less rfl rfl (List.Subset.refl _)

theorem begun {a : Agenda} {i next : UInt64} {text : String} (ha : w.agendas[v.index]? = some a) :
    Works v w (w.begun v a i next text) := agenda ha rfl rfl rfl id

/-- What undoes a fault is made after it. -/
theorem due {body : Work μ} (h : if c.config.recovers then Scheduled v body w w' else w' = w) :
    Works v w w' := by
  split at h
  · exact scheduled h
  · exact h ▸ less rfl rfl (List.Subset.refl _)

theorem crashed {m : MessageId} {fault : FaultState}
    (hstops : ((w.stricken v m fault).Idle v ∧ w₁ = (w.stricken v m fault).vacated v) ∨
      ∃ i, Ends v .crashed i ((w.stricken v m fault).vacated v) w₁)
    (hdue : if c.config.recovers then Scheduled v .recover w₁.pruned w' else w' = w₁.pruned) :
    Works v w w' := by
  have hvacated : Works v w ((w.stricken v m fault).vacated v) := by
    obtain ⟨pending, candidates, hsub, hstricken⟩ := w.stricken_eq v m fault
    rw [hstricken]
    exact less rfl rfl (hsub.trans List.filter_sublist).subset
  have hstopped : Works v w w₁ := by
    rcases hstops with ⟨-, rfl⟩ | ⟨i, ends⟩
    · exact hvacated
    · exact hvacated.trans (ended ends)
  exact (hstopped.trans (pruned w₁)).trans (due hdue)

theorem recovered {fault : FaultState} {a : Agenda} (ha : w.agendas[v.index]? = some a)
    (hhook : Requests c v (w.revived c v fault a) w₁) (hresumes : w' = w₁ ∨ Queued c v w₁ w') :
    Works v w w' := by
  have hrevived : Works v w (w.revived c v fault a) := agenda ha rfl rfl rfl (by simp)
  have hran : Works v w w₁ := hrevived.trans (requests hhook)
  rcases hresumes with rfl | hqueued
  · exact hran
  · exact hran.trans (queued hqueued)

end Works

/-! ### What a task does to the clocks -/

/-- A node that was woken has started. -/
theorem Wakes.started (h : Wakes c v w w') {a' : Agenda} (ha' : w'.agendas[v.index]? = some a') :
    a'.started = true := by
  obtain ⟨a, ha, hstarts⟩ := h.starts
  have hlt : v.index < w.agendas.length := (List.getElem?_eq_some_iff.mp ha).1
  split at hstarts
  · rename_i hstarted
    rw [hstarts, ha] at ha'
    cases ha'
    exact hstarted
  · by_contra hnot
    obtain ⟨x, hx, hfalse⟩ := (Works.requests hstarts).started ha' (Bool.eq_false_iff.mpr hnot)
    rw [List.getElem?_set_self hlt] at hx
    cases hx
    cases hfalse

/-- A task is work of its node alone, unless it delivers a message: then the node is woken, and the
message taken over. -/
theorem Shift.works_or_receives {f : Task μ} (h : Shift c f w w') :
    (Works f.owner w w' ∧ (f.kind = .receive → w'.pending.tasks ⊆ w.pending.tasks)) ∨
      ∃ sender message m w₁, f.body = .receive sender message m ∧
        Wakes c f.owner (w.withdrawn m) w₁ ∧
        (w' = w₁ ∨ ∃ k k', w₁.clocks.clocks[f.owner.index]? = some k ∧
          (k.join f.clock).tick? f.owner = some k' ∧
          Requests c f.owner (w₁.arrived c f.owner sender message m (k.join f.clock) k') w') := by
  -- What is no delivery is work of the node, and makes no exception.
  have hself : ∀ {body : Work μ} {x : World σ μ}, f.body = body →
      (∀ sender message m, body ≠ .receive sender message m) → Works f.owner w x →
      Works f.owner w x ∧ (f.kind = .receive → x.pending.tasks ⊆ w.pending.tasks) := by
    intro body x hbody hnot hworks
    refine ⟨hworks, fun hkind => ?_⟩
    rw [Task.kind, hbody] at hkind
    cases body <;> simp_all
  have hidle : ∀ {x : World σ μ}, x.clocks = w.clocks → x.agendas = w.agendas →
      x.pending.tasks ⊆ w.pending.tasks →
      Works f.owner w x ∧ (f.kind = .receive → x.pending.tasks ⊆ w.pending.tasks) :=
    fun hclocks hagendas hsub => ⟨.less hclocks hagendas hsub, fun _ => hsub⟩
  cases h with
  | skip => exact .inl (hidle rfl rfl (List.Subset.refl _))
  | rouse body up woken => exact .inl (hself body (by simp) (.requests woken.requests))
  | begin body up listed woken agenda number ran =>
    have hran := (Works.begun agenda).trans (.requests ran)
    exact .inl (hself body (by simp) ((Works.requests woken.requests).trans hran))
  | @lose sender message m body doomed =>
    exact .inl (hidle rfl rfl (w.withdrawn_sublist m).subset)
  | @balk sender message m _ body up reached woken =>
    exact .inr ⟨sender, message, m, w', body, woken, .inl rfl⟩
  | @receive sender message m k k' w₁ _ body up reached woken clock ticks ran =>
    exact .inr ⟨sender, message, m, w₁, body, woken, .inr ⟨k, k', clock, ticks, ran⟩⟩
  | crash body allowed stops due => exact .inl (hself body (by simp) (.crashed stops due))
  | recover body allowed agenda hook resumes =>
    exact .inl (hself body (by simp) (.recovered agenda hook resumes))
  | split body drawn due =>
    have hdue := (Works.pruned _).trans (Works.due due)
    refine .inl (hself body (by simp) (Works.trans ?_ hdue))
    exact .less rfl rfl (List.Subset.refl _)
  | splitRefused | heal | healRefused => exact .inl (hidle rfl rfl (List.Subset.refl _))

/-! ### Nodes that have not started -/

/-- A node that has not started has heard of no other node. -/
def Unheard (w : World σ μ) : Prop :=
  ∀ (v : NodeId) (a : Agenda) (k : Clock), w.agendas[v.index]? = some a → a.started = false →
    w.clocks.clocks[v.index]? = some k → ∀ u, u ≠ v → k.get u = 0

namespace Unheard

theorem reset (w : World σ μ) : Unheard (w.reset c) := by
  intro v a k _ _ hk u hu
  obtain ⟨hlt, rfl⟩ := List.getElem?_eq_some_iff.mp hk
  have hv : v.index < c.size := by simpa [World.reset] using hlt
  have hindex : u.index ≠ v.index := fun heq => hu (NodeId.index_inj.mp heq)
  simp [World.reset, Tick.get_firstClock hv, hindex]

theorem works (h : Unheard w) (hworks : Works v w w') : Unheard w' := by
  intro p a k ha hstarted hk u hu
  by_cases hp : p = v
  · subst hp
    obtain ⟨a₀, ha₀, hstarted₀⟩ := hworks.started ha hstarted
    obtain ⟨k₀, hk₀, hticks⟩ := hworks.clock hk
    rw [hticks.get_eq hu]
    exact h p a₀ k₀ ha₀ hstarted₀ hk₀ u hu
  · have hindex : v.index ≠ p.index := fun heq => hp (NodeId.index_inj.mp heq.symm)
    rw [hworks.agendas _ hindex] at ha
    rw [hworks.clocks _ hindex] at hk
    exact h p a k ha hstarted hk u hu

/-- A node that has started may hear of others. -/
theorem arrived (h : Unheard w) {sender : NodeId} {message : μ} {m : MessageId} {k k' : Clock}
    (hstarted : ∀ {a}, w.agendas[v.index]? = some a → a.started = true) :
    Unheard (w.arrived c v sender message m k k') := by
  intro p a x ha hfalse hx u hu
  by_cases hp : p = v
  · subst hp
    rw [hstarted ha] at hfalse
    cases hfalse
  · have hindex : v.index ≠ p.index := fun heq => hp (NodeId.index_inj.mp heq.symm)
    have hx : ((w.clocks.clocks.set v.index k).set v.index k')[p.index]? = some x := hx
    rw [List.getElem?_set_ne hindex, List.getElem?_set_ne hindex] at hx
    exact h p a x ha hfalse hx u hu

theorem shift {f : Task μ} (h : Unheard w) (hshift : Shift c f w w') : Unheard w' := by
  rcases hshift.works_or_receives with ⟨hworks, -⟩ | ⟨sender, message, m, w₁, -, hwoken, hrest⟩
  · exact h.works hworks
  · have hwithdrawn : Unheard (w.withdrawn m) := h.works (v := f.owner) (.withdrawn w m)
    have hstarted : Unheard w₁ := hwithdrawn.works (.requests hwoken.requests)
    rcases hrest with rfl | ⟨k, k', hk, hticks, hran⟩
    · exact hstarted
    · exact (hstarted.arrived hwoken.started).works (.requests hran)

theorem adieu (h : Unheard w) (hadieu : Adieu c v w w') : Unheard w' := by
  cases hadieu with
  | absent => exact h
  | cut present hook => exact h.works (.requests hook)
  | told present hook settles =>
    have hclosed := (Works.requests hook).trans (.recorded _ v .closed)
    exact h.works (hclosed.trans (.requests settles))

end Unheard

theorem Reaches.unheard (hw : Reaches c Abort.Clean w) : Unheard w :=
  hw.shifts Unheard.reset (fun {w w' id t pending} _ hshift h => by
    have htaken : Unheard { w with pending := pending } := h
    exact htaken.shift hshift) fun hadieu h => h.adieu hadieu

/-! ### What a task makes -/

/-- Task `t` is made too early to follow the delivery `f`, which was just taken off state `w`: the
message comes from another node to one that has not started, and its start makes `t` before the
message is taken over. -/
def Premature (c : Cluster σ μ) (w : World σ μ) (f t : Task μ) : Prop :=
  ∃ sender message m a, f.body = .receive sender message m ∧ sender ≠ f.owner ∧
    w.agendas[f.owner.index]? = some a ∧ a.started = false ∧
    t ∈ (Step.wake c f.owner (w.withdrawn m)).2.pending.tasks

section

variable {f t : Task μ}

/-- A task of a node's own, or a message to itself, is never ahead of the clock of the node. -/
theorem Stamped.clock_le (h : Stamped (.of f) w)
    (hown : f.kind ≠ .receive ∨ ∃ message m, f.body = .receive f.owner message m) {k : Clock}
    (hk : w.clocks.clocks[f.owner.index]? = some k) : f.clock.le k = true := by
  have hdated : f.Dated w.ticks := h.dated f (by simp [Hand.of])
  rcases hown with hkind | ⟨message, m, hbody⟩
  · obtain ⟨a, ha, hnode, hstamp⟩ := hdated.exists_own hkind
    exact hstamp ▸ h.ledger.faithful.le_of_node hk ha hnode
  · exact h.ledger.faithful.le_of_node hk (hdated.sent_mem hbody) rfl

/-- A node that has not heard of the sender does not know of the message. -/
theorem Stamped.not_le_of_unheard (h : Stamped (.of f) w) {sender : NodeId} {message : μ}
    {m : MessageId} (hbody : f.body = .receive sender message m) {k : Clock}
    (hzero : k.get sender = 0) : f.clock.le k = false := by
  have hsent := (h.dated f (by simp [Hand.of])).sent_mem hbody
  have hpositive : 0 < f.clock.get sender := h.ledger.faithful.positive _ hsent
  refine Bool.eq_false_iff.mpr fun hle => ?_
  have hle : f.clock.get sender ≤ 0 := hzero ▸ Clock.get_le_get hle sender
  exact absurd hpositive (UInt64.not_lt.mpr hle)

/-- A node whose start makes a task had not started. -/
theorem Wakes.not_started (h : Wakes c v w w') (ht : t ∈ w'.pending.tasks)
    (hnew : t ∉ w.pending.tasks) : ∃ a, w.agendas[v.index]? = some a ∧ a.started = false := by
  obtain ⟨a, ha, hstarts⟩ := h.starts
  refine ⟨a, ha, Bool.eq_false_iff.mpr fun hstarted => ?_⟩
  rw [if_pos hstarted] at hstarts
  exact hnew (hstarts ▸ ht)

/-- What a task makes follows it, unless it is made too early. -/
theorem Shift.follows_iff (h : Shift c f w w') (hstamped : Stamped (.of f) w) (hunheard : Unheard w)
    (ht : t ∈ w'.pending.tasks) (hnew : t ∉ w.pending.tasks) :
    f.clock.happensBefore t.clock = true ↔ ¬ Premature c w f t := by
  have hfollows : ∀ {k : Clock}, f.clock.le k = true → Clock.Ticked f.owner k t.clock →
      f.clock.happensBefore t.clock = true := fun hle hticked =>
    Clock.happensBefore_of_le_of_happensBefore hle hticked.happensBefore
  rcases h.works_or_receives with ⟨hworks, hlost⟩ | ⟨sender, message, m, w₁, hbody, hwoken, hrest⟩
  · obtain ⟨k, hk, hticked⟩ := (hworks.tasks t ht).resolve_left hnew
    have hkind : f.kind ≠ .receive := fun hkind => hnew (hlost hkind ht)
    refine iff_of_true (hfollows (hstamped.clock_le (.inl hkind) hk) hticked) ?_
    rintro ⟨sender, message, m, a, hbody, -⟩
    exact hkind (by rw [Task.kind, hbody])
  have hmade : t ∈ w₁.pending.tasks → ∃ k, w.clocks.clocks[f.owner.index]? = some k ∧
      Clock.Ticked f.owner k t.clock := fun hmem =>
    (((Works.withdrawn w m).trans (.requests hwoken.requests)).tasks t hmem).resolve_left hnew
  by_cases hmem : t ∈ w₁.pending.tasks
  · obtain ⟨k, hk, hticked⟩ := hmade hmem
    by_cases hsender : sender = f.owner
    · subst hsender
      refine iff_of_true (hfollows (hstamped.clock_le (.inr ⟨message, m, hbody⟩) hk) hticked) ?_
      rintro ⟨sender', message', m', a, hbody', hne, -⟩
      rw [hbody] at hbody'
      cases hbody'
      exact hne rfl
    · -- The start comes before the message is taken over.
      obtain ⟨a, ha, hstarted⟩ := hwoken.not_started hmem fun hw =>
        hnew ((w.withdrawn_sublist m).subset hw)
      have hpremature : Premature c w f t :=
        ⟨sender, message, m, a, hbody, hsender, ha, hstarted, hwoken.run ▸ hmem⟩
      refine iff_of_false (fun hbefore => ?_) (fun hnot => hnot hpremature)
      have hzero : t.clock.get sender = 0 := by
        rw [hticked.get_eq hsender]
        exact hunheard f.owner a k ha hstarted hk sender hsender
      have hle := ((Clock.happensBefore_iff _ _).mp hbefore).1
      rw [hstamped.not_le_of_unheard hbody hzero] at hle
      cases hle
  · rcases hrest with rfl | ⟨k, k', hk, hticks, hran⟩
    · exact absurd ht hmem
    · have hlt : f.owner.index < w₁.clocks.clocks.length := (List.getElem?_eq_some_iff.mp hk).1
      obtain ⟨x, hx, hticked⟩ := ((Works.requests hran).tasks t ht).resolve_left hmem
      obtain rfl : k' = x := by simpa [World.arrived, World.recorded, Step.ticked, hlt] using hx
      have hknown : f.clock.le k' = true :=
        Clock.le_trans (Clock.le_join_right k f.clock) (Clock.le_tick hticks)
      refine iff_of_true (hfollows hknown hticked) ?_
      rintro ⟨sender', message', m', a, hbody', -, -, -, hwake⟩
      rw [hbody] at hbody'
      cases hbody'
      exact hmem (hwoken.run ▸ hwake)

end

/-- **What a task makes follows it**, unless it is the delivery of a message from another node that
starts its node, and the start makes the new task. In every state reached in any order, as long as
no counter runs out, a task `t` that executing `f` adds comes after `f` by its clock exactly if it
is not made too early; and right after `f` the search passes `t` over only if it is, and belongs to
a node before that of `f`. -/
theorem Reaches.follows_iff_not_premature (haccept : c.toSetup.accept = .ok ())
    (hw : Reaches c Abort.Clean w) {f t : Task μ} (hf : f ∈ w.pending.tasks)
    {r : Except Abort (Task μ)} (hrun : Step.advance c f.id w = (r, w'))
    (hclean : ∀ e, r = .error e → e.Clean) (ht : t ∈ w'.pending.tasks)
    (hnew : t ∉ w.pending.tasks) :
    (f.clock.happensBefore t.clock = true ↔
        ¬ Premature c { w with pending := w.pending.erase f.id } f t) ∧
      (Tree.follows (some f.view) t.view = true ↔
        (Premature c { w with pending := w.pending.erase f.id } f t → f.owner ≤ t.owner)) := by
  obtain ⟨hnumbered, hstamped, -⟩ := hw.stamped (Setup.size_lt_of_accept haccept)
  have hiff : f.clock.happensBefore t.clock = true ↔
      ¬ Premature c { w with pending := w.pending.erase f.id } f t := by
    rcases Step.advance_cases hrun hclean with rfl | ⟨g, pending, r', htake, hexecute, hspares⟩
    · exact absurd ht hnew
    · obtain ⟨hget, rfl⟩ := Pending.take_eq_some_iff.mp htake
      obtain rfl : f = g := by simpa [hnumbered.get?_of_mem hf] using hget
      have hperm := (hnumbered.of_take htake).1
      have htaken : Stamped (.of f) { w with pending := w.pending.erase f.id } :=
        hstamped.less rfl rfl rfl hperm.symm.subset
      have hrest : t ∉ (w.pending.erase f.id).tasks := fun h => hnew (List.mem_filter.mp h).1
      exact (Step.shift_of_execute hexecute hspares).follows_iff htaken hw.unheard ht hrest
  refine ⟨hiff, ?_⟩
  show (decide (f.owner ≤ t.owner) || f.clock.happensBefore t.clock) = true ↔ _
  rw [Bool.or_eq_true, hiff, decide_eq_true_eq]
  tauto

/-- What succeeds does not abort. -/
theorem Abort.clean_of_isOk {α : Type} {r : Except Abort α} (h : r.isOk = true) :
    ∀ e, r = .error e → e.Clean := by
  intro e he
  rw [he] at h
  cases h

/-- A client that asks a server, and a server that greets the client when it starts. -/
def Script.greeting : Cluster Script.Actor String where
  config := Config.default
  registry := ⟨[
    ⟨⟨"client"⟩, 1, fun _ _ => ⟨{
      start := [], recovery := none, finish := []
      operations := [("ask", [.send (.node ⟨1⟩) "x"])], messages := [], invalid := none }, 0, []⟩⟩,
    ⟨⟨"server"⟩, 1, fun _ _ => ⟨{
      start := [.send (.node ⟨0⟩) "hello"], recovery := none, finish := []
      operations := [], messages := [], invalid := none }, 0, []⟩⟩]⟩
  scenario := ⟨[[.named "ask" []], []]⟩
  protocol := Script.protocol

/-- The delivery of the question follows the operation that asks it. The greeting is made by the
start of the server, which the delivery brings about, and comes too early. -/
theorem Reaches.follows_iff_not_premature_greeting :
    let w := (World.new Script.greeting).reset Script.greeting
    let w₁ := (Step.advance Script.greeting ⟨0⟩ w).2
    let w₂ := (Step.advance Script.greeting ⟨2⟩ w₁).2
    ∃ ask ∈ w.pending.tasks, ∃ question ∈ w₁.pending.tasks, ∃ hello ∈ w₂.pending.tasks,
      ¬ Premature Script.greeting { w with pending := w.pending.erase ask.id } ask question ∧
      Premature Script.greeting { w₁ with pending := w₁.pending.erase question.id } question
        hello := by
  intro w w₁ w₂
  have hask : ∃ ask ∈ w.pending.tasks, ask.id = ⟨0⟩ ∧ ask.clock = ⟨[1, 0]⟩ := by decide +kernel
  have hquestion : ∃ question ∈ w₁.pending.tasks, question.id = ⟨2⟩ ∧
      question.clock = ⟨[2, 0]⟩ := by decide +kernel
  have hhello : ∃ hello ∈ w₂.pending.tasks, hello.id = ⟨3⟩ ∧ hello.clock = ⟨[0, 2]⟩ := by
    decide +kernel
  have hnew : ∀ u ∈ w.pending.tasks, u.id ≠ ⟨2⟩ := by decide +kernel
  have hnew₁ : ∀ u ∈ w₁.pending.tasks, u.id ≠ ⟨3⟩ := by decide +kernel
  have haccept : Script.greeting.toSetup.accept = .ok () := by decide +kernel
  have hclean : ∀ e, (Step.advance Script.greeting ⟨0⟩ w).1 = .error e → e.Clean :=
    Abort.clean_of_isOk (by decide +kernel)
  have hclean₁ : ∀ e, (Step.advance Script.greeting ⟨2⟩ w₁).1 = .error e → e.Clean :=
    Abort.clean_of_isOk (by decide +kernel)
  have hrun : Step.advance Script.greeting ⟨0⟩ w =
      ((Step.advance Script.greeting ⟨0⟩ w).1, w₁) := (Prod.eta _).symm
  have hrun₁ : Step.advance Script.greeting ⟨2⟩ w₁ =
      ((Step.advance Script.greeting ⟨2⟩ w₁).1, w₂) := (Prod.eta _).symm
  have hw : Reaches Script.greeting Abort.Clean w := .start _
  have hw₁ : Reaches Script.greeting Abort.Clean w₁ := hw.task ⟨0⟩ hrun hclean
  clear_value w₂ w₁ w
  obtain ⟨ask, hask, hid, hclock⟩ := hask
  obtain ⟨question, hquestion, hid₁, hclock₁⟩ := hquestion
  obtain ⟨hello, hhello, hid₂, hclock₂⟩ := hhello
  rw [← hid] at hrun
  rw [← hid₁] at hrun₁
  obtain ⟨hfollows, -⟩ := hw.follows_iff_not_premature haccept hask hrun (hid ▸ hclean) hquestion
    fun h => hnew question h hid₁
  obtain ⟨hfollows₁, -⟩ := hw₁.follows_iff_not_premature haccept hquestion hrun₁
    (hid₁ ▸ hclean₁) hhello fun h => hnew₁ hello h hid₂
  rw [hclock, hclock₁] at hfollows
  rw [hclock₁, hclock₂] at hfollows₁
  refine ⟨ask, hask, question, hquestion, hello, hhello, hfollows.mp (by decide), ?_⟩
  by_contra hnot
  exact absurd (hfollows₁.mpr hnot) (by decide)

/-- Executing the delivery of the question adds the greeting, which does not come after the delivery
by its clock and belongs to a node before its own: the search never lets it go next. -/
theorem Script.greeting_passed_over :
    let w := (Step.advance Script.greeting ⟨0⟩
      ((World.new Script.greeting).reset Script.greeting)).2
    ∃ f ∈ w.pending.tasks, ∃ t ∈ (Step.advance Script.greeting f.id w).2.pending.tasks,
      (∀ u ∈ w.pending.tasks, u.id ≠ t.id) ∧ f.clock.happensBefore t.clock = false ∧
        Tree.follows (some f.view) t.view = false := by
  decide +kernel

end Interleave
