/-
# What a handler can do

A handler asks for one thing after the other, and each request changes the state
in one of a few ways: a message is posted or lost at once, a line is logged, the
operation in flight is concluded, the node is started, its instance is lent out
or put back. A request is one change, however many tasks and events it adds. All
that runs on behalf of a node is a chain of such requests; where it breaks off,
the request at hand may be half done, and what may be left of it is said here
too.

Key definitions: `Request`, `Requests`, `Sends`, `Concludes`, `World.Intact`, `Abort.Clean`,
`Breaks`, `Leaves`, `Step.Handles`.
Key theorems: `Step.handles_perform`, `Step.handles_runHook`, `Step.handles_wake`.
-/
import Mathlib.Logic.Relation
import Interleave.Proofs.Step

namespace Interleave

variable {σ μ α β : Type}

/-! ### Changes of the state -/

/-- The message whose receipt at `q` from `p` is recorded here. -/
def Occurrence.receipt? (p q : NodeId) (o : Occurrence) : Option MessageId :=
  match o.event with
  | .received id sender _ => if sender = p ∧ o.node = q then some id else none
  | _ => none

namespace World

/-- The messages that `q` received from `p`, in order. -/
def receipts (w : World σ μ) (p q : NodeId) : List MessageId :=
  w.events.filterMap (Occurrence.receipt? p q)

/-- The state with one more event at node `v`. -/
def recorded (w : World σ μ) (v : NodeId) (e : Event) : World σ μ :=
  { w with events := w.events ++ [⟨v, e⟩] }

theorem receipts_recorded (w : World σ μ) (v : NodeId) (e : Event) (p q : NodeId) :
    (w.recorded v e).receipts p q =
      w.receipts p q ++ (Occurrence.receipt? p q ⟨v, e⟩).toList := by
  cases h : Occurrence.receipt? p q ⟨v, e⟩ <;> simp [receipts, recorded, h]

/-- The state after node `v` gave a message its number and sent it. -/
def dispatched (c : Cluster σ μ) (w : World σ μ) (v : NodeId) (message : μ) (target : NodeId)
    (k : Clock) (next : MessageId) : World σ μ :=
  (Step.ticked { w with nextMessage := next } v (.sent w.nextMessage) k).recorded v
    (.sent w.nextMessage target (c.protocol.messageText message))

/-- The state after operation `i` of node `v` ended, with the node at `a` of its list and the
results `rs` before. -/
def ended (w : World σ μ) (v : NodeId) (a : Agenda) (i : UInt64) (rs : List Answer)
    (result : Answer) : World σ μ :=
  { w with
    agendas := w.agendas.set v.index { a with current := none }
    results := w.results.set v.index (rs.set i.toNat result) : World σ μ }.recorded v
      (.finished i result)

/-- The state with fault candidates attached to a message. -/
def attached (w : World σ μ) (m : MessageId) (ids : List TaskId) : World σ μ :=
  if ids.isEmpty then w else { w with candidates := Ascending.put m ids w.candidates }

theorem attached_eq (w : World σ μ) (m : MessageId) (ids : List TaskId) :
    ∃ candidates, w.attached m ids = { w with candidates := candidates } := by
  unfold attached
  split
  · exact ⟨w.candidates, rfl⟩
  · exact ⟨_, rfl⟩

/-- The faults that may be injected at message `m` of node `v`. -/
def offers (c : Cluster σ μ) (w : World σ μ) (v : NodeId) (m : MessageId) : List (Work μ) :=
  (if c.config.allowsFaults && (w.fault.crash? v).isSome then [.crash m] else []) ++
    if c.config.splits && w.fault.canPartition then [.partition m] else []

/-- Node `v` has no operation in flight. -/
def Idle (w : World σ μ) (v : NodeId) : Prop := ∃ a, w.agendas[v.index]? = some a ∧ a.current = none

/-- Node `v` has its place in the state, and its operation in flight has a place for the result. -/
structure Intact (w : World σ μ) (v : NodeId) : Prop where
  clock : v.index < w.clocks.clocks.length
  agenda : v.index < w.agendas.length
  result : ∀ a i, w.agendas[v.index]? = some a → a.current = some i →
    ∃ rs, w.results[v.index]? = some rs ∧ i.toNat < rs.length

end World

/-- Operation `i` of node `v` was in flight, and ended. -/
def Ends (v : NodeId) (result : Answer) (i : UInt64) (w w' : World σ μ) : Prop :=
  ∃ a rs, w.agendas[v.index]? = some a ∧ a.current = some i ∧ w.results[v.index]? = some rs ∧
    i.toNat < rs.length ∧ w' = w.ended v a i rs result

/-- Node `v` gave itself a task. -/
def Scheduled (v : NodeId) (body : Work μ) (w w' : World σ μ) : Prop :=
  ∃ k k' next, w.clocks.clocks[v.index]? = some k ∧ k.tick? v = some k' ∧
    w.nextTask.next? = some next ∧ w' = Step.enqueued (Step.ticked w v .work k') v k' body next

/-- The next operation of node `v` was scheduled, if there is one. -/
def Queued (c : Cluster σ μ) (v : NodeId) (w w' : World σ μ) : Prop :=
  ∃ a, w.agendas[v.index]? = some a ∧
    if a.next.toNat < (c.operations v).length then Scheduled v (.operation a.next) w w' else w' = w

/-- Tasks of node `v` were added under the next numbers. -/
inductive Offered (v : NodeId) (k : Clock) :
    List (Work μ) → World σ μ → List TaskId → World σ μ → Prop
  | nil (w : World σ μ) : Offered v k [] w [] w
  | cons {body : Work μ} {bodies : List (Work μ)} {w w' : World σ μ} {next : TaskId}
      {ids : List TaskId} (number : w.nextTask.next? = some next)
      (rest : Offered v k bodies (Step.enqueued w v k body next) ids w') :
      Offered v k (body :: bodies) w (w.nextTask :: ids) w'

namespace Offered

variable {v : NodeId} {k : Clock} {bodies bodies' : List (Work μ)} {w w₁ w₂ : World σ μ}
  {ids ids' : List TaskId}

theorem append (h : Offered v k bodies w ids w₁) (h' : Offered v k bodies' w₁ ids' w₂) :
    Offered v k (bodies ++ bodies') w (ids ++ ids') w₂ := by
  induction h with
  | nil => exact h'
  | cons number rest ih => exact .cons number (ih h')

theorem fault_eq (h : Offered v k bodies w ids w₁) : w₁.fault = w.fault := by
  induction h with
  | nil => rfl
  | cons number rest ih => exact ih

theorem events_eq (h : Offered v k bodies w ids w₁) : w₁.events = w.events := by
  induction h with
  | nil => rfl
  | cons number rest ih => exact ih

end Offered

/-! ### Requests -/

/-- One thing that a handler of node `v` can do. -/
inductive Request (c : Cluster σ μ) (v : NodeId) : World σ μ → World σ μ → Prop
  /-- A message goes to a node out of reach, and is lost. -/
  | lose {w : World σ μ} {k k' : Clock} {next : MessageId} (message : μ) (target : NodeId)
      (known : target.index < w.size) (clock : w.clocks.clocks[v.index]? = some k)
      (ticks : k.tick? v = some k') (number : w.nextMessage.next? = some next)
      (cut : w.fault.reaches v target = false) :
      Request c v w
        ((w.dispatched c v message target k' next).recorded v (.lost w.nextMessage target))
  /-- A message becomes a delivery, with the faults that may be injected at it. -/
  | post {w w' : World σ μ} {k k' : Clock} {next : MessageId} {nextTask : TaskId}
      {ids : List TaskId} (message : μ) (target : NodeId) (known : target.index < w.size)
      (clock : w.clocks.clocks[v.index]? = some k) (ticks : k.tick? v = some k')
      (number : w.nextMessage.next? = some next) (reached : w.fault.reaches v target = true)
      (place : w.nextTask.next? = some nextTask)
      (offered : Offered v k' (w.offers c v w.nextMessage)
        (Step.enqueued (w.dispatched c v message target k' next) target k'
          (.receive v message w.nextMessage) nextTask) ids w') :
      Request c v w (w'.attached w.nextMessage ids)
  | note (w : World σ μ) (text : String) :
      Request c v w
        ({ w with logs := w.logs.modify v.index (· ++ [text]) : World σ μ }.recorded v (.noted text))
  /-- The operation in flight ends with a result, and the next one is scheduled. -/
  | conclude {w w₁ w' : World σ μ} {result : Answer} {i : UInt64} (real : result ≠ .missing)
      (ends : Ends v result i w w₁) (queued : Queued c v w₁ w') : Request c v w w'
  | start {w : World σ μ} {a : Agenda} (agenda : w.agendas[v.index]? = some a) :
      Request c v w { w with agendas := w.agendas.set v.index { a with started := true } }
  /-- The instance is lent to a handler, or put back. -/
  | lend (w : World σ μ) (x : Option σ) :
      Request c v w { w with instances := w.instances.set v.index x }

/-- Requests one after the other. -/
abbrev Requests (c : Cluster σ μ) (v : NodeId) : World σ μ → World σ μ → Prop :=
  Relation.ReflTransGen (Request c v)

theorem Request.fault_eq {c : Cluster σ μ} {v : NodeId} {w w' : World σ μ} (h : Request c v w w') :
    w'.fault = w.fault := by
  cases h with
  | lose => rfl
  | post message target known clock ticks number reached place offered =>
    obtain ⟨candidates, hattached⟩ := World.attached_eq _ w.nextMessage _
    rw [hattached]
    exact offered.fault_eq
  | note => rfl
  | conclude real ends queued =>
    obtain ⟨a, rs, -, -, -, -, rfl⟩ := ends
    obtain ⟨a', -, hqueued⟩ := queued
    split at hqueued
    · obtain ⟨k, k', next, -, -, -, rfl⟩ := hqueued
      rfl
    · rw [hqueued]
      rfl
  | start => rfl
  | lend => rfl

theorem Requests.fault_eq {c : Cluster σ μ} {v : NodeId} {w w' : World σ μ}
    (h : Requests c v w w') : w'.fault = w.fault := by
  induction h with
  | refl => rfl
  | tail _ last ih => rw [last.fault_eq, ih]

/-- What comes of sending a message from node `v`. One to an address outside the cluster is dropped. -/
inductive Sends (c : Cluster σ μ) (v : NodeId) (message : μ) (target : NodeId) (w : World σ μ) :
    World σ μ → Prop
  | unknown (absent : w.size ≤ target.index) : Sends c v message target w w
  | lose {k k' : Clock} {next : MessageId} (known : target.index < w.size)
      (clock : w.clocks.clocks[v.index]? = some k) (ticks : k.tick? v = some k')
      (number : w.nextMessage.next? = some next) (cut : w.fault.reaches v target = false) :
      Sends c v message target w
        ((w.dispatched c v message target k' next).recorded v (.lost w.nextMessage target))
  | post {w' : World σ μ} {k k' : Clock} {next : MessageId} {nextTask : TaskId} {ids : List TaskId}
      (known : target.index < w.size) (clock : w.clocks.clocks[v.index]? = some k)
      (ticks : k.tick? v = some k') (number : w.nextMessage.next? = some next)
      (reached : w.fault.reaches v target = true) (place : w.nextTask.next? = some nextTask)
      (offered : Offered v k' (w.offers c v w.nextMessage)
        (Step.enqueued (w.dispatched c v message target k' next) target k'
          (.receive v message w.nextMessage) nextTask) ids w') :
      Sends c v message target w (w'.attached w.nextMessage ids)

theorem Sends.requests {c : Cluster σ μ} {v : NodeId} {message : μ} {target : NodeId}
    {w w' : World σ μ} (h : Sends c v message target w w') : Requests c v w w' := by
  cases h with
  | unknown absent => exact .refl
  | lose known clock ticks number cut =>
    exact .single (.lose message target known clock ticks number cut)
  | post known clock ticks number reached place offered =>
    exact .single (.post message target known clock ticks number reached place offered)

/-- What comes of finishing the operation of node `v` in flight, and whether there was one. -/
inductive Concludes (c : Cluster σ μ) (v : NodeId) (result : Answer) (w : World σ μ) :
    Bool → World σ μ → Prop
  | idle (idle : w.Idle v) : Concludes c v result w false w
  | ends {i : UInt64} {w₁ w' : World σ μ} (ends : Ends v result i w w₁) (queued : Queued c v w₁ w') :
      Concludes c v result w true w'

theorem Concludes.requests {c : Cluster σ μ} {v : NodeId} {result : Answer} {b : Bool}
    {w w' : World σ μ} (h : Concludes c v result w b w') (hresult : result ≠ .missing) :
    Requests c v w w' := by
  cases h with
  | idle idle => exact .refl
  | ends ends queued => exact .single (.conclude hresult ends queued)

/-- Nothing but a handler panicked, if anything did: no counter ran out and no entry was missing. -/
def Abort.Clean (e : Abort) : Prop := ∀ p, e = .panic p → ∃ payload, p = .raised payload

theorem Abort.Clean.of_calm {e : Abort} (h : ∀ p, e ≠ .panic p) : e.Clean :=
  fun p hp => absurd hp (h p)

/-- The state after a panic in the midst of a change: no receipt is added, and it was not for an
entry out of bounds if node `v` was intact. -/
structure Breaks (v : NodeId) (e : Abort) (w w' : World σ μ) : Prop where
  unclean : ¬ e.Clean
  receipts : ∀ p q, w'.receipts p q = w.receipts p q
  bounds : w.Intact v → ∀ n i, e ≠ .panic (.outOfBounds n i)

/-- What an abort leaves of a state: only a panic that is not a handler's own comes in the midst of
a change. -/
inductive Leaves (v : NodeId) (e : Abort) (w w' : World σ μ) : Prop
  | whole (clean : e.Clean) (same : w' = w)
  | broken (breaks : Breaks v e w w')

namespace Breaks

variable {v : NodeId} {e : Abort} {w w₁ w' : World σ μ}

/-- A change that began before the panic is part of what is half done. -/
theorem after (h : Breaks v e w₁ w') (hreceipts : ∀ p q, w₁.receipts p q = w.receipts p q)
    (hintact : w.Intact v → w₁.Intact v) : Breaks v e w w' where
  unclean := h.unclean
  receipts p q := by rw [h.receipts, hreceipts]
  bounds hw := h.bounds (hintact hw)

/-- No number was left, or it was taken. -/
theorem of_numbers (he : e = .panic .overflow ∨ e = .panic .reusedTask)
    (hreceipts : ∀ p q, w'.receipts p q = w.receipts p q) : Breaks v e w w' := by
  rcases he with rfl | rfl
  · exact ⟨by simp [Abort.Clean], hreceipts, fun _ _ _ => by simp⟩
  · exact ⟨by simp [Abort.Clean], hreceipts, fun _ _ _ => by simp⟩

/-- An entry was asked for that node `v` does not have. -/
theorem of_bounds {n i : Nat} (hw : ¬ w.Intact v)
    (hreceipts : ∀ p q, w'.receipts p q = w.receipts p q) :
    Breaks v (.panic (.outOfBounds n i)) w w' :=
  ⟨by simp [Abort.Clean], hreceipts, fun h => absurd h hw⟩

end Breaks

/-! ### Parts of requests -/

namespace Step

open Attempt

variable {c : Cluster σ μ} {v : NodeId} {w w' : World σ μ} {e : Abort}

theorem tick_error {cause : Cause} (h : tick v cause w = (.error e, w')) : Breaks v e w w' := by
  cases hk : w.clocks.clocks[v.index]? with
  | none =>
    have hout : ¬ w.Intact v := fun hw => by
      have hlen := List.getElem?_eq_none_iff.mp hk
      have hlt := hw.clock
      omega
    rw [tick, get_bind, ClockBank.tick, ClockBank.read, hk] at h
    cases h
    exact .of_bounds hout fun _ _ => rfl
  | some k =>
    cases hk' : k.tick? v with
    | none =>
      rw [tick, get_bind, ClockBank.tick, ClockBank.read, hk] at h
      simp only [hk'] at h
      cases h
      exact .of_numbers (.inl rfl) fun _ _ => rfl
    | some k' =>
      rw [tick_ok_iff.mpr ⟨k, hk, hk', rfl⟩] at h
      cases h

theorem enqueue_error {owner : NodeId} {clock : Clock} {body : Work μ}
    (h : enqueue owner clock body w = (.error e, w')) :
    (e = .panic .overflow ∨ e = .panic .reusedTask) ∧ w'.events = w.events := by
  rw [enqueue, get_bind] at h
  rcases bind_error h with h₁ | ⟨next, w₁, h₁, h⟩
  · obtain ⟨he, rfl⟩ := orOverflow_error h₁
    exact ⟨.inl he, rfl⟩
  · obtain ⟨-, rfl⟩ := orOverflow_ok_iff.mp h₁
    rw [modify_bind, get_bind] at h
    unfold Pending.insert at h
    split at h
    · cases h
      exact ⟨.inr rfl, rfl⟩
    · cases h

theorem scheduled_of_ok {body : Work μ}
    (h : (do let clock ← tick v .work; let _ ← enqueue v clock body) w = (.ok (), w')) :
    Scheduled v body w w' := by
  obtain ⟨k', w₁, h₁, h⟩ := bind_ok h
  obtain ⟨k, hk, hk', rfl⟩ := tick_ok_iff.mp h₁
  obtain ⟨id, w₂, h₂, h⟩ := bind_ok h
  obtain ⟨next, hnext, -, -, rfl⟩ := enqueue_ok_iff.mp h₂
  cases h
  exact ⟨k, k', next, hk, hk', hnext, rfl⟩

theorem breaks_of_schedule {body : Work μ}
    (h : (do let clock ← tick v .work; let _ ← enqueue v clock body) w = (.error e, w')) :
    Breaks v e w w' := by
  rcases bind_error h with h₁ | ⟨k', w₁, h₁, h⟩
  · exact tick_error h₁
  · obtain ⟨k, -, -, rfl⟩ := tick_ok_iff.mp h₁
    rcases bind_error h with h₂ | ⟨id, w₂, -, h⟩
    · obtain ⟨he, hevents⟩ := enqueue_error h₂
      exact .of_numbers he fun p q => by rw [World.receipts, hevents]; rfl
    · cases h

theorem breaks_of_agenda (h : (entry w.agendas v : Step σ μ Agenda) w = (.error e, w')) :
    Breaks v e w w' := by
  obtain ⟨hnone, rfl, rfl⟩ := entry_error h
  refine .of_bounds (fun hw => ?_) fun _ _ => rfl
  have hlen := List.getElem?_eq_none_iff.mp hnone
  have hlt := hw.agenda
  omega

theorem queueNext_ok (h : queueNext c v w = (.ok (), w')) : Queued c v w w' := by
  rw [queueNext, get_bind] at h
  obtain ⟨a, w₁, h₁, h₂⟩ := bind_ok h
  obtain ⟨ha, rfl⟩ := entry_ok_iff.mp h₁
  refine ⟨a, ha, ?_⟩
  by_cases hnext : a.next.toNat < (c.operations v).length
  · rw [if_pos hnext] at h₂ ⊢
    exact scheduled_of_ok h₂
  · rw [if_neg hnext] at h₂ ⊢
    cases h₂
    rfl

theorem queueNext_error (h : queueNext c v w = (.error e, w')) : Breaks v e w w' := by
  rw [queueNext, get_bind] at h
  rcases bind_error h with h₁ | ⟨a, w₁, h₁, h₂⟩
  · exact breaks_of_agenda h₁
  · obtain ⟨-, rfl⟩ := entry_ok_iff.mp h₁
    by_cases hnext : a.next.toNat < (c.operations v).length
    · rw [if_pos hnext] at h₂
      exact breaks_of_schedule h₂
    · rw [if_neg hnext] at h₂
      cases h₂

theorem endCurrent_ok {result : Answer} {x : Option UInt64}
    (h : endCurrent v result w = (.ok x, w')) :
    (x = none ∧ w.Idle v ∧ w' = w) ∨ ∃ i, x = some i ∧ Ends v result i w w' := by
  rw [endCurrent, get_bind] at h
  obtain ⟨a, w₁, hentry, hrest⟩ := bind_ok h
  obtain ⟨ha, rfl⟩ := entry_ok_iff.mp hentry
  cases hcurrent : a.current with
  | none =>
    rw [hcurrent] at hrest
    cases hrest
    exact .inl ⟨rfl, ⟨a, ha, hcurrent⟩, rfl⟩
  | some i =>
    simp only [hcurrent, setAgenda, modify_bind, storeResult] at hrest
    obtain ⟨u, w₂, hstore, hdone⟩ := bind_ok hrest
    rw [get_bind] at hstore
    obtain ⟨rs, w₃, hentry', hset⟩ := bind_ok hstore
    obtain ⟨hrs, rfl⟩ := entry_ok_iff.mp hentry'
    by_cases hi : i.toNat < rs.length
    · rw [if_pos hi, modify_apply] at hset
      cases hset
      cases hdone
      exact .inr ⟨i, rfl, a, rs, ha, hcurrent, hrs, hi, rfl⟩
    · rw [if_neg hi] at hset
      cases hset

theorem endCurrent_error {result : Answer} (h : endCurrent v result w = (.error e, w')) :
    Breaks v e w w' := by
  rw [endCurrent, get_bind] at h
  rcases bind_error h with h₁ | ⟨a, w₁, hentry, hrest⟩
  · exact breaks_of_agenda h₁
  obtain ⟨ha, rfl⟩ := entry_ok_iff.mp hentry
  cases hcurrent : a.current with
  | none => rw [hcurrent] at hrest; cases hrest
  | some i =>
    simp only [hcurrent, setAgenda, modify_bind, storeResult] at hrest
    rcases bind_error hrest with hstore | ⟨u, w₂, -, hdone⟩
    · rw [get_bind] at hstore
      -- The only thing that can be missing is the place of the result.
      rcases bind_error hstore with hentry' | ⟨rs, w₃, hentry', hset⟩
      · obtain ⟨hnone, rfl, rfl⟩ := entry_error hentry'
        refine .of_bounds (fun hw => ?_) fun _ _ => rfl
        obtain ⟨rs, hrs, -⟩ := hw.result a i ha hcurrent
        cases hnone.symm.trans hrs
      · obtain ⟨hrs, rfl⟩ := entry_ok_iff.mp hentry'
        by_cases hi : i.toNat < rs.length
        · rw [if_pos hi, modify_apply] at hset
          cases hset
        · rw [if_neg hi] at hset
          cases hset
          refine .of_bounds (fun hw => ?_) fun _ _ => rfl
          obtain ⟨rs', hrs', hlt⟩ := hw.result a i ha hcurrent
          cases hrs.symm.trans hrs'
          exact hi hlt
    · cases hdone

section

variable {k : Clock} {body : Work μ} {allowed : Bool} {ids : List TaskId}

theorem offer_ok
    (h : (if allowed then do return [← enqueue v k body] else return [] :
      Step σ μ (List TaskId)) w = (.ok ids, w')) :
    Offered v k (if allowed then [body] else []) w ids w' := by
  cases allowed with
  | false => cases h; exact .nil _
  | true =>
    obtain ⟨id, w₁, henqueue, hdone⟩ := bind_ok h
    obtain ⟨next, hnext, -, rfl, rfl⟩ := enqueue_ok_iff.mp henqueue
    cases hdone
    exact .cons hnext (.nil _)

theorem offer_error
    (h : (if allowed then do return [← enqueue v k body] else return [] :
      Step σ μ (List TaskId)) w = (.error e, w')) :
    (e = .panic .overflow ∨ e = .panic .reusedTask) ∧ w'.events = w.events := by
  cases allowed with
  | false => cases h
  | true =>
    rcases bind_error h with henqueue | ⟨id, w₁, -, hdone⟩
    · exact enqueue_error henqueue
    · cases hdone

end

/-! ### Running on behalf of a node -/

/-- A step does what handlers of node `v` can do, and leaves off in the midst of it at most. -/
structure Handles (c : Cluster σ μ) (v : NodeId) (s : Step σ μ α) : Prop where
  done : ∀ {w w' a}, s w = (.ok a, w') → Requests c v w w'
  cut : ∀ {w w' e}, s w = (.error e, w') → ∃ w₁, Requests c v w w₁ ∧ Leaves v e w₁ w'

theorem handles_pure (a : α) : Handles c v (pure a : Step σ μ α) where
  done h := by cases h; exact .refl
  cut h := by cases h

theorem Handles.bind {s : Step σ μ α} {f : α → Step σ μ β} (hs : Handles c v s)
    (hf : ∀ a, Handles c v (f a)) : Handles c v (s >>= f) where
  done h := by
    obtain ⟨a, w₁, h₁, h₂⟩ := bind_ok h
    exact (hs.done h₁).trans ((hf a).done h₂)
  cut h := by
    rcases bind_error h with h₁ | ⟨a, w₁, h₁, h₂⟩
    · exact hs.cut h₁
    · obtain ⟨w₂, hreq, hleaves⟩ := (hf a).cut h₂
      exact ⟨w₂, (hs.done h₁).trans hreq, hleaves⟩

theorem handles_read {f : World σ μ → Step σ μ α} (hf : ∀ w, Handles c v (f w)) :
    Handles c v (get >>= f) where
  done h := by rw [get_bind] at h; exact (hf _).done h
  cut h := by rw [get_bind] at h; exact (hf _).cut h

/-- A handler that breaks off of its own accord leaves the state as it is. -/
theorem handles_throw (he : e.Clean) : Handles c v (throw e : Step σ μ α) where
  done h := by cases h
  cut h := by cases h; exact ⟨_, .refl, .whole he rfl⟩

theorem handles_setInstance (x : Option σ) : Handles c v (setInstance v x : Step σ μ Unit) where
  done h := by cases h; exact .single (.lend _ x)
  cut h := by cases h

theorem handles_log (text : String) : Handles c v (log v text : Step σ μ Unit) where
  done h := by cases h; exact .single (.note _ text)
  cut h := by cases h

/-- The part of a send after the message was given its number: it is lost, or becomes a
delivery. -/
def route (c : Cluster σ μ) (v : NodeId) (message : μ) (target : NodeId) (id : MessageId)
    (clock : Clock) : Step σ μ Unit := do
  if !(← get).fault.reaches v target then
    record v (.lost id target)
  else
    let _ ← enqueue target clock (.receive v message id)
    let crash ← offerCrash c v clock id
    let partition ← offerPartition c v clock id
    if !(crash ++ partition).isEmpty then
      modify fun w => { w with candidates := Ascending.put id (crash ++ partition) w.candidates }

theorem send_eq (message : μ) (target : NodeId) : send c v message target = (do
    if (← get).size ≤ target.index then return
    let id := (← get).nextMessage
    let next ← orOverflow id.next?
    modify fun w => { w with nextMessage := next }
    let clock ← tick v (.sent id)
    record v (.sent id target (c.protocol.messageText message))
    route c v message target id clock) := rfl

section

variable {message : μ} {target : NodeId} {k k' : Clock} {next : MessageId}

theorem route_ok (hknown : target.index < w.size) (hk : w.clocks.clocks[v.index]? = some k)
    (hk' : k.tick? v = some k') (hnext : w.nextMessage.next? = some next)
    (h : route c v message target w.nextMessage k' (w.dispatched c v message target k' next) =
      (.ok (), w')) : Sends c v message target w w' := by
  rw [route, get_bind] at h
  cases hreach : w.fault.reaches v target with
  | false =>
    have hreach' : (w.dispatched c v message target k' next).fault.reaches v target = false := hreach
    rw [hreach'] at h
    cases h
    exact .lose hknown hk hk' hnext hreach
  | true =>
    have hreach' : (w.dispatched c v message target k' next).fault.reaches v target = true := hreach
    rw [hreach'] at h
    obtain ⟨id, w₁, henqueue, h₁⟩ := bind_ok h
    obtain ⟨nextTask, hplace, -, -, rfl⟩ := enqueue_ok_iff.mp henqueue
    obtain ⟨crash, w₂, hcrash, h₂⟩ := bind_ok h₁
    obtain ⟨partition, w₃, hpartition, h₃⟩ := bind_ok h₂
    rw [offerCrash, get_bind] at hcrash
    rw [offerPartition, get_bind] at hpartition
    have hfirst := offer_ok hcrash
    have hsecond := offer_ok hpartition
    rw [hfirst.fault_eq] at hsecond
    have hw' : w' = w₃.attached w.nextMessage (crash ++ partition) := by
      unfold World.attached
      cases hempty : (crash ++ partition).isEmpty with
      | true => rw [hempty] at h₃; cases h₃; rfl
      | false => rw [hempty] at h₃; cases h₃; rfl
    rw [hw']
    exact .post hknown hk hk' hnext hreach hplace (hfirst.append hsecond)

/-- A message fails to become a delivery only for lack of a number, before any of it is recorded. -/
theorem route_error {id : MessageId} (h : route c v message target id k w = (.error e, w')) :
    (e = .panic .overflow ∨ e = .panic .reusedTask) ∧ w'.events = w.events := by
  rw [route, get_bind] at h
  cases hreach : w.fault.reaches v target with
  | false => rw [hreach] at h; cases h
  | true =>
    rw [hreach] at h
    rcases bind_error h with henqueue | ⟨task, w₁, henqueue, h₁⟩
    · exact enqueue_error henqueue
    obtain ⟨nextTask, -, -, -, rfl⟩ := enqueue_ok_iff.mp henqueue
    rcases bind_error h₁ with hcrash | ⟨crash, w₂, hcrash, h₂⟩
    · rw [offerCrash, get_bind] at hcrash
      have hfail := offer_error hcrash
      exact hfail
    rw [offerCrash, get_bind] at hcrash
    have hfirst := (offer_ok hcrash).events_eq
    rcases bind_error h₂ with hpartition | ⟨partition, w₃, -, h₃⟩
    · rw [offerPartition, get_bind] at hpartition
      obtain ⟨he, hevents⟩ := offer_error hpartition
      exact ⟨he, hevents.trans hfirst⟩
    · cases hempty : (crash ++ partition).isEmpty with
      | true => rw [hempty] at h₃; cases h₃
      | false => rw [hempty] at h₃; cases h₃

end

theorem send_ok {message : μ} {target : NodeId} (h : send c v message target w = (.ok (), w')) :
    Sends c v message target w w' := by
  rw [send_eq, get_bind] at h
  by_cases hknown : w.size ≤ target.index
  · rw [if_pos hknown] at h
    cases h
    exact .unknown hknown
  · rw [if_neg hknown, get_bind] at h
    obtain ⟨next, w₁, hover, h₁⟩ := bind_ok h
    obtain ⟨hnext, rfl⟩ := orOverflow_ok_iff.mp hover
    rw [modify_bind] at h₁
    obtain ⟨k', w₂, htick, h₂⟩ := bind_ok h₁
    obtain ⟨k, hk, hk', rfl⟩ := tick_ok_iff.mp htick
    rw [record, modify_bind] at h₂
    exact route_ok (by omega) hk hk' hnext h₂

theorem handles_send (message : μ) (target : NodeId) : Handles c v (send c v message target) where
  done h := (send_ok h).requests
  cut {w w' e} h := by
    rw [send_eq, get_bind] at h
    by_cases hknown : w.size ≤ target.index
    · rw [if_pos hknown] at h
      cases h
    · refine ⟨w, .refl, .broken ?_⟩
      rw [if_neg hknown, get_bind] at h
      rcases bind_error h with hover | ⟨next, w₁, hover, h₁⟩
      · obtain ⟨he, rfl⟩ := orOverflow_error hover
        exact .of_numbers (.inl he) fun _ _ => rfl
      obtain ⟨-, rfl⟩ := orOverflow_ok_iff.mp hover
      rw [modify_bind] at h₁
      rcases bind_error h₁ with htick | ⟨k', w₂, htick, h₂⟩
      · exact (tick_error htick).after (fun _ _ => rfl) fun hw => ⟨hw.clock, hw.agenda, hw.result⟩
      obtain ⟨k, -, -, rfl⟩ := tick_ok_iff.mp htick
      rw [record, modify_bind] at h₂
      obtain ⟨he, hevents⟩ := route_error h₂
      refine .of_numbers he fun p q => ?_
      simp [World.receipts, hevents, ticked, Occurrence.receipt?]

theorem conclude_ok {result : Answer} {b : Bool} (h : conclude c v result w = (.ok b, w')) :
    Concludes c v result w b w' := by
  rw [conclude] at h
  obtain ⟨x, w₁, hend, hrest⟩ := bind_ok h
  rcases endCurrent_ok hend with ⟨rfl, hidle, rfl⟩ | ⟨i, rfl, hends⟩
  · cases hrest
    exact .idle hidle
  · obtain ⟨u, w₂, hqueue, hdone⟩ := bind_ok hrest
    cases hdone
    exact .ends hends (queueNext_ok hqueue)

/-- The operation in flight, if there is one, ends and the next one is scheduled. -/
theorem handles_conclude {result : Answer} (hresult : result ≠ .missing) :
    Handles c v (conclude c v result) where
  done h := (conclude_ok h).requests hresult
  cut {w w' e} h := by
    rw [conclude] at h
    refine ⟨w, .refl, .broken ?_⟩
    rcases bind_error h with hend | ⟨x, w₁, hend, hrest⟩
    · exact endCurrent_error hend
    rcases endCurrent_ok hend with ⟨rfl, -, rfl⟩ | ⟨i, rfl, a, rs, ha, hcurrent, hrs, hi, rfl⟩
    · cases hrest
    · rcases bind_error hrest with hqueue | ⟨u, w₂, -, hdone⟩
      · refine (queueNext_error hqueue).after (fun p q => ?_) fun hw => ⟨hw.clock, ?_, ?_⟩
        · simp [World.ended, World.recorded, World.receipts, Occurrence.receipt?]
        · simpa [World.ended, World.recorded] using hw.agenda
        · intro b j hb hj
          have hb' : b = { a with current := none } := by
            simpa [World.ended, World.recorded, hw.agenda] using hb.symm
          rw [hb'] at hj
          cases hj
      · cases hdone

theorem resultOf_ne_missing (value : Option String) : resultOf value ≠ .missing := by
  cases value <;> simp [resultOf]

theorem handles_perform (h : Handler μ α) : Handles c v (perform c v h) := by
  induction h with
  | done a => exact handles_pure a
  | raise payload => exact handles_throw (by simp [Abort.Clean])
  | hang => exact handles_throw (by simp [Abort.Clean])
  | send message target rest ih => exact (handles_send message target).bind fun _ => ih
  | log text rest ih => exact (handles_log text).bind fun _ => ih
  | complete value rest ih => exact (handles_conclude (resultOf_ne_missing value)).bind ih
  | events rest ih => exact handles_read fun w => ih (eventsAt w v)
  | logs rest ih => exact handles_read fun w => ih w.logs

theorem handles_onInstance {ρ : Type} (f : Site → σ → Handler μ (Reply σ ρ)) :
    Handles c v (onInstance c v f) := by
  refine handles_read fun w => ?_
  cases w.instances[v.index]?.join with
  | none => exact handles_pure none
  | some state =>
    refine (handles_setInstance none).bind fun _ => (handles_perform _).bind fun reply => ?_
    exact (handles_setInstance (some reply.1)).bind fun _ => handles_pure _

/-- A step that reads the agenda of its node first. -/
theorem handles_agenda {f : Agenda → Step σ μ α}
    (hdone : ∀ {w w' a b}, w.agendas[v.index]? = some a → f a w = (.ok b, w') → Requests c v w w')
    (hcut : ∀ {w w' a e}, w.agendas[v.index]? = some a → f a w = (.error e, w') →
      ∃ w₁, Requests c v w w₁ ∧ Leaves v e w₁ w') :
    Handles c v (do let a ← entry (← get).agendas v; f a) where
  done h := by
    rw [get_bind] at h
    obtain ⟨a, w₁, hentry, hrest⟩ := bind_ok h
    obtain ⟨ha, rfl⟩ := entry_ok_iff.mp hentry
    exact hdone ha hrest
  cut {w w' e} h := by
    rw [get_bind] at h
    rcases bind_error h with hentry | ⟨a, w₁, hentry, hrest⟩
    · exact ⟨w, .refl, .broken (breaks_of_agenda hentry)⟩
    · obtain ⟨ha, rfl⟩ := entry_ok_iff.mp hentry
      exact hcut ha hrest

theorem handles_absorb (x : NodeError) : Handles c v (absorb c v x) := by
  have hpart : ∀ a : Agenda, Handles c v
      (if ((inFlight? c v a).map (·.handles x.kind)).getD false then do
        let _ ← conclude c v (.exception x.kind)
       else throw (.node v x) : Step σ μ Unit) := by
    intro a
    split
    · exact (handles_conclude (by simp)).bind fun _ => handles_pure ()
    · exact handles_throw (by simp [Abort.Clean])
  exact handles_agenda (fun _ h => (hpart _).done h) fun _ h => (hpart _).cut h

theorem handles_runHook (f : Site → σ → Handler μ (Reply σ Unit)) :
    Handles c v (runHook c v f) := by
  refine (handles_onInstance f).bind fun x => ?_
  rcases x with _ | (x | u)
  · exact handles_pure ()
  · exact handles_absorb x
  · exact handles_pure ()

theorem handles_wake : Handles c v (wake c v) := by
  refine handles_agenda (fun {w w' a b} ha h => ?_) fun {w w' a e} ha h => ?_
  · cases hstarted : a.started with
    | true => rw [hstarted] at h; cases h; exact .refl
    | false =>
      rw [hstarted] at h
      exact .head (.start ha) ((handles_runHook c.protocol.onStart).done h)
  · cases hstarted : a.started with
    | true => rw [hstarted] at h; cases h
    | false =>
      rw [hstarted] at h
      obtain ⟨w₁, hreq, hleaves⟩ := (handles_runHook c.protocol.onStart).cut h
      exact ⟨w₁, .head (.start ha) hreq, hleaves⟩

end Step

end Interleave
