/-
# What executing a task can do

The effect of a task is a chain of changes. Between two of them the task being
executed holds a hand: the tasks taken off the pending ones and not yet
accounted for, and what is still to be done. A crash takes all tasks that die
with the node into the hand and then loses the deliveries among them one by one;
the delivery of a message stays in the hand until the message is received or
lost. So whatever should never be lost track of is in the log, pending or in the
hand, after every single change.

Every invariant of the executions is proved change by change: `Change` is the
only place that says what can happen.

Key definitions: `Hand`, `Change`, `Changes`, `Step.Unfolds`.
Key theorems: `Step.unfolds_execute`, `Step.unfolds_farewell`.
-/
import Interleave.Proofs.Ascending
import Interleave.Proofs.Request

namespace Interleave

variable {σ μ α β : Type}

/-! ### Hands -/

/-- What is still to be done of a task whose effect comes in several changes. -/
inductive Duty (μ : Type) where
  | none
  /-- Node `v` is going down. -/
  | fall (v : NodeId)
  /-- The fault at node `v` is undone by a task, where the settings ask for it. -/
  | undo (v : NodeId) (body : Work μ)
  /-- Node `v` is back and takes up its operations again. -/
  | resume (v : NodeId)

/-- What the task being executed holds. -/
structure Hand (μ : Type) where
  /-- Tasks that are no longer pending and not yet accounted for. -/
  tasks : List (Task μ)
  duty : Duty μ

namespace Hand

def free : Hand μ := ⟨[], .none⟩

def of (t : Task μ) : Hand μ := ⟨[t], .none⟩

end Hand

/-! ### Changes -/

namespace World

/-- The state without the fault candidates of a message that is delivered or lost. -/
def withdrawn (w : World σ μ) (m : MessageId) : World σ μ :=
  { w with
    pending := ((Ascending.lookup m w.candidates).getD []).foldl Pending.erase w.pending
    candidates := Ascending.drop m w.candidates }

/-- The state without the fault candidates that the faults in force no longer allow. -/
def pruned (w : World σ μ) : World σ μ :=
  { w with
    pending := ((w.candidates.flatMap (·.2)).filter fun id => !Step.applicable w id).foldl
      Pending.erase w.pending
    candidates := (w.candidates.map fun e => (e.1, e.2.filter (Step.applicable w))).filter
      fun e => !e.2.isEmpty }

/-- The state after message `m` reached node `v`, whose clock showed `k` before and shows `k'`
now. -/
def arrived (c : Cluster σ μ) (w : World σ μ) (v sender : NodeId) (message : μ) (m : MessageId)
    (k k' : Clock) : World σ μ :=
  (Step.ticked { w with clocks := ⟨w.clocks.clocks.set v.index k⟩ } v (.received m) k').recorded v
    (.received m sender (c.protocol.messageText message))

/-- The state after operation `i` of node `v` was started, with the node at `a` of its list. -/
def begun (w : World σ μ) (v : NodeId) (a : Agenda) (i next : UInt64) (text : String) :
    World σ μ :=
  { w with
    agendas := w.agendas.set v.index { a with current := some i, next := next }
    results := w.results.modify v.index (· ++ [.missing]) : World σ μ }.recorded v
      (.started i text)

/-- The state after the faults changed and the tasks picked by `drop` were taken away. -/
def struck (w : World σ μ) (v : NodeId) (fault : FaultState) (drop : Task μ → Bool) : World σ μ :=
  { w with
    fault := fault
    pending := ⟨w.pending.tasks.filter fun t => !drop t⟩ : World σ μ }.recorded v .crashed

/-- The state without an instance of node `v`. -/
def vacated (w : World σ μ) (v : NodeId) : World σ μ :=
  { w with instances := w.instances.set v.index none }

/-- The state after node `v` came back, with the node at `a` of its list. -/
def revived (c : Cluster σ μ) (w : World σ μ) (v : NodeId) (fault : FaultState) (a : Agenda) :
    World σ μ :=
  { w with
    fault := fault
    instances := w.instances.set v.index (c.registry.spawn? v (w.made.getD v.index 0))
    made := w.made.modify v.index (· + 1)
    agendas := w.agendas.set v.index { a with started := true } : World σ μ }.recorded v .recovered

end World

/-- The task has no effect on the state. -/
def Task.Void (c : Cluster σ μ) (w : World σ μ) (t : Task μ) : Prop :=
  match t.body with
  | .operation i =>
    w.fault.isCrashed t.owner = true ∨ (c.operations t.owner)[i.toNat]? = none
  | .crash _ => w.fault.crash? t.owner = none
  | .recover => w.fault.recover? t.owner = none
  | _ => False

/-- One change of the state, and of the hand of the task being executed. -/
inductive Change (c : Cluster σ μ) : Hand μ → World σ μ → Hand μ → World σ μ → Prop
  | request {h : Hand μ} {v : NodeId} {w w' : World σ μ} (quiet : ∀ u, h.duty ≠ .fall u)
      (does : Request c v w w') : Change c h w h w'
  | prune (h : Hand μ) (w : World σ μ) : Change c h w h w.pruned
  | close (v : NodeId) (w : World σ μ) : Change c .free w .free (w.recorded v .closed)
  /-- The candidates of a message go before the message is received or lost. -/
  | withdraw {t : Task μ} {ts : List (Task μ)} {d : Duty μ} {sender : NodeId} {message : μ}
      {m : MessageId} (w : World σ μ) (body : t.body = .receive sender message m) :
      Change c ⟨t :: ts, d⟩ w ⟨t :: ts, d⟩ (w.withdrawn m)
  | lose {t : Task μ} {ts : List (Task μ)} {d : Duty μ} {sender : NodeId} {message : μ}
      {m : MessageId} {w : World σ μ} (body : t.body = .receive sender message m)
      (doomed : d = .none →
        w.fault.isCrashed t.owner = true ∨ w.fault.reaches sender t.owner = false) :
      Change c ⟨t :: ts, d⟩ w ⟨ts, d⟩ (w.recorded sender (.lost m t.owner))
  | receive {t : Task μ} {sender : NodeId} {message : μ} {m : MessageId} {w : World σ μ}
      {k k' : Clock} (body : t.body = .receive sender message m)
      (up : w.fault.isCrashed t.owner = false) (reached : w.fault.reaches sender t.owner = true)
      (clock : w.clocks.clocks[t.owner.index]? = some k)
      (ticks : (k.join t.clock).tick? t.owner = some k') :
      Change c (.of t) w .free (w.arrived c t.owner sender message m (k.join t.clock) k')
  | skip {t : Task μ} {w : World σ μ} (void : t.Void c w) : Change c (.of t) w .free w
  /-- What is no delivery goes down with its node without a trace. -/
  | discard {t : Task μ} {ts : List (Task μ)} {v : NodeId} (w : World σ μ)
      (kind : t.kind ≠ .receive) : Change c ⟨t :: ts, .fall v⟩ w ⟨ts, .fall v⟩ w
  | begin {t : Task μ} {i next : UInt64} {operation : Operation} {a : Agenda} {w : World σ μ}
      (body : t.body = .operation i) (up : w.fault.isCrashed t.owner = false)
      (listed : (c.operations t.owner)[i.toNat]? = some operation)
      (agenda : w.agendas[t.owner.index]? = some a) (number : wordSucc? i = some next) :
      Change c (.of t) w .free (w.begun t.owner a i next operation.text)
  | crash {t : Task μ} {m : MessageId} {fault : FaultState} {w : World σ μ}
      (body : t.body = .crash m) (allowed : w.fault.crash? t.owner = some fault) :
      Change c (.of t) w
        ⟨w.pending.tasks.filter (Step.diesWith t.owner m), .fall t.owner⟩
        (w.struck t.owner fault (Step.diesWith t.owner m))
  | fall {v : NodeId} {w w' : World σ μ}
      (stops : (w.Idle v ∧ w' = w.vacated v) ∨ ∃ i, Ends v .crashed i (w.vacated v) w') :
      Change c ⟨[], .fall v⟩ w ⟨[], .undo v .recover⟩ w'
  | undo {v : NodeId} {body : Work μ} {w w' : World σ μ} (mends : body = .recover ∨ body = .heal)
      (does : if c.config.recovers then Scheduled v body w w' else w' = w) :
      Change c ⟨[], .undo v body⟩ w .free w'
  | recover {t : Task μ} {fault : FaultState} {a : Agenda} {w : World σ μ} (body : t.body = .recover)
      (allowed : w.fault.recover? t.owner = some fault)
      (agenda : w.agendas[t.owner.index]? = some a) :
      Change c (.of t) w ⟨[], .resume t.owner⟩ (w.revived c t.owner fault a)
  | resume {v : NodeId} {a : Agenda} {w w' : World σ μ} (agenda : w.agendas[v.index]? = some a)
      (does : if a.current.isNone then Queued c v w w' else w' = w) :
      Change c ⟨[], .resume v⟩ w .free w'
  | split {t : Task μ} {m : MessageId} {fault : FaultState} {source : Source} {w : World σ μ}
      (body : t.body = .partition m) (drawn : w.fault.partition? w.source = (some fault, source)) :
      Change c (.of t) w ⟨[], .undo t.owner .heal⟩
        ({ w with source := source, fault := fault : World σ μ }.recorded t.owner
          (.partitioned fault.describe))
  | splitRefused {t : Task μ} {m : MessageId} {source : Source} {w : World σ μ}
      (body : t.body = .partition m) (drawn : w.fault.partition? w.source = (none, source)) :
      Change c (.of t) w .free { w with source := source }
  | heal {t : Task μ} {fault : FaultState} {source : Source} {w : World σ μ} (body : t.body = .heal)
      (drawn : w.fault.heal? w.source = (some fault, source)) :
      Change c (.of t) w .free
        ({ w with source := source, fault := fault : World σ μ }.recorded t.owner
          (.healed fault.describe))
  | healRefused {t : Task μ} {source : Source} {w : World σ μ} (body : t.body = .heal)
      (drawn : w.fault.heal? w.source = (none, source)) :
      Change c (.of t) w .free { w with source := source }

/-- Changes one after the other. -/
inductive Changes (c : Cluster σ μ) (h : Hand μ) (w : World σ μ) : Hand μ → World σ μ → Prop
  | refl : Changes c h w h w
  | tail {h₁ h₂ : Hand μ} {w₁ w₂ : World σ μ} (first : Changes c h w h₁ w₁)
      (last : Change c h₁ w₁ h₂ w₂) : Changes c h w h₂ w₂

namespace Changes

variable {c : Cluster σ μ} {h h₁ h₂ : Hand μ} {w w₁ w₂ : World σ μ}

theorem single (change : Change c h w h₁ w₁) : Changes c h w h₁ w₁ := .tail .refl change

theorem trans (first : Changes c h w h₁ w₁) (second : Changes c h₁ w₁ h₂ w₂) :
    Changes c h w h₂ w₂ := by
  induction second with
  | refl => exact first
  | tail _ last ih => exact .tail ih last

theorem of_requests {v : NodeId} (quiet : ∀ u, h.duty ≠ .fall u) (does : Requests c v w w₁) :
    Changes c h w h w₁ := by
  induction does with
  | refl => exact .refl
  | tail _ last ih => exact .tail ih (.request quiet last)

/-- What every change keeps, a chain of changes keeps. -/
theorem keeps {P : Hand μ → World σ μ → Prop}
    (hchange : ∀ {h₁ w₁ h₂ w₂}, Change c h₁ w₁ h₂ w₂ → P h₁ w₁ → P h₂ w₂)
    (changes : Changes c h w h₁ w₁) (hP : P h w) : P h₁ w₁ := by
  induction changes with
  | refl => exact hP
  | tail _ last ih => exact hchange last ih

end Changes

/-! ### Tasks as chains of changes -/

namespace Step

open Attempt

/-- The step, started with hand `h`, is a chain of changes that ends with hand `h'`, or it breaks
off in the midst of one. Only a panic that is not a handler's own breaks a crash off. -/
structure Unfolds (c : Cluster σ μ) (v : NodeId) (h h' : Hand μ) (s : Step σ μ α) (w : World σ μ) :
    Prop where
  done : ∀ {a w'}, s w = (.ok a, w') → Changes c h w h' w'
  cut : ∀ {e w'}, s w = (.error e, w') → ∃ h₁ w₁, Changes c h w h₁ w₁ ∧ Leaves v e w₁ w' ∧
    ∀ u, h₁.duty = .fall u → ¬ e.Clean

variable {c : Cluster σ μ} {v : NodeId} {h h₁ h₂ : Hand μ} {w w' : World σ μ}

theorem Unfolds.bind {s : Step σ μ α} {f : α → Step σ μ β} (hs : Unfolds c v h h₁ s w)
    (hf : ∀ {a w₁}, s w = (.ok a, w₁) → Unfolds c v h₁ h₂ (f a) w₁) :
    Unfolds c v h h₂ (s >>= f) w where
  done hok := by
    obtain ⟨a, w₁, hfirst, hsecond⟩ := bind_ok hok
    exact (hs.done hfirst).trans ((hf hfirst).done hsecond)
  cut herror := by
    rcases bind_error herror with hfirst | ⟨a, w₁, hfirst, hsecond⟩
    · exact hs.cut hfirst
    · obtain ⟨h₃, w₃, hchanges, hrest⟩ := (hf hfirst).cut hsecond
      exact ⟨h₃, w₃, (hs.done hfirst).trans hchanges, hrest⟩

theorem unfolds_pure (a : α) : Unfolds c v h h (pure a : Step σ μ α) w where
  done hok := by cases hok; exact .refl
  cut herror := by cases herror

/-- A step that cannot fail and makes one change. -/
theorem Unfolds.of_change {g : World σ μ → World σ μ} (change : Change c h w h₁ (g w)) :
    Unfolds c v h h₁ (modify g : Step σ μ Unit) w where
  done hok := by cases hok; exact .single change
  cut herror := by cases herror

theorem Handles.unfolds {s : Step σ μ α} (hs : Handles c v s) (quiet : ∀ u, h.duty ≠ .fall u) :
    Unfolds c v h h s w where
  done hok := .of_requests quiet (hs.done hok)
  cut herror := by
    obtain ⟨w₁, hreq, hleaves⟩ := hs.cut herror
    exact ⟨h, w₁, .of_requests quiet hreq, hleaves, fun u hu => absurd hu (quiet u)⟩

theorem Unfolds.read {f : World σ μ → Step σ μ α} (hf : Unfolds c v h h₁ (f w) w) :
    Unfolds c v h h₁ (get >>= f) w where
  done hok := by rw [get_bind] at hok; exact hf.done hok
  cut herror := by rw [get_bind] at herror; exact hf.cut herror

/-- The first part of a step makes one change. -/
theorem Unfolds.after {s s' : Step σ μ α} {w₁ : World σ μ} (change : Change c h w h₁ w₁)
    (hs : Unfolds c v h₁ h₂ s' w₁) (heq : s w = s' w₁) : Unfolds c v h h₂ s w where
  done hok := (Changes.single change).trans (hs.done (heq ▸ hok))
  cut herror := by
    obtain ⟨h₃, w₃, hchanges, hrest⟩ := hs.cut (heq ▸ herror)
    exact ⟨h₃, w₃, (Changes.single change).trans hchanges, hrest⟩

/-- A step whose first part makes one change or breaks off. -/
theorem Unfolds.of_parts {γ : Type} {s : Step σ μ γ} {f : γ → Step σ μ α} (h₁ : Hand μ)
    (hdone : ∀ {b w₁}, s w = (.ok b, w₁) → Change c h w h₁ w₁ ∧ Unfolds c v h₁ h₂ (f b) w₁)
    (hcut : ∀ {e w₁}, s w = (.error e, w₁) → Breaks v e w w₁) :
    Unfolds c v h h₂ (s >>= f) w where
  done hok := by
    obtain ⟨b, w₁, hfirst, hsecond⟩ := bind_ok hok
    obtain ⟨change, hf⟩ := hdone hfirst
    exact (Changes.single change).trans (hf.done hsecond)
  cut herror := by
    rcases bind_error herror with hfirst | ⟨b, w₁, hfirst, hsecond⟩
    · have breaks := hcut hfirst
      exact ⟨h, w, .refl, .broken breaks, fun _ _ => breaks.unclean⟩
    · obtain ⟨change, hf⟩ := hdone hfirst
      obtain ⟨h₃, w₃, hchanges, hrest⟩ := hf.cut hsecond
      exact ⟨h₃, w₃, (Changes.single change).trans hchanges, hrest⟩

theorem quiet_free : ∀ u, (Hand.free : Hand μ).duty ≠ .fall u := by simp [Hand.free]

theorem unfolds_farewell (v : NodeId) (w : World σ μ) :
    Unfolds c v .free .free (farewell c v) w := by
  refine ((handles_onInstance c.protocol.onFinish).unfolds quiet_free).bind fun {x w₁} _ => ?_
  cases x with
  | none => exact unfolds_pure ()
  | some result =>
    refine (Unfolds.of_change (.close v w₁)).bind fun {_ w₂} _ => ?_
    cases result with
    | ok u => exact unfolds_pure ()
    | error x => exact (handles_absorb x).unfolds quiet_free

section

variable {t : Task μ}

theorem unfolds_skip (hvoid : t.Void c w) :
    Unfolds c v (.of t) .free (pure () : Step σ μ Unit) w :=
  (unfolds_pure ()).after (.skip hvoid) rfl

theorem quiet_of (t : Task μ) : ∀ u, (Hand.of t).duty ≠ .fall u := by simp [Hand.of]

/-! ### The parts of tasks that make one change -/

/-- Starts operation `index` of node `v`. -/
def commence (v : NodeId) (index : UInt64) (operation : Operation) : Step σ μ Unit := do
  let agenda ← entry (← get).agendas v
  let next ← orOverflow (wordSucc? index)
  setAgenda v { agenda with current := some index, next := next }
  modify fun w => { w with results := w.results.modify v.index (· ++ [.missing]) }
  record v (.started index operation.text)

/-- Runs the handler of an operation; its result or its error ends the operation. -/
def answer (c : Cluster σ μ) (v : NodeId) (operation : Operation) : Step σ μ Unit := do
  match ← onInstance c v fun site state => c.protocol.onOperation site operation state with
  | some (.ok (.value text)) => let _ ← conclude c v (.value text)
  | some (.ok .void) => let _ ← conclude c v .void
  | some (.ok .later) => return
  | some (.error e) => absorb c v e
  | none => return

/-- Takes a message over: the clock learns what the sender knew. -/
def arrive (c : Cluster σ μ) (v : NodeId) (clock : Clock) (sender : NodeId) (message : μ)
    (id : MessageId) : Step σ μ Unit := do
  learn v clock
  let _ ← tick v (.received id)
  record v (.received id sender (c.protocol.messageText message))

/-- Takes the instance and the operation in flight off a node that goes down. -/
def stop (v : NodeId) : Step σ μ Unit := do
  setInstance v none
  let _ ← endCurrent v .crashed

/-- Puts a new instance in place of node `v`, which is up again. -/
def revive (c : Cluster σ μ) (v : NodeId) (fault : FaultState) : Step σ μ Unit := do
  modify fun w => { w with fault := fault }
  renew c v
  setAgenda v { ← entry (← get).agendas v with started := true }
  record v .recovered

theorem invoke_eq (v : NodeId) (index : UInt64) : invoke c v index = (do
    if (← get).fault.isCrashed v then return
    wake c v
    match (c.operations v)[index.toNat]? with
    | none => return
    | some operation =>
      commence v index operation
      answer c v operation) := by
  simp only [commence, answer, bind_assoc]
  rfl

theorem deliver_eq (v : NodeId) (clock : Clock) (sender : NodeId) (message : μ) (id : MessageId) :
    deliver c v clock sender message id = (do
      withdraw id
      let fault := (← get).fault
      if fault.isCrashed v || !fault.reaches sender v then
        record sender (.lost id v)
      else
        wake c v
        arrive c v clock sender message id
        runHook c v fun site state => c.protocol.onMessage site message sender state) := by
  simp only [arrive, bind_assoc]
  rfl

theorem crash_eq (v : NodeId) (m : MessageId) : crash c v m = (do
    match (← get).fault.crash? v with
    | none => return
    | some fault =>
      modify fun w => { w with fault := fault }
      record v .crashed
      let (dropped, pending) := (← get).pending.drain (diesWith v m)
      modify fun w => { w with pending := pending }
      dropped.forM lose
      stop v
      prune
      if c.config.recovers then
        let clock ← tick v .work
        let _ ← enqueue v clock .recover) := by
  simp only [stop, bind_assoc]
  rfl

theorem recover_eq (v : NodeId) : recover c v = (do
    match (← get).fault.recover? v with
    | none => return
    | some fault =>
      revive c v fault
      runHook c v c.protocol.onRecovery
      if (← entry (← get).agendas v).current.isNone then queueNext c v) := by
  simp only [revive, bind_assoc]
  rfl

theorem commence_ok {v : NodeId} {i : UInt64} {operation : Operation}
    (h : commence v i operation w = (.ok (), w')) :
    ∃ a next, w.agendas[v.index]? = some a ∧ wordSucc? i = some next ∧
      w' = w.begun v a i next operation.text := by
  rw [commence, get_bind] at h
  obtain ⟨a, w₁, hentry, h₁⟩ := bind_ok h
  obtain ⟨ha, rfl⟩ := entry_ok_iff.mp hentry
  obtain ⟨next, w₂, hover, h₂⟩ := bind_ok h₁
  obtain ⟨hnext, rfl⟩ := orOverflow_ok_iff.mp hover
  cases h₂
  exact ⟨a, next, ha, hnext, rfl⟩

theorem commence_error {v : NodeId} {i : UInt64} {operation : Operation} {e : Abort}
    (h : commence v i operation w = (.error e, w')) : Breaks v e w w' := by
  rw [commence, get_bind] at h
  rcases bind_error h with hentry | ⟨a, w₁, hentry, h₁⟩
  · exact breaks_of_agenda hentry
  obtain ⟨ha, rfl⟩ := entry_ok_iff.mp hentry
  rcases bind_error h₁ with hover | ⟨next, w₂, hover, h₂⟩
  · obtain ⟨he, rfl⟩ := orOverflow_error hover
    exact .of_numbers (.inl he) fun _ _ => rfl
  · cases h₂

theorem learn_ok {v : NodeId} {clock : Clock} (h : learn v clock w = (.ok (), w')) :
    ∃ k, w.clocks.clocks[v.index]? = some k ∧
      w' = { w with clocks := ⟨w.clocks.clocks.set v.index (k.join clock)⟩ } := by
  rw [learn, get_bind] at h
  obtain ⟨b, w₁, hmerge, h₁⟩ := bind_ok h
  obtain ⟨hb, rfl⟩ := ofPanic_ok_iff.mp hmerge
  obtain ⟨k, hk, rfl⟩ := ClockBank.merge_ok_iff.mp hb
  cases h₁
  exact ⟨k, hk, rfl⟩

theorem learn_error {v : NodeId} {clock : Clock} {e : Abort}
    (h : learn v clock w = (.error e, w')) : Breaks v e w w' := by
  rw [learn, get_bind, ClockBank.merge, ClockBank.read] at h
  cases hk : w.clocks.clocks[v.index]? with
  | none =>
    have hout : ¬ w.Intact v := fun hw => by
      have hlen := List.getElem?_eq_none_iff.mp hk
      have hlt := hw.clock
      omega
    rw [hk] at h
    cases h
    exact .of_bounds hout fun _ _ => rfl
  | some k =>
    rw [hk] at h
    cases h

theorem arrive_ok {v : NodeId} {clock : Clock} {sender : NodeId} {message : μ} {m : MessageId}
    (h : arrive c v clock sender message m w = (.ok (), w')) :
    ∃ k k', w.clocks.clocks[v.index]? = some k ∧ (k.join clock).tick? v = some k' ∧
      w' = w.arrived c v sender message m (k.join clock) k' := by
  obtain ⟨u, w₁, hlearn, h₁⟩ := bind_ok h
  obtain ⟨k, hk, rfl⟩ := learn_ok hlearn
  obtain ⟨k', w₂, htick, h₂⟩ := bind_ok h₁
  obtain ⟨k₁, hk₁, hk', rfl⟩ := tick_ok_iff.mp htick
  have hlt : v.index < w.clocks.clocks.length := (List.getElem?_eq_some_iff.mp hk).1
  have hjoin : k₁ = k.join clock := by simpa [hlt] using hk₁.symm
  subst hjoin
  cases h₂
  exact ⟨k, k', hk, hk', rfl⟩

theorem arrive_error {v : NodeId} {clock : Clock} {sender : NodeId} {message : μ} {m : MessageId}
    {e : Abort} (h : arrive c v clock sender message m w = (.error e, w')) : Breaks v e w w' := by
  rcases bind_error h with hlearn | ⟨u, w₁, hlearn, h₁⟩
  · exact learn_error hlearn
  obtain ⟨k, hk, rfl⟩ := learn_ok hlearn
  rcases bind_error h₁ with htick | ⟨k', w₂, -, h₂⟩
  · refine (tick_error htick).after (fun _ _ => rfl) fun hw => ⟨?_, hw.agenda, hw.result⟩
    simpa using hw.clock
  · cases h₂

theorem stop_ok {v : NodeId} (h : stop v w = (.ok (), w')) :
    (w.Idle v ∧ w' = w.vacated v) ∨ ∃ i, Ends v .crashed i (w.vacated v) w' := by
  rw [stop, setInstance, modify_bind] at h
  obtain ⟨x, w₁, hend, h₁⟩ := bind_ok h
  cases h₁
  rcases endCurrent_ok hend with ⟨-, hidle, rfl⟩ | ⟨i, -, hends⟩
  · exact .inl ⟨hidle, rfl⟩
  · exact .inr ⟨i, hends⟩

theorem stop_error {v : NodeId} {e : Abort} (h : stop v w = (.error e, w')) : Breaks v e w w' := by
  rw [stop, setInstance, modify_bind] at h
  rcases bind_error h with hend | ⟨x, w₁, -, h₁⟩
  · exact (endCurrent_error hend).after (fun _ _ => rfl) fun hw => ⟨hw.clock, hw.agenda, hw.result⟩
  · cases h₁

theorem revive_ok {v : NodeId} {fault : FaultState} (h : revive c v fault w = (.ok (), w')) :
    ∃ a, w.agendas[v.index]? = some a ∧ w' = w.revived c v fault a := by
  rw [revive, modify_bind, renew, modify_bind, get_bind] at h
  obtain ⟨a, w₁, hentry, h₁⟩ := bind_ok h
  obtain ⟨ha, rfl⟩ := entry_ok_iff.mp hentry
  cases h₁
  exact ⟨a, ha, rfl⟩

theorem revive_error {v : NodeId} {fault : FaultState} {e : Abort}
    (h : revive c v fault w = (.error e, w')) : Breaks v e w w' := by
  rw [revive, modify_bind, renew, modify_bind, get_bind] at h
  rcases bind_error h with hentry | ⟨a, w₁, -, h₁⟩
  · exact (breaks_of_agenda hentry).after (fun _ _ => rfl) fun hw => ⟨hw.clock, hw.agenda, hw.result⟩
  · cases h₁

/-! ### The tasks -/

theorem handles_answer (operation : Operation) : Handles c v (answer c v operation) := by
  refine (handles_onInstance _).bind fun x => ?_
  rcases x with _ | (x | answer)
  · exact handles_pure ()
  · exact handles_absorb x
  · cases answer with
    | value text => exact (handles_conclude (by simp)).bind fun _ => handles_pure ()
    | void => exact (handles_conclude (by simp)).bind fun _ => handles_pure ()
    | later => exact handles_pure ()

theorem unfolds_invoke {i : UInt64} (hbody : t.body = .operation i) (w : World σ μ) :
    Unfolds c t.owner (.of t) .free (invoke c t.owner i) w := by
  rw [invoke_eq]
  refine Unfolds.read ?_
  cases hup : w.fault.isCrashed t.owner with
  | true => exact unfolds_skip (by simp [Task.Void, hbody, hup])
  | false =>
    refine (handles_wake.unfolds (quiet_of t)).bind fun {_ w₁} hwake => ?_
    have hup₁ : w₁.fault.isCrashed t.owner = false := by
      rw [Requests.fault_eq (handles_wake.done hwake), hup]
    cases hlisted : (c.operations t.owner)[i.toNat]? with
    | none => exact unfolds_skip (by simp [Task.Void, hbody, hlisted])
    | some operation =>
      refine Unfolds.of_parts .free (fun hcommence => ?_) commence_error
      obtain ⟨a, next, ha, hnext, rfl⟩ := commence_ok hcommence
      exact ⟨.begin hbody hup₁ hlisted ha hnext, (handles_answer operation).unfolds quiet_free⟩

theorem unfolds_deliver {sender : NodeId} {message : μ} {m : MessageId}
    (hbody : t.body = .receive sender message m) (w : World σ μ) :
    Unfolds c t.owner (.of t) .free (deliver c t.owner t.clock sender message m) w := by
  rw [deliver_eq]
  refine (Unfolds.of_change (.withdraw w hbody)).bind fun {_ w₁} _ => Unfolds.read ?_
  by_cases hdoomed : (w₁.fault.isCrashed t.owner || !w₁.fault.reaches sender t.owner) = true
  · rw [if_pos hdoomed]
    have hcause : w₁.fault.isCrashed t.owner = true ∨ w₁.fault.reaches sender t.owner = false := by
      simpa using hdoomed
    exact Unfolds.of_change (.lose hbody fun _ => hcause)
  · rw [if_neg hdoomed]
    obtain ⟨hup, hreach⟩ : w₁.fault.isCrashed t.owner = false ∧
        w₁.fault.reaches sender t.owner = true := by simpa using hdoomed
    refine (handles_wake.unfolds (quiet_of t)).bind fun {_ w₂} hwake => ?_
    have hfault : w₂.fault = w₁.fault := Requests.fault_eq (handles_wake.done hwake)
    refine Unfolds.of_parts .free (fun harrive => ?_) arrive_error
    obtain ⟨k, k', hk, hk', rfl⟩ := arrive_ok harrive
    exact ⟨.receive hbody (hfault ▸ hup) (hfault ▸ hreach) hk hk',
      (handles_runHook _).unfolds quiet_free⟩

/-- The deliveries that go down with a node are lost one by one. -/
theorem unfolds_lose : ∀ (ts : List (Task μ)) (w : World σ μ),
    Unfolds c v ⟨ts, .fall v⟩ ⟨[], .fall v⟩ (ts.forM lose : Step σ μ PUnit) w
  | [], _ => unfolds_pure ()
  | t :: ts, w => by
    have hhead : Unfolds c v ⟨t :: ts, .fall v⟩ ⟨ts, .fall v⟩ (lose t : Step σ μ Unit) w := by
      cases hbody : t.body with
      | receive sender message m =>
        have hlose : (lose t : Step σ μ Unit) = (do withdraw m; record sender (.lost m t.owner)) := by
          rw [lose, hbody]
        rw [hlose]
        refine (Unfolds.of_change (.withdraw w hbody)).bind fun {_ w₁} _ => ?_
        exact Unfolds.of_change (.lose hbody fun h => by cases h)
      | _ =>
        have hlose : (lose t : Step σ μ Unit) = pure () := by rw [lose, hbody]
        rw [hlose]
        exact (unfolds_pure ()).after (.discard w (by simp [Task.kind, hbody])) rfl
    exact hhead.bind fun _ => unfolds_lose ts _

/-- What undoes a fault is scheduled where the settings ask for it. -/
theorem unfolds_undo {body : Work μ} (hmends : body = .recover ∨ body = .heal) (w : World σ μ) :
    Unfolds c v ⟨[], .undo v body⟩ .free
      (if c.config.recovers then do
        let clock ← tick v .work
        let _ ← enqueue v clock body
       else pure () : Step σ μ Unit) w where
  done hok := by
    refine .single (.undo hmends ?_)
    cases hrecovers : c.config.recovers with
    | true => rw [hrecovers] at hok; exact scheduled_of_ok hok
    | false => rw [hrecovers] at hok; cases hok; rfl
  cut herror := by
    cases hrecovers : c.config.recovers with
    | true =>
      rw [hrecovers] at herror
      have breaks := breaks_of_schedule herror
      exact ⟨_, w, .refl, .broken breaks, fun _ _ => breaks.unclean⟩
    | false => rw [hrecovers] at herror; cases herror

theorem unfolds_crash {m : MessageId} (hbody : t.body = .crash m) (w : World σ μ) :
    Unfolds c t.owner (.of t) .free (crash c t.owner m) w := by
  rw [crash_eq]
  refine Unfolds.read ?_
  cases hcrash : w.fault.crash? t.owner with
  | none => exact unfolds_skip (by simp [Task.Void, hbody, hcrash])
  | some fault =>
    refine Unfolds.after (.crash hbody hcrash) ((unfolds_lose _ _).bind fun {_ w₁} _ => ?_) rfl
    refine Unfolds.of_parts _ (fun hstop => ⟨.fall (stop_ok hstop), ?_⟩) stop_error
    exact (Unfolds.of_change (.prune _ _)).bind fun _ => unfolds_undo (.inl rfl) _

/-- A node that is back takes up its operations again, unless one is in flight already. -/
theorem unfolds_resume (w : World σ μ) :
    Unfolds c v ⟨[], .resume v⟩ .free
      (do if (← entry (← get).agendas v).current.isNone then queueNext c v) w where
  done hok := by
    rw [get_bind] at hok
    obtain ⟨a, w₁, hentry, h₁⟩ := bind_ok hok
    obtain ⟨ha, rfl⟩ := entry_ok_iff.mp hentry
    refine .single (.resume ha ?_)
    cases hcurrent : a.current.isNone with
    | true => rw [hcurrent] at h₁; exact queueNext_ok h₁
    | false => rw [hcurrent] at h₁; cases h₁; rfl
  cut {e w'} herror := by
    rw [get_bind] at herror
    have breaks : Breaks v e w w' := by
      rcases bind_error herror with hentry | ⟨a, w₁, hentry, h₁⟩
      · exact breaks_of_agenda hentry
      obtain ⟨ha, rfl⟩ := entry_ok_iff.mp hentry
      cases hcurrent : a.current.isNone with
      | true => rw [hcurrent] at h₁; exact queueNext_error h₁
      | false => rw [hcurrent] at h₁; cases h₁
    exact ⟨_, w, .refl, .broken breaks, fun _ _ => breaks.unclean⟩

theorem unfolds_recover (hbody : t.body = .recover) (w : World σ μ) :
    Unfolds c t.owner (.of t) .free (recover c t.owner) w := by
  rw [recover_eq]
  refine Unfolds.read ?_
  cases hrecover : w.fault.recover? t.owner with
  | none => exact unfolds_skip (by simp [Task.Void, hbody, hrecover])
  | some fault =>
    refine Unfolds.of_parts ⟨[], .resume t.owner⟩ (fun hrevive => ?_) revive_error
    obtain ⟨a, ha, rfl⟩ := revive_ok hrevive
    refine ⟨.recover hbody hrecover ha, ?_⟩
    exact ((handles_runHook c.protocol.onRecovery).unfolds (by simp)).bind fun _ => unfolds_resume _

theorem unfolds_partition {m : MessageId} (hbody : t.body = .partition m) (w : World σ μ) :
    Unfolds c t.owner (.of t) .free (partition c t.owner) w := by
  refine Unfolds.read ?_
  rcases hdrawn : w.fault.partition? w.source with ⟨_ | fault, source⟩
  · exact (unfolds_pure ()).after (.splitRefused hbody hdrawn) rfl
  · exact Unfolds.after (.split hbody hdrawn)
      ((Unfolds.of_change (.prune _ _)).bind fun _ => unfolds_undo (.inr rfl) _) rfl

theorem unfolds_heal (hbody : t.body = .heal) (w : World σ μ) :
    Unfolds c t.owner (.of t) .free (heal t.owner) w := by
  refine Unfolds.read ?_
  rcases hdrawn : w.fault.heal? w.source with ⟨_ | fault, source⟩
  · exact (unfolds_pure ()).after (.healRefused hbody hdrawn) rfl
  · exact (unfolds_pure ()).after (.heal hbody hdrawn) rfl

/-- Every task is a chain of changes. -/
theorem unfolds_execute (t : Task μ) (w : World σ μ) :
    Unfolds c t.owner (.of t) .free (execute c t) w := by
  unfold execute
  cases hbody : t.body with
  | operation i => exact unfolds_invoke hbody w
  | receive sender message m => exact unfolds_deliver hbody w
  | crash m => exact unfolds_crash hbody w
  | recover => exact unfolds_recover hbody w
  | partition m => exact unfolds_partition hbody w
  | heal => exact unfolds_heal hbody w

end

end Step

end Interleave
