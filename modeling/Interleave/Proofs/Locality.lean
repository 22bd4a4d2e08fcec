/-
# Tasks are confined to their owners

The handlers of a node and the tasks they run in are confined, but for handlers
that read the events or the logs of the cluster: those are left out
(`Handler.Discreet`). So executing a task is a function of its owner's desk
(`exists_effect_execute`), and the numbers of the task and of its message play no part
in it.

What a task posts follows it: every draft is of the same owner, or carries a
clock that the task's own happens before. For a delivery this needs that the
start of a node sends nothing (`Handler.Quiet`), as a node is started before it
learns the clock of the message.
-/
import Interleave.Proofs.Confined

namespace Interleave

variable {σ μ α : Type}

/-! ### Handlers -/

/-- A handler that never asks for the events or the logs. -/
def Handler.Discreet : Handler μ α → Prop
  | .done _ => True
  | .raise _ => True
  | .hang => True
  | .send _ _ rest => rest.Discreet
  | .log _ rest => rest.Discreet
  | .complete _ rest => ∀ ok, (rest ok).Discreet
  | .events _ => False
  | .logs _ => False

/-- A handler that never sends. -/
def Handler.Quiet : Handler μ α → Prop
  | .done _ => True
  | .raise _ => True
  | .hang => True
  | .send _ _ _ => False
  | .log _ rest => rest.Quiet
  | .complete _ rest => ∀ ok, (rest ok).Quiet
  | .events rest => ∀ l, (rest l).Quiet
  | .logs rest => ∀ l, (rest l).Quiet

/-- Node logic that asks for no events or logs, and whose start sends nothing. -/
structure Protocol.Discreet (p : Protocol σ μ) : Prop where
  start : ∀ site x, (p.onStart site x).Discreet
  quiet : ∀ site x, (p.onStart site x).Quiet
  operation : ∀ site o x, (p.onOperation site o x).Discreet
  message : ∀ site m s x, (p.onMessage site m s x).Discreet

section

variable {c : Cluster σ μ} {v : NodeId} {P : Draft μ → Prop}

theorem confined_queueNext (hv : v.index < c.size) (hown : ∀ k i, P ⟨v, k, .operation i⟩) :
    Confined c v P (Step.queueNext c v) := by
  refine confined_agenda fun agenda => ?_
  split
  · exact ⟨_, realizes_post hv _ _ fun k => hown k _⟩
  · exact confined_pure ()

theorem confined_storeResult (index : UInt64) (result : Answer) :
    Confined c v P (Step.storeResult v index result) := by
  refine confined_entry World.results Desk.results (fun _ => rfl) fun results => ?_
  split
  · exact confined_setResults _
  · exact confined_throw _

theorem confined_endCurrent (result : Answer) : Confined c v P (Step.endCurrent v result) := by
  refine confined_agenda fun agenda => ?_
  cases agenda.current with
  | none => exact confined_pure none
  | some index =>
    refine (confined_setAgenda _).bind fun _ => (confined_storeResult index result).bind fun _ => ?_
    exact Confined.bind ⟨_, realizes_record _⟩ fun _ => confined_pure _

theorem confined_conclude (hv : v.index < c.size) (hown : ∀ k i, P ⟨v, k, .operation i⟩)
    (result : Answer) : Confined c v P (Step.conclude c v result) := by
  refine (confined_endCurrent result).bind fun index => ?_
  cases index with
  | none => exact confined_pure false
  | some index => exact (confined_queueNext hv hown).bind fun _ => confined_pure true

/-- The requests of a discreet handler, one after the other; a quiet one posts no deliveries. -/
theorem confined_perform (hc : FaultFree c) (hv : v.index < c.size)
    (hown : ∀ k i, P ⟨v, k, .operation i⟩) : ∀ h : Handler μ α, h.Discreet →
    (h.Quiet ∨ ∀ target k message, P ⟨target, k, .receive v message ⟨0⟩⟩) →
    Confined c v P (Step.perform c v h)
  | .done a, _, _ => confined_pure a
  | .raise _, _, _ => confined_throw _
  | .hang, _, _ => confined_throw _
  | .send message target rest, hd, hq => by
    rcases hq with hq | hq
    · exact hq.elim
    · exact Confined.bind ⟨_, realizes_send hc hv message target fun k => hq target k message⟩
        fun _ => confined_perform hc hv hown rest hd (.inr hq)
  | .log text rest, hd, hq =>
    (confined_log text).bind fun _ => confined_perform hc hv hown rest hd hq
  | .complete value rest, hd, hq =>
    (confined_conclude hv hown (Step.resultOf value)).bind fun ok =>
      confined_perform hc hv hown (rest ok) (hd ok) (hq.imp_left fun h => h ok)
  | .events _, hd, _ => hd.elim
  | .logs _, hd, _ => hd.elim

theorem confined_onInstance {ρ : Type} (hc : FaultFree c) (hv : v.index < c.size)
    (hown : ∀ k i, P ⟨v, k, .operation i⟩) {f : Site → σ → Handler μ (Reply σ ρ)}
    (hd : ∀ site x, (f site x).Discreet)
    (hq : (∀ site x, (f site x).Quiet) ∨ ∀ target k message, P ⟨target, k, .receive v message ⟨0⟩⟩) :
    Confined c v P (Step.onInstance c v f) := by
  have hrun : ∀ x : Option σ, Confined c v P (x.elim (pure none) fun state => do
      Step.setInstance v none
      let reply ← Step.perform c v (f (c.site v) state)
      Step.setInstance v (some reply.1)
      return some reply.2 : Step σ μ (Option (Except NodeError ρ))) := by
    intro x
    cases x with
    | none => exact confined_pure none
    | some x =>
      refine (confined_setInstance none).bind fun _ => ?_
      refine (confined_perform hc hv hown (f (c.site v) x) (hd _ _) (hq.imp_left fun h => h _ _)).bind
        fun reply => ?_
      exact (confined_setInstance _).bind fun _ => confined_pure _
  have hread :=
    confined_read (fun w => w.instances[v.index]?.join) (fun d => d.state.join) (fun _ _ => rfl) hrun
  refine (congrArg (Confined c v P) (funext fun w => ?_)).mpr hread
  unfold Step.onInstance
  rw [Attempt.get_bind, Attempt.get_bind]
  cases w.instances[v.index]?.join <;> rfl

theorem confined_absorb (hv : v.index < c.size) (hown : ∀ k i, P ⟨v, k, .operation i⟩)
    (e : NodeError) : Confined c v P (Step.absorb c v e) := by
  refine confined_agenda fun agenda => ?_
  split
  · exact (confined_conclude hv hown _).bind fun _ => confined_pure ()
  · exact confined_throw _

theorem confined_runHook (hc : FaultFree c) (hv : v.index < c.size)
    (hown : ∀ k i, P ⟨v, k, .operation i⟩) {f : Site → σ → Handler μ (Reply σ Unit)}
    (hd : ∀ site x, (f site x).Discreet)
    (hq : (∀ site x, (f site x).Quiet) ∨ ∀ target k message, P ⟨target, k, .receive v message ⟨0⟩⟩) :
    Confined c v P (Step.runHook c v f) := by
  refine (confined_onInstance hc hv hown hd hq).bind fun result => ?_
  rcases result with _ | ⟨e | _⟩
  · exact confined_pure ()
  · exact confined_absorb hv hown e
  · exact confined_pure ()

/-- Starting a node posts nothing but its own operations. -/
theorem confined_wake (hc : FaultFree c) (hv : v.index < c.size) (hp : c.protocol.Discreet) :
    Confined c v (fun a => a.owner = v) (Step.wake c v) := by
  refine confined_agenda fun agenda => ?_
  split
  · refine (confined_setAgenda _).bind fun _ => ?_
    exact confined_runHook hc hv (fun _ _ => rfl) hp.start (.inl hp.quiet)
  · exact confined_pure ()

/-! ### Tasks -/

theorem confined_invoke (hc : FaultFree c) (hv : v.index < c.size) (hp : c.protocol.Discreet)
    (index : UInt64) : Confined c v (fun _ => True) (Step.invoke c v index) := by
  have hown : ∀ k i, (fun _ : Draft μ => True) ⟨v, k, .operation i⟩ := fun _ _ => trivial
  apply Confined.of_eq
  · intro w hw
    rw [Step.invoke, Attempt.get_bind, if_neg (by simp [hw.isCrashed])]
  refine ((confined_wake hc hv hp).mono fun _ _ => trivial).bind fun _ => ?_
  cases (c.operations v)[index.toNat]? with
  | none => exact confined_pure ()
  | some operation =>
    refine confined_agenda fun agenda => (confined_orOverflow _).bind fun next => ?_
    refine (confined_setAgenda _).bind fun _ => (confined_addResult _).bind fun _ => ?_
    refine Confined.bind ⟨_, realizes_record _⟩ fun _ => ?_
    refine (confined_onInstance hc hv hown (fun site x => hp.operation site operation x)
      (.inr fun _ _ _ => trivial)).bind fun result => ?_
    rcases result with _ | ⟨e | ⟨text | _ | _⟩⟩
    · exact confined_pure ()
    · exact confined_absorb hv hown e
    · exact (confined_conclude hv hown _).bind fun _ => confined_pure ()
    · exact (confined_conclude hv hown _).bind fun _ => confined_pure ()
    · exact confined_pure ()

/-- On a calm state a delivery is never lost. -/
theorem deliver_apply {w : World σ μ} (hw : Calm c w) (hv : v.index < c.size) {sender : NodeId}
    (hs : sender.index < c.size) (clock : Clock) (message : μ) (id : MessageId) :
    Step.deliver c v clock sender message id w = (do
      Step.wake c v
      Step.learn v clock
      let _ ← Step.tick v (.received id)
      Step.record v (.received id sender (c.protocol.messageText message))
      Step.runHook c v fun site state => c.protocol.onMessage site message sender state) w := by
  have hwithdraw : Step.withdraw id w = (.ok (), w) := by
    rw [Step.withdraw, Attempt.modify_apply, hw.bare]
    have hbare := hw.bare
    cases w
    cases hbare
    rfl
  rw [Step.deliver, Attempt.bind_of_ok hwithdraw, Attempt.get_bind]
  simp only [hw.isCrashed, hw.reaches hs hv]
  rfl

/-- The effect of a delivery is the same whatever the number of its message. What it posts for
other nodes, it posts after learning the clock of the message. -/
theorem exists_effect_deliver (hc : FaultFree c) (hv : v.index < c.size) (hp : c.protocol.Discreet)
    (clock : Clock) {sender : NodeId} (hs : sender.index < c.size) (message : μ) :
    ∃ φ : Effect σ μ Unit,
      (∀ id, Realizes c v (fun _ => True) (Step.deliver c v clock sender message id) φ) ∧
      ∀ d d' posted, φ d = some ((), d', posted) →
        ∀ x ∈ posted, x.owner = v ∨ clock.happensBefore x.clock = true := by
  obtain ⟨φ, hφ⟩ := confined_wake hc hv hp
  obtain ⟨ψ, hψ⟩ := confined_runHook (P := fun _ => True) hc hv (fun _ _ => trivial)
    (fun site x => hp.message site message sender x) (.inr fun _ _ _ => trivial)
  let event := Event.received ⟨0⟩ sender (c.protocol.messageText message)
  have hlate : ∀ id, Realizes c v (fun _ => True) (do
      let _ ← Step.tick v (.received id)
      Step.record v (.received id sender (c.protocol.messageText message))
      Step.runHook c v fun site state => c.protocol.onMessage site message sender state)
      ((Effect.tick v).andThen fun _ => (Effect.record event).andThen fun _ => ψ) := fun id =>
    (realizes_tick hv _).bind fun _ => Realizes.bind (realizes_record _) fun _ => hψ
  refine ⟨φ.andThen fun _ => (Effect.learn clock).andThen fun _ =>
    (Effect.tick v).andThen fun _ => (Effect.record event).andThen fun _ => ψ, fun id => ?_, ?_⟩
  · refine Realizes.of_eq (fun w hw => deliver_apply hw hv hs clock message id) ?_
    exact (hφ.mono fun _ _ => trivial).bind fun _ => (realizes_learn hv clock).bind fun _ => hlate id
  · intro d d' posted h x hx
    obtain ⟨u₁, d₁, posted₁, posted₂, h₁, h₂, rfl⟩ := Effect.andThen_eq_some h
    rcases List.mem_append.mp hx with hx | hx
    · exact .inl ((hφ.forward d u₁ d₁ posted₁ h₁).2 x hx)
    obtain ⟨u₂, d₂, posted₃, posted₄, h₃, h₄, rfl⟩ := Effect.andThen_eq_some h₂
    obtain ⟨k₁, -, h₃⟩ := Option.map_eq_some_iff.mp h₃
    cases h₃
    rw [List.nil_append] at hx
    obtain ⟨k₂, -, hk₂, -, hlt, -⟩ := ((hlate ⟨0⟩).forward _ () d' posted₄ h₄).1.posts x hx
    cases hk₂
    exact .inr (Clock.happensBefore_of_le_of_happensBefore (Clock.le_join_right k₁ clock) hlt)

/-- Executing a draft turns desk `d` of its owner into `d'` and posts drafts: so do all tasks with
these contents, whatever their numbers. -/
structure Act (c : Cluster σ μ) (a : Draft μ) (d d' : Desk σ) (posted : List (Draft μ)) : Prop where
  effect : ∃ φ : Effect σ μ Unit,
    (∀ t : Task μ, t.draft = a → Realizes c a.owner (fun _ => True) (Step.execute c t) φ) ∧
    φ d = some ((), d', posted)
  forward : d.Forward c.size a.owner d' posted
  follows : ∀ x ∈ posted, x.owner = a.owner ∨ a.clock.happensBefore x.clock = true

/-- A grounded draft has an effect, and what it posts follows it. -/
theorem exists_effect_execute (hc : FaultFree c) (hp : c.protocol.Discreet) {desk : Nat → Desk σ}
    {a : Draft μ} (ha : a.Grounded c.size desk) : ∃ φ : Effect σ μ Unit,
    (∀ t : Task μ, t.draft = a → Realizes c a.owner (fun _ => True) (Step.execute c t) φ) ∧
    ∀ d posted, φ (desk a.owner.index) = some ((), d, posted) →
      ∀ x ∈ posted, x.owner = a.owner ∨ a.clock.happensBefore x.clock = true := by
  rcases a with ⟨owner, clock, body⟩
  obtain ⟨hv, hb⟩ := ha
  cases body with
  | operation index =>
    obtain ⟨φ, hφ⟩ := confined_invoke hc hv hp index
    refine ⟨φ, fun t ht => ?_, fun d posted hd x hx => ?_⟩
    · rcases t with ⟨id, owner', clock', body'⟩
      cases body' with
      | operation index' => cases ht; exact hφ
      | _ => cases ht
    · obtain ⟨k, hk, hle⟩ := hb
      obtain ⟨k₁, -, hk₁, -, hlt, -⟩ := (hφ.forward _ () d posted hd).1.posts x hx
      rw [hk] at hk₁
      cases hk₁
      exact .inr (Clock.happensBefore_of_le_of_happensBefore hle hlt)
  | receive sender message id =>
    obtain ⟨φ, hφ, hposts⟩ := exists_effect_deliver hc hv hp clock hb.1 message
    refine ⟨φ, fun t ht => ?_, fun d posted hd => hposts _ d posted hd⟩
    rcases t with ⟨id', owner', clock', body'⟩
    cases body' with
    | receive sender' message' id'' => cases ht; exact hφ id''
    | _ => cases ht
  | _ => exact hb.elim

end

end Interleave
