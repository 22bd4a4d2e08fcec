/-
# What a whole task does

A task takes one state to another in one of the ways listed by `Stint`, each with
all the conditions it comes under: that the node is up and the message reaches it,
that the candidates of a message went before the message did. Single changes stand
between two of these points and say less. So an invariant that needs such a
condition is proved task by task.

What the handlers of the node do in between is a parameter. If they all return,
with an error or without, each node that had an instance has one again, and the
stint is a `Turn`. If one of them breaks off by itself, it leaves off between two
requests, and the stint is a `Shift`. Only a counter that runs out leaves a task
half done in any other way.

Key definitions: `Abort.Returned`, `Attends`, `Stint`, `Turn`, `Parting`, `Shift`, `Adieu`.
Key theorems: `Step.stint_of_execute`, `Step.turn_of_execute`, `Step.parting_of_farewell`,
`Reaches.turns`, `Step.shift_of_execute`, `Step.adieu_of_farewell`, `Reaches.shifts`.
-/
import Interleave.Proofs.Bookkeeping

namespace Interleave

variable {σ μ α β : Type}

/-- The iteration was cut short after all handlers had returned. -/
def Abort.Returned (e : Abort) : Prop := (∀ p, e ≠ .panic p) ∧ e ≠ .timeout

theorem Abort.Returned.clean {e : Abort} (h : e.Returned) : e.Clean := .of_calm h.1

namespace Step

open Attempt

/-! ### Requests leave the instances alone -/

/-- The step touches no instance, whatever comes of it, and fails only by not returning. -/
structure Contained (s : Step σ μ α) : Prop where
  instances : ∀ w, (s w).2.instances = w.instances
  fails : ∀ {w w' e}, s w = (.error e, w') → ¬ e.Returned

section

variable {c : Cluster σ μ} {v : NodeId}

theorem contained_pure (a : α) : Contained (pure a : Step σ μ α) := ⟨fun _ => rfl, nofun⟩

theorem contained_panic (p : Panic) : Contained (panic p : Step σ μ α) where
  instances _ := rfl
  fails h := by cases h; exact fun hreturned => hreturned.1 p rfl

theorem Contained.bind {s : Step σ μ α} {f : α → Step σ μ β} (hs : Contained s)
    (hf : ∀ a, Contained (f a)) : Contained (s >>= f) where
  instances w := by
    rw [bind_apply]
    have hfirst := hs.instances w
    rcases hrun : s w with ⟨e | a, w₁⟩
    · rw [hrun] at hfirst
      exact hfirst
    · rw [hrun] at hfirst
      exact ((hf a).instances w₁).trans hfirst
  fails h := by
    rcases bind_error h with h₁ | ⟨a, w₁, -, h₂⟩
    · exact hs.fails h₁
    · exact (hf a).fails h₂

theorem contained_read {f : World σ μ → Step σ μ α} (hf : ∀ w, Contained (f w)) :
    Contained (get >>= f) where
  instances w := (hf w).instances w
  fails h := (hf _).fails h

theorem contained_modify (g : World σ μ → World σ μ) (hg : ∀ w, (g w).instances = w.instances) :
    Contained (modify g : Step σ μ Unit) := ⟨hg, nofun⟩

theorem contained_ofPanic (x : Except Panic α) : Contained (ofPanic x : Step σ μ α) := by
  cases x with
  | ok a => exact contained_pure a
  | error p => exact contained_panic p

theorem contained_orOverflow (x : Option α) : Contained (orOverflow x : Step σ μ α) := by
  cases x with
  | some a => exact contained_pure a
  | none => exact contained_panic _

theorem contained_entry (l : List α) (v : NodeId) : Contained (entry l v : Step σ μ α) := by
  unfold entry
  cases l[v.index]? with
  | some a => exact contained_pure a
  | none => exact contained_panic _

theorem contained_record (v : NodeId) (e : Event) : Contained (record v e : Step σ μ Unit) :=
  contained_modify _ fun _ => rfl

theorem contained_tick (v : NodeId) (cause : Cause) : Contained (tick v cause : Step σ μ Clock) := by
  refine contained_read fun w => (contained_ofPanic _).bind fun clocks => ?_
  refine (contained_modify _ ?_).bind fun _ => (contained_ofPanic _).bind fun stamp => ?_
  · exact fun _ => rfl
  · refine (contained_modify _ ?_).bind fun _ => contained_pure _
    exact fun _ => rfl

theorem contained_enqueue (owner : NodeId) (clock : Clock) (body : Work μ) :
    Contained (enqueue owner clock body : Step σ μ TaskId) := by
  refine contained_read fun w => (contained_orOverflow _).bind fun next => ?_
  refine (contained_modify _ ?_).bind fun _ => contained_read fun w₁ => ?_
  · exact fun _ => rfl
  · refine (contained_ofPanic _).bind fun pending => (contained_modify _ ?_).bind fun _ =>
      contained_pure _
    exact fun _ => rfl

theorem contained_offer (allowed : Bool) (clock : Clock) (body : Work μ) :
    Contained (if allowed then do return [← enqueue v clock body] else return [] :
      Step σ μ (List TaskId)) := by
  cases allowed with
  | true => exact (contained_enqueue v clock body).bind fun _ => contained_pure _
  | false => exact contained_pure _

theorem contained_route (message : μ) (target : NodeId) (id : MessageId) (clock : Clock) :
    Contained (route c v message target id clock) := by
  refine contained_read fun w => ?_
  split
  · exact contained_record _ _
  · refine (contained_enqueue _ _ _).bind fun _ => ?_
    refine Contained.bind (contained_read fun w => contained_offer _ _ _) fun crash => ?_
    refine Contained.bind (contained_read fun w => contained_offer _ _ _) fun partition => ?_
    split
    · exact contained_modify _ fun _ => rfl
    · exact contained_pure _

theorem contained_send (message : μ) (target : NodeId) : Contained (send c v message target) := by
  rw [send_eq]
  refine contained_read fun w => ?_
  split
  · exact contained_pure _
  · refine contained_read fun w => (contained_orOverflow _).bind fun next => ?_
    refine (contained_modify _ ?_).bind fun _ => (contained_tick _ _).bind fun clock => ?_
    · exact fun _ => rfl
    · exact (contained_record _ _).bind fun _ => contained_route _ _ _ _

theorem contained_queueNext : Contained (queueNext c v) := by
  refine contained_read fun w => (contained_entry _ _).bind fun agenda => ?_
  split
  · exact (contained_tick _ _).bind fun _ => (contained_enqueue _ _ _).bind fun _ => contained_pure _
  · exact contained_pure _

theorem contained_endCurrent (result : Answer) :
    Contained (endCurrent v result : Step σ μ (Option UInt64)) := by
  refine contained_read fun w => (contained_entry _ _).bind fun agenda => ?_
  cases agenda.current with
  | none => exact contained_pure _
  | some index =>
    refine (contained_modify _ ?_).bind fun _ => Contained.bind ?_ fun _ =>
      (contained_record _ _).bind fun _ => contained_pure _
    · exact fun _ => rfl
    · refine contained_read fun w => (contained_entry _ _).bind fun results => ?_
      split
      · exact contained_modify _ fun _ => rfl
      · exact contained_panic _

theorem contained_conclude (result : Answer) : Contained (conclude c v result) := by
  refine (contained_endCurrent result).bind fun ended => ?_
  cases ended with
  | none => exact contained_pure _
  | some index => exact contained_queueNext.bind fun _ => contained_pure _

theorem contained_log (text : String) : Contained (log v text : Step σ μ Unit) := by
  refine (contained_modify _ ?_).bind fun _ => contained_record _ _
  exact fun _ => rfl

theorem contained_perform (h : Handler μ α) : Contained (perform c v h) := by
  induction h with
  | done a => exact contained_pure a
  | raise payload => exact contained_panic _
  | hang => exact ⟨fun _ => rfl, fun h hreturned => by cases h; exact hreturned.2 rfl⟩
  | send message target rest ih => exact (contained_send message target).bind fun _ => ih
  | log text rest ih => exact (contained_log text).bind fun _ => ih
  | complete value rest ih => exact (contained_conclude _).bind ih
  | events rest ih => exact contained_read fun w => ih (eventsAt w v)
  | logs rest ih => exact contained_read fun w => ih w.logs

end

end Step

/-! ### Attending to a node -/

/-- Handlers of node `v` ran and returned: all they did is requests, and every node that had an
instance has one again. -/
structure Attends (c : Cluster σ μ) (v : NodeId) (w w' : World σ μ) : Prop where
  requests : Requests c v w w'
  live : w'.instances.map Option.isSome = w.instances.map Option.isSome

namespace Attends

variable {c : Cluster σ μ} {v : NodeId} {w w₁ w₂ : World σ μ}

theorem refl (w : World σ μ) : Attends c v w w := ⟨.refl, rfl⟩

theorem trans (first : Attends c v w w₁) (second : Attends c v w₁ w₂) : Attends c v w w₂ :=
  ⟨first.requests.trans second.requests, second.live.trans first.live⟩

theorem fault_eq (h : Attends c v w w₁) : w₁.fault = w.fault := h.requests.fault_eq

end Attends

namespace Step

open Attempt

/-- Whatever comes of the step, but that a handler does not return, it attends to node `v`. -/
structure Attending (c : Cluster σ μ) (v : NodeId) (s : Step σ μ α) : Prop where
  attends : ∀ {r w w'}, s w = (r, w') → (∀ e, r = .error e → e.Returned) → Attends c v w w'

section

variable {c : Cluster σ μ} {v : NodeId} {w w' : World σ μ}

/-- A step in which no counter runs out leaves off between two requests. -/
theorem Handles.requests {s : Step σ μ α} {r : Except Abort α} (hs : Handles c v s)
    (h : s w = (r, w')) (hclean : ∀ e, r = .error e → e.Clean) : Requests c v w w' := by
  cases r with
  | ok a => exact hs.done h
  | error e =>
    obtain ⟨w₁, hrequests, hleaves⟩ := hs.cut h
    cases hleaves with
    | whole clean same => exact same ▸ hrequests
    | broken breaks => exact absurd (hclean e rfl) breaks.unclean

theorem Contained.attending {s : Step σ μ α} (hs : Contained s) (hhandles : Handles c v s) :
    Attending c v s where
  attends {r w w'} h hreturned := by
    have hinstances : w'.instances = w.instances := by
      have hsame := hs.instances w
      rwa [h] at hsame
    exact ⟨hhandles.requests h fun e he => (hreturned e he).clean, by rw [hinstances]⟩

theorem attending_pure (a : α) : Attending c v (pure a : Step σ μ α) :=
  (contained_pure a).attending (handles_pure a)

theorem Attending.bind {s : Step σ μ α} {f : α → Step σ μ β} (hs : Attending c v s)
    (hf : ∀ a, Attending c v (f a)) : Attending c v (s >>= f) where
  attends {r w w'} h hreturned := by
    cases r with
    | ok b =>
      obtain ⟨a, w₁, h₁, h₂⟩ := bind_ok h
      exact (hs.attends h₁ nofun).trans ((hf a).attends h₂ nofun)
    | error e =>
      rcases bind_error h with h₁ | ⟨a, w₁, h₁, h₂⟩
      · exact hs.attends h₁ fun e' he' => hreturned e' (by cases he'; rfl)
      · exact (hs.attends h₁ nofun).trans ((hf a).attends h₂ hreturned)

theorem live_lend {l : List (Option σ)} {i : Nat} {x y : σ} (hx : l[i]? = some (some x)) :
    (l.set i (some y)).map Option.isSome = l.map Option.isSome := by
  refine List.ext_getElem? fun j => ?_
  by_cases hij : i = j
  · subst hij
    simp [List.getElem?_set_self', hx]
  · simp [hij]

/-- An instance lent to a handler that returns is put back. -/
theorem attending_onInstance {ρ : Type} (f : Site → σ → Handler μ (Reply σ ρ)) :
    Attending c v (onInstance c v f) where
  attends {r w w'} h hreturned := by
    refine ⟨(handles_onInstance f).requests h fun e he => (hreturned e he).clean, ?_⟩
    rw [onInstance, get_bind] at h
    cases hstate : w.instances[v.index]? with
    | none => rw [hstate] at h; cases h; rfl
    | some x =>
      cases x with
      | none => rw [hstate] at h; cases h; rfl
      | some state =>
        rw [hstate] at h
        simp only [Option.join_some, setInstance, modify_bind] at h
        have hinstances := (contained_perform (c := c) (v := v) (f (c.site v) state)).instances
          { w with instances := w.instances.set v.index none }
        rcases hperform : perform c v (f (c.site v) state)
            { w with instances := w.instances.set v.index none } with ⟨e | ⟨state', result⟩, w₁⟩
        · rw [bind_of_error hperform] at h
          cases h
          exact absurd (hreturned e rfl) ((contained_perform _).fails hperform)
        · rw [hperform] at hinstances
          rw [bind_of_ok hperform] at h
          cases h
          show (w₁.instances.set v.index (some state')).map Option.isSome = _
          rw [show w₁.instances = w.instances.set v.index none from hinstances, List.set_set]
          exact live_lend hstate

/-- A step that reads the agenda of its node first. -/
theorem attending_agenda {f : Agenda → Step σ μ α}
    (hhandles : Handles c v (do let a ← entry (← get).agendas v; f a))
    (hlive : ∀ {r w w' a}, f a w = (r, w') → (∀ e, r = .error e → e.Returned) →
      w'.instances.map Option.isSome = w.instances.map Option.isSome) :
    Attending c v (do let a ← entry (← get).agendas v; f a) where
  attends {r w w'} h hreturned := by
    refine ⟨hhandles.requests h fun e he => (hreturned e he).clean, ?_⟩
    rw [get_bind] at h
    rcases hentry : (entry w.agendas v : Step σ μ Agenda) w with ⟨e | agenda, w₁⟩
    · rw [bind_of_error hentry] at h
      cases h
      exact absurd (hreturned e rfl) ((contained_entry _ _).fails hentry)
    · obtain ⟨-, rfl⟩ := entry_ok_iff.mp hentry
      rw [bind_of_ok hentry] at h
      exact hlive h hreturned

theorem attending_conclude {result : Answer} (hresult : result ≠ .missing) :
    Attending c v (conclude c v result) :=
  (contained_conclude result).attending (handles_conclude hresult)

theorem attending_absorb (x : NodeError) : Attending c v (absorb c v x) := by
  refine attending_agenda (handles_absorb x) fun {r w w' agenda} h hreturned => ?_
  split at h
  · have hconclude : Attending c v (conclude c v (.exception x.kind)) := attending_conclude (by simp)
    exact ((hconclude.bind fun _ => attending_pure ()).attends h hreturned).live
  · cases h
    rfl

theorem attending_runHook (f : Site → σ → Handler μ (Reply σ Unit)) :
    Attending c v (runHook c v f) := by
  refine (attending_onInstance f).bind fun x => ?_
  rcases x with _ | (x | u)
  · exact attending_pure ()
  · exact attending_absorb x
  · exact attending_pure ()

theorem attending_answer (operation : Operation) : Attending c v (answer c v operation) := by
  refine (attending_onInstance _).bind fun x => ?_
  rcases x with _ | (x | answer)
  · exact attending_pure ()
  · exact attending_absorb x
  · cases answer with
    | value text => exact (attending_conclude (by simp)).bind fun _ => attending_pure ()
    | void => exact (attending_conclude (by simp)).bind fun _ => attending_pure ()
    | later => exact attending_pure ()

theorem attending_wake : Attending c v (wake c v) := by
  refine attending_agenda handles_wake fun {r w w' agenda} h hreturned => ?_
  cases hstarted : agenda.started with
  | true => rw [hstarted] at h; cases h; rfl
  | false =>
    rw [hstarted] at h
    exact ((attending_runHook c.protocol.onStart).attends h hreturned).live

end

end Step

/-! ### Turns -/

/-- The entry in the log when a task is dropped; there is one for deliveries only. -/
def Task.loss? (t : Task μ) : Option Occurrence :=
  match t.body with
  | .receive sender _ m => some ⟨sender, .lost m t.owner⟩
  | _ => none

namespace World

/-- The state after a dropped task is accounted for: a delivery loses its message. -/
def forfeited (w : World σ μ) (t : Task μ) : World σ μ :=
  match t.body with
  | .receive sender _ m => (w.withdrawn m).recorded sender (.lost m t.owner)
  | _ => w

/-- The state after node `v` went down at message `m`, and before its own work ended. -/
def stricken (w : World σ μ) (v : NodeId) (m : MessageId) (fault : FaultState) : World σ μ :=
  (w.pending.tasks.filter (Step.diesWith v m)).foldl forfeited
    (w.struck v fault (Step.diesWith v m))

/-- Dropping tasks concerns the pending ones, the lists of candidates and the log. -/
theorem foldl_forfeited_eq (ts : List (Task μ)) (w : World σ μ) : ∃ pending candidates,
    pending.tasks.Sublist w.pending.tasks ∧ ts.foldl forfeited w = { w with
      pending := pending
      candidates := candidates
      events := w.events ++ ts.filterMap Task.loss? } := by
  induction ts generalizing w with
  | nil => exact ⟨w.pending, w.candidates, .refl _, by simp⟩
  | cons t ts ih =>
    obtain ⟨pending, candidates, hsub, heq⟩ := ih (w.forfeited t)
    rw [List.foldl_cons, heq, List.filterMap_cons]
    unfold forfeited Task.loss? at *
    cases hbody : t.body with
    | receive sender message m =>
      rw [hbody] at hsub
      exact ⟨pending, candidates, hsub.trans (w.withdrawn_sublist m), by simp [recorded, withdrawn]⟩
    | _ =>
      rw [hbody] at hsub
      exact ⟨pending, candidates, hsub, rfl⟩

/-- Nothing else is concerned when a node goes down, but for the faults in force. -/
theorem stricken_eq (w : World σ μ) (v : NodeId) (m : MessageId) (fault : FaultState) :
    ∃ pending candidates,
      pending.tasks.Sublist (w.pending.tasks.filter fun t => !Step.diesWith v m t) ∧
      w.stricken v m fault = { w with
        fault := fault
        pending := pending
        candidates := candidates
        events := w.events ++ ⟨v, .crashed⟩ ::
          (w.pending.tasks.filter (Step.diesWith v m)).filterMap Task.loss? } := by
  obtain ⟨pending, candidates, hsub, heq⟩ := foldl_forfeited_eq
    (w.pending.tasks.filter (Step.diesWith v m)) (w.struck v fault (Step.diesWith v m))
  refine ⟨pending, candidates, hsub, ?_⟩
  rw [stricken, heq]
  simp [struck, recorded]

end World

/-- What executing a task does, where `wakes` says what comes of starting its node and `runs` what
comes of the other handlers. The task is no longer pending. -/
inductive Stint (c : Cluster σ μ) (wakes runs : World σ μ → World σ μ → Prop) (t : Task μ)
    (w : World σ μ) : World σ μ → Prop
  | skip (void : t.Void c w) : Stint c wakes runs t w w
  /-- The node of an operation does no more than start. -/
  | rouse {i : UInt64} {w' : World σ μ} (body : t.body = .operation i)
      (up : w.fault.isCrashed t.owner = false) (woken : wakes w w') : Stint c wakes runs t w w'
  | begin {i next : UInt64} {operation : Operation} {a : Agenda} {w₁ w' : World σ μ}
      (body : t.body = .operation i) (up : w.fault.isCrashed t.owner = false)
      (listed : (c.operations t.owner)[i.toNat]? = some operation)
      (woken : wakes w w₁) (agenda : w₁.agendas[t.owner.index]? = some a)
      (number : wordSucc? i = some next)
      (ran : runs (w₁.begun t.owner a i next operation.text) w') : Stint c wakes runs t w w'
  | lose {sender : NodeId} {message : μ} {m : MessageId} (body : t.body = .receive sender message m)
      (doomed : w.fault.isCrashed t.owner = true ∨ w.fault.reaches sender t.owner = false) :
      Stint c wakes runs t w ((w.withdrawn m).recorded sender (.lost m t.owner))
  /-- The node that a message reaches fails to start. -/
  | balk {sender : NodeId} {message : μ} {m : MessageId} {w' : World σ μ}
      (body : t.body = .receive sender message m) (up : w.fault.isCrashed t.owner = false)
      (reached : w.fault.reaches sender t.owner = true)
      (woken : wakes (w.withdrawn m) w') : Stint c wakes runs t w w'
  | receive {sender : NodeId} {message : μ} {m : MessageId} {k k' : Clock} {w₁ w' : World σ μ}
      (body : t.body = .receive sender message m) (up : w.fault.isCrashed t.owner = false)
      (reached : w.fault.reaches sender t.owner = true)
      (woken : wakes (w.withdrawn m) w₁) (clock : w₁.clocks.clocks[t.owner.index]? = some k)
      (ticks : (k.join t.clock).tick? t.owner = some k')
      (ran : runs (w₁.arrived c t.owner sender message m (k.join t.clock) k') w') :
      Stint c wakes runs t w w'
  | crash {m : MessageId} {fault : FaultState} {w₁ w' : World σ μ} (body : t.body = .crash m)
      (allowed : w.fault.crash? t.owner = some fault)
      (stops : ((w.stricken t.owner m fault).Idle t.owner ∧
          w₁ = (w.stricken t.owner m fault).vacated t.owner) ∨
        ∃ i, Ends t.owner .crashed i ((w.stricken t.owner m fault).vacated t.owner) w₁)
      (due : if c.config.recovers then Scheduled t.owner .recover w₁.pruned w' else w' = w₁.pruned) :
      Stint c wakes runs t w w'
  /-- A node that is back takes up its operations, unless one is in flight or its handler fails. -/
  | recover {fault : FaultState} {a : Agenda} {w₁ w' : World σ μ} (body : t.body = .recover)
      (allowed : w.fault.recover? t.owner = some fault)
      (agenda : w.agendas[t.owner.index]? = some a)
      (hook : runs (w.revived c t.owner fault a) w₁)
      (resumes : w' = w₁ ∨ Queued c t.owner w₁ w') : Stint c wakes runs t w w'
  | split {m : MessageId} {fault : FaultState} {source : Source} {w' : World σ μ}
      (body : t.body = .partition m) (drawn : w.fault.partition? w.source = (some fault, source))
      (due : if c.config.recovers then
          Scheduled t.owner .heal ({ w with source := source, fault := fault : World σ μ }.recorded
            t.owner (.partitioned fault.describe)).pruned w'
        else w' = ({ w with source := source, fault := fault : World σ μ }.recorded t.owner
          (.partitioned fault.describe)).pruned) : Stint c wakes runs t w w'
  | splitRefused {m : MessageId} {source : Source} (body : t.body = .partition m)
      (drawn : w.fault.partition? w.source = (none, source)) :
      Stint c wakes runs t w { w with source := source }
  | heal {fault : FaultState} {source : Source} (body : t.body = .heal)
      (drawn : w.fault.heal? w.source = (some fault, source)) :
      Stint c wakes runs t w ({ w with source := source, fault := fault : World σ μ }.recorded t.owner
        (.healed fault.describe))
  | healRefused {source : Source} (body : t.body = .heal)
      (drawn : w.fault.heal? w.source = (none, source)) :
      Stint c wakes runs t w { w with source := source }

/-- What executing a task does if its handlers all return. -/
abbrev Turn (c : Cluster σ μ) (t : Task μ) : World σ μ → World σ μ → Prop :=
  Stint c (Attends c t.owner) (Attends c t.owner) t

/-- What telling node `v` that the scenario is over does if its handlers all return. -/
inductive Parting (c : Cluster σ μ) (v : NodeId) (w : World σ μ) : World σ μ → Prop
  | absent (none : w.instances[v.index]?.join = none) : Parting c v w w
  | told {x : σ} {w₁ w' : World σ μ} (present : w.instances[v.index]? = some (some x))
      (hook : Attends c v w w₁) (settles : Attends c v (w₁.recorded v .closed) w') : Parting c v w w'

namespace Step

open Attempt

section

variable {c : Cluster σ μ} {v : NodeId} {t : Task μ} {r : Except Abort Unit} {w w' : World σ μ}
  {spared : Abort → Prop} {wakes runs : World σ μ → World σ μ → Prop}

/-- What comes of starting the node of a task and of the handler that the task calls, unless they
end in an abort that is not spared. -/
structure Serves (c : Cluster σ μ) (spared : Abort → Prop) (t : Task μ)
    (wakes runs : World σ μ → World σ μ → Prop) : Prop where
  clean : ∀ {e}, spared e → e.Clean
  wake : ∀ {r w w'}, wake c t.owner w = (r, w') → (∀ e, r = .error e → spared e) → wakes w w'
  answer : ∀ {i operation r w w'}, t.body = .operation i →
    (c.operations t.owner)[i.toNat]? = some operation → answer c t.owner operation w = (r, w') →
    (∀ e, r = .error e → spared e) → runs w w'
  receive : ∀ {sender message m r w w'}, t.body = .receive sender message m →
    runHook c t.owner (fun site state => c.protocol.onMessage site message sender state) w = (r, w') →
    (∀ e, r = .error e → spared e) → runs w w'
  recover : ∀ {r w w'}, t.body = .recover → runHook c t.owner c.protocol.onRecovery w = (r, w') →
    (∀ e, r = .error e → spared e) → runs w w'

/-- What breaks off in the midst of a change is not spared. -/
theorem Serves.not_spared {e : Abort} {u : NodeId} (h : Serves c spared t wakes runs)
    (breaks : Breaks u e w w') : ¬ spared e := fun he => breaks.unclean (h.clean he)

/-- A sequence ends in its first part, with an abort that is spared, or in its second. -/
theorem bind_spared {s : Step σ μ α} {f : α → Step σ μ β} {r : Except Abort β}
    (h : (s >>= f) w = (r, w')) (hspares : ∀ e, r = .error e → spared e) :
    (∃ e, s w = (.error e, w') ∧ spared e) ∨ ∃ a w₁, s w = (.ok a, w₁) ∧ f a w₁ = (r, w') := by
  refine (bind_cases h).imp_left ?_
  rintro ⟨e, hfirst, he⟩
  exact ⟨e, hfirst, hspares e he⟩

/-- The same, when the first part can only break off. -/
theorem bind_of_spared {s : Step σ μ α} {f : α → Step σ μ β} {r : Except Abort β}
    (h : (s >>= f) w = (r, w')) (hspares : ∀ e, r = .error e → spared e)
    (hbreaks : ∀ {e w₁}, s w = (.error e, w₁) → ¬ spared e) :
    ∃ a w₁, s w = (.ok a, w₁) ∧ f a w₁ = (r, w') := by
  rcases bind_spared h hspares with ⟨e, hfails, he⟩ | hdone
  · exact absurd he (hbreaks hfails)
  · exact hdone

theorem stint_of_invoke {i : UInt64} (hserves : Serves c spared t wakes runs)
    (hbody : t.body = .operation i) (h : invoke c t.owner i w = (r, w'))
    (hspares : ∀ e, r = .error e → spared e) : Stint c wakes runs t w w' := by
  rw [invoke_eq, get_bind] at h
  cases hup : w.fault.isCrashed t.owner with
  | true =>
    rw [hup] at h
    cases h
    exact .skip (by simp [Task.Void, hbody, hup])
  | false =>
    rw [hup] at h
    rcases bind_spared h hspares with ⟨e, hwake, he⟩ | ⟨u, w₁, hwake, h₁⟩
    · exact .rouse hbody hup (hserves.wake hwake fun e' he' => by cases he'; exact he)
    · have hwoken : wakes w w₁ := hserves.wake hwake fun _ he => by cases he
      cases hlisted : (c.operations t.owner)[i.toNat]? with
      | none =>
        rw [hlisted] at h₁
        cases h₁
        exact .rouse hbody hup hwoken
      | some operation =>
        rw [hlisted] at h₁
        obtain ⟨u, w₂, hcommence, h₂⟩ :=
          bind_of_spared h₁ hspares fun hfails => hserves.not_spared (commence_error hfails)
        obtain ⟨a, next, ha, hnext, rfl⟩ := commence_ok hcommence
        exact .begin hbody hup hlisted hwoken ha hnext (hserves.answer hbody hlisted h₂ hspares)

theorem stint_of_deliver {sender : NodeId} {message : μ} {m : MessageId}
    (hserves : Serves c spared t wakes runs) (hbody : t.body = .receive sender message m)
    (h : deliver c t.owner t.clock sender message m w = (r, w'))
    (hspares : ∀ e, r = .error e → spared e) : Stint c wakes runs t w w' := by
  rw [deliver_eq, withdraw, modify_bind, get_bind] at h
  by_cases hdoomed : (w.fault.isCrashed t.owner || !w.fault.reaches sender t.owner) = true
  · rw [if_pos hdoomed] at h
    cases h
    exact .lose hbody (by simpa using hdoomed)
  · rw [if_neg hdoomed] at h
    obtain ⟨hup, hreach⟩ : w.fault.isCrashed t.owner = false ∧
        w.fault.reaches sender t.owner = true := by simpa using hdoomed
    rcases bind_spared h hspares with ⟨e, hwake, he⟩ | ⟨u, w₁, hwake, h₁⟩
    · exact .balk hbody hup hreach (hserves.wake hwake fun e' he' => by cases he'; exact he)
    · obtain ⟨u, w₂, harrive, h₂⟩ :=
        bind_of_spared h₁ hspares fun hfails => hserves.not_spared (arrive_error hfails)
      obtain ⟨k, k', hk, hk', rfl⟩ := arrive_ok harrive
      exact .receive hbody hup hreach (hserves.wake hwake fun _ he => by cases he) hk hk'
        (hserves.receive hbody h₂ hspares)

theorem lose_apply (t : Task μ) (w : World σ μ) :
    (lose t : Step σ μ Unit) w = (.ok (), w.forfeited t) := by
  unfold lose World.forfeited
  cases t.body <;> rfl

/-- Losing what goes down with a node never fails. -/
theorem forM_lose : ∀ (ts : List (Task μ)) (w : World σ μ),
    (ts.forM lose : Step σ μ PUnit) w = (.ok ⟨⟩, ts.foldl World.forfeited w)
  | [], _ => rfl
  | t :: ts, w => (bind_of_ok (lose_apply t w)).trans (forM_lose ts _)

/-- What undoes a fault is scheduled where the settings ask for it. -/
theorem due_of_spared {body : Work μ} (hserves : Serves c spared t wakes runs)
    (h : (if c.config.recovers then do
        let clock ← tick v .work
        let _ ← enqueue v clock body
       else pure () : Step σ μ Unit) w = (r, w'))
    (hspares : ∀ e, r = .error e → spared e) :
    if c.config.recovers then Scheduled v body w w' else w' = w := by
  cases hrecovers : c.config.recovers with
  | false => rw [hrecovers] at h; cases h; rfl
  | true =>
    rw [hrecovers] at h
    cases r with
    | ok u => exact scheduled_of_ok h
    | error e => exact absurd (hspares e rfl) (hserves.not_spared (breaks_of_schedule h))

/-- What is left of a crash once what goes down with the node is lost. -/
theorem crash_eq_stop {m : MessageId} {fault : FaultState} (hcrash : w.fault.crash? v = some fault) :
    crash c v m w = (do
      stop v
      prune
      if c.config.recovers then
        let clock ← tick v .work
        let _ ← enqueue v clock .recover) (w.stricken v m fault) := by
  rw [crash_eq, get_bind, hcrash]
  exact bind_of_ok (forM_lose _ (w.struck v fault (diesWith v m)))

theorem stint_of_crash {m : MessageId} (hserves : Serves c spared t wakes runs)
    (hbody : t.body = .crash m) (h : crash c t.owner m w = (r, w'))
    (hspares : ∀ e, r = .error e → spared e) : Stint c wakes runs t w w' := by
  cases hcrash : w.fault.crash? t.owner with
  | none =>
    rw [crash_eq, get_bind, hcrash] at h
    cases h
    exact .skip (by simp [Task.Void, hbody, hcrash])
  | some fault =>
    rw [crash_eq_stop hcrash] at h
    obtain ⟨u, w₁, hstop, h₁⟩ :=
      bind_of_spared h hspares fun hfails => hserves.not_spared (stop_error hfails)
    exact .crash hbody hcrash (stop_ok hstop) (due_of_spared hserves h₁ hspares)

theorem stint_of_recover (hserves : Serves c spared t wakes runs) (hbody : t.body = .recover)
    (h : recover c t.owner w = (r, w')) (hspares : ∀ e, r = .error e → spared e) :
    Stint c wakes runs t w w' := by
  rw [recover_eq, get_bind] at h
  cases hrecover : w.fault.recover? t.owner with
  | none =>
    rw [hrecover] at h
    cases h
    exact .skip (by simp [Task.Void, hbody, hrecover])
  | some fault =>
    rw [hrecover] at h
    obtain ⟨u, w₁, hrevive, h₁⟩ :=
      bind_of_spared h hspares fun hfails => hserves.not_spared (revive_error hfails)
    obtain ⟨a, ha, rfl⟩ := revive_ok hrevive
    rcases bind_spared h₁ hspares with ⟨e, hhook, he⟩ | ⟨u, w₂, hhook, h₂⟩
    · exact .recover hbody hrecover ha
        (hserves.recover hbody hhook fun e' he' => by cases he'; exact he) (.inl rfl)
    · refine .recover hbody hrecover ha (hserves.recover hbody hhook fun _ he => by cases he) ?_
      rw [get_bind] at h₂
      obtain ⟨b, w₃, hentry, h₃⟩ :=
        bind_of_spared h₂ hspares fun hfails => hserves.not_spared (breaks_of_agenda hfails)
      obtain ⟨-, rfl⟩ := entry_ok_iff.mp hentry
      cases hcurrent : b.current.isNone with
      | false => rw [hcurrent] at h₃; cases h₃; exact .inl rfl
      | true =>
        rw [hcurrent] at h₃
        cases r with
        | ok u => exact .inr (queueNext_ok h₃)
        | error e => exact absurd (hspares e rfl) (hserves.not_spared (queueNext_error h₃))

theorem stint_of_partition {m : MessageId} (hserves : Serves c spared t wakes runs)
    (hbody : t.body = .partition m) (h : partition c t.owner w = (r, w'))
    (hspares : ∀ e, r = .error e → spared e) : Stint c wakes runs t w w' := by
  rw [partition, get_bind] at h
  rcases hdrawn : w.fault.partition? w.source with ⟨_ | fault, source⟩
  · rw [hdrawn] at h
    cases h
    exact .splitRefused hbody hdrawn
  · rw [hdrawn] at h
    exact .split hbody hdrawn (due_of_spared hserves h hspares)

theorem stint_of_heal (hbody : t.body = .heal) (h : heal t.owner w = (r, w')) :
    Stint c wakes runs t w w' := by
  rw [heal, get_bind] at h
  rcases hdrawn : w.fault.heal? w.source with ⟨_ | fault, source⟩
  · rw [hdrawn] at h
    cases h
    exact .healRefused hbody hdrawn
  · rw [hdrawn] at h
    cases h
    exact .heal hbody hdrawn

/-- Every task that succeeds, or ends in an abort that is spared, is one of the stints. -/
theorem stint_of_execute (hserves : Serves c spared t wakes runs)
    (h : execute c t w = (r, w')) (hspares : ∀ e, r = .error e → spared e) :
    Stint c wakes runs t w w' := by
  unfold execute at h
  cases hbody : t.body with
  | operation i => rw [hbody] at h; exact stint_of_invoke hserves hbody h hspares
  | receive sender message m => rw [hbody] at h; exact stint_of_deliver hserves hbody h hspares
  | crash m => rw [hbody] at h; exact stint_of_crash hserves hbody h hspares
  | recover => rw [hbody] at h; exact stint_of_recover hserves hbody h hspares
  | partition m => rw [hbody] at h; exact stint_of_partition hserves hbody h hspares
  | heal => rw [hbody] at h; exact stint_of_heal hbody h

/-- Every pending task that is executed is taken first. A task that is not pending changes
nothing. -/
theorem advance_cases {id : TaskId} {r : Except Abort (Task μ)} (h : advance c id w = (r, w'))
    (hspares : ∀ e, r = .error e → spared e) :
    w' = w ∨ ∃ t pending r', w.pending.take id = some (t, pending) ∧
      execute c t { w with pending := pending } = (r', w') ∧ ∀ e, r' = .error e → spared e := by
  rw [advance, get_bind] at h
  cases htake : w.pending.take id with
  | none =>
    rw [htake] at h
    cases h
    exact .inl rfl
  | some taken =>
    obtain ⟨t, pending⟩ := taken
    rw [htake] at h
    simp only [modify_bind] at h
    refine .inr ⟨t, pending, ?_⟩
    rcases bind_spared h hspares with ⟨e, hexecute, he⟩ | ⟨u, w₁, hexecute, hdone⟩
    · exact ⟨.error e, rfl, hexecute, fun e' he' => by cases he'; exact he⟩
    · cases hdone
      exact ⟨.ok u, rfl, hexecute, fun _ he => by cases he⟩

end

/-! ### Turns -/

section

variable {c : Cluster σ μ} {v : NodeId} {t : Task μ} {r : Except Abort Unit} {w w' : World σ μ}

theorem serves_returned (t : Task μ) :
    Serves c Abort.Returned t (Attends c t.owner) (Attends c t.owner) where
  clean := Abort.Returned.clean
  wake := attending_wake.attends
  answer _ _ := (attending_answer _).attends
  receive _ := (attending_runHook _).attends
  recover _ := (attending_runHook _).attends

/-- Every task whose handlers all return is one of the turns. -/
theorem turn_of_execute (h : execute c t w = (r, w')) (hreturned : ∀ e, r = .error e → e.Returned) :
    Turn c t w w' := stint_of_execute (serves_returned t) h hreturned

/-- A handler that is run on an instance and returns gives an answer. -/
theorem onInstance_returned {ρ : Type} {f : Site → σ → Handler μ (Reply σ ρ)} {x : σ}
    {r : Except Abort (Option (Except NodeError ρ))} (hx : w.instances[v.index]? = some (some x))
    (h : onInstance c v f w = (r, w')) (hreturned : ∀ e, r = .error e → e.Returned) :
    ∃ result, r = .ok (some result) := by
  rw [onInstance, get_bind, hx] at h
  simp only [Option.join_some, setInstance, modify_bind] at h
  obtain ⟨reply, w₁, -, h₁⟩ :=
    bind_of_spared h hreturned fun hfails => (contained_perform _).fails hfails
  cases h₁
  exact ⟨reply.2, rfl⟩

theorem parting_of_farewell (h : farewell c v w = (r, w'))
    (hreturned : ∀ e, r = .error e → e.Returned) : Parting c v w w' := by
  rw [farewell] at h
  cases hstate : w.instances[v.index]?.join with
  | none =>
    have hquiet : onInstance c v c.protocol.onFinish w = (.ok none, w) := by
      rw [onInstance, get_bind, hstate]
      rfl
    rw [bind_of_ok hquiet] at h
    cases h
    exact .absent hstate
  | some x =>
    have hpresent : w.instances[v.index]? = some (some x) := Option.join_eq_some_iff.mp hstate
    have hhook := attending_onInstance (c := c) (v := v) c.protocol.onFinish
    rcases bind_spared h hreturned with ⟨e, hfails, he⟩ | ⟨answer, w₁, hrun, h₁⟩
    · obtain ⟨result, hresult⟩ := onInstance_returned hpresent hfails fun e' he' => by
        cases he'; exact he
      cases hresult
    · obtain ⟨result, hresult⟩ := onInstance_returned hpresent hrun nofun
      cases hresult
      refine .told hpresent (hhook.attends hrun nofun) ?_
      cases result with
      | ok u =>
        cases h₁
        exact .refl _
      | error x => exact (attending_absorb x).attends h₁ hreturned

end

end Step

variable {c : Cluster σ μ} {w w' : World σ μ}

/-- What holds at the start and is kept by every turn and every parting holds in all states reached
while all handlers return. -/
theorem Reaches.turns {P : World σ μ → Prop} (hstart : ∀ w : World σ μ, P (w.reset c))
    (hturn : ∀ {w w' id t pending}, Reaches c Abort.Returned w →
      w.pending.take id = some (t, pending) → Turn c t { w with pending := pending } w' → P w → P w')
    (hparting : ∀ {v w w'}, Reaches c Abort.Returned w → Parting c v w w' → P w → P w')
    (reaches : Reaches c Abort.Returned w) : P w := by
  induction reaches with
  | start w => exact hstart w
  | task id reached run spares ih =>
    rcases Step.advance_cases run spares with rfl | ⟨t, pending, r', htake, hexecute, hspares⟩
    · exact ih
    · exact hturn reached htake (Step.turn_of_execute hexecute hspares) ih
  | farewell v reached run spares ih => exact hparting reached (Step.parting_of_farewell run spares) ih

/-! ### Shifts -/

/-- Node `v` was started, unless it was before. -/
structure Wakes (c : Cluster σ μ) (v : NodeId) (w w' : World σ μ) : Prop where
  run : (Step.wake c v w).2 = w'
  starts : ∃ a, w.agendas[v.index]? = some a ∧
    if a.started then w' = w
    else Requests c v { w with agendas := w.agendas.set v.index { a with started := true } } w'

theorem Wakes.requests {v : NodeId} (h : Wakes c v w w') : Requests c v w w' := by
  obtain ⟨a, ha, hstarts⟩ := h.starts
  split at hstarts
  · exact hstarts ▸ .refl
  · exact .head (.start ha) hstarts

/-- What executing a task does if only its handlers break off. -/
abbrev Shift (c : Cluster σ μ) (t : Task μ) : World σ μ → World σ μ → Prop :=
  Stint c (Wakes c t.owner) (Requests c t.owner) t

/-- What telling node `v` that the scenario is over does if only its handlers break off. -/
inductive Adieu (c : Cluster σ μ) (v : NodeId) (w : World σ μ) : World σ μ → Prop
  | absent (none : w.instances[v.index]?.join = none) : Adieu c v w w
  | cut {x : σ} {w' : World σ μ} (present : w.instances[v.index]? = some (some x))
      (hook : Requests c v w w') : Adieu c v w w'
  | told {x : σ} {w₁ w' : World σ μ} (present : w.instances[v.index]? = some (some x))
      (hook : Requests c v w w₁) (settles : Requests c v (w₁.recorded v .closed) w') : Adieu c v w w'

namespace Step

open Attempt

variable {v : NodeId} {t : Task μ} {r : Except Abort Unit}

theorem wakes_of_clean (h : wake c v w = (r, w')) (hclean : ∀ e, r = .error e → e.Clean) :
    Wakes c v w w' := by
  refine ⟨by rw [h], ?_⟩
  rw [wake, get_bind] at h
  obtain ⟨a, w₁, hentry, h₁⟩ := bind_of_spared h hclean fun hfails => (breaks_of_agenda hfails).unclean
  obtain ⟨ha, rfl⟩ := entry_ok_iff.mp hentry
  refine ⟨a, ha, ?_⟩
  cases hstarted : a.started with
  | true =>
    rw [hstarted] at h₁
    cases h₁
    rfl
  | false =>
    rw [hstarted] at h₁
    exact (handles_runHook c.protocol.onStart).requests h₁ hclean

theorem serves_clean (t : Task μ) :
    Serves c Abort.Clean t (Wakes c t.owner) (Requests c t.owner) where
  clean he := he
  wake := wakes_of_clean
  answer _ _ := (handles_answer _).requests
  receive _ := (handles_runHook _).requests
  recover _ := (handles_runHook _).requests

/-- Every task in which no counter runs out is one of the shifts. -/
theorem shift_of_execute (h : execute c t w = (r, w')) (hclean : ∀ e, r = .error e → e.Clean) :
    Shift c t w w' := stint_of_execute (serves_clean t) h hclean

theorem adieu_of_farewell (h : farewell c v w = (r, w')) (hclean : ∀ e, r = .error e → e.Clean) :
    Adieu c v w w' := by
  have hhandles := handles_onInstance (c := c) (v := v) c.protocol.onFinish
  rw [farewell] at h
  cases hstate : w.instances[v.index]?.join with
  | none =>
    have hquiet : onInstance c v c.protocol.onFinish w = (.ok none, w) := by
      rw [onInstance, get_bind, hstate]
      rfl
    rw [bind_of_ok hquiet] at h
    cases h
    exact .absent hstate
  | some x =>
    have hpresent : w.instances[v.index]? = some (some x) := Option.join_eq_some_iff.mp hstate
    rcases bind_spared h hclean with ⟨e, hfails, he⟩ | ⟨answer, w₁, hrun, h₁⟩
    · exact .cut hpresent (hhandles.requests hfails fun e' he' => by cases he'; exact he)
    · have hrequests : Requests c v w w₁ := hhandles.done hrun
      cases answer with
      | none =>
        cases h₁
        exact .cut hpresent hrequests
      | some result =>
        refine .told hpresent hrequests ?_
        cases result with
        | ok u =>
          cases h₁
          exact .refl
        | error x => exact (handles_absorb x).requests h₁ hclean

end Step

/-- What holds at the start and is kept by every shift and every adieu holds in all states reached
without a panic but a handler's own. -/
theorem Reaches.shifts {P : World σ μ → Prop} (hstart : ∀ w : World σ μ, P (w.reset c))
    (hshift : ∀ {w w' id t pending}, w.pending.take id = some (t, pending) →
      Shift c t { w with pending := pending } w' → P w → P w')
    (hadieu : ∀ {v w w'}, Adieu c v w w' → P w → P w')
    (reaches : Reaches c Abort.Clean w) : P w := by
  induction reaches with
  | start w => exact hstart w
  | task id reached run spares ih =>
    rcases Step.advance_cases run spares with rfl | ⟨t, pending, r', htake, hexecute, hspares⟩
    · exact ih
    · exact hshift htake (Step.shift_of_execute hexecute hspares) ih
  | farewell v reached run spares ih => exact hadieu (Step.adieu_of_farewell run spares) ih

end Interleave
