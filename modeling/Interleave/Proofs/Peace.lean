/-
# Peaceful executions

As long as no fault is injected, all nodes are up and the network is whole
(`Unharmed`). So every message reaches its target, and no event tells of a fault. That
holds whatever comes of a task, also if it panics in the midst of a change
(`Step.keeps_execute`): the steps are gone through one by one, with all that can come of
them.
-/
import Interleave.Proofs.Conduct

namespace Interleave

variable {σ μ α β : Type}

/-! ### What a step keeps, whatever comes of it -/

namespace Step

open Attempt

section

variable {I : World σ μ → Prop}

theorem keeps_ofPanic (x : Except Panic α) : Keeps I (ofPanic x : Step σ μ α) := by
  cases x with
  | ok a => exact keeps_pure a
  | error p => exact keeps_throw _

theorem keeps_orOverflow (x : Option α) : Keeps I (orOverflow x : Step σ μ α) := by
  cases x with
  | some a => exact keeps_pure a
  | none => exact keeps_throw _

theorem keeps_entry (l : List α) (v : NodeId) : Keeps I (entry l v : Step σ μ α) := by
  unfold entry
  cases l[v.index]? with
  | some a => exact keeps_pure a
  | none => exact keeps_throw _

end

end Step

/-! ### Unharmed states -/

/-- The task concerns only the first `n` nodes. -/
structure Task.Within (n : Nat) (t : Task μ) : Prop where
  owner : t.owner.index < n
  sender : ∀ p message m, t.body = .receive p message m → p.index < n

/-- No fault was injected: all nodes are up, the network is whole, and no event tells of a fault. -/
structure Unharmed (c : Cluster σ μ) (w : World σ μ) : Prop where
  fault : w.fault = FaultState.healthy c.registry.roles c.config
  size : w.instances.length = c.size
  tasks : ∀ t ∈ w.pending.tasks, t.Within c.size
  events : ∀ o ∈ w.events, o.event.isFault = false

variable {c : Cluster σ μ} {v : NodeId}

namespace FaultState

theorem recover?_healthy (roles : List Role) (config : Config) (v : NodeId) :
    (healthy roles config).recover? v = none := by
  simp [recover?, isCrashed, healthy]

/-- Nothing can be healed in a whole network. -/
theorem heal?_healthy (roles : List Role) (config : Config) (s : Source) :
    (healthy roles config).heal? s = (none, s) := by
  unfold heal? healthy
  cases config.partitionMode with
  | halves => simp
  | singleEdge => simp [Source.choose]

end FaultState

namespace Unharmed

variable {w w' : World σ μ}

/-- Pending tasks may go. -/
theorem less (h : Unharmed c w) (hfault : w'.fault = w.fault)
    (hsize : w'.instances.length = w.instances.length)
    (htasks : ∀ t ∈ w'.pending.tasks, t ∈ w.pending.tasks) (hevents : w'.events = w.events) :
    Unharmed c w' :=
  ⟨hfault.trans h.fault, hsize.trans h.size, fun t ht => h.tasks t (htasks t ht), hevents ▸ h.events⟩

theorem recorded (h : Unharmed c w) (v : NodeId) {e : Event} (he : e.isFault = false) :
    Unharmed c (w.recorded v e) := by
  refine ⟨h.fault, h.size, h.tasks, fun o ho => ?_⟩
  rcases List.mem_append.mp ho with ho | ho
  · exact h.events o ho
  · cases List.mem_singleton.mp ho
    exact he

theorem reset (hsize : c.size < UInt32.size) (w : World σ μ) : Unharmed c (w.reset c) := by
  refine ⟨rfl, by simp [World.reset], fun t ht => ?_, fun o ho => by cases ho⟩
  obtain ⟨i, hi, rfl⟩ := List.mem_map.mp ht
  have hlt : i < c.size := List.mem_range.mp hi
  refine ⟨?_, fun _ _ _ hbody => by cases hbody⟩
  show (NodeId.ofIndex i).index < c.size
  rwa [NodeId.index_ofIndex (Nat.lt_trans hlt hsize)]

end Unharmed

/-! ### Steps of peaceful tasks -/

namespace Step

open Attempt

/-- A change of what does not matter here. -/
theorem keeps_frame {g : World σ μ → World σ μ} (hg : ∀ w, (g w).fault = w.fault ∧
      (g w).instances.length = w.instances.length ∧ (g w).pending = w.pending ∧
      (g w).events = w.events) : Keeps (Unharmed c) (modify g : Step σ μ Unit) :=
  keeps_modify fun w hw => hw.less (hg w).1 (hg w).2.1 (fun _ ht => (hg w).2.2.1 ▸ ht) (hg w).2.2.2

theorem keeps_record (v : NodeId) {e : Event} (he : e.isFault = false) :
    Keeps (Unharmed c) (record v e) := fun _ hw => hw.recorded v he

theorem keeps_tick (v : NodeId) (cause : Cause) : Keeps (Unharmed c) (tick v cause) := by
  refine keeps_read fun w _ => (keeps_ofPanic _).bind fun clocks => ?_
  refine (keeps_frame (by simp)).bind fun _ => (keeps_ofPanic _).bind fun stamp => ?_
  exact (keeps_frame (by simp)).bind fun _ => keeps_pure _

theorem keeps_learn (v : NodeId) (clock : Clock) : Keeps (Unharmed c) (learn v clock) := by
  refine keeps_read fun w _ => (keeps_ofPanic _).bind fun clocks => ?_
  exact keeps_frame fun _ => ⟨rfl, rfl, rfl, rfl⟩

theorem keeps_enqueue {owner : NodeId} (clock : Clock) {body : Work μ} (howner : owner.index < c.size)
    (hsender : ∀ p message m, body = .receive p message m → p.index < c.size) :
    Keeps (Unharmed c) (enqueue owner clock body) := by
  refine keeps_read fun w _ => (keeps_orOverflow _).bind fun next => ?_
  refine (keeps_frame (by simp)).bind fun _ => keeps_read fun w₁ hw₁ => ?_
  cases hinsert : w₁.pending.insert ⟨w.nextTask, owner, clock, body⟩ with
  | error p => exact fun _ hw => hw
  | ok pending =>
    intro w₂ hw₂
    refine ⟨hw₂.fault, hw₂.size, fun t ht => ?_, hw₂.events⟩
    have ht : t ∈ pending.tasks := ht
    unfold Pending.insert at hinsert
    split at hinsert
    · cases hinsert
    · cases hinsert
      rcases Pending.mem_insertSorted.mp ht with rfl | ht
      · exact ⟨howner, hsender⟩
      · exact hw₁.tasks t ht

theorem keeps_withdraw (m : MessageId) : Keeps (Unharmed c) (withdraw m) := by
  refine keeps_modify fun w hw => hw.less rfl rfl (fun t ht => ?_) rfl
  exact (Pending.foldl_erase_sublist _ w.pending).subset ht

theorem keeps_setAgenda (a : Agenda) : Keeps (Unharmed c) (setAgenda v a) :=
  keeps_frame fun _ => ⟨rfl, rfl, rfl, rfl⟩

theorem keeps_endCurrent (result : Answer) : Keeps (Unharmed c) (endCurrent v result) := by
  refine keeps_read fun w _ => (keeps_entry _ _).bind fun agenda => ?_
  cases agenda.current with
  | none => exact keeps_pure _
  | some index =>
    refine (keeps_setAgenda _).bind fun _ => Keeps.bind ?_ fun _ =>
      (keeps_record v rfl).bind fun _ => keeps_pure _
    refine keeps_read fun w _ => (keeps_entry _ _).bind fun results => ?_
    split
    · exact keeps_frame fun _ => ⟨rfl, rfl, rfl, rfl⟩
    · exact keeps_throw _

theorem keeps_setInstance (x : Option σ) : Keeps (Unharmed c) (setInstance v x) :=
  keeps_frame fun _ => ⟨rfl, by simp, rfl, rfl⟩

theorem keeps_commence (index : UInt64) (operation : Operation) :
    Keeps (Unharmed c) (commence v index operation) := by
  refine keeps_read fun w _ => (keeps_entry _ _).bind fun agenda => ?_
  refine (keeps_orOverflow _).bind fun next => (keeps_setAgenda _).bind fun _ => ?_
  exact (keeps_frame (by simp)).bind fun _ => keeps_record v rfl

/-- There is no node to bring back. -/
theorem keeps_recover : Keeps (Unharmed c) (recover c v) := by
  refine keeps_read fun w hw => ?_
  rw [hw.fault, FaultState.recover?_healthy]
  exact keeps_pure _

/-- There is nothing to heal. -/
theorem keeps_heal : Keeps (Unharmed c) (heal v) := by
  refine keeps_read fun w hw => ?_
  rw [hw.fault, FaultState.heal?_healthy]
  exact (keeps_frame (by simp)).bind fun _ => keeps_pure _

section

variable (hv : v.index < c.size)

include hv

theorem keeps_offer (allowed : Bool) (clock : Clock) {body : Work μ}
    (hbody : ∀ p message m, body ≠ .receive p message m) :
    Keeps (Unharmed c) (if allowed then do return [← enqueue v clock body] else return [] :
      Step σ μ (List TaskId)) := by
  cases allowed with
  | true =>
    refine (keeps_enqueue clock hv fun p message m h => ?_).bind fun _ => keeps_pure _
    exact absurd h (hbody p message m)
  | false => exact keeps_pure _

/-- In a whole network a message is not lost. -/
theorem keeps_route (message : μ) {target : NodeId} (htarget : target.index < c.size) (id : MessageId)
    (clock : Clock) : Keeps (Unharmed c) (route c v message target id clock) := by
  refine keeps_read fun w hw => ?_
  have hreach : w.fault.reaches v target = true := by
    rw [hw.fault]
    exact FaultState.reaches_healthy hv htarget
  rw [hreach]
  refine Keeps.bind (keeps_enqueue clock htarget fun p message m h => ?_) fun _ => ?_
  · cases h
    exact hv
  refine Keeps.bind (keeps_read fun w _ => keeps_offer hv _ clock (by simp)) fun crash => ?_
  refine Keeps.bind (keeps_read fun w _ => keeps_offer hv _ clock (by simp)) fun partition => ?_
  split
  · exact keeps_frame fun _ => ⟨rfl, rfl, rfl, rfl⟩
  · exact keeps_pure _

theorem keeps_send (message : μ) (target : NodeId) :
    Keeps (Unharmed c) (send c v message target) := by
  rw [send_eq]
  refine keeps_read fun w hw => ?_
  split
  · exact keeps_pure _
  · rename_i hknown
    have htarget : target.index < c.size := hw.size ▸ Nat.not_le.mp hknown
    refine keeps_read fun w _ => (keeps_orOverflow _).bind fun next => ?_
    refine (keeps_frame (by simp)).bind fun _ => (keeps_tick v _).bind fun clock => ?_
    exact (keeps_record v rfl).bind fun _ => keeps_route hv message htarget _ clock

theorem keeps_queueNext : Keeps (Unharmed c) (queueNext c v) := by
  refine keeps_read fun w _ => (keeps_entry _ _).bind fun agenda => ?_
  split
  · refine (keeps_tick v _).bind fun clock => Keeps.bind (keeps_enqueue clock hv ?_) fun _ => keeps_pure _
    exact fun _ _ _ => nofun
  · exact keeps_pure _

theorem keeps_conclude (result : Answer) : Keeps (Unharmed c) (conclude c v result) := by
  refine (keeps_endCurrent result).bind fun ended => ?_
  cases ended with
  | none => exact keeps_pure _
  | some index => exact (keeps_queueNext hv).bind fun _ => keeps_pure _

theorem keeps_perform (h : Handler μ α) : Keeps (Unharmed c) (perform c v h) := by
  induction h with
  | done a => exact keeps_pure a
  | raise payload => exact keeps_throw _
  | hang => exact keeps_throw _
  | send message target rest ih => exact (keeps_send hv message target).bind fun _ => ih
  | log text rest ih =>
    refine Keeps.bind ?_ fun _ => ih
    exact (keeps_frame (by simp)).bind fun _ => keeps_record v rfl
  | complete value rest ih => exact (keeps_conclude hv _).bind ih
  | events rest ih => exact keeps_read fun w _ => ih (eventsAt w v)
  | logs rest ih => exact keeps_read fun w _ => ih w.logs

theorem keeps_onInstance {ρ : Type} (f : Site → σ → Handler μ (Reply σ ρ)) :
    Keeps (Unharmed c) (onInstance c v f) := by
  refine keeps_read fun w _ => ?_
  split
  · exact keeps_pure _
  · exact (keeps_setInstance _).bind fun _ => (keeps_perform hv _).bind fun _ =>
      (keeps_setInstance _).bind fun _ => keeps_pure _

theorem keeps_absorb (e : NodeError) : Keeps (Unharmed c) (absorb c v e) := by
  refine keeps_read fun w _ => (keeps_entry _ _).bind fun agenda => ?_
  split
  · exact (keeps_conclude hv _).bind fun _ => keeps_pure _
  · exact keeps_throw _

theorem keeps_runHook (f : Site → σ → Handler μ (Reply σ Unit)) :
    Keeps (Unharmed c) (runHook c v f) := by
  refine (keeps_onInstance hv f).bind fun reply => ?_
  split
  · exact keeps_absorb hv _
  · exact keeps_pure _

theorem keeps_wake : Keeps (Unharmed c) (wake c v) := by
  refine keeps_read fun w _ => (keeps_entry _ _).bind fun agenda => ?_
  split
  · exact (keeps_setAgenda _).bind fun _ => keeps_runHook hv _
  · exact keeps_pure _

theorem keeps_answer (operation : Operation) : Keeps (Unharmed c) (answer c v operation) := by
  refine (keeps_onInstance hv _).bind fun reply => ?_
  split
  · exact (keeps_conclude hv _).bind fun _ => keeps_pure _
  · exact (keeps_conclude hv _).bind fun _ => keeps_pure _
  · exact keeps_pure _
  · exact keeps_absorb hv _
  · exact keeps_pure _

theorem keeps_invoke (index : UInt64) : Keeps (Unharmed c) (invoke c v index) := by
  rw [invoke_eq]
  refine keeps_read fun w _ => ?_
  split
  · exact keeps_pure _
  · refine (keeps_wake hv).bind fun _ => ?_
    split
    · exact keeps_pure _
    · exact (keeps_commence index _).bind fun _ => keeps_answer hv _

theorem keeps_deliver {sender : NodeId} (hsender : sender.index < c.size) (clock : Clock) (message : μ)
    (id : MessageId) : Keeps (Unharmed c) (deliver c v clock sender message id) := by
  refine (keeps_withdraw id).bind fun _ => keeps_read fun w hw => ?_
  have hreach : w.fault.reaches sender v = true := by
    rw [hw.fault]
    exact FaultState.reaches_healthy hsender hv
  have hup : w.fault.isCrashed v = false := by
    rw [hw.fault]
    rfl
  simp only [hreach, hup]
  refine (keeps_wake hv).bind fun _ => (keeps_learn v clock).bind fun _ => ?_
  exact (keeps_tick v _).bind fun _ => (keeps_record v rfl).bind fun _ => keeps_runHook hv _

theorem keeps_farewell : Keeps (Unharmed c) (farewell c v) := by
  refine (keeps_onInstance hv _).bind fun reply => ?_
  split
  · exact keeps_pure _
  · refine (keeps_record v rfl).bind fun _ => ?_
    split
    · exact keeps_pure _
    · exact keeps_absorb hv _

end

/-- **A task that injects no fault leaves an unharmed state unharmed**, whatever comes of it. -/
theorem keeps_execute {t : Task μ} (ht : t.Within c.size) (hpeaceful : t.kind.isFault = false) :
    Keeps (Unharmed c) (execute c t) := by
  unfold execute
  cases hbody : t.body with
  | operation index => exact keeps_invoke ht.owner index
  | receive sender message id =>
    exact keeps_deliver ht.owner (ht.sender sender message id hbody) t.clock message id
  | crash m => simp [Task.kind, hbody, TaskKind.isFault] at hpeaceful
  | recover => exact keeps_recover
  | partition m => simp [Task.kind, hbody, TaskKind.isFault] at hpeaceful
  | heal => exact keeps_heal

theorem unharmed_of_advance {t : Task μ} {r : Except Abort (Task μ)} {w w' : World σ μ}
    (hw : Unharmed c w) (hget : w.pending.get? t.id = some t) (hpeaceful : t.kind.isFault = false)
    (hrun : advance c t.id w = (r, w')) : Unharmed c w' := by
  have htaken : Unharmed c { w with pending := w.pending.erase t.id } :=
    hw.less rfl rfl (fun _ ht => (List.mem_filter.mp ht).1) rfl
  have hdone := keeps_execute (hw.tasks t (List.mem_of_find?_eq_some hget)) hpeaceful _ htaken
  rw [advance_of_get? hget] at hrun
  split at hrun
  · rename_i hexecute
    cases hrun
    rwa [hexecute] at hdone
  · rename_i hexecute
    cases hrun
    rwa [hexecute] at hdone

end Step

theorem Walker.unharmed_of_tellAll : ∀ {l : List NodeId} {w : World σ μ},
    (∀ v ∈ l, v.index < c.size) → Unharmed c w → Unharmed c (tellAll c l w).2
  | [], _, _, hw => hw
  | v :: l, w, hl, hw => by
    have hfirst := Step.keeps_farewell (hl v List.mem_cons_self) w hw
    have hrest : ∀ {w₁}, Unharmed c w₁ → Unharmed c (tellAll c l w₁).2 :=
      unharmed_of_tellAll fun u hu => hl u (List.mem_cons_of_mem _ hu)
    unfold tellAll
    split
    · rename_i hfarewell
      rw [hfarewell] at hfirst
      exact hrest hfirst
    · rename_i hfarewell
      rw [hfarewell] at hfirst
      exact hfirst
    · rename_i hfarewell
      rw [hfarewell] at hfirst
      have hlast := hrest hfirst
      split
      · rename_i htold
        rwa [htold] at hlast
      · rename_i htold
        rwa [htold] at hlast

/-- The nodes that are told have places in the cluster. -/
theorem Unharmed.tellAll {w w' : World σ μ} {r : Option Abort} (hw : Unharmed c w)
    (h : Walker.tellAll c ((List.range w.size).map NodeId.ofIndex) w = (r, w')) : Unharmed c w' := by
  have hplaces : ∀ v ∈ (List.range w.size).map NodeId.ofIndex, v.index < c.size := by
    intro v hv
    obtain ⟨i, hi, rfl⟩ := List.mem_map.mp hv
    have hi : i < c.size := hw.size ▸ List.mem_range.mp hi
    exact Nat.lt_of_le_of_lt (Nat.mod_le _ _) hi
  have htold := Walker.unharmed_of_tellAll hplaces hw
  rwa [h] at htold

/-! ### Executions without faults -/

/-- The rule, for tasks that inject no fault. -/
def Rule.peaceful (rule : Rule) : Rule := fun finished pending t =>
  rule finished pending t ∧ t.kind.isFault = false

section

variable {rule choice sweep : Rule} {finished : Option TaskView} {w w' : World σ μ}
  {ts : List (Task μ)}

theorem Schedule.unharmed (h : Schedule c rule.peaceful finished w ts w') (hw : Unharmed c w) :
    Unharmed c w' := by
  induction h with
  | nil => exact hw
  | cons allowed done rest ih =>
    obtain ⟨pending, htake, -⟩ := Step.advance_ok_iff.mp done
    have hget := (Pending.take_eq_some_iff.mp htake).1
    exact ih (Step.unharmed_of_advance hw hget allowed.2 done)

theorem Tries.unharmed (h : Tries c rule.peaceful finished w ts w') (hw : Unharmed c w) :
    Unharmed c w' := by
  rcases h with h | ⟨t, e, w₁, hschedule, hfails⟩
  · exact h.unharmed hw
  · exact Step.unharmed_of_advance (hschedule.unharmed hw) hfails.pending hfails.allowed.2 hfails.run

theorem Course.unharmed {b : Bool} (h : Course c choice.peaceful sweep.peaceful finished w ts w' b)
    (hw : Unharmed c w) : Unharmed c w' := by
  cases h with
  | broken chosen => exact chosen.unharmed hw
  | swept chosen _ swept => exact swept.unharmed (chosen.unharmed hw)
  | whole chosen _ swept _ => exact swept.unharmed (chosen.unharmed hw)

/-- **An iteration that injects no fault records none**, and no message is lost in it, however it
ends. -/
theorem Iteration.Conduct.unharmed {it : Iteration}
    (h : it.Conduct c choice.peaceful sweep.peaceful w) (hw : Unharmed c w) :
    ∀ o ∈ it.trace, o.event.isFault = false := by
  have htrace : ∀ {w' : World σ μ}, Unharmed c w' → it.trace = w'.events ∨ it.trace = [] →
      ∀ o ∈ it.trace, o.event.isFault = false := by
    rintro w' hw' (htrace | htrace)
    · rw [htrace]
      exact hw'.events
    · rw [htrace]
      exact nofun
  cases h with
  | cut tasks _ _ trace => exact htrace (tasks.unharmed hw) trace
  | told tasks told _ _ trace => exact htrace ((tasks.unharmed hw).tellAll told) trace
  | ended tasks told swept _ _ trace =>
    exact htrace (swept.unharmed ((tasks.unharmed hw).tellAll told)) trace

end

end Interleave
