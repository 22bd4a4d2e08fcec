/-
# Regular steps

A step is regular if it does not look at how many instances were made before,
and if it never blames the search: it fails with an error of node logic, a panic
or a timeout, but not because of a wrong path or tree (`Step.Regular`). With factories
that make the same instance every time, everything a cluster does is regular, faults
included (`Step.regular_execute`). So two iterations differ in nothing but that count
(`World.forget_reset`).
-/
import Interleave.Proofs.Step
import Interleave.Sample.Broadcast

namespace Interleave

variable {σ μ α β : Type}

/-- Every factory makes the same instance however many were made before. -/
def Registry.Deterministic (r : Registry σ) : Prop :=
  ∀ g ∈ r.groups, ∀ v i j, g.make v i = g.make v j

theorem Registry.mem_of_groupFrom {index : Nat} {g : Group σ} : ∀ {start : Nat} {l : List (Group σ)},
    groupFrom index start l = some g → g ∈ l
  | _, [], h => by cases h
  | start, g' :: l, h => by
    unfold groupFrom at h
    split at h
    · cases h
      exact List.mem_cons_self
    · exact List.mem_cons_of_mem _ (mem_of_groupFrom h)

theorem Registry.Deterministic.spawn? {r : Registry σ} (h : r.Deterministic) (v : NodeId) (i j : Nat) :
    r.spawn? v i = r.spawn? v j := by
  unfold Registry.spawn?
  cases hg : r.groupOf? v with
  | none => rfl
  | some g => exact congrArg some (h g (mem_of_groupFrom hg) v i j)

/-- Two peers, each with one value to broadcast. -/
def Broadcast.pair : Cluster Broadcast.Peer String where
  config := Config.default
  registry := ⟨[⟨peerRole, 2, fun _ _ => Broadcast.Peer.initial⟩]⟩
  scenario := ⟨[[.named "send" ["a"]], [.named "send" ["b"]]]⟩
  protocol := Broadcast.protocol

theorem Broadcast.deterministic_pair : Broadcast.pair.registry.Deterministic := by
  intro g hg v i j
  obtain rfl := List.mem_singleton.mp hg
  rfl

/-- A state without the count of instances made. -/
def World.forget (w : World σ μ) : World σ μ := { w with made := [] }

/-- The start of an iteration depends on earlier ones by the count only. -/
theorem World.forget_reset {c : Cluster σ μ} (hc : c.registry.Deterministic) (w w' : World σ μ) :
    (w.reset c).forget = (w'.reset c).forget := by
  have hspawn : ∀ i, c.registry.spawn? (NodeId.ofIndex i) (w.made.getD i 0) =
      c.registry.spawn? (NodeId.ofIndex i) (w'.made.getD i 0) := fun i => hc.spawn? _ _ _
  simp only [reset, forget, blank, hspawn]

namespace Step

open Attempt

/-- A step that does not look at the count. -/
def Forgetful (s : Step σ μ α) : Prop := ∀ w : World σ μ, s w.forget = ((s w).1, (s w).2.forget)

/-- States that differ in the count only lead to such states, with the same answer. -/
theorem Forgetful.transport {s : Step σ μ α} (hs : Forgetful s) {w w' v : World σ μ}
    {r : Except Abort α} (h : s w = (r, w')) (hv : v.forget = w.forget) :
    ∃ v', s v = (r, v') ∧ v'.forget = w'.forget := by
  have heq : ((s v).1, (s v).2.forget) = (r, w'.forget) := by
    rw [← hs v, hv, hs w, h]
  obtain ⟨hr, hforget⟩ := Prod.mk.inj heq
  exact ⟨(s v).2, Prod.ext hr rfl, hforget⟩

structure Regular (s : Step σ μ α) : Prop where
  forgets : Forgetful s
  blames : ∀ (w : World σ μ) e w', s w = (.error e, w') → e.isInternal = false

/-! ### Sequences -/

theorem regular_pure (a : α) : Regular (pure a : Step σ μ α) where
  forgets _ := rfl
  blames _ _ _ h := by cases h

theorem regular_throw {e : Abort} (he : e.isInternal = false) : Regular (throw e : Step σ μ α) where
  forgets _ := rfl
  blames _ _ _ h := by cases h; exact he

theorem Regular.bind {s : Step σ μ α} {f : α → Step σ μ β} (hs : Regular s) (hf : ∀ a, Regular (f a)) :
    Regular (s >>= f) where
  forgets w := by
    rw [bind_apply, bind_apply, hs.forgets w]
    rcases s w with ⟨e | a, w'⟩
    · rfl
    · exact (hf a).forgets w'
  blames w e w' h := by
    rw [bind_apply] at h
    rcases hw : s w with ⟨e' | a, w₁⟩
    · rw [hw] at h
      cases h
      exact hs.blames w e w' hw
    · rw [hw] at h
      exact (hf a).blames w₁ e w' h

theorem regular_modify {g : World σ μ → World σ μ} (hg : ∀ w, g w.forget = (g w).forget) :
    Regular (modify g : Step σ μ Unit) where
  forgets w := by rw [modify_apply, modify_apply, hg]
  blames _ _ _ h := by cases h

/-- Reading all but the count. -/
theorem regular_read {f : World σ μ → Step σ μ β} (hf : ∀ w, f w.forget = f w)
    (h : ∀ w, Regular (f w)) : Regular (get >>= f) where
  forgets w := by
    rw [get_bind, get_bind, hf]
    exact (h w).forgets w
  blames w e w' hw := (h w).blames w e w' hw

theorem regular_forM {s : α → Step σ μ Unit} (hs : ∀ a, Regular (s a)) :
    ∀ l : List α, Regular (l.forM s)
  | [] => regular_pure ()
  | a :: l => (hs a).bind fun _ => regular_forM hs l

/-! ### Tasks and messages -/

theorem regular_panic (p : Panic) : Regular (panic p : Step σ μ α) := regular_throw rfl

theorem regular_ofPanic : ∀ x : Except Panic α, Regular (ofPanic x : Step σ μ α)
  | .ok a => regular_pure a
  | .error p => regular_panic p

theorem regular_orOverflow : ∀ x : Option α, Regular (orOverflow x : Step σ μ α)
  | some a => regular_pure a
  | none => regular_panic _

theorem regular_record (v : NodeId) (e : Event) : Regular (record v e : Step σ μ Unit) :=
  regular_modify fun _ => rfl

theorem regular_tick (v : NodeId) (cause : Cause) : Regular (tick v cause : Step σ μ Clock) := by
  refine regular_read (fun _ => rfl) fun w => (regular_ofPanic _).bind fun clocks => ?_
  refine Regular.bind (regular_modify fun _ => rfl) fun _ => (regular_ofPanic _).bind fun stamp => ?_
  exact Regular.bind (regular_modify fun _ => rfl) fun _ => regular_pure stamp

theorem regular_learn (v : NodeId) (clock : Clock) : Regular (learn v clock : Step σ μ Unit) := by
  refine regular_read (fun _ => rfl) fun w => (regular_ofPanic _).bind fun clocks => ?_
  exact regular_modify fun _ => rfl

theorem regular_enqueue (owner : NodeId) (clock : Clock) (body : Work μ) :
    Regular (enqueue owner clock body : Step σ μ TaskId) := by
  refine regular_read (fun _ => rfl) fun w => (regular_orOverflow _).bind fun next => ?_
  refine Regular.bind (regular_modify fun _ => rfl) fun _ => ?_
  refine regular_read (fun _ => rfl) fun w' => ?_
  refine (regular_ofPanic _).bind fun pending => ?_
  exact Regular.bind (regular_modify fun _ => rfl) fun _ => regular_pure _

theorem regular_withdraw (m : MessageId) : Regular (withdraw m : Step σ μ Unit) :=
  regular_modify fun _ => rfl

theorem regular_prune : Regular (prune : Step σ μ Unit) := regular_modify fun _ => rfl

theorem regular_offerCrash (c : Cluster σ μ) (sender : NodeId) (clock : Clock) (m : MessageId) :
    Regular (offerCrash c sender clock m) := by
  refine regular_read (fun _ => rfl) fun w => ?_
  split
  · exact (regular_enqueue _ _ _).bind fun _ => regular_pure _
  · exact regular_pure _

theorem regular_offerPartition (c : Cluster σ μ) (sender : NodeId) (clock : Clock) (m : MessageId) :
    Regular (offerPartition c sender clock m) := by
  refine regular_read (fun _ => rfl) fun w => ?_
  split
  · exact (regular_enqueue _ _ _).bind fun _ => regular_pure _
  · exact regular_pure _

theorem regular_send (c : Cluster σ μ) (sender : NodeId) (message : μ) (target : NodeId) :
    Regular (send c sender message target) := by
  refine regular_read (fun _ => rfl) fun w => ?_
  split
  · exact regular_pure ()
  refine regular_read (fun _ => rfl) fun w₁ => (regular_orOverflow _).bind fun next => ?_
  refine Regular.bind (regular_modify fun _ => rfl) fun _ => (regular_tick _ _).bind fun clock => ?_
  refine (regular_record _ _).bind fun _ => ?_
  refine regular_read (fun _ => rfl) fun w₂ => ?_
  split
  · exact regular_record _ _
  refine (regular_enqueue _ _ _).bind fun _ => (regular_offerCrash _ _ _ _).bind fun crash => ?_
  refine (regular_offerPartition _ _ _ _).bind fun partition => ?_
  split
  · exact regular_modify fun _ => rfl
  · exact regular_pure ()

/-! ### Operations and handlers -/

theorem regular_entry (l : List α) (v : NodeId) : Regular (entry l v : Step σ μ α) := by
  unfold entry
  split
  · exact regular_pure _
  · exact regular_panic _

theorem regular_setAgenda (v : NodeId) (a : Agenda) : Regular (setAgenda v a : Step σ μ Unit) :=
  regular_modify fun _ => rfl

theorem regular_setInstance (v : NodeId) (x : Option σ) :
    Regular (setInstance v x : Step σ μ Unit) :=
  regular_modify fun _ => rfl

theorem regular_queueNext (c : Cluster σ μ) (v : NodeId) : Regular (queueNext c v) := by
  refine regular_read (fun _ => rfl) fun w => (regular_entry _ v).bind fun agenda => ?_
  split
  · refine (regular_tick v _).bind fun clock => ?_
    exact (regular_enqueue _ _ _).bind fun _ => regular_pure ()
  · exact regular_pure ()

theorem regular_storeResult (v : NodeId) (index : UInt64) (result : Answer) :
    Regular (storeResult v index result : Step σ μ Unit) := by
  refine regular_read (fun _ => rfl) fun w => (regular_entry _ v).bind fun results => ?_
  split
  · exact regular_modify fun _ => rfl
  · exact regular_panic _

theorem regular_endCurrent (v : NodeId) (result : Answer) :
    Regular (endCurrent v result : Step σ μ (Option UInt64)) := by
  refine regular_read (fun _ => rfl) fun w => (regular_entry _ v).bind fun agenda => ?_
  split
  · exact regular_pure _
  · refine (regular_setAgenda v _).bind fun _ => (regular_storeResult v _ _).bind fun _ => ?_
    exact (regular_record v _).bind fun _ => regular_pure _

theorem regular_conclude (c : Cluster σ μ) (v : NodeId) (result : Answer) :
    Regular (conclude c v result) := by
  refine (regular_endCurrent v result).bind fun ended => ?_
  split
  · exact regular_pure _
  · exact (regular_queueNext c v).bind fun _ => regular_pure _

theorem regular_log (v : NodeId) (text : String) : Regular (log v text : Step σ μ Unit) :=
  Regular.bind (regular_modify fun _ => rfl) fun _ => regular_record v _

theorem regular_perform (c : Cluster σ μ) (v : NodeId) :
    ∀ h : Handler μ α, Regular (perform c v h)
  | .done a => regular_pure a
  | .raise _ => regular_panic _
  | .hang => regular_throw rfl
  | .send message target rest =>
    (regular_send c v message target).bind fun _ => regular_perform c v rest
  | .log text rest => (regular_log v text).bind fun _ => regular_perform c v rest
  | .complete _ rest =>
    (regular_conclude c v _).bind fun ok => regular_perform c v (rest ok)
  | .events rest => regular_read (fun _ => rfl) fun w => regular_perform c v (rest (eventsAt w v))
  | .logs rest => regular_read (fun _ => rfl) fun w => regular_perform c v (rest w.logs)

theorem regular_onInstance (c : Cluster σ μ) (v : NodeId) {ρ : Type}
    (f : Site → σ → Handler μ (Reply σ ρ)) : Regular (onInstance c v f) := by
  refine regular_read (fun _ => rfl) fun w => ?_
  split
  · exact regular_pure _
  · refine (regular_setInstance v _).bind fun _ => (regular_perform c v _).bind fun reply => ?_
    exact (regular_setInstance v _).bind fun _ => regular_pure _

theorem regular_absorb (c : Cluster σ μ) (v : NodeId) (e : NodeError) : Regular (absorb c v e) := by
  refine regular_read (fun _ => rfl) fun w => (regular_entry _ v).bind fun agenda => ?_
  split
  · exact (regular_conclude c v _).bind fun _ => regular_pure ()
  · exact regular_throw rfl

theorem regular_runHook (c : Cluster σ μ) (v : NodeId) (f : Site → σ → Handler μ (Reply σ Unit)) :
    Regular (runHook c v f) := by
  refine (regular_onInstance c v f).bind fun result => ?_
  split
  · exact regular_absorb c v _
  · exact regular_pure ()

theorem regular_wake (c : Cluster σ μ) (v : NodeId) : Regular (wake c v) := by
  refine regular_read (fun _ => rfl) fun w => (regular_entry _ v).bind fun agenda => ?_
  split
  · exact (regular_setAgenda v _).bind fun _ => regular_runHook c v _
  · exact regular_pure ()

/-! ### Tasks -/

theorem regular_invoke (c : Cluster σ μ) (v : NodeId) (index : UInt64) :
    Regular (invoke c v index) := by
  refine regular_read (fun _ => rfl) fun w => ?_
  split
  · exact regular_pure ()
  refine (regular_wake c v).bind fun _ => ?_
  split
  · exact regular_pure ()
  refine regular_read (fun _ => rfl) fun w₁ => (regular_entry _ v).bind fun agenda => ?_
  refine (regular_orOverflow _).bind fun next => (regular_setAgenda v _).bind fun _ => ?_
  refine Regular.bind (regular_modify fun _ => rfl) fun _ => (regular_record v _).bind fun _ => ?_
  refine (regular_onInstance c v _).bind fun result => ?_
  split
  · exact (regular_conclude c v _).bind fun _ => regular_pure ()
  · exact (regular_conclude c v _).bind fun _ => regular_pure ()
  · exact regular_pure ()
  · exact regular_absorb c v _
  · exact regular_pure ()

theorem regular_deliver (c : Cluster σ μ) (v : NodeId) (clock : Clock) (sender : NodeId)
    (message : μ) (id : MessageId) : Regular (deliver c v clock sender message id) := by
  refine (regular_withdraw id).bind fun _ => ?_
  refine regular_read (fun _ => rfl) fun w => ?_
  dsimp only
  split
  · exact regular_record sender _
  · refine (regular_wake c v).bind fun _ => (regular_learn v clock).bind fun _ => ?_
    refine (regular_tick v _).bind fun _ => (regular_record v _).bind fun _ => ?_
    exact regular_runHook c v _

theorem regular_lose (t : Task μ) : Regular (lose t : Step σ μ Unit) := by
  unfold lose
  split
  · exact (regular_withdraw _).bind fun _ => regular_record _ _
  · exact regular_pure ()

/-- The task that undoes a fault, if faults are undone. -/
theorem regular_undo (c : Cluster σ μ) (v : NodeId) (body : Work μ) :
    Regular (if c.config.recovers = true then do
      let clock ← tick v .work
      let _ ← enqueue v clock body
    else pure () : Step σ μ Unit) := by
  split
  · exact (regular_tick v _).bind fun clock => (regular_enqueue _ _ _).bind fun _ => regular_pure ()
  · exact regular_pure ()

theorem regular_crash (c : Cluster σ μ) (v : NodeId) (m : MessageId) : Regular (crash c v m) := by
  refine regular_read (fun _ => rfl) fun w => ?_
  split
  · exact regular_pure ()
  refine Regular.bind (regular_modify fun _ => rfl) fun _ => (regular_record v _).bind fun _ => ?_
  refine regular_read (fun _ => rfl) fun w₁ => ?_
  refine Regular.bind (regular_modify fun _ => rfl) fun _ => ?_
  refine (regular_forM regular_lose _).bind fun _ => (regular_setInstance v _).bind fun _ => ?_
  refine (regular_endCurrent v _).bind fun _ => regular_prune.bind fun _ => ?_
  exact regular_undo c v .recover

theorem regular_renew {c : Cluster σ μ} (hc : c.registry.Deterministic) (v : NodeId) :
    Regular (renew c v) := by
  refine regular_modify fun w => ?_
  have hspawn := hc.spawn? v (w.made.getD v.index 0) 0
  simp only [World.forget, hspawn, List.getD_nil, List.modify_nil]

theorem regular_recover {c : Cluster σ μ} (hc : c.registry.Deterministic) (v : NodeId) :
    Regular (recover c v) := by
  refine regular_read (fun _ => rfl) fun w => ?_
  split
  · exact regular_pure ()
  refine Regular.bind (regular_modify fun _ => rfl) fun _ => (regular_renew hc v).bind fun _ => ?_
  refine regular_read (fun _ => rfl) fun w₁ => (regular_entry _ v).bind fun agenda => ?_
  refine (regular_setAgenda v _).bind fun _ => (regular_record v _).bind fun _ => ?_
  refine (regular_runHook c v _).bind fun _ => ?_
  refine regular_read (fun _ => rfl) fun w₂ => (regular_entry _ v).bind fun agenda' => ?_
  split
  · exact regular_queueNext c v
  · exact regular_pure ()

theorem regular_partition (c : Cluster σ μ) (v : NodeId) : Regular (partition c v) := by
  have hsame : ∀ w : World σ μ, w.forget.fault.partition? w.forget.source = w.fault.partition? w.source :=
    fun _ => rfl
  refine regular_read (fun w => by simp only [hsame w]) fun w => ?_
  obtain ⟨next, source⟩ := w.fault.partition? w.source
  refine Regular.bind (regular_modify fun _ => rfl) fun _ => ?_
  split
  · exact regular_pure ()
  refine Regular.bind (regular_modify fun _ => rfl) fun _ => (regular_record v _).bind fun _ => ?_
  exact regular_prune.bind fun _ => regular_undo c v .heal

theorem regular_heal (v : NodeId) : Regular (heal v : Step σ μ Unit) := by
  have hsame : ∀ w : World σ μ, w.forget.fault.heal? w.forget.source = w.fault.heal? w.source :=
    fun _ => rfl
  refine regular_read (fun w => by simp only [hsame w]) fun w => ?_
  obtain ⟨next, source⟩ := w.fault.heal? w.source
  refine Regular.bind (regular_modify fun _ => rfl) fun _ => ?_
  split
  · exact regular_pure ()
  · exact Regular.bind (regular_modify fun _ => rfl) fun _ => regular_record v _

theorem regular_farewell (c : Cluster σ μ) (v : NodeId) : Regular (farewell c v) := by
  refine (regular_onInstance c v _).bind fun result => ?_
  split
  · exact regular_pure ()
  refine (regular_record v _).bind fun _ => ?_
  split
  · exact regular_pure ()
  · exact regular_absorb c v _

/-- **Every task is regular**, if the factories are deterministic. -/
theorem regular_execute {c : Cluster σ μ} (hc : c.registry.Deterministic) (t : Task μ) :
    Regular (execute c t) := by
  unfold execute
  split
  · exact regular_invoke c _ _
  · exact regular_deliver c _ _ _ _ _
  · exact regular_crash c _ _
  · exact regular_recover hc _
  · exact regular_partition c _
  · exact regular_heal _

end Step

end Interleave
