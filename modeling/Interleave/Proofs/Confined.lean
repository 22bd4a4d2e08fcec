/-
# Work is confined to its own desk

Without faults, what a piece of work does is a function of its owner's desk: the
answer, the new desk and the drafts it posts. Such a function is called the
effect of the work, and work that has one is confined. All that the rest of the
cluster decides is whether there are numbers left for the posted drafts. So effects
follow each other as steps do (`Realizes.bind`), from those of the steps that count and
post (`realizes_post`, `realizes_send`).
-/
import Interleave.Proofs.Desk
import Interleave.Proofs.Layout

namespace Interleave

variable {σ μ α β : Type}

/-- An answer, a new desk and the posted drafts, for every desk; none where the work fails. -/
abbrev Effect (σ μ α : Type) := Desk σ → Option (α × Desk σ × List (Draft μ))

/-- Step `s`, of node `v` in calm states of cluster `c`, has effect `φ`, and all it posts
satisfies `P`. -/
structure Realizes (c : Cluster σ μ) (v : NodeId) (P : Draft μ → Prop) (s : Step σ μ α)
    (φ : Effect σ μ α) : Prop where
  done : ∀ w a w', Calm c w → s w = (.ok a, w') → ∃ d posted,
    φ (w.desk v.index) = some (a, d, posted) ∧ Calm c w' ∧ w'.net = w.net.after v.index d posted
  room : ∀ w a d posted, Calm c w → φ (w.desk v.index) = some (a, d, posted) →
    w.net.Room posted → ∃ w', s w = (.ok a, w')
  forward : ∀ d a d' posted, φ d = some (a, d', posted) →
    d.Forward c.size v d' posted ∧ ∀ x ∈ posted, P x

/-- Work that has an effect. -/
def Confined (c : Cluster σ μ) (v : NodeId) (P : Draft μ → Prop) (s : Step σ μ α) : Prop :=
  ∃ φ, Realizes c v P s φ

section

variable {c : Cluster σ μ} {v : NodeId} {P Q : Draft μ → Prop}

/-! ### Sequences -/

theorem Realizes.mono {s : Step σ μ α} {φ : Effect σ μ α} (h : Realizes c v P s φ)
    (hPQ : ∀ x, P x → Q x) : Realizes c v Q s φ :=
  ⟨h.done, h.room, fun d a d' posted hd =>
    ⟨(h.forward d a d' posted hd).1, fun x hx => hPQ x ((h.forward d a d' posted hd).2 x hx)⟩⟩

theorem Confined.mono {s : Step σ μ α} (h : Confined c v P s) (hPQ : ∀ x, P x → Q x) :
    Confined c v Q s := by
  obtain ⟨φ, hφ⟩ := h
  exact ⟨φ, hφ.mono hPQ⟩

/-- Work that succeeds without a change. -/
theorem realizes_pure (a : α) : Realizes c v P (pure a : Step σ μ α) fun d => some (a, d, []) where
  done w b w' hw h := by
    cases h
    exact ⟨w.desk v.index, [], rfl, hw, (Net.after_self w.net v.index).symm⟩
  room w b d posted _ h _ := by
    cases h
    exact ⟨w, rfl⟩
  forward d b d' posted h := by
    cases h
    exact ⟨.of_clock_eq rfl, fun x hx => by cases hx⟩

/-- Steps that are equal on calm states have the same effect. -/
theorem Realizes.of_eq {s s' : Step σ μ α} {φ : Effect σ μ α} (heq : ∀ w, Calm c w → s' w = s w)
    (h : Realizes c v P s φ) : Realizes c v P s' φ where
  done w a w' hw hs := h.done w a w' hw (heq w hw ▸ hs)
  room w a d posted hw hd hroom := by
    obtain ⟨w', hw'⟩ := h.room w a d posted hw hd hroom
    exact ⟨w', (heq w hw).trans hw'⟩
  forward := h.forward

theorem confined_pure (a : α) : Confined c v P (pure a : Step σ μ α) := ⟨_, realizes_pure a⟩

theorem Confined.of_eq {s s' : Step σ μ α} (heq : ∀ w, Calm c w → s' w = s w)
    (h : Confined c v P s) : Confined c v P s' := by
  obtain ⟨φ, hφ⟩ := h
  exact ⟨φ, .of_eq heq hφ⟩

/-- Work that fails at once. -/
theorem realizes_throw (e : Abort) : Realizes c v P (throw e : Step σ μ α) fun _ => none where
  done _ _ _ _ h := by cases h
  room _ _ _ _ _ h := by cases h
  forward _ _ _ _ h := by cases h

theorem confined_throw (e : Abort) : Confined c v P (throw e : Step σ μ α) := ⟨_, realizes_throw e⟩

/-- The effect of a sequence: the second effect on the desk that the first one left. -/
def Effect.andThen (φ : Effect σ μ α) (ψ : α → Effect σ μ β) : Effect σ μ β := fun d =>
  (φ d).bind fun (a, d₁, posted₁) =>
    (ψ a d₁).map fun (b, d₂, posted₂) => (b, d₂, posted₁ ++ posted₂)

theorem Effect.andThen_eq_some {φ : Effect σ μ α} {ψ : α → Effect σ μ β} {d d₂ : Desk σ} {b : β}
    {posted : List (Draft μ)} (h : φ.andThen ψ d = some (b, d₂, posted)) :
    ∃ a d₁ posted₁ posted₂, φ d = some (a, d₁, posted₁) ∧ ψ a d₁ = some (b, d₂, posted₂) ∧
      posted = posted₁ ++ posted₂ := by
  obtain ⟨⟨a, d₁, posted₁⟩, h₁, h₂⟩ := Option.bind_eq_some_iff.mp h
  obtain ⟨⟨b', d₂', posted₂⟩, h₃, h₄⟩ := Option.map_eq_some_iff.mp h₂
  cases h₄
  exact ⟨a, d₁, posted₁, posted₂, h₁, h₃, rfl⟩

theorem Realizes.bind {s : Step σ μ α} {f : α → Step σ μ β} {φ : Effect σ μ α}
    {ψ : α → Effect σ μ β} (hs : Realizes c v P s φ) (hf : ∀ a, Realizes c v P (f a) (ψ a)) :
    Realizes c v P (s >>= f) (φ.andThen ψ) where
  done w b w' hw h := by
    obtain ⟨a, w₁, h₁, h₂⟩ := Attempt.bind_ok h
    obtain ⟨d₁, posted₁, e₁, hw₁, hn₁⟩ := hs.done w a w₁ hw h₁
    obtain ⟨d₂, posted₂, e₂, hw₂, hn₂⟩ := (hf a).done w₁ b w' hw₁ h₂
    have hd₁ : w₁.desk v.index = d₁ := by
      rw [← World.net_desk, hn₁, Net.after_desk_self]
    rw [hd₁] at e₂
    refine ⟨d₂, posted₁ ++ posted₂, by simp [Effect.andThen, e₁, e₂], hw₂, ?_⟩
    rw [hn₂, hn₁, Net.after_after]
  room w b d posted hw h hroom := by
    obtain ⟨a, d₁, posted₁, posted₂, e₁, e₂, rfl⟩ := Effect.andThen_eq_some h
    obtain ⟨w₁, h₁⟩ := hs.room w a d₁ posted₁ hw e₁ hroom.left
    obtain ⟨d₁', posted₁', e₁', hw₁, hn₁⟩ := hs.done w a w₁ hw h₁
    rw [e₁] at e₁'
    cases e₁'
    have hd₁ : w₁.desk v.index = d₁ := by
      rw [← World.net_desk, hn₁, Net.after_desk_self]
    obtain ⟨w₂, h₂⟩ := (hf a).room w₁ b d posted₂ hw₁ (by rw [hd₁]; exact e₂)
      (by rw [hn₁]; exact hroom.right)
    exact ⟨w₂, by rw [Attempt.bind_of_ok h₁, h₂]⟩
  forward d b d' posted h := by
    obtain ⟨a, d₁, posted₁, posted₂, e₁, e₂, rfl⟩ := Effect.andThen_eq_some h
    obtain ⟨f₁, p₁⟩ := hs.forward d a d₁ posted₁ e₁
    obtain ⟨f₂, p₂⟩ := (hf a).forward d₁ b d' posted₂ e₂
    refine ⟨f₁.trans f₂, fun x hx => ?_⟩
    rcases List.mem_append.mp hx with hx | hx
    · exact p₁ x hx
    · exact p₂ x hx

theorem Confined.bind {s : Step σ μ α} {f : α → Step σ μ β} (hs : Confined c v P s)
    (hf : ∀ a, Confined c v P (f a)) : Confined c v P (s >>= f) := by
  obtain ⟨φ, hφ⟩ := hs
  choose ψ hψ using hf
  exact ⟨φ.andThen ψ, hφ.bind hψ⟩

/-! ### Reading and writing the desk -/

/-- A change of the desk that leaves clock, tasks and faults. -/
theorem realizes_modify (g : World σ μ → World σ μ) (h : Desk σ → Desk σ)
    (core : ∀ w, (g w).core = w.core) (clock : ∀ d, (h d).clock = d.clock)
    (own : ∀ w, (g w).desk v.index = h (w.desk v.index))
    (others : ∀ w j, j ≠ v.index → (g w).desk j = w.desk j) :
    Realizes c v P (modify g : Step σ μ Unit) fun d => some ((), h d, []) where
  done w a w' hw hg := by
    cases hg
    have hcore := core w
    refine ⟨h (w.desk v.index), [], rfl, hw.of_core_eq hcore,
      World.net_eq_after (own w) (others w) ?_ ?_ ?_⟩
    all_goals
      simp only [World.core, Prod.mk.injEq] at hcore
      simp [World.net, hcore]
  room w a d posted _ _ _ := ⟨g w, rfl⟩
  forward d a d' posted hd := by
    cases hd
    exact ⟨.of_clock_eq (clock d), fun x hx => by cases hx⟩

/-- What is read from a state is the same in states with the same desk and the same faults. -/
theorem confined_read {γ : Type} {f : γ → Step σ μ α} (look : World σ μ → γ) (see : Desk σ → γ)
    (hsee : ∀ w, Calm c w → look w = see (w.desk v.index)) (hf : ∀ x, Confined c v P (f x)) :
    Confined c v P (get >>= fun w => f (look w)) := by
  choose ψ hψ using hf
  refine ⟨fun d => ψ (see d) d, fun w a w' hw h => ?_, fun w a d posted hw h hroom => ?_,
    fun d a d' posted h => (hψ _).forward d a d' posted h⟩
  · rw [Attempt.get_bind, hsee w hw] at h
    exact (hψ _).done w a w' hw h
  · obtain ⟨w', hw'⟩ := (hψ _).room w a d posted hw h hroom
    exact ⟨w', by rw [Attempt.get_bind, hsee w hw]; exact hw'⟩

/-- One more event in the journal. -/
def Effect.record (e : Event) : Effect σ μ Unit := fun d =>
  some ((), { d with journal := d.journal ++ [e.unnumbered] }, [])

theorem realizes_record (e : Event) :
    Realizes c v P (Step.record v e : Step σ μ Unit) (Effect.record e) :=
  realizes_modify _ _ (fun _ => rfl) (fun _ => rfl) (fun w => by simp [World.desk])
    fun w j hj => by simp [World.desk, Ne.symm hj]

theorem confined_setAgenda (a : Agenda) : Confined c v P (Step.setAgenda v a : Step σ μ Unit) :=
  ⟨_, realizes_modify _ (fun d => { d with agenda := d.agenda.map (Function.const _ a) }) (fun _ => rfl)
    (fun _ => rfl) (fun w => by simp [World.desk, List.getElem?_set_self'])
    fun w j hj => by simp [World.desk, Ne.symm hj]⟩

theorem confined_setInstance (x : Option σ) :
    Confined c v P (Step.setInstance v x : Step σ μ Unit) :=
  ⟨_, realizes_modify _ (fun d => { d with state := d.state.map (Function.const _ x) })
    (fun w => by simp [World.core]) (fun _ => rfl)
    (fun w => by simp [World.desk, List.getElem?_set_self'])
    fun w j hj => by simp [World.desk, Ne.symm hj]⟩

theorem confined_setResults (r : List Answer) :
    Confined c v P (modify fun w => { w with results := w.results.set v.index r } :
      Step σ μ Unit) :=
  ⟨_, realizes_modify _ (fun d => { d with results := d.results.map (Function.const _ r) }) (fun _ => rfl)
    (fun _ => rfl) (fun w => by simp [World.desk, List.getElem?_set_self'])
    fun w j hj => by simp [World.desk, Ne.symm hj]⟩

theorem confined_addResult (r : Answer) :
    Confined c v P (modify fun w => { w with results := w.results.modify v.index (· ++ [r]) } :
      Step σ μ Unit) :=
  ⟨_, realizes_modify _ (fun d => { d with results := d.results.map (· ++ [r]) }) (fun _ => rfl)
    (fun _ => rfl) (fun w => by simp [World.desk])
    fun w j hj => by simp [World.desk, Ne.symm hj]⟩

theorem confined_log (text : String) : Confined c v P (Step.log v text : Step σ μ Unit) := by
  refine Confined.bind ⟨_, realizes_modify _ (fun d => { d with log := d.log.map (· ++ [text]) })
    (fun _ => rfl) (fun _ => rfl) (fun w => by simp [World.desk])
    fun w j hj => by simp [World.desk, Ne.symm hj]⟩ fun _ => ?_
  exact ⟨_, realizes_record _⟩

/-- Looking up the entry of the working node in a list with one entry a node. -/
theorem confined_entry {γ : Type} {f : γ → Step σ μ α} (table : World σ μ → List γ)
    (see : Desk σ → Option γ) (hsee : ∀ w, (table w)[v.index]? = see (w.desk v.index))
    (hf : ∀ x, Confined c v P (f x)) :
    Confined c v P (get >>= fun w => Step.entry (table w) v >>= f) := by
  choose ψ hψ using hf
  refine ⟨fun d => (see d).bind fun x => ψ x d, fun w a w' hw h => ?_,
    fun w a d posted hw h hroom => ?_, fun d a d' posted h => ?_⟩
  · rw [Attempt.get_bind] at h
    obtain ⟨x, w₁, hx, h₁⟩ := Attempt.bind_ok h
    obtain ⟨hentry, hw₁⟩ := Step.entry_ok_iff.mp hx
    rw [hsee] at hentry
    subst hw₁
    simpa [hentry] using (hψ x).done w₁ a w' hw h₁
  · obtain ⟨x, hx, hd⟩ := Option.bind_eq_some_iff.mp h
    obtain ⟨w', hw'⟩ := (hψ x).room w a d posted hw hd hroom
    refine ⟨w', ?_⟩
    rw [Attempt.get_bind, Attempt.bind_of_ok (Step.entry_ok_iff.mpr ⟨(hsee w).trans hx, rfl⟩), hw']
  · obtain ⟨x, hx, hd⟩ := Option.bind_eq_some_iff.mp h
    exact (hψ x).forward d a d' posted hd

theorem confined_agenda {f : Agenda → Step σ μ α} (hf : ∀ x, Confined c v P (f x)) :
    Confined c v P (get >>= fun w => Step.entry w.agendas v >>= f) :=
  confined_entry World.agendas Desk.agenda (fun _ => rfl) hf

theorem confined_orOverflow (x : Option α) : Confined c v P (Step.orOverflow x : Step σ μ α) := by
  cases x with
  | none => exact confined_throw _
  | some a => exact confined_pure a

/-! ### Clocks -/

/-- The state with another clock for node `v`. -/
def clocked (w : World σ μ) (v : NodeId) (k : Clock) : World σ μ :=
  { w with clocks := ⟨w.clocks.clocks.set v.index k⟩ }

theorem net_clocked {w : World σ μ} {k : Clock} (hk : w.clocks.clocks[v.index]? = some k)
    (k' : Clock) :
    (clocked w v k').net = w.net.after v.index { w.desk v.index with clock := some k' } [] := by
  have hlt : v.index < w.clocks.clocks.length := (List.getElem?_eq_some_iff.mp hk).1
  refine World.net_eq_after ?_ (fun j hj => ?_) ?_ rfl rfl
  · simp [World.desk, clocked, hlt]
  · simp [World.desk, clocked, Ne.symm hj]
  · simp [World.net, clocked]

theorem forward_clock {d : Desk σ} {k k' : Clock} (hk : d.clock = some k) (hle : k.le k' = true)
    (n : Nat) : d.Forward n v { d with clock := some k' } ([] : List (Draft μ)) where
  grows := by
    rw [hk]
    exact .some hle
  posts a ha := by cases ha

theorem calm_clocked {w : World σ μ} {k k' : Clock} (hv : v.index < c.size) (h : Calm c w)
    (hk : w.clocks.clocks[v.index]? = some k) (hle : k.le k' = true) : Calm c (clocked w v k') := by
  have hsound : (clocked w v k').net.Sound c.size := by
    rw [net_clocked hk k']
    exact h.sound.after hv (forward_clock hk hle c.size)
  exact ⟨h.healthy, h.bare, h.size, hsound, h.fresh, h.distinct, h.sent, h.ordered⟩

/-- An effect that needs an event on the clock first. -/
theorem ticks_eq_some {γ : Type} {k : Option Clock} {f : Clock → γ} {x : γ}
    (h : (k.bind fun k => (k.tick? v).map f) = some x) :
    ∃ k₁ k₂, k = some k₁ ∧ k₁.tick? v = some k₂ ∧ f k₂ = x := by
  obtain ⟨k₁, hk₁, h⟩ := Option.bind_eq_some_iff.mp h
  obtain ⟨k₂, hk₂, h⟩ := Option.map_eq_some_iff.mp h
  exact ⟨k₁, k₂, hk₁, hk₂, h⟩

/-- An event on the node's own clock. -/
def Effect.tick (v : NodeId) : Effect σ μ Clock := fun d =>
  d.clock.bind fun k => (k.tick? v).map fun k' => (k', { d with clock := some k' }, [])

theorem realizes_tick (hv : v.index < c.size) (cause : Cause) :
    Realizes c v P (Step.tick v cause : Step σ μ Clock) (Effect.tick v) where
  done w a w' hw h := by
    obtain ⟨k, hk, hk', rfl⟩ := Step.tick_ok_iff.mp h
    have hclock : (w.desk v.index).clock = some k := hk
    refine ⟨{ w.desk v.index with clock := some a }, [], by simp [Effect.tick, hclock, hk'], ?_, ?_⟩
    · exact (calm_clocked hv hw hk (Clock.le_tick hk')).of_core_eq rfl
    · exact net_clocked hk a
  room w a d posted _ h _ := by
    obtain ⟨k, k', hk, hk', hd⟩ := ticks_eq_some h
    cases hd
    exact ⟨_, Step.tick_ok_iff.mpr ⟨k, hk, hk', rfl⟩⟩
  forward d a d' posted h := by
    obtain ⟨k, k', hk, hk', hd⟩ := ticks_eq_some h
    cases hd
    exact ⟨forward_clock hk (Clock.le_tick hk') c.size, fun x hx => by cases hx⟩

/-- Learning what another clock knows. -/
def Effect.learn (clock : Clock) : Effect σ μ Unit := fun d =>
  d.clock.map fun k => ((), { d with clock := some (k.join clock) }, [])

theorem realizes_learn (hv : v.index < c.size) (clock : Clock) :
    Realizes c v P (Step.learn v clock : Step σ μ Unit) (Effect.learn clock) where
  done w a w' hw h := by
    rw [Step.learn, Attempt.get_bind] at h
    obtain ⟨b, w₁, hb, h⟩ := Attempt.bind_ok h
    obtain ⟨hb, rfl⟩ := Step.ofPanic_ok_iff.mp hb
    obtain ⟨k, hk, rfl⟩ := ClockBank.merge_ok_iff.mp hb
    cases h
    have hclock : (w₁.desk v.index).clock = some k := hk
    refine ⟨{ w₁.desk v.index with clock := some (k.join clock) }, [],
      by simp [Effect.learn, hclock], ?_, ?_⟩
    · exact calm_clocked hv hw hk (Clock.le_join_left k clock)
    · exact net_clocked hk (k.join clock)
  room w a d posted _ h _ := by
    obtain ⟨k, hk, h⟩ := Option.map_eq_some_iff.mp h
    cases h
    refine ⟨clocked w v (k.join clock), ?_⟩
    rw [Step.learn, Attempt.get_bind,
      Attempt.bind_of_ok (Step.ofPanic_ok_iff.mpr ⟨ClockBank.merge_ok_iff.mpr ⟨k, hk, rfl⟩, rfl⟩)]
    rfl
  forward d a d' posted h := by
    obtain ⟨k, hk, h⟩ := Option.map_eq_some_iff.mp h
    cases h
    exact ⟨forward_clock hk (Clock.le_join_left k clock) c.size, fun x hx => by cases hx⟩

/-! ### Posting -/

theorem pool_enqueued (w : World σ μ) (owner : NodeId) (clock : Clock) (body : Work μ)
    (next : TaskId) :
    (Step.enqueued w owner clock body next).net.pool =
      w.net.pool + ↑[Task.draft ⟨w.nextTask, owner, clock, body⟩] := by
  have hperm := (Pending.insertSorted_perm ⟨w.nextTask, owner, clock, body⟩ w.pending.tasks).map
    Task.draft
  calc (Step.enqueued w owner clock body next).net.pool
      = ↑(List.map Task.draft (⟨w.nextTask, owner, clock, body⟩ :: w.pending.tasks)) :=
        Multiset.coe_eq_coe.mpr hperm
    _ = Task.draft ⟨w.nextTask, owner, clock, body⟩ ::ₘ w.net.pool := rfl
    _ = w.net.pool + ↑[Task.draft ⟨w.nextTask, owner, clock, body⟩] := by
        rw [Multiset.coe_singleton, Multiset.add_comm, Multiset.singleton_add]

theorem next?_of_room {w : UInt64} {n : Nat} (h : w.toNat + n < UInt64.size) (hn : 1 ≤ n) :
    ∃ w', wordSucc? w = some w' := wordSucc?_of_lt (by omega)

theorem forward_post {d d' : Desk σ} {k k' : Clock} {a : Draft μ} {n : Nat}
    (hk : d.clock = some k) (hk' : k.tick? v = some k') (hclock : d'.clock = some k')
    (hstamp : a.clock = k') (ha : a.PostedBy n v) : d.Forward n v d' [a] where
  grows := by
    rw [hk, hclock]
    exact .some (Clock.le_tick hk')
  posts x hx := by
    cases List.mem_singleton.mp hx
    subst hstamp
    exact ⟨k, a.clock, hk, hclock, Clock.happensBefore_tick hk', a.clock.le_refl, ha⟩

/-- One more event, and a task of the node itself with the clock right after it. -/
theorem realizes_post (hv : v.index < c.size) (cause : Cause) (index : UInt64)
    (hP : ∀ k, P ⟨v, k, .operation index⟩) :
    Realizes c v P (do
      let clock ← Step.tick v cause
      let _ ← Step.enqueue v clock (.operation index)
      pure () : Step σ μ Unit) fun d =>
      d.clock.bind fun k => (k.tick? v).map fun k' =>
        ((), { d with clock := some k' }, [⟨v, k', .operation index⟩]) where
  done w a w' hw h := by
    obtain ⟨k', w₁, h₁, h₂⟩ := Attempt.bind_ok h
    obtain ⟨id, w₂, h₃, h₄⟩ := Attempt.bind_ok h₂
    obtain ⟨k, hk, hk', rfl⟩ := Step.tick_ok_iff.mp h₁
    obtain ⟨next, hnext, _, _, rfl⟩ := Step.enqueue_ok_iff.mp h₃
    cases h₄
    have hclock : (w.desk v.index).clock = some k := hk
    have hlt : v.index < w.clocks.clocks.length := (List.getElem?_eq_some_iff.mp hk).1
    have hcalm : Calm c (Step.ticked w v cause k') :=
      (calm_clocked hv hw hk (Clock.le_tick hk')).of_core_eq rfl
    refine ⟨{ w.desk v.index with clock := some k' }, [⟨v, k', .operation index⟩],
      by simp [hclock, hk'], ?_, ?_⟩
    · refine hcalm.enqueued hnext ⟨hv, k', ?_, k'.le_refl⟩ (fun m hm => ?_) (fun s m hs => ?_)
      · simp [Task.draft, World.desk, Step.ticked, hlt]
      · simp [Task.message?] at hm
      · simp [Task.sender?] at hs
    · refine World.net_eq_after ?_ (fun j hj => ?_) (pool_enqueued _ _ _ _ _)
        (TaskId.number_of_next? hnext) rfl
      · simp [World.desk, Step.enqueued, Step.ticked, hlt]
      · simp [World.desk, Step.enqueued, Step.ticked, Ne.symm hj]
  room w a d posted hw h hroom := by
    obtain ⟨k, k', hk, hk', hd⟩ := ticks_eq_some h
    cases hd
    obtain ⟨next, hnext⟩ := next?_of_room hroom.1 (Nat.le_refl 1)
    have htick : Step.tick v cause w = (.ok k', Step.ticked w v cause k') :=
      Step.tick_ok_iff.mpr ⟨k, hk, hk', rfl⟩
    have hcalm : Calm c (Step.ticked w v cause k') :=
      (calm_clocked hv hw hk (Clock.le_tick hk')).of_core_eq rfl
    have henqueue : Step.enqueue v k' (.operation index) (Step.ticked w v cause k') =
        (.ok w.nextTask, Step.enqueued (Step.ticked w v cause k') v k' (.operation index) ⟨next⟩) :=
      Step.enqueue_ok_iff.mpr ⟨⟨next⟩, Option.map_eq_some_iff.mpr ⟨next, hnext, rfl⟩,
        hcalm.get?_nextTask, rfl, rfl⟩
    exact ⟨_, by rw [Attempt.bind_of_ok htick, Attempt.bind_of_ok henqueue]; rfl⟩
  forward d a d' posted h := by
    obtain ⟨k, k', hk, hk', hd⟩ := ticks_eq_some h
    cases hd
    refine ⟨forward_post hk hk' rfl rfl ⟨hv, rfl⟩, fun x hx => ?_⟩
    cases List.mem_singleton.mp hx
    exact hP k'

end

/-! ### Sending -/

/-- A cluster in which no fault may be injected. -/
structure FaultFree (c : Cluster σ μ) : Prop where
  none : c.config.maxFailed = 0
  whole : c.config.splits = false

/-- In a whole network every node reaches every other. -/
theorem FaultState.reaches_healthy {c : Cluster σ μ} {a b : NodeId} (ha : a.index < c.size)
    (hb : b.index < c.size) : (healthy c.registry.roles c.config).reaches a b = true := by
  have hlen : c.registry.roles.length = c.size := c.registry.length_roles
  unfold reaches healthy
  cases c.config.partitionMode with
  | halves => simp
  | singleEdge => simp [hlen, ha, hb]

theorem Calm.reaches {c : Cluster σ μ} {w : World σ μ} (h : Calm c w) {a b : NodeId}
    (ha : a.index < c.size) (hb : b.index < c.size) : w.fault.reaches a b = true := by
  rw [h.healthy]
  exact FaultState.reaches_healthy ha hb

/-- The state after node `v` sent a message, with its new clock and the numbers after those used. -/
def sentWorld (c : Cluster σ μ) (w : World σ μ) (v : NodeId) (message : μ) (target : NodeId)
    (k : Clock) (nextMessage : MessageId) (nextTask : TaskId) : World σ μ :=
  let ticked := Step.ticked { w with nextMessage := nextMessage } v (.sent w.nextMessage) k
  let event := Event.sent w.nextMessage target (c.protocol.messageText message)
  Step.enqueued { ticked with events := w.events ++ [⟨v, event⟩] } target k
    (.receive v message w.nextMessage) nextTask

section

variable {c : Cluster σ μ} {v : NodeId} {P : Draft μ → Prop}

/-- Without faults a send offers none. -/
theorem offers_nothing (hc : FaultFree c) (clock : Clock) (m : MessageId) (w : World σ μ) :
    (do
      let crash ← Step.offerCrash c v clock m
      let partition ← Step.offerPartition c v clock m
      if !(crash ++ partition).isEmpty then
        modify fun w => { w with candidates := Ascending.put m (crash ++ partition) w.candidates } :
      Step σ μ Unit) w = (.ok (), w) := by
  have hcrash : Step.offerCrash c v clock m w = (.ok [], w) := by
    rw [Step.offerCrash, Attempt.get_bind]
    simp only [Config.allowsFaults, hc.none]
    rfl
  have hpartition : Step.offerPartition c v clock m w = (.ok [], w) := by
    rw [Step.offerPartition, Attempt.get_bind]
    simp only [hc.whole]
    rfl
  rw [Attempt.bind_of_ok hcrash, Attempt.bind_of_ok hpartition]
  rfl

theorem send_ok_iff (hc : FaultFree c) (hv : v.index < c.size) {w w' : World σ μ} (hw : Calm c w)
    {message : μ} {target : NodeId} (ht : target.index < c.size) :
    Step.send c v message target w = (.ok (), w') ↔
      ∃ k k' nextMessage nextTask, w.clocks.clocks[v.index]? = some k ∧ k.tick? v = some k' ∧
        w.nextMessage.next? = some nextMessage ∧ w.nextTask.next? = some nextTask ∧
        w' = sentWorld c w v message target k' nextMessage nextTask := by
  have hsize : ¬ w.size ≤ target.index := by
    rw [World.size, hw.size]
    omega
  have hreach : (!w.fault.reaches v target) = false := by rw [hw.reaches hv ht]; rfl
  unfold Step.send
  rw [Attempt.get_bind, if_neg hsize, Attempt.get_bind]
  constructor
  · intro h
    obtain ⟨nextMessage, w₁, h₁, h⟩ := Attempt.bind_ok h
    obtain ⟨hm, rfl⟩ := Step.orOverflow_ok_iff.mp h₁
    rw [Attempt.modify_bind] at h
    obtain ⟨k', w₂, h₂, h⟩ := Attempt.bind_ok h
    obtain ⟨k, hk, hk', rfl⟩ := Step.tick_ok_iff.mp h₂
    rw [Step.record, Attempt.modify_bind, Attempt.get_bind] at h
    simp only [Step.ticked, hreach] at h
    obtain ⟨id, w₃, h₃, h⟩ := Attempt.bind_ok h
    obtain ⟨nextTask, hn, -, -, rfl⟩ := Step.enqueue_ok_iff.mp h₃
    rw [offers_nothing hc] at h
    cases h
    exact ⟨k, k', nextMessage, nextTask, hk, hk', hm, hn, rfl⟩
  · rintro ⟨k, k', nextMessage, nextTask, hk, hk', hm, hn, rfl⟩
    have htick : Step.tick v (.sent w.nextMessage) { w with nextMessage := nextMessage } =
        (.ok k', Step.ticked { w with nextMessage := nextMessage } v (.sent w.nextMessage) k') :=
      Step.tick_ok_iff.mpr ⟨k, hk, hk', rfl⟩
    have henqueue : Step.enqueue target k' (.receive v message w.nextMessage)
        { Step.ticked { w with nextMessage := nextMessage } v (.sent w.nextMessage) k' with
          events := w.events ++ [⟨v, .sent w.nextMessage target (c.protocol.messageText message)⟩] } =
        (.ok w.nextTask, sentWorld c w v message target k' nextMessage nextTask) :=
      Step.enqueue_ok_iff.mpr ⟨nextTask, hn, hw.get?_nextTask, rfl, rfl⟩
    rw [Attempt.bind_of_ok (Step.orOverflow_ok_iff.mpr ⟨hm, rfl⟩), Attempt.modify_bind,
      Attempt.bind_of_ok htick, Step.record, Attempt.modify_bind, Attempt.get_bind]
    simp only [Step.ticked, hreach, Bool.false_eq_true, if_false]
    exact (Attempt.bind_of_ok henqueue).trans (offers_nothing hc _ _ _)

/-- A pending delivery is not ahead of its sender. -/
theorem Calm.sender_le {w : World σ μ} (h : Calm c w) {t : Task μ} (ht : t ∈ w.pending.tasks)
    {s : NodeId} (hs : t.sender? = some s) :
    ∃ k, w.clocks.clocks[s.index]? = some k ∧ t.clock.get s ≤ k.get s := by
  obtain ⟨-, hb⟩ := h.sound t.draft (Multiset.mem_coe.mpr (List.mem_map_of_mem ht))
  rcases t with ⟨id, owner, clock, body⟩
  cases body with
  | receive sender message m =>
    cases hs
    obtain ⟨-, k, hk, hle⟩ := hb
    exact ⟨k, hk, hle⟩
  | _ => cases hs

/-- A sent message is the latest on its link, by number and by clock. -/
theorem calm_sent (hv : v.index < c.size) {w : World σ μ} (hw : Calm c w) {message : μ}
    {target : NodeId} (ht : target.index < c.size) {k k' : Clock} {nextMessage : MessageId}
    {nextTask : TaskId} (hk : w.clocks.clocks[v.index]? = some k) (hk' : k.tick? v = some k')
    (hm : w.nextMessage.next? = some nextMessage) (hn : w.nextTask.next? = some nextTask) :
    Calm c (sentWorld c w v message target k' nextMessage nextTask) := by
  have hlt : v.index < w.clocks.clocks.length := (List.getElem?_eq_some_iff.mp hk).1
  have hnum := MessageId.number_of_next? hm
  have hbefore : ∀ m, m < w.nextMessage → m < nextMessage := fun m hlt' => by
    show m.number < nextMessage.number
    have : m.number < w.nextMessage.number := hlt'
    omega
  have hnumbered : Calm c { w with nextMessage := nextMessage } :=
    { hw with sent := fun t ht m hm => hbefore m (hw.sent t ht m hm) }
  have hticked : Calm c
      { Step.ticked { w with nextMessage := nextMessage } v (.sent w.nextMessage) k' with
        events := w.events ++ [⟨v, .sent w.nextMessage target (c.protocol.messageText message)⟩] } :=
    (calm_clocked hv hnumbered hk (Clock.le_tick hk')).of_core_eq rfl
  refine hticked.enqueued hn ⟨ht, hv, k', ?_, UInt64.le_refl _⟩ (fun m hm => ?_) ?_
  · simp [World.desk, Step.ticked, hlt]
  · cases hm
    show w.nextMessage.number < nextMessage.number
    omega
  · intro s m hs hm u hu m' hus hum
    cases hs
    cases hm
    refine ⟨hw.sent u hu m' hum, ?_⟩
    obtain ⟨k₀, hk₀, hle⟩ := hw.sender_le hu hus
    rw [hk] at hk₀
    cases hk₀
    exact UInt64.lt_of_le_of_lt hle (Clock.get_tick hk')

/-- The drafts of a send: the delivery, if the target is in the cluster. -/
theorem realizes_send (hc : FaultFree c) (hv : v.index < c.size) (message : μ) (target : NodeId)
    (hP : ∀ k, P ⟨target, k, .receive v message ⟨0⟩⟩) :
    Realizes c v P (Step.send c v message target) fun d =>
      if c.size ≤ target.index then some ((), d, [])
      else d.clock.bind fun k => (k.tick? v).map fun k' =>
        let event := Event.sent ⟨0⟩ target (c.protocol.messageText message)
        ((), { d with clock := some k', journal := d.journal ++ [event] },
          [⟨target, k', .receive v message ⟨0⟩⟩]) where
  done w a w' hw h := by
    by_cases ht : c.size ≤ target.index
    · have hsize : w.size ≤ target.index := by rwa [World.size, hw.size]
      rw [Step.send, Attempt.get_bind, if_pos hsize] at h
      cases h
      exact ⟨w.desk v.index, [], if_pos ht, hw, (Net.after_self w.net v.index).symm⟩
    · rw [Nat.not_le] at ht
      obtain ⟨k, k', nextMessage, nextTask, hk, hk', hm, hn, rfl⟩ := (send_ok_iff hc hv hw ht).mp h
      have hclock : (w.desk v.index).clock = some k := hk
      have hlt : v.index < w.clocks.clocks.length := (List.getElem?_eq_some_iff.mp hk).1
      have hnum := MessageId.number_of_next? hm
      refine ⟨_, _, by rw [if_neg (Nat.not_le.mpr ht), hclock, Option.bind_some, hk']; rfl, ?_, ?_⟩
      · exact calm_sent hv hw ht hk hk' hm hn
      · refine World.net_eq_after ?_ (fun j hj => ?_) (pool_enqueued _ _ _ _ _)
          (TaskId.number_of_next? hn) hnum
        · simp [World.desk, sentWorld, Step.enqueued, Step.ticked, hlt, Event.unnumbered]
        · simp [World.desk, sentWorld, Step.enqueued, Step.ticked, Ne.symm hj]
  room w a d posted hw h hroom := by
    by_cases ht : c.size ≤ target.index
    · have hsize : w.size ≤ target.index := by rwa [World.size, hw.size]
      refine ⟨w, ?_⟩
      rw [Step.send, Attempt.get_bind, if_pos hsize]
      rfl
    · rw [if_neg ht] at h
      obtain ⟨k, k', hk, hk', hd⟩ := ticks_eq_some h
      cases hd
      obtain ⟨nextTask, hn⟩ := next?_of_room hroom.1 (Nat.le_refl 1)
      obtain ⟨nextMessage, hm⟩ := next?_of_room hroom.2 (Nat.le_refl 1)
      exact ⟨_, (send_ok_iff hc hv hw (Nat.not_le.mp ht)).mpr ⟨k, k', ⟨nextMessage⟩, ⟨nextTask⟩, hk, hk',
        Option.map_eq_some_iff.mpr ⟨nextMessage, hm, rfl⟩,
        Option.map_eq_some_iff.mpr ⟨nextTask, hn, rfl⟩, rfl⟩⟩
  forward d a d' posted h := by
    by_cases ht : c.size ≤ target.index
    · rw [if_pos ht] at h
      cases h
      exact ⟨.of_clock_eq rfl, fun x hx => by cases hx⟩
    · rw [if_neg ht] at h
      obtain ⟨k, k', hk, hk', hd⟩ := ticks_eq_some h
      cases hd
      refine ⟨forward_post hk hk' rfl rfl ⟨Nat.not_le.mp ht, rfl⟩, fun x hx => ?_⟩
      cases List.mem_singleton.mp hx
      exact hP k'

end

end Interleave
