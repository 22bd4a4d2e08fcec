/-
# Steps, one at a time

A step is a function from states to an answer, or an abort, and a state. The
equations below open sequences of steps from the front (`Attempt.bind_ok`,
`Attempt.bind_error`), and the few steps on clocks and pending tasks that everything
else is made of are described exactly: when they succeed, with what answer and in which
state (`Step.tick_ok_iff`, `Step.enqueue_ok_iff`).
-/
import Interleave.Proofs.Clock
import Interleave.World.Execute

namespace Interleave

namespace ClockBank

theorem read_ok_iff {b : ClockBank} {v : NodeId} {k : Clock} :
    b.read v = .ok k ↔ b.clocks[v.index]? = some k := by
  unfold read
  cases b.clocks[v.index]? <;> simp

/-- A node's clock ticks if the node is in the cluster and its count is not at the last word. -/
theorem tick_ok_iff {b b' : ClockBank} {v : NodeId} :
    b.tick v = .ok b' ↔
      ∃ k k', b.clocks[v.index]? = some k ∧ k.tick? v = some k' ∧ b' = ⟨b.clocks.set v.index k'⟩ := by
  unfold tick read
  cases b.clocks[v.index]? with
  | none => simp
  | some k =>
    cases hk : k.tick? v with
    | none => simp [hk]
    | some k' => simp [hk, eq_comm]

theorem merge_ok_iff {b b' : ClockBank} {v : NodeId} {c : Clock} :
    b.merge v c = .ok b' ↔
      ∃ k, b.clocks[v.index]? = some k ∧ b' = ⟨b.clocks.set v.index (k.join c)⟩ := by
  unfold merge read
  cases b.clocks[v.index]? <;> simp [eq_comm]

end ClockBank

/-! ### Sequences -/

/-- A computation on a state of type `S` that may fail. What it changed before it failed stays. -/
abbrev Attempt (S α : Type) := ExceptT Abort (StateM S) α

namespace Attempt

variable {S α β : Type}

theorem bind_apply (s : Attempt S α) (f : α → Attempt S β) (w : S) :
    (s >>= f) w = match s w with
      | (.ok a, w') => f a w'
      | (.error e, w') => (.error e, w') := by
  show StateT.bind s (ExceptT.bindCont f) w = _
  unfold StateT.bind
  rcases s w with ⟨_ | a, w'⟩ <;> rfl

theorem bind_of_ok {s : Attempt S α} {f : α → Attempt S β} {w w' : S} {a : α}
    (h : s w = (.ok a, w')) : (s >>= f) w = f a w' := by
  rw [bind_apply, h]

theorem bind_of_error {s : Attempt S α} {f : α → Attempt S β} {w w' : S} {e : Abort}
    (h : s w = (.error e, w')) : (s >>= f) w = (.error e, w') := by
  rw [bind_apply, h]

/-- A sequence succeeds when both of its parts do. -/
theorem bind_ok {s : Attempt S α} {f : α → Attempt S β} {w w' : S} {b : β}
    (h : (s >>= f) w = (.ok b, w')) : ∃ a w₁, s w = (.ok a, w₁) ∧ f a w₁ = (.ok b, w') := by
  rw [bind_apply] at h
  rcases hs : s w with ⟨e | a, w₁⟩
  · rw [hs] at h
    cases h
  · rw [hs] at h
    exact ⟨a, w₁, rfl, h⟩

/-- A sequence fails when its first part does, or its second part after it. -/
theorem bind_error {s : Attempt S α} {f : α → Attempt S β} {w w' : S} {e : Abort}
    (h : (s >>= f) w = (.error e, w')) :
    s w = (.error e, w') ∨ ∃ a w₁, s w = (.ok a, w₁) ∧ f a w₁ = (.error e, w') := by
  rw [bind_apply] at h
  rcases hs : s w with ⟨e' | a, w₁⟩
  · rw [hs] at h
    cases h
    exact .inl rfl
  · rw [hs] at h
    exact .inr ⟨a, w₁, rfl, h⟩

/-- A sequence fails in its first part, or goes on with its second. -/
theorem bind_cases {s : Attempt S α} {f : α → Attempt S β} {w w' : S} {r : Except Abort β}
    (h : (s >>= f) w = (r, w')) :
    (∃ e, s w = (.error e, w') ∧ r = .error e) ∨ ∃ a w₁, s w = (.ok a, w₁) ∧ f a w₁ = (r, w') := by
  cases r with
  | ok b => exact .inr (bind_ok h)
  | error e => exact (bind_error h).imp_left fun hfirst => ⟨e, hfirst, rfl⟩

theorem pure_apply (a : α) (w : S) : (pure a : Attempt S α) w = (.ok a, w) := rfl

theorem modify_apply (g : S → S) (w : S) : (modify g : Attempt S Unit) w = (.ok (), g w) := rfl

theorem get_bind (f : S → Attempt S β) (w : S) : ((get : Attempt S S) >>= f) w = f w w := rfl

theorem modify_bind (g : S → S) (f : Unit → Attempt S β) (w : S) :
    ((modify g : Attempt S Unit) >>= f) w = f () (g w) := rfl

/-- A property of states that a computation keeps, whether it fails or not. -/
def Keeps (I : S → Prop) (s : Attempt S α) : Prop := ∀ w, I w → I (s w).2

variable {I : S → Prop}

theorem keeps_pure (a : α) : Keeps I (pure a : Attempt S α) := fun _ h => h

theorem keeps_throw (e : Abort) : Keeps I (throw e : Attempt S α) := fun _ h => h

theorem Keeps.bind {s : Attempt S α} {f : α → Attempt S β} (hs : Keeps I s)
    (hf : ∀ a, Keeps I (f a)) : Keeps I (s >>= f) := by
  intro w hw
  have hfirst := hs w hw
  rw [bind_apply]
  rcases hrun : s w with ⟨e | a, w₁⟩
  · rw [hrun] at hfirst
    exact hfirst
  · rw [hrun] at hfirst
    exact hf a w₁ hfirst

/-- What is read off the state satisfies the property. -/
theorem keeps_read {f : S → Attempt S α} (hf : ∀ w, I w → Keeps I (f w)) :
    Keeps I (get >>= f) := fun w hw => hf w hw w hw

theorem keeps_modify {g : S → S} (hg : ∀ w, I w → I (g w)) :
    Keeps I (modify g : Attempt S Unit) := hg

end Attempt

namespace Step

open Attempt

variable {σ μ α β : Type}

/-! ### Failing primitives -/

theorem ofPanic_ok_iff {x : Except Panic α} {a : α} {w w' : World σ μ} :
    (ofPanic x : Step σ μ α) w = (.ok a, w') ↔ x = .ok a ∧ w' = w := by
  constructor
  · intro h
    cases x with
    | ok b => cases h; exact ⟨rfl, rfl⟩
    | error p => cases h
  · rintro ⟨rfl, rfl⟩
    rfl

theorem orOverflow_ok_iff {x : Option α} {a : α} {w w' : World σ μ} :
    (orOverflow x : Step σ μ α) w = (.ok a, w') ↔ x = some a ∧ w' = w := by
  constructor
  · intro h
    cases x with
    | some b => cases h; exact ⟨rfl, rfl⟩
    | none => cases h
  · rintro ⟨rfl, rfl⟩
    rfl

theorem entry_ok_iff {l : List α} {v : NodeId} {a : α} {w w' : World σ μ} :
    (entry l v : Step σ μ α) w = (.ok a, w') ↔ l[v.index]? = some a ∧ w' = w := by
  unfold entry
  constructor
  · intro h
    cases hl : l[v.index]? with
    | some b => rw [hl] at h; cases h; exact ⟨rfl, rfl⟩
    | none => rw [hl] at h; cases h
  · rintro ⟨hl, rfl⟩
    rw [hl]
    rfl

theorem orOverflow_error {x : Option α} {e : Abort} {w w' : World σ μ}
    (h : (orOverflow x : Step σ μ α) w = (.error e, w')) : e = .panic .overflow ∧ w' = w := by
  cases x with
  | some a => cases h
  | none => cases h; exact ⟨rfl, rfl⟩

theorem entry_error {l : List α} {v : NodeId} {e : Abort} {w w' : World σ μ}
    (h : (entry l v : Step σ μ α) w = (.error e, w')) :
    l[v.index]? = none ∧ e = .panic (.outOfBounds l.length v.index) ∧ w' = w := by
  unfold entry at h
  cases hl : l[v.index]? with
  | some a => rw [hl] at h; cases h
  | none => rw [hl] at h; cases h; exact ⟨rfl, rfl, rfl⟩

/-! ### Clocks and pending tasks -/

/-- The state after an event on the clock of node `v` that shows `k` from then on. -/
def ticked (w : World σ μ) (v : NodeId) (cause : Cause) (k : Clock) : World σ μ :=
  { w with clocks := ⟨w.clocks.clocks.set v.index k⟩, ticks := w.ticks ++ [⟨v, cause, k⟩] }

theorem tick_ok_iff {v : NodeId} {cause : Cause} {k' : Clock} {w w' : World σ μ} :
    tick v cause w = (.ok k', w') ↔
      ∃ k, w.clocks.clocks[v.index]? = some k ∧ k.tick? v = some k' ∧ w' = ticked w v cause k' := by
  constructor
  · intro h
    rw [tick, get_bind] at h
    obtain ⟨b, w₁, hb, h₁⟩ := bind_ok h
    obtain ⟨htick, hw₁⟩ := ofPanic_ok_iff.mp hb
    obtain ⟨k, k₁, hk, hk₁, rfl⟩ := ClockBank.tick_ok_iff.mp htick
    rw [modify_bind] at h₁
    obtain ⟨stamp, w₂, hs, h₂⟩ := bind_ok h₁
    obtain ⟨hread, hw₂⟩ := ofPanic_ok_iff.mp hs
    have hlt : v.index < w.clocks.clocks.length := (List.getElem?_eq_some_iff.mp hk).1
    have hstamp : k₁ = stamp := by simpa [hlt] using ClockBank.read_ok_iff.mp hread
    subst hw₁ hw₂ hstamp
    rw [modify_bind, pure_apply] at h₂
    cases h₂
    exact ⟨k, hk, hk₁, rfl⟩
  · rintro ⟨k, hk, hk', rfl⟩
    have hlt : v.index < w.clocks.clocks.length := (List.getElem?_eq_some_iff.mp hk).1
    have htick := ClockBank.tick_ok_iff.mpr ⟨k, k', hk, hk', rfl⟩
    have hread : ClockBank.read ⟨w.clocks.clocks.set v.index k'⟩ v = .ok k' :=
      ClockBank.read_ok_iff.mpr (by simp [hlt])
    rw [tick, get_bind, bind_of_ok (ofPanic_ok_iff.mpr ⟨htick, rfl⟩), modify_bind,
      bind_of_ok (ofPanic_ok_iff.mpr ⟨hread, rfl⟩), modify_bind, pure_apply]
    rfl

/-- The state with a new task under the next number, `next` being the one after it. -/
def enqueued (w : World σ μ) (owner : NodeId) (clock : Clock) (body : Work μ) (next : TaskId) :
    World σ μ :=
  { w with
    nextTask := next
    pending := ⟨Pending.insertSorted ⟨w.nextTask, owner, clock, body⟩ w.pending.tasks⟩ }

theorem enqueue_ok_iff {owner : NodeId} {clock : Clock} {body : Work μ} {id : TaskId}
    {w w' : World σ μ} :
    enqueue owner clock body w = (.ok id, w') ↔
      ∃ next, w.nextTask.next? = some next ∧ w.pending.get? w.nextTask = none ∧ id = w.nextTask ∧
        w' = enqueued w owner clock body next := by
  constructor
  · intro h
    rw [enqueue, get_bind] at h
    obtain ⟨next, w₁, hn, h₁⟩ := bind_ok h
    obtain ⟨hnext, hw₁⟩ := orOverflow_ok_iff.mp hn
    rw [modify_bind, get_bind] at h₁
    obtain ⟨pending, w₂, hp, h₂⟩ := bind_ok h₁
    obtain ⟨hinsert, hw₂⟩ := ofPanic_ok_iff.mp hp
    subst hw₁ hw₂
    rw [modify_bind, pure_apply] at h₂
    unfold Pending.insert at hinsert
    split at hinsert
    · cases hinsert
    · rename_i hg
      cases hinsert
      cases h₂
      exact ⟨next, hnext, hg, rfl, rfl⟩
  · rintro ⟨next, hn, hg, rfl, rfl⟩
    have hp : w.pending.insert ⟨w.nextTask, owner, clock, body⟩ =
        .ok ⟨Pending.insertSorted ⟨w.nextTask, owner, clock, body⟩ w.pending.tasks⟩ := by
      simp [Pending.insert, hg]
    rw [enqueue, get_bind, bind_of_ok (orOverflow_ok_iff.mpr ⟨hn, rfl⟩), modify_bind, get_bind,
      bind_of_ok (ofPanic_ok_iff.mpr ⟨hp, rfl⟩), modify_bind, pure_apply]
    rfl

end Step

end Interleave
