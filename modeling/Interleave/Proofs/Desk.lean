/-
# Desks, drafts and nets

What a node's work reads and changes is on the node's own desk: its clock, its
instance, its agenda, its results, its log and the events recorded at it. The
tasks and messages it brings about are numbered by the cluster as a whole, so
the numbers show in which order the nodes worked. With the numbers struck out a
task is a draft, and a state is a net: the desks, a pool of drafts, and how many
numbers were handed out.

A state is calm when no fault ever touched it: then only operations and
deliveries are pending, each under a number of its own, and on a link the
messages are numbered in the order of the sender's clock.

Key definitions: `Draft`, `Desk`, `Net`, `World.net`, `Net.after`,
`Desk.Forward`, `Net.Sound`, `Calm`.
Key theorems: `Net.Sound.after`, `World.net_eq_after`.
-/
import Mathlib.Data.Multiset.AddSub
import Mathlib.Logic.Function.Basic
import Interleave.Proofs.Step

namespace Interleave

variable {σ μ : Type}

/-! ### Striking out numbers -/

/-- The same work with the number of its message struck out. -/
def Work.unnumbered : Work μ → Work μ
  | .receive sender message _ => .receive sender message ⟨0⟩
  | .crash _ => .crash ⟨0⟩
  | .partition _ => .partition ⟨0⟩
  | body => body

/-- The same event with the number of its message struck out. -/
def Event.unnumbered : Event → Event
  | .sent _ target message => .sent ⟨0⟩ target message
  | .received _ sender message => .received ⟨0⟩ sender message
  | .lost _ target => .lost ⟨0⟩ target
  | e => e

/-- A task without its numbers. -/
structure Draft (μ : Type) where
  owner : NodeId
  clock : Clock
  body : Work μ

def Task.draft (t : Task μ) : Draft μ := ⟨t.owner, t.clock, t.body.unnumbered⟩

namespace Draft

def isDelivery (a : Draft μ) : Bool :=
  match a.body with
  | .receive .. => true
  | _ => false

/-- Work that node `v` brings about in a cluster of `n`: an operation of its own, or the delivery
of a message it sent. -/
def PostedBy (n : Nat) (v : NodeId) (a : Draft μ) : Prop :=
  a.owner.index < n ∧
    match a.body with
    | .operation _ => a.owner = v
    | .receive sender _ _ => sender = v
    | _ => False

end Draft

/-! ### Desks -/

/-- All that belongs to one node. A place outside the cluster has an empty desk. -/
structure Desk (σ : Type) where
  clock : Option Clock
  state : Option (Option σ)
  agenda : Option Agenda
  results : Option (List Answer)
  log : Option (List String)
  /-- The events recorded at the node, with their numbers struck out. -/
  journal : List Event

/-- What work on the desk of node `v` does at least, in a cluster of `n`: the clock moves up, and
the posted drafts carry clocks from strictly above the old one up to the new one. -/
structure Desk.Forward (n : Nat) (v : NodeId) (d d' : Desk σ) (posted : List (Draft μ)) : Prop where
  grows : Option.Rel (fun k k' => Clock.le k k' = true) d.clock d'.clock
  posts : ∀ a ∈ posted, ∃ k k', d.clock = some k ∧ d'.clock = some k' ∧
    k.happensBefore a.clock = true ∧ a.clock.le k' = true ∧ a.PostedBy n v

namespace Desk.Forward

variable {n : Nat} {v : NodeId} {d d₁ d₂ : Desk σ} {posted₁ posted₂ : List (Draft μ)}

theorem le (h : Forward n v d d₁ posted₁) {k : Clock} (hk : d.clock = some k) :
    ∃ k₁, d₁.clock = some k₁ ∧ k.le k₁ = true := by
  have hrel := h.grows
  rw [hk] at hrel
  cases hd : d₁.clock with
  | none => rw [hd] at hrel; cases hrel
  | some k₁ =>
    rw [hd] at hrel
    cases hrel with
    | some hle => exact ⟨k₁, rfl, hle⟩

/-- Work that leaves the clock and posts nothing. -/
theorem of_clock_eq (h : d₁.clock = d.clock) : Forward n v d d₁ ([] : List (Draft μ)) where
  grows := by
    rw [h]
    cases d.clock with
    | none => exact .none
    | some k => exact .some k.le_refl
  posts a ha := by cases ha

theorem trans (h₁ : Forward n v d d₁ posted₁) (h₂ : Forward n v d₁ d₂ posted₂) :
    Forward n v d d₂ (posted₁ ++ posted₂) where
  grows := by
    cases hk : d.clock with
    | none =>
      have hrel := h₁.grows
      rw [hk] at hrel
      cases hd₁ : d₁.clock with
      | none => simpa [hd₁] using h₂.grows
      | some k₁ => rw [hd₁] at hrel; cases hrel
    | some k =>
      obtain ⟨k₁, hk₁, hle₁⟩ := h₁.le hk
      obtain ⟨k₂, hk₂, hle₂⟩ := h₂.le hk₁
      rw [hk₂]
      exact .some (Clock.le_trans hle₁ hle₂)
  posts a ha := by
    rcases List.mem_append.mp ha with ha | ha
    · obtain ⟨k, k₁, hk, hk₁, hlt, hle, hby⟩ := h₁.posts a ha
      obtain ⟨k₂, hk₂, hle₂⟩ := h₂.le hk₁
      exact ⟨k, k₂, hk, hk₂, hlt, Clock.le_trans hle hle₂, hby⟩
    · obtain ⟨k₁, k₂, hk₁, hk₂, hlt, hle, hby⟩ := h₂.posts a ha
      have hrel := h₁.grows
      rw [hk₁] at hrel
      cases hk : d.clock with
      | none => rw [hk] at hrel; cases hrel
      | some k =>
        rw [hk] at hrel
        cases hrel with
        | some hle' =>
          exact ⟨k, k₂, rfl, hk₂, Clock.happensBefore_of_le_of_happensBefore hle' hlt, hle, hby⟩

end Desk.Forward

/-! ### Nets -/

/-- A state with the numbers struck out. -/
structure Net (σ μ : Type) where
  desk : Nat → Desk σ
  pool : Multiset (Draft μ)
  /-- How many task numbers were handed out. -/
  tasks : Nat
  /-- How many message numbers were handed out. -/
  messages : Nat

/-- What is on the desk at place `i`. -/
def World.desk (w : World σ μ) (i : Nat) : Desk σ where
  clock := w.clocks.clocks[i]?
  state := w.instances[i]?
  agenda := w.agendas[i]?
  results := w.results[i]?
  log := w.logs[i]?
  journal := (w.events.filter (·.node.index = i)).map fun e => e.event.unnumbered

def World.net (w : World σ μ) : Net σ μ where
  desk := w.desk
  pool := ↑(w.pending.tasks.map Task.draft)
  tasks := w.nextTask.number
  messages := w.nextMessage.number

@[simp] theorem World.net_desk (w : World σ μ) : w.net.desk = w.desk := rfl

namespace Net

/-- The net after work at place `i` that left the desk as `d` and posted drafts. -/
def after (N : Net σ μ) (i : Nat) (d : Desk σ) (posted : List (Draft μ)) : Net σ μ where
  desk := Function.update N.desk i d
  pool := N.pool + ↑posted
  tasks := N.tasks + posted.length
  messages := N.messages + posted.countP Draft.isDelivery

theorem after_self (N : Net σ μ) (i : Nat) : N.after i (N.desk i) [] = N := by
  simp [after]

@[simp] theorem after_desk_self (N : Net σ μ) (i : Nat) (d : Desk σ) (posted : List (Draft μ)) :
    (N.after i d posted).desk i = d := by
  simp [after]

theorem after_after (N : Net σ μ) (i : Nat) (d₁ d₂ : Desk σ) (posted₁ posted₂ : List (Draft μ)) :
    (N.after i d₁ posted₁).after i d₂ posted₂ = N.after i d₂ (posted₁ ++ posted₂) := by
  simp [after, Multiset.add_assoc, Nat.add_assoc, ← Multiset.coe_add]

/-- Whether there are numbers left for these drafts. -/
def Room (N : Net σ μ) (posted : List (Draft μ)) : Prop :=
  N.tasks + posted.length < UInt64.size ∧
    N.messages + posted.countP Draft.isDelivery < UInt64.size

theorem Room.left {N : Net σ μ} {posted₁ posted₂ : List (Draft μ)}
    (h : N.Room (posted₁ ++ posted₂)) : N.Room posted₁ := by
  obtain ⟨h1, h2⟩ := h
  rw [List.length_append] at h1
  rw [List.countP_append] at h2
  exact ⟨by omega, by omega⟩

theorem Room.right {N : Net σ μ} {i : Nat} {d : Desk σ} {posted₁ posted₂ : List (Draft μ)}
    (h : N.Room (posted₁ ++ posted₂)) : (N.after i d posted₁).Room posted₂ := by
  obtain ⟨h1, h2⟩ := h
  rw [List.length_append] at h1
  rw [List.countP_append] at h2
  exact ⟨by simp only [after]; omega, by simp only [after]; omega⟩

end Net

/-- A draft whose node has a clock to show for it: an operation is not ahead of its owner, and a
delivery not ahead of its sender as far as the sender's own events go. -/
def Draft.Grounded (n : Nat) (desk : Nat → Desk σ) (a : Draft μ) : Prop :=
  a.owner.index < n ∧
    match a.body with
    | .operation _ => ∃ k, (desk a.owner.index).clock = some k ∧ a.clock.le k = true
    | .receive sender _ _ =>
      sender.index < n ∧ ∃ k, (desk sender.index).clock = some k ∧ a.clock.get sender ≤ k.get sender
    | _ => False

/-- A net of `n` nodes all of whose drafts are grounded. -/
def Net.Sound (n : Nat) (N : Net σ μ) : Prop := ∀ a ∈ N.pool, a.Grounded n N.desk

/-- Work keeps a net sound. -/
theorem Net.Sound.after {n : Nat} {N : Net σ μ} {v : NodeId} {d : Desk σ} {posted : List (Draft μ)}
    (h : N.Sound n) (hv : v.index < n) (hf : (N.desk v.index).Forward n v d posted) :
    (N.after v.index d posted).Sound n := by
  -- no clock moves down
  have hup : ∀ i k, (N.desk i).clock = some k →
      ∃ k', ((N.after v.index d posted).desk i).clock = some k' ∧ k.le k' = true := by
    intro i k hk
    by_cases hi : i = v.index
    · subst hi
      simpa using hf.le hk
    · exact ⟨k, by simpa [Net.after, hi] using hk, k.le_refl⟩
  intro a ha
  rcases Multiset.mem_add.mp ha with ha | ha
  · obtain ⟨ho, hb⟩ := h a ha
    refine ⟨ho, ?_⟩
    rcases a with ⟨owner, clock, body⟩
    cases body with
    | operation index =>
      obtain ⟨k, hk, hle⟩ := hb
      obtain ⟨k', hk', hle'⟩ := hup _ k hk
      exact ⟨k', hk', Clock.le_trans hle hle'⟩
    | receive sender message id =>
      obtain ⟨hs, k, hk, hle⟩ := hb
      obtain ⟨k', hk', hle'⟩ := hup _ k hk
      exact ⟨hs, k', hk', UInt64.le_trans hle (Clock.get_le_get hle' sender)⟩
    | _ => exact hb
  · obtain ⟨k, k', hk, hk', hlt, hle, ho, hb⟩ := hf.posts a (by simpa using ha)
    refine ⟨ho, ?_⟩
    rcases a with ⟨owner, clock, body⟩
    cases body with
    | operation index =>
      simp only at hb
      subst hb
      exact ⟨k', by simpa using hk', hle⟩
    | receive sender message id =>
      simp only at hb
      subst hb
      exact ⟨hv, k', by simpa using hk', Clock.get_le_get hle sender⟩
    | _ => exact hb

/-- A state seen as a net: one desk changed, and drafts were added. -/
theorem World.net_eq_after {w w' : World σ μ} {i : Nat} {d : Desk σ} {posted : List (Draft μ)}
    (own : w'.desk i = d) (others : ∀ j, j ≠ i → w'.desk j = w.desk j)
    (pool : w'.net.pool = w.net.pool + ↑posted) (tasks : w'.net.tasks = w.net.tasks + posted.length)
    (messages : w'.net.messages = w.net.messages + posted.countP Draft.isDelivery) :
    w'.net = w.net.after i d posted := by
  have hdesk : w'.net.desk = Function.update w.net.desk i d := by
    funext j
    by_cases hj : j = i
    · subst hj
      simpa using own
    · simpa [hj] using others j hj
  unfold Net.after
  rw [← hdesk, ← pool, ← tasks, ← messages]

/-! ### Calm states -/

/-- A state that no fault ever touched. -/
structure Calm (c : Cluster σ μ) (w : World σ μ) : Prop where
  healthy : w.fault = FaultState.healthy c.registry.roles c.config
  bare : w.candidates = []
  size : w.instances.length = c.size
  sound : w.net.Sound c.size
  fresh : ∀ t ∈ w.pending.tasks, t.id < w.nextTask
  distinct : (w.pending.tasks.map Task.id).Nodup
  sent : ∀ t ∈ w.pending.tasks, ∀ m, t.message? = some m → m < w.nextMessage
  /-- On every link the messages are numbered in the order of the sender's clock. -/
  ordered : ∀ t ∈ w.pending.tasks, ∀ u ∈ w.pending.tasks, ∀ s m m', t.sender? = some s →
    u.sender? = some s → t.message? = some m → u.message? = some m' →
    (m < m' ↔ t.clock.get s < u.clock.get s)

/-- What being calm depends on. -/
def World.core (w : World σ μ) :
    FaultState × List (MessageId × List TaskId) × Nat × ClockBank × Pending μ × TaskId × MessageId :=
  (w.fault, w.candidates, w.instances.length, w.clocks, w.pending, w.nextTask, w.nextMessage)

namespace Calm

variable {c : Cluster σ μ} {w w' : World σ μ}

theorem of_core_eq (h : Calm c w) (core : w'.core = w.core) : Calm c w' := by
  simp only [World.core, Prod.mk.injEq] at core
  obtain ⟨fault, candidates, size, clocks, pending, nextTask, nextMessage⟩ := core
  refine ⟨fault.trans h.healthy, candidates.trans h.bare, size.trans h.size, ?_, ?_, ?_, ?_, ?_⟩
  · intro a ha
    have := h.sound a (by simpa [World.net, pending] using ha)
    simpa [Draft.Grounded, World.net, World.desk, clocks] using this
  · rw [pending, nextTask]
    exact h.fresh
  · rw [pending]
    exact h.distinct
  · rw [pending, nextMessage]
    exact h.sent
  · rw [pending]
    exact h.ordered

/-- Without faults nobody is down. -/
theorem isCrashed (h : Calm c w) (v : NodeId) : w.fault.isCrashed v = false := by
  simp [h.healthy, FaultState.isCrashed, FaultState.healthy]

/-- The number to be handed out next is not pending. -/
theorem get?_nextTask (h : Calm c w) : w.pending.get? w.nextTask = none := by
  unfold Pending.get?
  rw [List.find?_eq_none]
  intro t ht hid
  have hlt := h.fresh t ht
  rw [of_decide_eq_true hid] at hlt
  exact Nat.lt_irrefl _ hlt

end Calm

/-! ### Adding a task -/

theorem Pending.insertSorted_perm (t : Task μ) : ∀ l, (insertSorted t l).Perm (t :: l)
  | [] => .refl _
  | u :: l => by
    unfold insertSorted
    split
    · exact .refl _
    · exact ((insertSorted_perm t l).cons u).trans (.swap t u l)

theorem Pending.mem_insertSorted {t u : Task μ} {l : List (Task μ)} :
    u ∈ insertSorted t l ↔ u = t ∨ u ∈ l := by
  rw [(insertSorted_perm t l).mem_iff, List.mem_cons]

theorem TaskId.number_of_next? {t t' : TaskId} (h : t.next? = some t') : t'.number = t.number + 1 := by
  obtain ⟨w, hw, rfl⟩ := Option.map_eq_some_iff.mp h
  exact toNat_of_wordSucc? hw

theorem MessageId.number_of_next? {m m' : MessageId} (h : m.next? = some m') :
    m'.number = m.number + 1 := by
  obtain ⟨w, hw, rfl⟩ := Option.map_eq_some_iff.mp h
  exact toNat_of_wordSucc? hw

/-- A state stays calm when a grounded task is added, a delivery being the latest on its link. -/
theorem Calm.enqueued {c : Cluster σ μ} {w : World σ μ} (h : Calm c w) {owner : NodeId}
    {clock : Clock} {body : Work μ} {next : TaskId} (hnext : w.nextTask.next? = some next)
    (grounded : Draft.Grounded c.size w.desk (Task.draft ⟨w.nextTask, owner, clock, body⟩))
    (sent : ∀ m, Task.message? ⟨w.nextTask, owner, clock, body⟩ = some m → m < w.nextMessage)
    (latest : ∀ s m, Task.sender? ⟨w.nextTask, owner, clock, body⟩ = some s →
      Task.message? ⟨w.nextTask, owner, clock, body⟩ = some m →
      ∀ u ∈ w.pending.tasks, ∀ m', u.sender? = some s → u.message? = some m' →
        m' < m ∧ u.clock.get s < clock.get s) :
    Calm c (Step.enqueued w owner clock body next) := by
  have hnum := TaskId.number_of_next? hnext
  have hmem : ∀ u, u ∈ (Step.enqueued w owner clock body next).pending.tasks →
      u = ⟨w.nextTask, owner, clock, body⟩ ∨ u ∈ w.pending.tasks := fun u =>
    Pending.mem_insertSorted.mp
  refine ⟨h.healthy, h.bare, h.size, ?_, ?_, ?_, ?_, ?_⟩
  · intro a ha
    obtain ⟨u, hu, rfl⟩ := List.mem_map.mp (Multiset.mem_coe.mp ha)
    rcases hmem u hu with rfl | hu
    · exact grounded
    · exact h.sound _ (Multiset.mem_coe.mpr (List.mem_map_of_mem hu))
  · intro u hu
    show u.id.number < next.number
    rcases hmem u hu with rfl | hu
    · rw [hnum]
      exact Nat.lt_succ_self _
    · have : u.id.number < w.nextTask.number := h.fresh u hu
      omega
  · have hperm := (Pending.insertSorted_perm ⟨w.nextTask, owner, clock, body⟩ w.pending.tasks).map
      Task.id
    refine hperm.nodup_iff.mpr (List.nodup_cons.mpr ⟨fun hid => ?_, h.distinct⟩)
    obtain ⟨u, hu, hid⟩ := List.mem_map.mp hid
    have hlt := h.fresh u hu
    rw [hid] at hlt
    exact Nat.lt_irrefl _ hlt
  · intro u hu m hm
    rcases hmem u hu with rfl | hu
    · exact sent m hm
    · exact h.sent u hu m hm
  · intro t ht u hu s m m' hts hus htm hum
    rcases hmem t ht with rfl | ht
    · rcases hmem u hu with rfl | hu
      · rw [htm] at hum
        cases hum
        exact ⟨fun hlt => absurd hlt (Nat.lt_irrefl _), fun hlt => absurd hlt (UInt64.lt_irrefl _)⟩
      · obtain ⟨h1, h2⟩ := latest s m hts htm u hu m' hus hum
        exact ⟨fun hlt => absurd hlt (Nat.lt_asymm h1), fun hlt => absurd hlt (UInt64.lt_asymm h2)⟩
    · rcases hmem u hu with rfl | hu
      · obtain ⟨h1, h2⟩ := latest s m' hus hum t ht m hts htm
        exact ⟨fun _ => h2, fun _ => h1⟩
      · exact h.ordered t ht u hu s m m' hts hus htm hum

end Interleave
