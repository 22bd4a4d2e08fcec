/-
# The log bounds the counters

An operation may send as many messages as there are nodes, so what all operations
together may count is not bounded by the scenario. But whatever was counted shows in
the log: every message that is sent is recorded, and so is everything else that calls
for a new task. So the estimate of a state is at most a fixed amount for each event
in the log, each node and each operation (`Reaches.estimate_le_events`), since each
request and each change of a task raises it by no more than its events say
(`Request.estimate_le_events`, `Change.estimate_le_events`).

So if a counter overflows (`Reaches.advance_ok_or_overflow_of_keeps`), the scenario
and the log take more than all of memory.
-/
import Interleave.Proofs.Overflow

namespace Interleave

variable {σ μ : Type}

/-- The bytes that the log takes; an event is a text of 24 bytes, a number of 8 and two addresses of
4. -/
def World.bytes (w : World σ μ) : Nat := 40 * w.events.length

/-- The estimate leaves out what handlers send, and all states are proper. -/
structure Contract.Bare (K : Contract σ μ) : Prop where
  message : ∀ message, K.message message = 0
  operation : K.operation = 0
  proper : ∀ v x, K.proper v x

/-- What the task being executed may still add. -/
def Hand.bound (K : Contract σ μ) (h : Hand μ) : Nat :=
  K.load h.tasks +
    match h.duty with
    | .none => 0
    | .fall _ => 4
    | .undo _ body => K.bound body + 2
    | .resume _ => 2

section

variable {K : Contract σ μ} {c : Cluster σ μ} {v : NodeId} {h h' : Hand μ} {w w' : World σ μ}

theorem World.events_recorded (w : World σ μ) (v : NodeId) (e : Event) :
    (w.recorded v e).events.length = w.events.length + 1 := by
  simp [recorded]

theorem Queued.events_eq (h : Queued c v w w') : w'.events = w.events := by
  obtain ⟨a, -, h⟩ := h
  split at h
  · obtain ⟨k, k', next, -, -, -, rfl⟩ := h
    rfl
  · rw [h]

/-- A request raises the estimate by twelve for each of its events at most. -/
theorem Request.estimate_le_events (hK : K.Bare) (h : Request c v w w') :
    w'.estimate K c + 12 * w.events.length ≤
      w.estimate K c + 12 * w'.events.length := by
  cases h with
  | @lose k k' next message target known clock ticks number cut =>
    have hsends : Sends c v message target w _ := .lose known clock ticks number cut
    have hle := hsends.estimate_le (K := K)
    have hevents := World.events_recorded (w.dispatched c v message target k' next) v
      (.lost w.nextMessage target)
    have hsent : (w.dispatched c v message target k' next).events.length = w.events.length + 1 :=
      World.events_recorded _ _ _
    have hsendBound : K.sendBound message = 12 := by rw [Contract.sendBound, hK.message]
    omega
  | @post w₁ k k' next nextTask ids message target known clock ticks number reached place offered =>
    have hsends : Sends c v message target w _ := .post known clock ticks number reached place offered
    have hle := hsends.estimate_le (K := K)
    have hsent : (w₁.attached w.nextMessage ids).events.length = w.events.length + 1 := by
      obtain ⟨candidates, hattached⟩ := World.attached_eq w₁ w.nextMessage ids
      rw [hattached]
      show w₁.events.length = _
      rw [offered.events_eq]
      exact World.events_recorded _ _ _
    have hsendBound : K.sendBound message = 12 := by rw [Contract.sendBound, hK.message]
    omega
  | note text =>
    rw [World.events_recorded]
    show w.estimate K c + _ ≤ _ + 12 * (w.events.length + 1)
    omega
  | @conclude w₁ _ result i real ends queued =>
    have hle := (Concludes.ends ends queued).estimate_le (K := K)
    have hended : w₁.events.length = w.events.length + 1 := by
      obtain ⟨a, rs, -, -, -, -, rfl⟩ := ends
      exact World.events_recorded _ _ _
    rw [queued.events_eq]
    omega
  | @start a agenda =>
    have hsame : { w with agendas := w.agendas.set v.index { a with started := true } }.estimate
        K c = w.estimate K c := World.estimate_started agenda rfl rfl rfl
    rw [hsame]
  | lend x => exact Nat.le_refl _

theorem Contract.load_filter {K : Contract σ μ} (p : Task μ → Bool) (ts : List (Task μ)) :
    K.load (ts.filter p) + K.load (ts.filter fun t => !p t) = K.load ts := by
  have hperm := Contract.load_perm (K := K) (List.filter_append_perm p ts)
  rw [← hperm]
  simp [Contract.load]

/-- What a change adds was in the bound of its task, or is at most twelve for each of its events. -/
theorem Change.estimate_le_events (hK : K.Bare) (hsound : Sound c h w) (change : Change c h w h' w') :
    w'.estimate K c + h'.bound K + 12 * w.events.length ≤
      w.estimate K c + h.bound K + 12 * w'.events.length := by
  have hfree : Hand.free.bound K = 0 := rfl
  cases change with
  | request quiet does =>
    have hle := does.estimate_le_events hK
    omega
  | prune =>
    have hle : w.pruned.estimate K c ≤ w.estimate K c :=
      World.estimate_le_of_sublist w.pruned_sublist rfl rfl
    have hevents : w.pruned.events = w.events := rfl
    rw [hevents]
    omega
  | close v =>
    rw [World.events_recorded]
    show w.estimate K c + _ + _ ≤ _
    omega
  | @withdraw t ts d sender message m _ body =>
    have hle : (w.withdrawn m).estimate K c ≤ w.estimate K c :=
      World.estimate_le_of_sublist (w.withdrawn_sublist m) rfl rfl
    have hevents : (w.withdrawn m).events = w.events := rfl
    rw [hevents]
    omega
  | @lose t ts d sender message m _ body doomed =>
    rw [World.events_recorded]
    show w.estimate K c + _ + _ ≤ _
    simp only [Hand.bound, Contract.load_cons]
    omega
  | @receive t sender message m _ k k' body up reached clock ticks =>
    rw [World.estimate_arrived]
    unfold World.arrived
    rw [World.events_recorded]
    show _ ≤ _ + 12 * (w.events.length + 1)
    omega
  | skip void =>
    omega
  | discard kind =>
    simp only [Hand.bound, Contract.load_cons]
    omega
  | @begin t i next operation a _ body up listed agenda number =>
    obtain ⟨hi, hcurrent⟩ := hsound.booked.waiting body agenda
    have hlt := (List.getElem?_eq_some_iff.mp listed).1
    have hfreed := World.estimate_begun (K := K) operation.text agenda hi hcurrent hlt number
    have hnone := hK.operation
    have hevents : (w.begun t.owner a i next operation.text).events.length = w.events.length + 1 :=
      World.events_recorded _ _ _
    omega
  | @crash t m fault _ body allowed =>
    have hsplit := Contract.load_filter (K := K) (Step.diesWith t.owner m) w.pending.tasks
    have hevents : (w.struck t.owner fault (Step.diesWith t.owner m)).events.length =
        w.events.length + 1 := World.events_recorded _ _ _
    have hbound : (Hand.of t).bound K = 4 := by
      simp [Hand.bound, Hand.of, Contract.load, Contract.bound, body]
    have hstruck : (w.struck t.owner fault (Step.diesWith t.owner m)).estimate K c =
        w.toil + K.load
          (w.pending.tasks.filter fun u => !Step.diesWith t.owner m u) +
            w.agendaBounds K c := rfl
    have hwhole : w.estimate K c = w.toil +
      K.load w.pending.tasks + w.agendaBounds K c := rfl
    have hfalls : (⟨w.pending.tasks.filter (Step.diesWith t.owner m), .fall t.owner⟩ : Hand μ).bound
        K = K.load
          (w.pending.tasks.filter (Step.diesWith t.owner m)) + 4 := rfl
    omega
  | @fall v _ _ stops =>
    have hbound : (⟨[], .fall v⟩ : Hand μ).bound K = 4 ∧
        (⟨[], .undo v .recover⟩ : Hand μ).bound K = 4 := ⟨rfl, rfl⟩
    have hsame : (w.vacated v).estimate K c = w.estimate K c := rfl
    rcases stops with ⟨-, rfl⟩ | ⟨i, ends⟩
    · have hevents : (w.vacated v).events = w.events := rfl
      rw [hevents]
      omega
    · have hended := ends.estimate_eq (K := K) (c := c)
      have hevents : w'.events.length = w.events.length + 1 := by
        obtain ⟨a, rs, -, -, -, -, rfl⟩ := ends
        exact World.events_recorded _ _ _
      omega
  | @undo v body _ _ mends does =>
    have hbound : (⟨[], .undo v body⟩ : Hand μ).bound K =
        0 + (K.bound body + 2) := rfl
    split at does
    · have hscheduled := does.estimate_eq (K := K) (c := c)
      have hevents : w'.events = w.events := by
        obtain ⟨k, k', next, -, -, -, rfl⟩ := does
        rfl
      rw [hevents]
      omega
    · rw [does]
      omega
  | @recover t fault a _ body allowed agenda =>
    have hsame : (w.revived c t.owner fault a).estimate K c = w.estimate K c :=
      World.estimate_started agenda rfl rfl rfl
    have hevents : (w.revived c t.owner fault a).events.length = w.events.length + 1 :=
      World.events_recorded _ _ _
    have hbound : (⟨[], .resume t.owner⟩ : Hand μ).bound K = 2 := rfl
    omega
  | @resume v a _ _ agenda does =>
    have hbound : (⟨[], .resume v⟩ : Hand μ).bound K = 2 := rfl
    split at does
    · have hqueued := does.estimate_le (K := K)
      rw [does.events_eq]
      omega
    · rw [does]
      omega
  | @split t m fault source _ body drawn =>
    rw [World.events_recorded]
    have hbound : (⟨[], .undo t.owner .heal⟩ : Hand μ).bound K = 2 := rfl
    show w.estimate K c + _ + _ ≤ _ + 12 * (w.events.length + 1)
    omega
  | @splitRefused t m source _ body drawn =>
    show w.estimate K c + _ + _ ≤ w.estimate K c + _ + 12 * w.events.length
    omega
  | @heal t fault source _ body drawn =>
    rw [World.events_recorded]
    show w.estimate K c + _ + _ ≤ _ + 12 * (w.events.length + 1)
    omega
  | @healRefused t source _ body drawn =>
    show w.estimate K c + _ + _ ≤ w.estimate K c + _ + 12 * w.events.length
    omega

/-- Sending a message to several nodes adds at most twelve for each of them. -/
theorem Contract.Bare.bounded_sendAll {α : Type} {Q : α → Prop} {message : μ} {a : α} (hK : K.Bare)
    (ha : Q a) : ∀ {targets : List NodeId} {n : Nat}, 12 * targets.length ≤ n →
      (Handler.sendAll message targets (.done a)).Bounded K Q n
  | [], _, _ => ha
  | target :: targets, n, hn => by
    have hsendBound : K.sendBound message = 12 := by rw [Contract.sendBound, hK.message]
    rw [List.length_cons] at hn
    exact ⟨by omega, hK.bounded_sendAll ha (by omega)⟩

end

variable {K : Contract σ μ} {c : Cluster σ μ} {w : World σ μ}

/-- What the counters of a state count and what its pending tasks and operations may add, but for what
they send, is at most a fixed amount for each event in the log, each node and each operation. -/
theorem Reaches.estimate_le_events (hK : K.Bare) (hsize : c.size < UInt32.size)
    (hw : Reaches c (fun _ => False) w) : Sound c .free w ∧
      w.estimate K c ≤ 2 * c.size + 2 * c.scenario.total + 12 * w.events.length := by
  have hfree : Hand.free.bound K = 0 := rfl
  refine hw.keeps (P := fun h w => Sound c h w ∧ w.estimate K c + h.bound K ≤
    2 * c.size + 2 * c.scenario.total + 12 * w.events.length) (fun _ => False.elim) ?_ ?_ ?_ ?_
  · intro w
    refine ⟨.reset hsize w, ?_⟩
    have hstart := World.estimate_reset (K := K) hsize w
    rw [hK.operation] at hstart
    omega
  · rintro w id t pending htake ⟨hsound, hle⟩
    refine ⟨hsound.take htake, ?_⟩
    have hload := Contract.load_perm (K := K) (hsound.numbered.of_take htake).1
    rw [Contract.load_cons] at hload
    have hbound : (Hand.of t).bound K = K.bound t.body + 0 := rfl
    show w.toil + K.load pending.tasks + w.agendaBounds K c + _ ≤ _ + 12 * w.events.length
    unfold World.estimate at hle
    omega
  · rintro h₁ w₁ h₂ w₂ change ⟨hsound, hle⟩
    have hstep := change.estimate_le_events hK hsound
    exact ⟨hsound.change change, by omega⟩
  · exact fun he => he.elim

/-- **No task fails** where handlers return and only operations send, which may add `extra` when they
are started: unless a counter overflows, and then the log, the scenario and the cluster make up more
than there are words. -/
theorem Reaches.advance_ok_or_overflow_of_keeps {extra : Nat}
    (hc : ∀ K : Contract σ μ, K.Bare → c.Keeps K extra) (hsize : c.size < UInt32.size)
    (hw : Reaches c (fun _ => False) w) {t : Task μ} (ht : t ∈ w.pending.tasks) :
    (∃ w', Step.advance c t.id w = (.ok t, w')) ∨
      (UInt64.size ≤ extra + 2 * c.size + 2 * c.scenario.total + 12 * w.events.length ∧
        ∃ w', Step.advance c t.id w = (.error (.panic .overflow), w')) := by
  let K : Contract σ μ := ⟨fun _ => 0, 0, fun _ _ => True,
    extra + 2 * c.size + 2 * c.scenario.total + 12 * w.events.length⟩
  have hK : K.Bare := ⟨fun _ => rfl, rfl, fun _ _ => trivial⟩
  have hcap : K.cap = extra + 2 * c.size + 2 * c.scenario.total + 12 * w.events.length := rfl
  obtain ⟨hsound, hle⟩ := hw.estimate_le_events hK hsize
  have htake := hsound.numbered.take_of_mem ht
  have hspace : HasRoom K c .free extra w := ⟨hsound, fun _ _ _ => trivial, by omega⟩
  have hlength : ∀ v, (c.operations v).length ≤ K.cap := by
    intro v
    have htotal : (c.operations v).length ≤ c.scenario.total := c.scenario.length_of_le v
    omega
  refine (hspace.yields_advance (hc K hK) hlength htake).cases.imp_left ?_
  rintro ⟨u, w', hrun, rfl, -⟩
  exact ⟨w', hrun⟩

end Interleave
