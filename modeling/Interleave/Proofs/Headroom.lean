/-
# Steps that the counters have room for

A cluster keeps a contract if every handler returns without an error, leaves its
node in a proper state and adds no more to the counters than the contract says
(`Handler.Bounded`, `Cluster.Keeps`). Then all that runs on behalf of a node succeeds
wherever there is room for what its handler may add, and leaves room for whatever
else there was room for. `Step.Fits` says so of a step, and goes through sequences
like a triple of a program logic, with the room as a resource that is used up.

Numbers, books and stamps are in order: no entry is missing, no number is in use, and
the count of a clock is the number of events. So the one way left for a step to fail
is that a counter is at its last word, and for that there must have been room beyond
the last word. `Step.Yields` leaves that way open.

Key definitions: `Step.Yields`, `Sound`, `HasRoom`, `Handler.Bounded`, `Cluster.Keeps`,
`Cluster.Honours`, `Step.Fits`.
Key theorems: `Step.lasts_send`, `Step.fits_perform`, `Step.fits_runHook`, `Step.fits_answer`,
`Step.fits_wake`.
-/
import Interleave.Proofs.Counters
import Interleave.Proofs.Stamps

namespace Interleave

variable {σ μ α β : Type}

/-! ### Steps that last -/

theorem Clock.exists_tickSlots? : ∀ {s : List UInt64} {i : Nat},
    (s.getD i 0).toNat + 1 < UInt64.size → ∃ s', tickSlots? s i = some s'
  | [], 0, _ => ⟨[1], rfl⟩
  | [], i + 1, _ => by
    obtain ⟨s', hs'⟩ := exists_tickSlots? (s := []) (i := i) (by simp [UInt64.size])
    exact ⟨0 :: s', by rw [tickSlots?, hs', Option.map_some]⟩
  | x :: s, 0, h => by
    obtain ⟨y, hy⟩ := wordSucc?_of_lt (w := x) (by simpa using h)
    exact ⟨y :: s, by rw [tickSlots?, hy, Option.map_some]⟩
  | x :: s, i + 1, h => by
    obtain ⟨s', hs'⟩ := exists_tickSlots? (s := s) (i := i) (by simpa using h)
    exact ⟨x :: s', by rw [tickSlots?, hs', Option.map_some]⟩

/-- A clock counts one more event of node `v` as long as there is a word for it. -/
theorem Clock.exists_tick? {k : Clock} {v : NodeId} (h : (k.get v).toNat + 1 < UInt64.size) :
    ∃ k', k.tick? v = some k' := by
  obtain ⟨s, hs⟩ := exists_tickSlots? h
  exact ⟨⟨s⟩, by rw [tick?, hs, Option.map_some]⟩

/-- A node has counted no more events than there are. -/
theorem Tick.Faithful.get_le {l : List Tick} {clocks : List Clock} {v : NodeId} {k : Clock}
    (h : Faithful l clocks) (hk : clocks[v.index]? = some k) : (k.get v).toNat ≤ l.length := by
  rw [h.counted hk]
  exact List.length_filter_le _ _

theorem TaskId.exists_next? {t : TaskId} (h : t.number + 1 < UInt64.size) :
    ∃ next, t.next? = some next := by
  obtain ⟨x, hx⟩ := wordSucc?_of_lt h
  exact ⟨⟨x⟩, by rw [next?, hx, Option.map_some]⟩

theorem MessageId.exists_next? {m : MessageId} (h : m.number + 1 < UInt64.size) :
    ∃ next, m.next? = some next := by
  obtain ⟨x, hx⟩ := wordSucc?_of_lt h
  exact ⟨⟨x⟩, by rw [next?, hx, Option.map_some]⟩

theorem World.Numbered.get?_nextTask {w : World σ μ} (hw : w.Numbered) :
    w.pending.get? w.nextTask = none := by
  refine List.find?_eq_none.mpr fun t ht hid => ?_
  have hbelow := hw.below t ht
  rw [of_decide_eq_true hid] at hbelow
  exact Nat.lt_irrefl _ hbelow

theorem Offered.number_eq {v : NodeId} {k : Clock} {bodies : List (Work μ)} {ids : List TaskId}
    {w w' : World σ μ} (h : Offered v k bodies w ids w') :
    w'.nextTask.number = w.nextTask.number + bodies.length := by
  induction h with
  | nil => rfl
  | @cons body bodies w w' next ids number rest ih =>
    have hstep := TaskId.number_of_next? number
    have hnext : (Step.enqueued w v k body next).nextTask = next := rfl
    rw [ih, hnext, List.length_cons]
    omega

/-- A counter without a next word is at its last one. -/
theorem size_le_of_none {x : Option α} {n : Nat} (hx : n < UInt64.size → ∃ a, x = some a)
    (hnone : x = none) : UInt64.size ≤ n := by
  refine Nat.le_of_not_lt fun hlt => ?_
  obtain ⟨a, ha⟩ := hx hlt
  rw [hnone] at ha
  cases ha

namespace Step

open Attempt

/-- The step succeeds with a result and a state as `P` says, or a counter is at its last word and
`cap` is beyond that. -/
def Yields (cap : Nat) (P : α → World σ μ → Prop) (s : Step σ μ α) (w : World σ μ) : Prop :=
  match s w with
  | (.ok a, w') => P a w'
  | (.error e, _) => e = .panic .overflow ∧ UInt64.size ≤ cap

/-- The step succeeds, or a counter is at its last word. -/
abbrev Lasts (cap : Nat) (s : Step σ μ α) (w : World σ μ) : Prop := Yields cap (fun _ _ => True) s w

namespace Yields

variable {cap : Nat} {P : α → World σ μ → Prop} {Q : β → World σ μ → Prop} {s : Step σ μ α}
  {w w' : World σ μ}

theorem of_ok {a : α} (h : s w = (.ok a, w')) (hP : P a w') : Yields cap P s w := by
  unfold Yields
  rw [h]
  exact hP

theorem of_overflow (h : s w = (.error (.panic .overflow), w')) (hcap : UInt64.size ≤ cap) :
    Yields cap P s w := by
  unfold Yields
  rw [h]
  exact ⟨rfl, hcap⟩

theorem cases (h : Yields cap P s w) : (∃ a w', s w = (.ok a, w') ∧ P a w') ∨
    (UInt64.size ≤ cap ∧ ∃ w', s w = (.error (.panic .overflow), w')) := by
  unfold Yields at h
  rcases hrun : s w with ⟨e | a, w'⟩
  · rw [hrun] at h
    obtain ⟨rfl, hcap⟩ := h
    exact .inr ⟨hcap, w', rfl⟩
  · rw [hrun] at h
    exact .inl ⟨a, w', rfl, h⟩

theorem of_eq {s' : Step σ μ α} (h : s w = s' w') (hs : Yields cap P s' w') : Yields cap P s w := by
  unfold Yields at hs ⊢
  rwa [h]

/-- The first part of a sequence is known. -/
theorem after {f : α → Step σ μ β} {a : α} (h : s w = (.ok a, w'))
    (hf : Yields cap Q (f a) w') : Yields cap Q (s >>= f) w := of_eq (bind_of_ok h) hf

theorem bind {f : α → Step σ μ β} (hs : Yields cap P s w)
    (hf : ∀ {a w₁}, s w = (.ok a, w₁) → P a w₁ → Yields cap Q (f a) w₁) :
    Yields cap Q (s >>= f) w := by
  rcases hs.cases with ⟨a, w₁, hrun, hP⟩ | ⟨hcap, w₁, hrun⟩
  · exact after hrun (hf hrun hP)
  · exact of_overflow (bind_of_error hrun) hcap

theorem read {f : World σ μ → Step σ μ β} (hf : Yields cap Q (f w) w) :
    Yields cap Q (get >>= f) w := hf

theorem imp {R : α → World σ μ → Prop} (hs : Yields cap P s w)
    (hR : ∀ {a w'}, s w = (.ok a, w') → P a w' → R a w') : Yields cap R s w := by
  rcases hs.cases with ⟨a, w', hrun, hP⟩ | ⟨hcap, w', hrun⟩
  · exact of_ok hrun (hR hrun hP)
  · exact of_overflow hrun hcap

end Yields

section

variable {c : Cluster σ μ} {v : NodeId} {h : Hand μ} {cap : Nat} {w : World σ μ}

theorem yields_orOverflow {x : Option α} {n : Nat} (hx : n < UInt64.size → ∃ a, x = some a)
    (hn : n ≤ cap) :
    Yields cap (fun a w' => x = some a ∧ w' = w) (orOverflow x : Step σ μ α) w := by
  cases x with
  | some a => exact .of_ok rfl ⟨rfl, rfl⟩
  | none => exact .of_overflow rfl (Nat.le_trans (size_le_of_none hx rfl) hn)

theorem lasts_tick {k : Clock} (hk : w.clocks.clocks[v.index]? = some k)
    (hroom : (k.get v).toNat + 1 ≤ cap) (cause : Cause) : Lasts cap (tick v cause) w := by
  cases hk' : k.tick? v with
  | some k' => exact .of_ok (tick_ok_iff.mpr ⟨k, hk, hk', rfl⟩) trivial
  | none =>
    have hfails : tick v cause w = (.error (.panic .overflow), w) := by
      rw [tick, get_bind, ClockBank.tick, ClockBank.read, hk]
      simp only [hk']
      rfl
    exact .of_overflow hfails (Nat.le_trans (size_le_of_none Clock.exists_tick? hk') hroom)

theorem lasts_enqueue (hw : w.Numbered) (hroom : w.nextTask.number + 1 ≤ cap)
    (owner : NodeId) (k : Clock) (body : Work μ) : Lasts cap (enqueue owner k body) w := by
  cases hnext : w.nextTask.next? with
  | some next =>
    exact .of_ok (enqueue_ok_iff.mpr ⟨next, hnext, hw.get?_nextTask, rfl, rfl⟩) trivial
  | none =>
    have hfails : enqueue owner k body w = (.error (.panic .overflow), w) := by
      rw [enqueue, get_bind, hnext]
      rfl
    exact .of_overflow hfails (Nat.le_trans (size_le_of_none TaskId.exists_next? hnext) hroom)

theorem yields_schedule (hw : w.Numbered) (hstamped : Stamped h w)
    (hv : v.index < w.clocks.clocks.length) (hroom : w.toil + 2 ≤ cap) (body : Work μ) :
    Yields cap (fun _ w' => Scheduled v body w w')
      (do let clock ← tick v .work; let _ ← enqueue v clock body) w := by
  unfold World.toil at hroom
  have hk := List.getElem?_eq_getElem hv
  have hcount := hstamped.ledger.faithful.get_le hk
  have hlasts : Lasts cap (do let clock ← tick v .work; let _ ← enqueue v clock body) w := by
    refine (lasts_tick hk (by omega) _).bind fun {k' _} htick _ => ?_
    obtain ⟨k, -, -, rfl⟩ := tick_ok_iff.mp htick
    have hticked : (ticked w v .work k').Numbered := hw.congr rfl rfl rfl
    refine (lasts_enqueue hticked ?_ _ _ _).bind fun _ _ => .of_ok rfl trivial
    show w.nextTask.number + 1 ≤ cap
    omega
  exact hlasts.imp fun hrun _ => scheduled_of_ok hrun

theorem yields_queueNext (hw : w.Numbered) (hstamped : Stamped h w)
    (hclock : v.index < w.clocks.clocks.length) (hagenda : v.index < w.agendas.length)
    (hroom : w.toil + 2 ≤ cap) : Yields cap (fun _ w' => Queued c v w w') (queueNext c v) w := by
  have hlasts : Lasts cap (queueNext c v) w := by
    refine .read (.after (entry_ok_iff.mpr ⟨List.getElem?_eq_getElem hagenda, rfl⟩) ?_)
    split
    · exact (yields_schedule hw hstamped hclock hroom _).imp fun _ _ => trivial
    · exact .of_ok rfl trivial
  exact hlasts.imp fun hrun _ => queueNext_ok hrun

theorem lasts_endCurrent (hw : w.Intact v) (result : Answer) :
    Lasts cap (endCurrent v result) w := by
  obtain ⟨a, ha⟩ : ∃ a, w.agendas[v.index]? = some a := ⟨_, List.getElem?_eq_getElem hw.agenda⟩
  refine .read (.after (entry_ok_iff.mpr ⟨ha, rfl⟩) ?_)
  cases hcurrent : a.current with
  | none => exact .of_ok rfl trivial
  | some i =>
    obtain ⟨rs, hrs, hi⟩ := hw.result a i ha hcurrent
    refine .after rfl (Yields.bind (P := fun _ _ => True) ?_ fun _ _ => .of_ok rfl trivial)
    refine .after rfl (.after (entry_ok_iff.mpr ⟨hrs, rfl⟩) ?_)
    rw [if_pos hi]
    exact .of_ok rfl trivial

theorem lasts_offer (hw : w.Numbered) (hroom : w.nextTask.number + 1 ≤ cap)
    (allowed : Bool) (k : Clock) (body : Work μ) :
    Lasts cap (if allowed then do return [← enqueue v k body] else return [] :
      Step σ μ (List TaskId)) w := by
  cases allowed with
  | false => exact .of_ok rfl trivial
  | true => exact (lasts_enqueue hw hroom v k body).bind fun _ _ => .of_ok rfl trivial

/-- A message in transit needs three numbers at most. -/
theorem lasts_route (hw : w.Numbered) (hroom : w.nextTask.number + 3 ≤ cap)
    (message : μ) (target : NodeId) (id : MessageId) (k : Clock) :
    Lasts cap (route c v message target id k) w := by
  refine .read ?_
  split
  · exact .of_ok rfl trivial
  · refine (lasts_enqueue hw (by omega) target k _).bind fun {_ w₁} henqueue _ => ?_
    obtain ⟨next, hnext, -, -, rfl⟩ := enqueue_ok_iff.mp henqueue
    have hw₁ : (enqueued w target k (.receive v message id) next).Numbered := hw.enqueued hnext
    have hnumber := TaskId.number_of_next? hnext
    have hroom₁ : (enqueued w target k (.receive v message id) next).nextTask.number + 2 ≤ cap := by
      show next.number + 2 ≤ cap
      omega
    refine Yields.bind (s := offerCrash c v k id) (lasts_offer hw₁ (by omega) _ _ _)
      fun {crash w₂} hcrash _ => ?_
    have hfirst := offer_ok hcrash
    have hstep := hfirst.number_eq
    have hroom₂ : w₂.nextTask.number + 1 ≤ cap := by
      split at hstep <;> simp only [List.length_singleton, List.length_nil] at hstep <;> omega
    refine Yields.bind (s := offerPartition c v k id)
      (lasts_offer (hw₁.of_offered hfirst).1 hroom₂ _ _ _) fun _ _ => ?_
    split <;> exact .of_ok rfl trivial

theorem lasts_send (hw : w.Numbered) (hstamped : Stamped h w)
    (hv : v.index < w.clocks.clocks.length) (hroom : w.toil + 3 ≤ cap) (message : μ)
    (target : NodeId) : Lasts cap (send c v message target) w := by
  unfold World.toil at hroom
  rw [send_eq]
  refine .read ?_
  split
  · exact .of_ok rfl trivial
  · have hnumber : w.nextMessage.number + 1 ≤ cap := by omega
    refine .read ((yields_orOverflow MessageId.exists_next? hnumber).bind ?_)
    rintro next w₁ - ⟨hnext, hsame⟩
    rw [hsame]
    have hk := List.getElem?_eq_getElem hv
    have hcount : (w.clocks.clocks[v.index].get v).toNat + 1 ≤ cap := by
      have hle := hstamped.ledger.faithful.get_le hk
      omega
    have hticks : Lasts cap (tick v (.sent w.nextMessage)) { w with nextMessage := next } :=
      lasts_tick (w := { w with nextMessage := next }) hk hcount _
    refine .after rfl (hticks.bind fun {k' _} htick _ => ?_)
    obtain ⟨k, -, -, rfl⟩ := tick_ok_iff.mp htick
    have hsent : (w.dispatched c v message target k' next).Numbered := hw.congr rfl rfl rfl
    refine .after rfl (lasts_route hsent ?_ _ _ _ _)
    show w.nextTask.number + 3 ≤ cap
    omega

end

end Step

/-! ### States with room -/

/-- Numbers, books and stamps are in order. -/
structure Sound (c : Cluster σ μ) (h : Hand μ) (w : World σ μ) : Prop where
  numbered : w.Numbered
  booked : Booked c h w
  stamped : Stamped h w

namespace Sound

variable {c : Cluster σ μ} {v : NodeId} {h h' : Hand μ} {w w' : World σ μ}

theorem change (hw : Sound c h w) (change : Change c h w h' w') : Sound c h' w' :=
  ⟨hw.numbered.change change, hw.booked.change hw.numbered change,
    hw.stamped.change hw.numbered change⟩

theorem changes (hw : Sound c h w) (changes : Changes c h w h' w') : Sound c h' w' :=
  changes.keeps (fun change hw => hw.change change) hw

theorem take (hw : Sound c .free w) {id : TaskId} {t : Task μ} {pending : Pending μ}
    (htake : w.pending.take id = some (t, pending)) :
    Sound c (.of t) { w with pending := pending } := by
  obtain ⟨hperm, hrest⟩ := hw.numbered.of_take htake
  exact ⟨hrest, hw.booked.take hw.numbered htake,
    hw.stamped.less rfl rfl rfl hperm.symm.subset⟩

theorem reset (hsize : c.size < UInt32.size) (w : World σ μ) : Sound c .free (w.reset c) :=
  ⟨World.numbered_reset hsize w, .reset hsize w, .reset hsize w⟩

end Sound

/-- All instances are in a proper state. -/
def Contract.Peopled (K : Contract σ μ) (l : List (Option σ)) : Prop :=
  ∀ v x, l[v.index]? = some (some x) → K.proper v x

theorem Contract.Peopled.set {K : Contract σ μ} {l : List (Option σ)} {v : NodeId} {x : Option σ}
    (hl : K.Peopled l) (hx : ∀ y, x = some y → K.proper v y) : K.Peopled (l.set v.index x) := by
  intro u y hy
  rw [List.getElem?_set] at hy
  split at hy
  · rename_i hindex
    split at hy
    · cases NodeId.index_inj.mp hindex
      exact hx y (Option.some.inj hy)
    · cases hy
  · exact hl u y hy

/-- The state is sound, all instances are proper and there is room for `n` more. -/
structure HasRoom (K : Contract σ μ) (c : Cluster σ μ) (h : Hand μ) (n : Nat) (w : World σ μ) :
    Prop where
  sound : Sound c h w
  peopled : K.Peopled w.instances
  room : w.estimate K c + n ≤ K.cap

namespace HasRoom

variable {K : Contract σ μ} {c : Cluster σ μ} {h : Hand μ} {n m : Nat} {v : NodeId} {w : World σ μ}

theorem mono (hw : HasRoom K c h n w) (hle : m ≤ n) : HasRoom K c h m w :=
  ⟨hw.sound, hw.peopled, Nat.le_trans (Nat.add_le_add_left hle _) hw.room⟩

/-- The instance of node `v` is lent to a handler, or put back. -/
theorem lend {x : Option σ} (hw : HasRoom K c h n w) (quiet : ∀ u, h.duty ≠ .fall u)
    (hx : ∀ y, x = some y → K.proper v y) :
    HasRoom K c h n { w with instances := w.instances.set v.index x } :=
  ⟨hw.sound.change (.request quiet (.lend w x)), hw.peopled.set hx, hw.room⟩

end HasRoom

namespace Handler

/-- The handler returns with a result as `Q` says and adds at most `n` to the counters, however its
requests are answered. -/
def Bounded (K : Contract σ μ) (Q : α → Prop) : Handler μ α → Nat → Prop
  | .done a, _ => Q a
  | .raise _, _ | .hang, _ => False
  | .send message _ rest, n => K.sendBound message ≤ n ∧ rest.Bounded K Q (n - K.sendBound message)
  | .log _ rest, n => rest.Bounded K Q n
  | .complete _ rest, n => ∀ ok, (rest ok).Bounded K Q n
  | .events rest, n => ∀ l, (rest l).Bounded K Q n
  | .logs rest, n => ∀ l, (rest l).Bounded K Q n

end Handler

/-- The handler left its node in a proper state, and without an error. -/
def Contract.Settled {ρ : Type} (K : Contract σ μ) (v : NodeId) (reply : Reply σ ρ) : Prop :=
  K.proper v reply.1 ∧ ∃ a, reply.2 = .ok a

/-- All handlers add no more than they may, where an operation may add `extra` beyond its bound. -/
structure Cluster.Keeps (c : Cluster σ μ) (K : Contract σ μ) (extra : Nat) : Prop where
  spawn : ∀ {v n x}, c.registry.spawn? v n = some x → K.proper v x
  onStart : ∀ {v x}, K.proper v x → (c.protocol.onStart (c.site v) x).Bounded K (K.Settled v) 0
  onOperation : ∀ {v x operation}, K.proper v x → operation ∈ c.operations v →
    (c.protocol.onOperation (c.site v) operation x).Bounded K (K.Settled v) (K.operation + extra)
  onMessage : ∀ {v x message sender}, K.proper v x →
    (c.protocol.onMessage (c.site v) message sender x).Bounded K (K.Settled v) (K.message message)
  onRecovery : ∀ {v x}, K.proper v x →
    (c.protocol.onRecovery (c.site v) x).Bounded K (K.Settled v) 0
  onFinish : ∀ {v x}, K.proper v x → (c.protocol.onFinish (c.site v) x).Bounded K (K.Settled v) 0

/-- All handlers add no more than they may, and the estimate of the start is within the contract. -/
structure Cluster.Honours (c : Cluster σ μ) (K : Contract σ μ) : Prop extends c.Keeps K 0 where
  start : 2 * c.size + (K.operation + 2) * c.scenario.total ≤ K.cap

/-- No node has more operations than may be counted. -/
theorem Cluster.Honours.length_le {c : Cluster σ μ} {K : Contract σ μ} (hc : c.Honours K)
    (v : NodeId) : (c.operations v).length ≤ K.cap := by
  have hle : (c.operations v).length ≤ c.scenario.total := c.scenario.length_of_le v
  have htotal : c.scenario.total ≤ (K.operation + 2) * c.scenario.total :=
    Nat.le_mul_of_pos_left _ (by omega)
  have hstart := hc.start
  omega

namespace Step

open Attempt

/-- Where there is room for `n`, and more, the step succeeds and leaves room for the rest. -/
def Fits (K : Contract σ μ) (c : Cluster σ μ) (h : Hand μ) (n : Nat) (Q : α → Prop)
    (s : Step σ μ α) : Prop :=
  ∀ ⦃w m⦄, HasRoom K c h (n + m) w → Yields K.cap (fun a w' => HasRoom K c h m w' ∧ Q a) s w

section

variable {K : Contract σ μ} {c : Cluster σ μ} {h : Hand μ} {n m : Nat} {v : NodeId}

theorem fits_pure {Q : α → Prop} {a : α} (ha : Q a) : Fits K c h n Q (pure a : Step σ μ α) :=
  fun _ m hw => .of_ok rfl ⟨hw.mono (Nat.le_add_left m n), ha⟩

theorem Fits.bind {Q : α → Prop} {R : β → Prop} {s : Step σ μ α} {f : α → Step σ μ β}
    (hs : Fits K c h n Q s) (hf : ∀ a, Q a → Fits K c h m R (f a)) :
    Fits K c h (n + m) R (s >>= f) := by
  intro w k hw
  rw [Nat.add_assoc] at hw
  exact (hs hw).bind fun _ hfirst => hf _ hfirst.2 hfirst.1

/-- A part that needs no room may come first. -/
theorem Fits.then {Q : α → Prop} {R : β → Prop} {s : Step σ μ α} {f : α → Step σ μ β}
    (hs : Fits K c h 0 Q s) (hf : ∀ a, Q a → Fits K c h n R (f a)) : Fits K c h n R (s >>= f) :=
  Nat.zero_add n ▸ hs.bind hf

/-- A step of requests that leaves the instances alone. -/
theorem Handles.fits {s : Step σ μ α} (hs : Handles c v s) (hcontained : Contained s)
    (quiet : ∀ u, h.duty ≠ .fall u)
    (hlasts : ∀ {w k}, HasRoom K c h (n + k) w → Lasts K.cap s w)
    (hcost : ∀ {w w' a}, s w = (.ok a, w') → w'.estimate K c ≤ w.estimate K c + n) :
    Fits K c h n (fun _ => True) s := by
  intro w k hw
  refine (hlasts hw).imp fun {a w'} hrun _ => ⟨?_, trivial⟩
  have hinstances : w'.instances = w.instances := by
    have hsame := hcontained.instances w
    rwa [hrun] at hsame
  have hle := hcost hrun
  have hestimate := hw.room
  exact ⟨hw.sound.changes (.of_requests quiet (hs.done hrun)), hinstances ▸ hw.peopled, by omega⟩

theorem fits_read {Q : α → Prop} {f : World σ μ → Step σ μ α} (hf : ∀ w, Fits K c h n Q (f w)) :
    Fits K c h n Q (get >>= f) := fun w _ hw => hf w hw

theorem fits_log (quiet : ∀ u, h.duty ≠ .fall u) (text : String) :
    Fits K c h 0 (fun _ => True) (log v text) :=
  (handles_log text).fits (contained_log text) quiet (fun _ => .of_ok rfl trivial) fun hrun => by
    cases hrun
    exact Nat.le_refl _

section

variable (hv : v.index < c.size) (quiet : ∀ u, h.duty ≠ .fall u)

include hv quiet

theorem fits_send (message : μ) (target : NodeId) :
    Fits K c h (K.sendBound message) (fun _ => True) (send c v message target) := by
  refine (handles_send message target).fits (contained_send message target) quiet
    (fun {w k} hw => ?_) fun hrun => (send_ok hrun).estimate_le
  have hestimate := hw.room
  have hlt : v.index < w.clocks.clocks.length := hw.sound.booked.sized.clocks ▸ hv
  refine lasts_send hw.sound.numbered hw.sound.stamped hlt ?_ message target
  unfold World.estimate Contract.sendBound at hestimate
  omega

theorem fits_conclude {result : Answer} (hresult : result ≠ .missing) :
    Fits K c h 0 (fun _ => True) (conclude c v result) := by
  refine (handles_conclude hresult).fits (contained_conclude result) quiet (fun {w k} hw => ?_)
    fun hrun => (conclude_ok hrun).estimate_le
  have hintact := hw.sound.booked.intact hv
  refine (lasts_endCurrent hintact result).bind fun {ended w₁} hend _ => ?_
  rcases endCurrent_ok hend with ⟨rfl, -, -⟩ | ⟨i, rfl, hends⟩
  · exact .of_ok rfl trivial
  · -- The task of the next operation is no longer in the estimate.
    have hfreed := hends.estimate_eq (K := K) (c := c)
    have hestimate := hw.room
    have hsized := hends.sized hw.sound.booked.sized
    have hroom : w₁.toil + 2 ≤ K.cap := by
      have hle : w₁.toil ≤ w₁.estimate K c := by
        unfold World.estimate
        omega
      omega
    exact (yields_queueNext (hw.sound.numbered.ended hends) (hw.sound.stamped.ended hends)
      (hsized.clocks ▸ hv) (hsized.agendas ▸ hv) hroom).bind fun _ _ => .of_ok rfl trivial

theorem fits_perform {Q : α → Prop} (handler : Handler μ α) (hbounded : handler.Bounded K Q n) :
    Fits K c h n Q (perform c v handler) := by
  induction handler generalizing n with
  | done a => exact fits_pure hbounded
  | raise payload => exact hbounded.elim
  | hang => exact hbounded.elim
  | send message target rest ih =>
    obtain ⟨hsendBound, hrest⟩ := hbounded
    have hfits := (fits_send hv quiet message target).bind fun _ _ => ih hrest
    rwa [Nat.add_sub_cancel' hsendBound] at hfits
  | log text rest ih => exact (fits_log quiet text).then fun _ _ => ih hbounded
  | complete value rest ih =>
    exact (fits_conclude hv quiet (resultOf_ne_missing value)).then fun ok _ => ih ok (hbounded ok)
  | events rest ih => exact fits_read fun w => ih _ (hbounded _)
  | logs rest ih => exact fits_read fun w => ih _ (hbounded _)

/-- A handler that adds no more than it may leaves its node in a proper state. -/
theorem fits_onInstance {ρ : Type} {f : Site → σ → Handler μ (Reply σ ρ)}
    (hf : ∀ {x}, K.proper v x → (f (c.site v) x).Bounded K (K.Settled v) n) :
    Fits K c h n (fun answer => ∀ result, answer = some result → ∃ a, result = .ok a)
      (onInstance c v f) := by
  intro w m hw
  refine .read ?_
  cases hstate : w.instances[v.index]?.join with
  | none => exact .of_ok rfl ⟨hw.mono (Nat.le_add_left m n), nofun⟩
  | some x =>
    have hx := hw.peopled v x (Option.join_eq_some_iff.mp hstate)
    have hlent : HasRoom K c h (n + m) { w with instances := w.instances.set v.index none } :=
      hw.lend quiet nofun
    refine .after rfl ((fits_perform hv quiet _ (hf hx) hlent).bind ?_)
    rintro reply w₁ - ⟨hw₁, hproper, a, ha⟩
    have hback : HasRoom K c h m { w₁ with instances := w₁.instances.set v.index (some reply.1) } :=
      hw₁.lend quiet fun y hy => by
        cases hy
        exact hproper
    refine .of_ok rfl ⟨hback, fun result hr => ?_⟩
    cases hr
    exact ⟨a, ha⟩

theorem fits_runHook {f : Site → σ → Handler μ (Reply σ Unit)}
    (hf : ∀ {x}, K.proper v x → (f (c.site v) x).Bounded K (K.Settled v) n) :
    Fits K c h n (fun _ => True) (runHook c v f) := by
  refine (fits_onInstance hv quiet hf).bind (m := 0) fun answer hanswer => ?_
  rcases answer with _ | (e | u)
  · exact fits_pure trivial
  · obtain ⟨a, ha⟩ := hanswer _ rfl
    cases ha
  · exact fits_pure trivial

theorem fits_answer (hc : c.Keeps K n) {operation : Operation} (hlisted : operation ∈ c.operations v) :
    Fits K c h (K.operation + n) (fun _ => True) (answer c v operation) := by
  refine (fits_onInstance hv quiet fun hx => hc.onOperation hx hlisted).bind (m := 0)
    fun answer hanswer => ?_
  rcases answer with _ | (e | completion)
  · exact fits_pure trivial
  · obtain ⟨a, ha⟩ := hanswer _ rfl
    cases ha
  · cases completion with
    | value text => exact (fits_conclude hv quiet (by simp)).then fun _ _ => fits_pure trivial
    | void => exact (fits_conclude hv quiet (by simp)).then fun _ _ => fits_pure trivial
    | later => exact fits_pure trivial

theorem fits_wake (hc : c.Keeps K n) : Fits K c h 0 (fun _ => True) (wake c v) := by
  intro w m hw
  have hlt : v.index < w.agendas.length := hw.sound.booked.sized.agendas ▸ hv
  obtain ⟨a, ha⟩ : ∃ a, w.agendas[v.index]? = some a := ⟨_, List.getElem?_eq_getElem hlt⟩
  refine .read (.after (entry_ok_iff.mpr ⟨ha, rfl⟩) ?_)
  cases hstarted : a.started with
  | true => exact .of_ok rfl ⟨hw.mono (Nat.le_add_left m 0), trivial⟩
  | false =>
    have hwoken : HasRoom K c h (0 + m)
        { w with agendas := w.agendas.set v.index { a with started := true } } := by
      have hsame : { w with agendas := w.agendas.set v.index { a with started := true } }.estimate K c =
          w.estimate K c := World.estimate_started ha rfl rfl rfl
      exact ⟨hw.sound.change (.request quiet (.start ha)), hw.peopled, hsame ▸ hw.room⟩
    exact fits_runHook hv quiet hc.onStart hwoken

end

end

end Step

end Interleave
