/-
# How far the counters can get

Tasks and messages are numbered and events on clocks are counted by words, and a
task fails where the next word is missing. The estimate of a state (`World.estimate`)
says how far its counters can get: it is what they count so far, a bound for each
pending task (`Contract.bound`), which includes the tasks that this one may make, and
a bound for the operations that each node has not started yet.

Whatever a handler asks for raises the estimate by a known amount at most. Sending
a message raises it by what its delivery and its fault candidates may count
(`Sends.estimate_le`). Concluding an operation does not raise it
(`Concludes.estimate_le`), since the task of the next one was in the estimate from
when the operation was started (`World.estimate_begun`). At the start the estimate is
linear in the nodes and operations of the cluster (`World.estimate_reset`).
-/
import Mathlib.Algebra.BigOperators.Ring.List
import Mathlib.Algebra.Order.BigOperators.Group.List
import Mathlib.Algebra.Order.Group.Nat
import Mathlib.Algebra.Ring.Nat
import Interleave.Proofs.Turn

namespace Interleave

variable {σ μ : Type}

/-! ### Bounds on what is counted -/

/-- How much handlers may add to the counters, and which states are proper for a node. -/
structure Contract (σ μ : Type) where
  /-- What handling a message may add. -/
  message : μ → Nat
  /-- What starting an operation may add. -/
  operation : Nat
  proper : NodeId → σ → Prop
  /-- How far the counters may get. -/
  cap : Nat

namespace Contract

variable (K : Contract σ μ)

/-- What executing a piece of work may add to the counters. Operations are counted with the list they
stand in. -/
def bound : Work μ → Nat
  | .operation _ | .heal => 0
  | .receive _ message _ => K.message message + 1
  | .crash _ => 4
  | .recover | .partition _ => 2

/-- What sending a message may add: its number and the event, its delivery and two fault candidates,
and what these may add. -/
def sendBound (message : μ) : Nat := K.message message + 12

/-- What the rest of `n` operations may add: those not started, and scheduling the next one after the
one in flight. -/
def agendaBound (n : Nat) (a : Agenda) : Nat :=
  (K.operation + 2) * (n - a.next.toNat) + 2 * a.current.toList.length

/-- What executing tasks may add. -/
def load (ts : List (Task μ)) : Nat := (ts.map fun t => K.bound t.body).sum

variable {K} {ts us : List (Task μ)}

theorem load_perm (h : ts.Perm us) : K.load ts = K.load us := (h.map _).sum_eq

theorem load_le (h : ts.Sublist us) : K.load ts ≤ K.load us :=
  (h.map _).sum_le_sum fun _ _ => Nat.zero_le _

theorem load_cons (t : Task μ) : K.load (t :: ts) = K.bound t.body + K.load ts := rfl

end Contract

namespace World

/-- The numbers handed out and the events counted so far. -/
def toil (w : World σ μ) : Nat := w.nextTask.number + w.nextMessage.number + w.ticks.length

def agendaBounds (K : Contract σ μ) (c : Cluster σ μ) (w : World σ μ) : Nat :=
  (w.agendas.mapIdx fun i a => K.agendaBound (c.operations (.ofIndex i)).length a).sum

/-- What the counters count so far and what may still be added. -/
def estimate (K : Contract σ μ) (c : Cluster σ μ) (w : World σ μ) : Nat :=
  w.toil + K.load w.pending.tasks + w.agendaBounds K c

end World

/-! ### What changes do to the estimate -/

theorem sum_set_add {l : List Nat} {i x : Nat} (h : l[i]? = some x) (y : Nat) :
    (l.set i y).sum + x = l.sum + y := by
  induction l generalizing i with
  | nil => cases h
  | cons z l ih =>
    cases i with
    | zero =>
      cases h
      simp only [List.set_cons_zero, List.sum_cons]
      omega
    | succ i =>
      have hrest := ih (i := i) h
      simp only [List.set_cons_succ, List.sum_cons]
      omega

section

variable {K : Contract σ μ} {c : Cluster σ μ} {v : NodeId} {w w' : World σ μ} {a b : Agenda}

/-- Another entry of node `v` changes the bounds of all nodes by that of the node itself. -/
theorem World.agendaBounds_set (ha : w.agendas[v.index]? = some a)
    (hw' : w'.agendas = w.agendas.set v.index b) :
    w'.agendaBounds K c + K.agendaBound (c.operations v).length a =
      w.agendaBounds K c + K.agendaBound (c.operations v).length b := by
  unfold World.agendaBounds
  rw [hw', List.mapIdx_set, NodeId.ofIndex_index]
  refine sum_set_add ?_ _
  rw [List.getElem?_mapIdx, ha, Option.map_some, NodeId.ofIndex_index]

theorem World.estimate_ticked (cause : Cause) (k : Clock) :
    (Step.ticked w v cause k).estimate K c = w.estimate K c + 1 := by
  have hticks : (Step.ticked w v cause k).ticks.length = w.ticks.length + 1 := by simp [Step.ticked]
  unfold World.estimate World.toil
  rw [hticks]
  show _ + K.load w.pending.tasks + w.agendaBounds K c = _
  have hnumbers : (Step.ticked w v cause k).nextTask = w.nextTask ∧
      (Step.ticked w v cause k).nextMessage = w.nextMessage := ⟨rfl, rfl⟩
  rw [hnumbers.1, hnumbers.2]
  omega

theorem World.estimate_enqueued {owner : NodeId} {k : Clock} {body : Work μ} {next : TaskId}
    (hnext : w.nextTask.next? = some next) :
    (Step.enqueued w owner k body next).estimate K c = w.estimate K c + (K.bound body + 1) := by
  have hnumber := TaskId.number_of_next? hnext
  have hload : K.load (Pending.insertSorted ⟨w.nextTask, owner, k, body⟩ w.pending.tasks) =
      K.bound body + K.load w.pending.tasks := Contract.load_perm (Pending.insertSorted_perm _ _)
  show next.number + w.nextMessage.number + w.ticks.length +
    K.load (Pending.insertSorted ⟨w.nextTask, owner, k, body⟩ w.pending.tasks) +
      w.agendaBounds K c = _
  rw [hload, hnumber]
  unfold World.estimate World.toil
  omega

/-- A message is given its number and sent. -/
theorem World.estimate_dispatched {message : μ} {target : NodeId} {k : Clock} {next : MessageId}
    (hnext : w.nextMessage.next? = some next) :
    (w.dispatched c v message target k next).estimate K c = w.estimate K c + 2 := by
  have hnumber := MessageId.number_of_next? hnext
  show (Step.ticked { w with nextMessage := next } v (.sent w.nextMessage) k).estimate K c = _
  rw [World.estimate_ticked]
  show w.nextTask.number + next.number + w.ticks.length + K.load w.pending.tasks +
    w.agendaBounds K c + 1 = _
  rw [hnumber]
  unfold World.estimate World.toil
  omega

theorem World.estimate_arrived {sender : NodeId} {message : μ} {m : MessageId} {k k' : Clock} :
    (w.arrived c v sender message m k k').estimate K c = w.estimate K c + 1 := by
  show (Step.ticked { w with clocks := ⟨w.clocks.clocks.set v.index k⟩ } v (.received m) k').estimate
    K c = _
  rw [World.estimate_ticked]
  rfl

theorem World.estimate_attached (m : MessageId) (ids : List TaskId) :
    (w.attached m ids).estimate K c = w.estimate K c := by
  obtain ⟨candidates, hattached⟩ := World.attached_eq w m ids
  rw [hattached]
  rfl

theorem Offered.estimate_eq {k : Clock} {bodies : List (Work μ)} {ids : List TaskId}
    (h : Offered v k bodies w ids w') :
    w'.estimate K c = w.estimate K c + (bodies.map fun body => K.bound body + 1).sum := by
  induction h with
  | nil => rfl
  | cons number rest ih =>
    rw [ih, World.estimate_enqueued number, List.map_cons, List.sum_cons]
    omega

/-- At most a crash and a partition are offered. -/
theorem World.bounds_offers (m : MessageId) :
    ((w.offers c v m).map fun body => K.bound body + 1).sum ≤ 8 := by
  unfold World.offers
  split <;> split <;> simp [Contract.bound]

/-- All that comes of sending a message stays within its bound. -/
theorem Sends.estimate_le {message : μ} {target : NodeId} (h : Sends c v message target w w') :
    w'.estimate K c ≤ w.estimate K c + K.sendBound message := by
  unfold Contract.sendBound
  cases h with
  | unknown absent => omega
  | @lose k k' next known clock ticks number cut =>
    have hsent : (w.dispatched c v message target k' next).estimate K c = w.estimate K c + 2 :=
      World.estimate_dispatched number
    show (w.dispatched c v message target k' next).estimate K c ≤ _
    omega
  | @post w₁ k k' next nextTask ids known clock ticks number reached place offered =>
    have hplace : (w.dispatched c v message target k' next).nextTask.next? = some nextTask := place
    have hoffers := World.bounds_offers (K := K) (c := c) (v := v) (w := w) w.nextMessage
    rw [World.estimate_attached, offered.estimate_eq, World.estimate_enqueued hplace,
      World.estimate_dispatched number, Contract.bound]
    omega

theorem Scheduled.estimate_eq {body : Work μ} (h : Scheduled v body w w') :
    w'.estimate K c = w.estimate K c + (K.bound body + 2) := by
  obtain ⟨k, k', next, -, -, hnext, rfl⟩ := h
  have hnext' : (Step.ticked w v .work k').nextTask.next? = some next := hnext
  rw [World.estimate_enqueued hnext', World.estimate_ticked]
  omega

theorem Queued.estimate_le (h : Queued c v w w') : w'.estimate K c ≤ w.estimate K c + 2 := by
  obtain ⟨a, -, h⟩ := h
  split at h
  · exact Nat.le_of_eq h.estimate_eq
  · rw [h]
    omega

/-- Only the entry of node `v` changes. -/
theorem World.estimate_set (ha : w.agendas[v.index]? = some a)
    (hagendas : w'.agendas = w.agendas.set v.index b) (htoil : w'.toil = w.toil)
    (hpending : w'.pending = w.pending) :
    w'.estimate K c + K.agendaBound (c.operations v).length a =
      w.estimate K c + K.agendaBound (c.operations v).length b := by
  have hbounds := World.agendaBounds_set (K := K) (c := c) ha hagendas
  unfold World.estimate
  rw [htoil, hpending]
  omega

theorem World.estimate_started (ha : w.agendas[v.index]? = some a)
    (hagendas : w'.agendas = w.agendas.set v.index { a with started := true })
    (htoil : w'.toil = w.toil) (hpending : w'.pending = w.pending) :
    w'.estimate K c = w.estimate K c := by
  have hset := World.estimate_set (K := K) (c := c) ha hagendas htoil hpending
  exact Nat.add_right_cancel hset

/-- The end of an operation leaves room to schedule the next one. -/
theorem Ends.estimate_eq {result : Answer} {i : UInt64} (h : Ends v result i w w') :
    w'.estimate K c + 2 = w.estimate K c := by
  obtain ⟨a, rs, ha, hcurrent, -, -, rfl⟩ := h
  have hagendas : (w.ended v a i rs result).agendas =
      w.agendas.set v.index { a with current := none } := rfl
  have hset := World.estimate_set (K := K) (c := c) ha hagendas rfl rfl
  simp only [Contract.agendaBound, hcurrent, Option.toList_some, Option.toList_none,
    List.length_singleton, List.length_nil] at hset
  omega

theorem Concludes.estimate_le {result : Answer} {ok : Bool} (h : Concludes c v result w ok w') :
    w'.estimate K c ≤ w.estimate K c := by
  cases h with
  | idle idle => exact Nat.le_refl _
  | ends ends queued =>
    have hends := ends.estimate_eq (K := K) (c := c)
    have hqueued := queued.estimate_le (K := K)
    omega

/-- Starting an operation lowers the estimate by what its handler may add. -/
theorem World.estimate_begun {i next : UInt64} (text : String)
    (ha : w.agendas[v.index]? = some a) (hi : a.next = i) (hcurrent : a.current = none)
    (hlisted : i.toNat < (c.operations v).length) (hnext : wordSucc? i = some next) :
    (w.begun v a i next text).estimate K c + K.operation = w.estimate K c := by
  have hagendas : (w.begun v a i next text).agendas =
      w.agendas.set v.index { a with current := some i, next := next } := rfl
  have hset := World.estimate_set (K := K) (c := c) ha hagendas rfl rfl
  have hstep := toNat_of_wordSucc? hnext
  obtain ⟨rest, hrest⟩ : ∃ rest, (c.operations v).length - i.toNat = rest + 1 :=
    ⟨(c.operations v).length - i.toNat - 1, by omega⟩
  have hrest' : (c.operations v).length - next.toNat = rest := by omega
  simp only [Contract.agendaBound, hi, hcurrent, hrest, hrest', Option.toList_some,
    Option.toList_none, List.length_singleton, List.length_nil, Nat.mul_add] at hset
  omega

end

namespace World

variable {K : Contract σ μ} {c : Cluster σ μ} {w w' : World σ μ}

/-- Tasks that go no longer count. -/
theorem estimate_le_of_sublist (hpending : w'.pending.tasks.Sublist w.pending.tasks)
    (htoil : w'.toil = w.toil) (hagendas : w'.agendas = w.agendas) :
    w'.estimate K c ≤ w.estimate K c := by
  have hload := Contract.load_le (K := K) hpending
  unfold estimate agendaBounds
  rw [htoil, hagendas]
  omega

end World

/-! ### The start -/

/-- The bytes that the operations of a scenario take; each is a text and two lists of texts, of 24
bytes apiece. -/
def Scenario.bytes (s : Scenario) : Nat := 72 * s.total

/-- The lists of some nodes are part of all operations. -/
theorem Scenario.sum_length_le (l : List (List Operation)) (n : Nat) :
    ((List.range n).map fun i => (l.getD i []).length).sum ≤ l.flatten.length := by
  induction l generalizing n with
  | nil => simp
  | cons x l ih =>
    cases n with
    | zero => simp
    | succ n =>
      have hrest := ih n
      rw [List.range_succ_eq_map, List.map_cons, List.map_map, List.sum_cons, List.flatten_cons,
        List.length_append]
      exact Nat.add_le_add_left hrest _

theorem Scenario.length_of_le (s : Scenario) (v : NodeId) : (s.of v).length ≤ s.total := by
  refine Nat.le_trans (List.single_le_sum (fun _ _ => Nat.zero_le _) _ ?_)
    (Scenario.sum_length_le s.operations (v.index + 1))
  exact List.mem_map.mpr ⟨v.index, by simp, rfl⟩

/-- Each node counts two at the start, and all operations are to come. -/
theorem World.estimate_reset {K : Contract σ μ} {c : Cluster σ μ} (hsize : c.size < UInt32.size)
    (w : World σ μ) :
    (w.reset c).estimate K c ≤ 2 * c.size + (K.operation + 2) * c.scenario.total := by
  have htoil : (w.reset c).toil = 2 * c.size := by
    have hword : c.size.toUInt64.toNat = c.size :=
      UInt64.toNat_ofNat_of_lt' (by rw [UInt32.size] at hsize; rw [UInt64.size]; omega)
    show c.size.toUInt64.toNat + 0 + ((List.range c.size).map _).length = _
    rw [hword, List.length_map, List.length_range]
    omega
  have hload : K.load (w.reset c).pending.tasks = 0 := by
    show (((List.range c.size).map (World.firstTask c.size)).map
      fun t : Task μ => K.bound t.body).sum = 0
    rw [List.map_map]
    exact List.sum_eq_zero fun n hn => by
      obtain ⟨i, -, rfl⟩ := List.mem_map.mp hn
      rfl
  have hbounds : (w.reset c).agendaBounds K c =
      (K.operation + 2) *
        ((List.range c.size).map fun i => (c.operations (.ofIndex i)).length).sum := by
    have heach : ((List.replicate c.size Agenda.initial).mapIdx fun i a =>
        K.agendaBound (c.operations (.ofIndex i)).length a) =
        (List.range c.size).map fun i => (K.operation + 2) * (c.operations (.ofIndex i)).length := by
      refine List.ext_getElem (by simp) fun i _ _ => ?_
      simp [Contract.agendaBound, Agenda.initial]
    show (List.mapIdx _ (List.replicate c.size Agenda.initial)).sum = _
    rw [heach, List.sum_map_mul_left]
  have hlists : ((List.range c.size).map fun i => (c.operations (.ofIndex i)).length).sum ≤
      c.scenario.total := by
    refine Nat.le_trans (Nat.le_of_eq ?_) (Scenario.sum_length_le c.scenario.operations c.size)
    refine congrArg List.sum (List.map_congr_left fun i hi => ?_)
    have hi := Nat.lt_trans (List.mem_range.mp hi) hsize
    rw [Cluster.operations, Scenario.of, NodeId.index_ofIndex hi]
  unfold World.estimate
  rw [htoil, hload, hbounds]
  have hmul := Nat.mul_le_mul_left (K.operation + 2) hlists
  omega

end Interleave
