/-
# The books of a node

Every node works through its list of operations one at a time. Its books are
where it stands in the list, the results, the operation tasks waiting to be
executed and the events about operations in the log (`Books`). They agree after every
change, whichever handler, declared error, crash or recovery it comes from
(`Booked.change`): the results are as many as the operations started, the one in
flight is the last of them, the log tells the story of the results, and there is never
more than one operation in flight or waiting. So a result always has its place, and
operations are run in order (`Reaches.operations_in_order`).
-/
import Interleave.Proofs.Reached

namespace Interleave

variable {σ μ : Type}

/-! ### The books of one node -/

/-- Where a node stands in its list of operations, and the results so far. -/
structure Standing where
  current : Option UInt64
  next : UInt64
  results : List Answer

/-- The events about an operation with this result, none of its end if there is no result. -/
def chapter (operations : List Operation) (i : Nat) (result : Answer) : List Event :=
  .started i.toUInt64 ((operations[i]?.map Operation.text).getD "") ::
    if result = .missing then [] else [.finished i.toUInt64 result]

/-- The events about operations with these results: each is started in turn, and finished before
the next one if it has a result. -/
def story (operations : List Operation) (results : List Answer) : List Event :=
  results.zipIdx.flatMap fun r => chapter operations r.2 r.1

theorem story_append (operations : List Operation) (results : List Answer) (result : Answer) :
    story operations (results ++ [result]) =
      story operations results ++ chapter operations results.length result := by
  simp [story, List.zipIdx_append]

/-- The books of a node with these operations agree: where it stands, the operation tasks waiting
and the events about operations. -/
structure Books (operations : List Operation) (s : Standing) (queue : List UInt64)
    (log : List Event) : Prop where
  length : s.results.length = s.next.toNat
  bound : s.next.toNat ≤ operations.length
  flight : ∀ i, s.current = some i → i.toNat + 1 = s.next.toNat ∧
    s.results[i.toNat]? = some .missing
  single : queue.length + s.current.toList.length ≤ 1
  index : ∀ i ∈ queue, i = s.next
  log : log = story operations s.results

namespace Books

variable {operations : List Operation} {s : Standing} {queue queue' : List UInt64}
  {log : List Event} {i : UInt64}

theorem initial {queue : List UInt64} (hlength : queue.length ≤ 1) (hindex : ∀ i ∈ queue, i = 0) :
    Books operations ⟨none, 0, []⟩ queue [] :=
  ⟨rfl, Nat.zero_le _, by simp, by simpa using hlength, hindex, rfl⟩

/-- A waiting operation may be dropped. -/
theorem less (hb : Books operations s queue log) (hqueue : queue'.Subperm queue) :
    Books operations s queue' log where
  length := hb.length
  bound := hb.bound
  flight := hb.flight
  single := by
    have hle := hqueue.length_le
    have hone := hb.single
    omega
  index i hi := hb.index i (hqueue.subset hi)
  log := hb.log

/-- The operation waiting is the next one, and none is in flight. -/
theorem eq_of_mem (hb : Books operations s queue log) (hi : i ∈ queue) :
    i = s.next ∧ queue = [i] ∧ s.current = none := by
  have hone := hb.single
  have hpos : 0 < queue.length := List.length_pos_of_mem hi
  have hlength : queue.length = 1 := by omega
  obtain ⟨j, rfl⟩ := List.length_eq_one_iff.mp hlength
  have hij : i = j := by simpa using hi
  refine ⟨hb.index i hi, by rw [hij], ?_⟩
  cases hcurrent : s.current with
  | none => rfl
  | some k => simp [hcurrent] at hone

theorem queue_eq_nil (hb : Books operations s queue log) (hcurrent : s.current = some i) :
    queue = [] := by
  have hone := hb.single
  rw [hcurrent] at hone
  exact List.length_eq_zero_iff.mp (by simpa using hone)

/-- The operation waiting is started. -/
theorem begin {next : UInt64} {operation : Operation} (hb : Books operations s queue log)
    (hi : i ∈ queue) (hop : operations[i.toNat]? = some operation) (hnext : wordSucc? i = some next) :
    Books operations ⟨some i, next, s.results ++ [.missing]⟩ []
      (log ++ [.started i operation.text]) := by
  obtain ⟨rfl, -, -⟩ := hb.eq_of_mem hi
  have hstep : next.toNat = s.next.toNat + 1 := toNat_of_wordSucc? hnext
  have hlt : s.next.toNat < operations.length := (List.getElem?_eq_some_iff.mp hop).1
  refine ⟨?_, ?_, ?_, by simp, by simp, ?_⟩
  · simp [hb.length, hstep]
  · show next.toNat ≤ operations.length
    omega
  · rintro j ⟨⟩
    refine ⟨hstep.symm, ?_⟩
    rw [← hb.length]
    simp
  · rw [story_append, ← hb.log, hb.length, chapter, hop]
    simp

/-- The operation in flight gets its result. -/
theorem finish {result : Answer} (hb : Books operations s queue log) (hcurrent : s.current = some i)
    (hresult : result ≠ .missing) :
    Books operations ⟨none, s.next, s.results.set i.toNat result⟩ queue
      (log ++ [.finished i result]) := by
  obtain ⟨hlast, hmissing⟩ := hb.flight i hcurrent
  have hlength := hb.length
  -- The operation in flight is the last one that was started.
  obtain ⟨init, hinit⟩ : ∃ init, s.results = init ++ [.missing] ∧ init.length = i.toNat := by
    refine ⟨s.results.take i.toNat, ?_, by simp; omega⟩
    have hdrop : s.results.drop i.toNat = [.missing] := by
      rw [List.drop_eq_getElem_cons (by omega), List.drop_eq_nil_of_le (by omega)]
      rw [List.getElem?_eq_getElem (by omega)] at hmissing
      simpa using hmissing
    rw [← hdrop, List.take_append_drop]
  obtain ⟨hresults, hi⟩ := hinit
  have hset : s.results.set i.toNat result = init ++ [result] := by
    rw [hresults, ← hi]
    simp
  refine ⟨by simpa using hlength, hb.bound, by simp, ?_, hb.index, ?_⟩
  · rw [hb.queue_eq_nil hcurrent]
    simp
  · rw [hset, story_append, hb.log, hresults, story_append, List.append_assoc]
    simp [chapter, hresult, hi]

/-- The next operation waits to be executed. -/
theorem enqueue (hb : Books operations s [] log) (hcurrent : s.current = none) :
    Books operations s [s.next] log :=
  ⟨hb.length, hb.bound, hb.flight, by simp [hcurrent], by simp, hb.log⟩

end Books

/-! ### Who is down -/

namespace FaultState

variable {m m' : FaultState} {v : NodeId}

theorem isCrashed_iff : m.isCrashed v = true ↔ v ∈ m.crashed := by
  simp [isCrashed]

/-- A crash adds its node to those that are down. -/
theorem crashed_of_crash? (h : m.crash? v = some m') : m'.crashed.Perm (v :: m.crashed) ∧
    v ∉ m.crashed := by
  unfold crash? at h
  split at h
  · cases h
  · rename_i hup
    have hnot : v ∉ m.crashed := fun hmem => hup (by simp [isCrashed_iff.mpr hmem])
    split at h
    · cases h
      exact ⟨Ascending.insert_perm hnot, hnot⟩
    · cases h

/-- A recovery takes its node off those that are down. -/
theorem crashed_of_recover? (h : m.recover? v = some m') :
    v ∈ m.crashed ∧ m'.crashed = m.crashed.erase v := by
  unfold recover? at h
  split at h
  · rename_i hdown
    cases h
    exact ⟨isCrashed_iff.mp hdown, rfl⟩
  · cases h

theorem crashed_of_cut? {a b : NodeId} (h : m.cut? a b = some m') : m'.crashed = m.crashed := by
  unfold cut? at h
  split at h
  · cases h
  · split at h
    · cases h
    · split at h
      · cases h
      · dsimp only at h
        split at h <;> cases h
        rfl

theorem crashed_of_restore? {a b : NodeId} (h : m.restore? a b = some m') :
    m'.crashed = m.crashed := by
  unfold restore? at h
  repeat' split at h
  all_goals cases h
  rfl

/-- A partition takes no node down. -/
theorem crashed_of_partition? {s s' : Source} (h : m.partition? s = (some m', s')) :
    m'.crashed = m.crashed := by
  unfold partition? at h
  split at h
  · split at h
    · cases h
    · dsimp only at h
      split at h <;> cases h
      rfl
  · split at h
    · exact crashed_of_cut? (Prod.mk.inj h).1
    · cases h

/-- Healing brings no node back. -/
theorem crashed_of_heal? {s s' : Source} (h : m.heal? s = (some m', s')) :
    m'.crashed = m.crashed := by
  unfold heal? at h
  split at h
  · split at h <;> cases h
    rfl
  · split at h
    · exact crashed_of_restore? (Prod.mk.inj h).1
    · cases h

end FaultState

/-! ### The books of all nodes -/

/-- The operation of node `p` that the task runs. -/
def Task.operationOf? (p : NodeId) (t : Task μ) : Option UInt64 :=
  match t.body with
  | .operation i => if t.owner = p then some i else none
  | _ => none

/-- The operations of node `p` that the tasks run. -/
def runs (p : NodeId) (l : List (Task μ)) : List UInt64 := l.filterMap (Task.operationOf? p)

section

variable {p : NodeId} {l l' : List (Task μ)} {t : Task μ}

theorem runs_append : runs p (l ++ l') = runs p l ++ runs p l' := List.filterMap_append

theorem Task.kind_eq_operation_iff : t.kind = .operation ↔ ∃ i, t.body = .operation i := by
  cases hbody : t.body <;> simp [Task.kind, hbody]

theorem runs_eq_nil (h : ∀ t ∈ l, t.kind ≠ .operation) : runs p l = [] := by
  refine List.filterMap_eq_nil_iff.mpr fun t ht => ?_
  have hkind := h t ht
  cases hbody : t.body <;> simp_all [Task.operationOf?, Task.kind]

theorem runs_subperm (h : l.Subperm l') : (runs p l).Subperm (runs p l') := by
  obtain ⟨l₁, hperm, hsub⟩ := h
  exact ⟨runs p l₁, hperm.filterMap _, hsub.filterMap _⟩

end

/-- The operations of node `p` that are waiting, with those in the hand. -/
def Hand.queue (h : Hand μ) (w : World σ μ) (p : NodeId) : List UInt64 :=
  runs p (h.tasks ++ w.pending.tasks)

def Event.isOperation : Event → Bool
  | .started .. | .finished .. => true
  | _ => false

namespace World

/-- The events about operations at node `p`. -/
def operationLog (w : World σ μ) (p : NodeId) : List Event :=
  (Step.eventsAt w p).filter Event.isOperation

def standing? (w : World σ μ) (p : NodeId) : Option Standing :=
  match w.agendas[p.index]?, w.results[p.index]? with
  | some a, some rs => some ⟨a.current, a.next, rs⟩
  | _, _ => none

variable {w w' : World σ μ} {p v : NodeId}

theorem standing?_eq_some {a : Agenda} {rs : List Answer} (ha : w.agendas[p.index]? = some a)
    (hrs : w.results[p.index]? = some rs) : w.standing? p = some ⟨a.current, a.next, rs⟩ := by
  rw [standing?, ha, hrs]

theorem agenda_of_standing? {a : Agenda} {s : Standing} (ha : w.agendas[p.index]? = some a)
    (hs : w.standing? p = some s) : s.current = a.current ∧ s.next = a.next := by
  rw [standing?, ha] at hs
  cases hrs : w.results[p.index]? with
  | none => rw [hrs] at hs; cases hs
  | some rs => rw [hrs] at hs; cases hs; exact ⟨rfl, rfl⟩

theorem standing?_congr (ha : w'.agendas[p.index]? = w.agendas[p.index]?)
    (hrs : w'.results[p.index]? = w.results[p.index]?) : w'.standing? p = w.standing? p := by
  rw [standing?, ha, hrs]
  rfl

/-- The standing of node `v` after its entries were set. -/
theorem standing?_of_set {a : Agenda} {rs : List Answer} (ha : v.index < w.agendas.length)
    (hrs : v.index < w.results.length) (hagendas : w'.agendas = w.agendas.set v.index a)
    (hresults : w'.results = w.results.set v.index rs) (p : NodeId) :
    w'.standing? p = if p = v then some ⟨a.current, a.next, rs⟩ else w.standing? p := by
  by_cases hp : p = v
  · subst hp
    rw [if_pos rfl]
    exact standing?_eq_some (by simp [hagendas, ha]) (by simp [hresults, hrs])
  · have hne : v.index ≠ p.index := fun heq => hp (NodeId.index_inj.mp heq.symm)
    rw [if_neg hp]
    exact standing?_congr (by simp [hagendas, hne]) (by simp [hresults, hne])

/-- Whether a node was started is not part of its books. -/
theorem standing?_of_start {a : Agenda} (ha : w.agendas[v.index]? = some a)
    (hagendas : w'.agendas = w.agendas.set v.index { a with started := true })
    (hresults : w'.results = w.results) (p : NodeId) : w'.standing? p = w.standing? p := by
  by_cases hp : p = v
  · subst hp
    have hlt : p.index < w.agendas.length := (List.getElem?_eq_some_iff.mp ha).1
    have hset : w'.agendas[p.index]? = some { a with started := true } := by simp [hagendas, hlt]
    unfold standing?
    rw [hset, ha, hresults]
    cases w.results[p.index]? <;> rfl
  · have hne : v.index ≠ p.index := fun heq => hp (NodeId.index_inj.mp heq.symm)
    exact standing?_congr (by simp [hagendas, hne]) (by rw [hresults])

theorem standing?_reset {c : Cluster σ μ} {s : Standing} (hs : (w.reset c).standing? p = some s) :
    s = ⟨none, 0, []⟩ := by
  have hagendas : (w.reset c).agendas = List.replicate c.size Agenda.initial := rfl
  have hresults : (w.reset c).results = List.replicate c.size [] := rfl
  rw [standing?, hagendas, hresults, List.getElem?_replicate, List.getElem?_replicate] at hs
  split_ifs at hs
  cases hs
  rfl

theorem operationLog_recorded (w : World σ μ) (v : NodeId) (e : Event) (p : NodeId) :
    (w.recorded v e).operationLog p =
      w.operationLog p ++ if v = p ∧ e.isOperation = true then [e] else [] := by
  unfold operationLog Step.eventsAt recorded
  by_cases hv : v = p
  · cases he : e.isOperation <;> simp [hv, he]
  · simp [hv]

/-- Events about no operation are not in the log of operations. -/
theorem operationLog_recorded_aside {e : Event} (he : e.isOperation = false) :
    (w.recorded v e).operationLog p = w.operationLog p := by
  rw [operationLog_recorded, he]
  simp

theorem operationLog_dispatched (c : Cluster σ μ) (w : World σ μ) (v : NodeId) (message : μ)
    (target : NodeId) (k : Clock) (next : MessageId) (p : NodeId) :
    (w.dispatched c v message target k next).operationLog p = w.operationLog p := by
  rw [dispatched, operationLog_recorded_aside rfl]
  rfl

/-- One entry a node in every list. -/
structure Sized (c : Cluster σ μ) (w : World σ μ) : Prop where
  clocks : w.clocks.clocks.length = c.size
  agendas : w.agendas.length = c.size
  results : w.results.length = c.size
  instances : w.instances.length = c.size

end World

/-- Node `p` has no operation in flight or waiting. -/
def Vacant (h : Hand μ) (w : World σ μ) (p : NodeId) : Prop :=
  h.queue w p = [] ∧ ∀ s, w.standing? p = some s → s.current = none

/-- The books of node `p` agree. A node that is down has nothing in flight or waiting, once it has
gone down, and neither has one that just came back. -/
structure Kept (c : Cluster σ μ) (h : Hand μ) (w : World σ μ) (p : NodeId) : Prop where
  books : ∀ s, w.standing? p = some s →
    Books (c.operations p) s (h.queue w p) (w.operationLog p)
  down : w.fault.isCrashed p = true → h.duty ≠ .fall p → Vacant h w p
  falling : h.duty = .fall p → runs p w.pending.tasks = []
  resuming : h.duty = .resume p → Vacant h w p ∧ w.fault.isCrashed p = false

/-- The books of all nodes agree. -/
structure Booked (c : Cluster σ μ) (h : Hand μ) (w : World σ μ) : Prop where
  sized : w.Sized c
  owners : ∀ t ∈ h.tasks ++ w.pending.tasks, t.owner.index < c.size
  crashed : w.fault.crashed.Nodup
  kept : ∀ p, Kept c h w p

/-- A change does not concern the books of node `p`; at most an operation waiting is dropped. -/
structure Unmoved (p : NodeId) (h : Hand μ) (w : World σ μ) (h' : Hand μ) (w' : World σ μ) : Prop where
  standing : w'.standing? p = w.standing? p
  log : w'.operationLog p = w.operationLog p
  queue : (h'.queue w' p).Subperm (h.queue w p)
  pending : (runs p w'.pending.tasks).Subperm (runs p w.pending.tasks)
  crashed : w'.fault.isCrashed p = w.fault.isCrashed p
  fall : h'.duty = .fall p ↔ h.duty = .fall p
  resume : h'.duty = .resume p → h.duty = .resume p

section

variable {c : Cluster σ μ} {p v : NodeId} {h h' : Hand μ} {w w' : World σ μ}

theorem Unmoved.vacant (hun : Unmoved p h w h' w') (hv : Vacant h w p) : Vacant h' w' p :=
  ⟨List.subperm_nil.mp (hv.1 ▸ hun.queue), fun s hs => hv.2 s (hun.standing ▸ hs)⟩

theorem Kept.unmoved (hk : Kept c h w p) (hun : Unmoved p h w h' w') : Kept c h' w' p where
  books s hs := hun.log ▸ (hk.books s (hun.standing ▸ hs)).less hun.queue
  down hdown hfall :=
    hun.vacant (hk.down (hun.crashed ▸ hdown) fun heq => hfall (hun.fall.mpr heq))
  falling hfall := List.subperm_nil.mp (hk.falling (hun.fall.mp hfall) ▸ hun.pending)
  resuming hresume := by
    obtain ⟨hvacant, hup⟩ := hk.resuming (hun.resume hresume)
    exact ⟨hun.vacant hvacant, hun.crashed.trans hup⟩

/-- The hand stays, and the books are untouched. -/
theorem Unmoved.of_hand (standing : w'.standing? p = w.standing? p)
    (log : w'.operationLog p = w.operationLog p)
    (pending : (runs p w'.pending.tasks).Subperm (runs p w.pending.tasks))
    (crashed : w'.fault.isCrashed p = w.fault.isCrashed p) : Unmoved p h w h w' where
  standing := standing
  log := log
  queue := by
    rw [Hand.queue, Hand.queue, runs_append, runs_append]
    exact (List.subperm_append_left _).mpr pending
  pending := pending
  crashed := crashed
  fall := .rfl
  resume := id

/-- A task leaves the hand, which has no further duty, and the books are untouched. -/
theorem Unmoved.of_free {t : Task μ} (standing : w'.standing? p = w.standing? p)
    (log : w'.operationLog p = w.operationLog p)
    (pending : (runs p w'.pending.tasks).Subperm (runs p w.pending.tasks))
    (crashed : w'.fault.isCrashed p = w.fault.isCrashed p) : Unmoved p (.of t) w .free w' where
  standing := standing
  log := log
  queue := by
    have hsub : (runs p w.pending.tasks).Sublist (runs p (t :: w.pending.tasks)) :=
      (List.sublist_cons_self _ _).filterMap _
    exact pending.trans hsub.subperm
  pending := pending
  crashed := crashed
  fall := by simp [Hand.free, Hand.of]
  resume hresume := by cases hresume

/-- What a task that node `v` gives itself changes. -/
theorem Scheduled.frame {body : Work μ} (hscheduled : Scheduled v body w w') (hw : w.Numbered)
    (hsized : w.Sized c) : ∃ t : Task μ, t.owner = v ∧ t.body = body ∧ v.index < c.size ∧
      w'.pending.tasks = w.pending.tasks ++ [t] ∧ w'.Sized c ∧ w'.fault = w.fault ∧
      (∀ p, w'.standing? p = w.standing? p) ∧ ∀ p, w'.operationLog p = w.operationLog p := by
  obtain ⟨k, k', next, hk, -, -, rfl⟩ := hscheduled
  have hticked : (Step.ticked w v .work k').Numbered := hw.congr rfl rfl rfl
  have hlt : v.index < c.size := hsized.clocks ▸ (List.getElem?_eq_some_iff.mp hk).1
  refine ⟨⟨w.nextTask, v, k', body⟩, rfl, rfl, hlt, hticked.enqueued_tasks v k' body next, ?_, rfl,
    fun _ => rfl, fun _ => rfl⟩
  exact ⟨by simpa [Step.enqueued, Step.ticked] using hsized.clocks, hsized.agendas, hsized.results,
    hsized.instances⟩

/-- What the end of the operation of node `v` in flight does to the books. -/
theorem Ends.standing? {result : Answer} {i : UInt64} (ends : Ends v result i w w') :
    ∃ s, w.standing? v = some s ∧ s.current = some i ∧
      ∀ p, w'.standing? p =
        if p = v then some ⟨none, s.next, s.results.set i.toNat result⟩ else w.standing? p := by
  obtain ⟨a, rs, ha, hcurrent, hrs, -, rfl⟩ := ends
  have hagendas : (w.ended v a i rs result).agendas =
      w.agendas.set v.index { a with current := none } := rfl
  have hresults : (w.ended v a i rs result).results =
      w.results.set v.index (rs.set i.toNat result) := rfl
  refine ⟨⟨a.current, a.next, rs⟩, World.standing?_eq_some ha hrs, hcurrent, ?_⟩
  exact World.standing?_of_set (List.getElem?_eq_some_iff.mp ha).1
    (List.getElem?_eq_some_iff.mp hrs).1 hagendas hresults

theorem Ends.operationLog {result : Answer} {i : UInt64} (ends : Ends v result i w w')
    (p : NodeId) : w'.operationLog p =
      w.operationLog p ++ if v = p then [.finished i result] else [] := by
  obtain ⟨a, rs, -, -, -, -, rfl⟩ := ends
  rw [World.ended, World.operationLog_recorded]
  simp [Event.isOperation]
  rfl

theorem Ends.sized {result : Answer} {i : UInt64} (ends : Ends v result i w w') (hw : w.Sized c) :
    w'.Sized c := by
  obtain ⟨a, rs, -, -, -, -, rfl⟩ := ends
  exact ⟨hw.clocks, by simpa [World.ended, World.recorded] using hw.agendas,
    by simpa [World.ended, World.recorded] using hw.results, hw.instances⟩

theorem Ends.frame {result : Answer} {i : UInt64} (ends : Ends v result i w w') :
    w'.pending = w.pending ∧ w'.fault = w.fault := by
  obtain ⟨a, rs, -, -, -, -, rfl⟩ := ends
  exact ⟨rfl, rfl⟩

/-- The operation of node `v` in flight ends, and then there is none in flight or waiting. -/
theorem Ends.books {result : Answer} {i : UInt64} (ends : Ends v result i w w')
    (hresult : result ≠ .missing)
    (hbooks : ∀ s, w.standing? v = some s →
      Books (c.operations v) s (h.queue w v) (w.operationLog v)) :
    Vacant h w' v ∧ ∀ s, w'.standing? v = some s →
      Books (c.operations v) s (h.queue w' v) (w'.operationLog v) := by
  obtain ⟨s, hs, hcurrent, hstanding⟩ := ends.standing?
  have hb := hbooks s hs
  have hqueue : h.queue w' v = h.queue w v := by rw [Hand.queue, ends.frame.1]; rfl
  have hnew : w'.standing? v = some ⟨none, s.next, s.results.set i.toNat result⟩ := by
    rw [hstanding, if_pos rfl]
  refine ⟨⟨?_, fun s' hs' => ?_⟩, fun s' hs' => ?_⟩
  · rw [hqueue, hb.queue_eq_nil hcurrent]
  · cases hnew.symm.trans hs'
    rfl
  · cases hnew.symm.trans hs'
    rw [hqueue, ends.operationLog, if_pos rfl]
    exact hb.finish hcurrent hresult

/-- The end of an operation of node `v` does not concern another node. -/
theorem Ends.unmoved {result : Answer} {i : UInt64} (ends : Ends v result i w w') (hp : p ≠ v) :
    Unmoved p h w h w' := by
  obtain ⟨s, -, -, hstanding⟩ := ends.standing?
  obtain ⟨hpending, hfault⟩ := ends.frame
  refine .of_hand ?_ ?_ (by rw [hpending]) (by rw [hfault])
  · rw [hstanding, if_neg hp]
  · rw [ends.operationLog, if_neg (Ne.symm hp), List.append_nil]

namespace Booked

/-- Only the books of node `v` change. -/
theorem update (v : NodeId) (hb : Booked c h w) (hsized : w'.Sized c)
    (howners : ∀ t ∈ h'.tasks ++ w'.pending.tasks, t ∈ h.tasks ++ w.pending.tasks ∨
      t.owner.index < c.size) (hcrashed : w'.fault.crashed.Nodup)
    (hothers : ∀ p, p ≠ v → Unmoved p h w h' w') (hself : Kept c h' w' v) : Booked c h' w' where
  sized := hsized
  owners t ht := (howners t ht).elim (hb.owners t) id
  crashed := hcrashed
  kept p := by
    by_cases hp : p = v
    · exact hp ▸ hself
    · exact (hb.kept p).unmoved (hothers p hp)

/-- No books change. -/
theorem quiet (hb : Booked c h w) (hsized : w'.Sized c)
    (howners : ∀ t ∈ h'.tasks ++ w'.pending.tasks, t ∈ h.tasks ++ w.pending.tasks ∨
      t.owner.index < c.size) (hcrashed : w'.fault.crashed = w.fault.crashed)
    (hall : ∀ p, Unmoved p h w h' w') : Booked c h' w' where
  sized := hsized
  owners t ht := (howners t ht).elim (hb.owners t) id
  crashed := hcrashed ▸ hb.crashed
  kept p := (hb.kept p).unmoved (hall p)

/-- A handler ends the operation in flight. Its node was up, and has nothing left to do. -/
theorem finish {result : Answer} {i : UInt64} (hb : Booked c h w) (quiet : ∀ u, h.duty ≠ .fall u)
    (hresult : result ≠ .missing) (ends : Ends v result i w w') :
    Booked c h w' ∧ Vacant h w' v ∧ w'.fault.isCrashed v = false ∧ h.duty ≠ .resume v := by
  have hk := hb.kept v
  obtain ⟨s, hs, hcurrent, -⟩ := ends.standing?
  -- A node with an operation in flight is neither down nor just coming back.
  have hbusy : ¬ Vacant h w v := fun hvacant => by
    rw [hvacant.2 s hs] at hcurrent
    cases hcurrent
  have hup : w'.fault.isCrashed v = false := by
    rw [ends.frame.2, ← Bool.not_eq_true]
    exact fun hdown => hbusy (hk.down hdown (quiet v))
  have hresume : h.duty ≠ .resume v := fun heq => hbusy (hk.resuming heq).1
  obtain ⟨hvacant, hbooks⟩ := ends.books hresult hk.books
  refine ⟨?_, hvacant, hup, hresume⟩
  refine hb.update v (ends.sized hb.sized) (fun t ht => .inl ?_) (ends.frame.2 ▸ hb.crashed)
    (fun p hp => ends.unmoved hp) ⟨hbooks, fun _ _ => hvacant, ?_, ?_⟩
  · rwa [ends.frame.1] at ht
  · exact fun hfall => absurd hfall (quiet v)
  · exact fun heq => absurd heq hresume

/-- A task is added that runs no operation. -/
theorem scheduled {body : Work μ} (hb : Booked c h w) (hw : w.Numbered)
    (hbody : ∀ i, body ≠ .operation i) (hscheduled : Scheduled v body w w') : Booked c h w' := by
  obtain ⟨t, howner, hbody', hlt, htasks, hsized, hfault, hstanding, hlog⟩ :=
    hscheduled.frame hw hb.sized
  have hruns : ∀ p, runs p w'.pending.tasks = runs p w.pending.tasks := fun p => by
    have hnone : runs p [t] = [] := runs_eq_nil (by simpa [Task.kind_eq_operation_iff, hbody'] using hbody)
    rw [htasks, runs_append, hnone, List.append_nil]
  refine hb.quiet hsized (fun u hu => ?_) (by rw [hfault]) fun p =>
    .of_hand (hstanding p) (hlog p) (by rw [hruns]) (by rw [hfault])
  rw [htasks, ← List.append_assoc] at hu
  rcases List.mem_append.mp hu with hu | hu
  · exact .inl hu
  · cases List.mem_singleton.mp hu
    exact .inr (howner ▸ hlt)

/-- A node that is up and has nothing to do gets its next operation. -/
theorem queued (hb : Booked c h w) (hw : w.Numbered) (hvacant : Vacant h w v)
    (hup : w.fault.isCrashed v = false) (hfall : h.duty ≠ .fall v) (hresume : h.duty ≠ .resume v)
    (hqueued : Queued c v w w') : Booked c h w' := by
  obtain ⟨a, ha, hqueued⟩ := hqueued
  split at hqueued
  · obtain ⟨t, howner, hbody, hlt, htasks, hsized, hfault, hstanding, hlog⟩ :=
      hqueued.frame hw hb.sized
    have hruns : ∀ p, runs p w'.pending.tasks =
        runs p w.pending.tasks ++ if v = p then [a.next] else [] := fun p => by
      rw [htasks, runs_append]
      congr 1
      by_cases hp : v = p <;> simp [runs, Task.operationOf?, hbody, howner, hp]
    refine hb.update v hsized (fun u hu => ?_) (hfault ▸ hb.crashed) (fun p hp => ?_) ?_
    · rw [htasks, ← List.append_assoc] at hu
      rcases List.mem_append.mp hu with hu | hu
      · exact .inl hu
      · cases List.mem_singleton.mp hu
        exact .inr (howner ▸ hlt)
    · refine .of_hand (hstanding p) (hlog p) ?_ (by rw [hfault])
      rw [hruns, if_neg (Ne.symm hp), List.append_nil]
    · have hup' : w'.fault.isCrashed v = false := hfault ▸ hup
      refine ⟨fun s hs => ?_, fun hdown => ?_, fun heq => absurd heq hfall,
        fun heq => absurd heq hresume⟩
      · rw [hstanding] at hs
        have hqueue : h.queue w' v = [s.next] := by
          have hempty := hvacant.1
          rw [Hand.queue, runs_append] at hempty ⊢
          rw [hruns, if_pos rfl, ← List.append_assoc, hempty, (World.agenda_of_standing? ha hs).2]
          rfl
        have hbooks := (hb.kept v).books s hs
        rw [hvacant.1] at hbooks
        rw [hqueue, hlog]
        exact hbooks.enqueue (hvacant.2 s hs)
      · rw [hup'] at hdown
        cases hdown
  · exact hqueued ▸ hb

/-- A message is posted. -/
theorem posted {message : μ} {target : NodeId} {k k' : Clock} {next : MessageId}
    {nextTask : TaskId} {ids : List TaskId} {w₁ : World σ μ} (hb : Booked c h w) (hw : w.Numbered)
    (hknown : target.index < w.size) (hclock : w.clocks.clocks[v.index]? = some k)
    (hplace : w.nextTask.next? = some nextTask)
    (hoffered : Offered v k' (w.offers c v w.nextMessage)
      (Step.enqueued (w.dispatched c v message target k' next) target k'
        (.receive v message w.nextMessage) nextTask) ids w₁) :
    Booked c h (w₁.attached w.nextMessage ids) := by
  obtain ⟨-, new, last, rfl, -, hnew⟩ := hw.of_posted hplace hoffered
  obtain ⟨candidates, hattached⟩ := World.attached_eq _ w.nextMessage ids
  rw [hattached]
  have hlt : v.index < c.size := hb.sized.clocks ▸ (List.getElem?_eq_some_iff.mp hclock).1
  have hnone : ∀ p, runs p ((⟨w.nextTask, target, k', .receive v message w.nextMessage⟩ : Task μ) ::
      new) = [] := fun p => runs_eq_nil fun t ht hkind => by
    rcases List.mem_cons.mp ht with rfl | ht
    · cases hkind
    · have hfault := (hnew t ht).isFault
      rw [hkind] at hfault
      cases hfault
  refine hb.quiet ?_ (fun t ht => ?_) rfl fun p => .of_hand rfl ?_ ?_ rfl
  · exact ⟨by simpa [World.recorded, World.dispatched, Step.ticked] using hb.sized.clocks,
      hb.sized.agendas, hb.sized.results, hb.sized.instances⟩
  · rw [← List.append_assoc] at ht
    rcases List.mem_append.mp ht with ht | ht
    · exact .inl ht
    · right
      rcases List.mem_cons.mp ht with rfl | ht
      · exact hb.sized.instances ▸ hknown
      · exact (hnew t ht).owner ▸ hlt
  · exact World.operationLog_dispatched ..
  · rw [runs_append, hnone, List.append_nil]

/-- Every request of a handler keeps the books. -/
theorem request (hb : Booked c h w) (hw : w.Numbered) (quiet : ∀ u, h.duty ≠ .fall u)
    (request : Request c v w w') : Booked c h w' := by
  have hsized := hb.sized
  cases request with
  | lose message target known clock ticks number cut =>
    refine hb.quiet ?_ (fun t ht => .inl ht) rfl fun p => .of_hand rfl ?_ (.refl _) rfl
    · exact ⟨by simpa [World.recorded, World.dispatched, Step.ticked] using hsized.clocks,
        hsized.agendas, hsized.results, hsized.instances⟩
    · rw [World.operationLog_recorded_aside rfl]
      exact World.operationLog_dispatched ..
  | post message target known clock ticks number reached place offered =>
    exact hb.posted hw known clock place offered
  | note text =>
    refine hb.quiet ⟨hsized.clocks, hsized.agendas, hsized.results, hsized.instances⟩
      (fun t ht => .inl ht) rfl fun p => .of_hand rfl ?_ (.refl _) rfl
    exact World.operationLog_recorded_aside rfl
  | conclude real ends queued =>
    obtain ⟨hb₁, hvacant, hup, hresume⟩ := hb.finish quiet real ends
    exact hb₁.queued (hw.ended ends) hvacant hup (quiet v) hresume queued
  | start agenda =>
    refine hb.quiet ⟨hsized.clocks, by simpa using hsized.agendas, hsized.results, hsized.instances⟩
      (fun t ht => .inl ht) rfl fun p => .of_hand ?_ rfl (.refl _) rfl
    apply World.standing?_of_start agenda <;> rfl
  | lend x =>
    exact hb.quiet ⟨hsized.clocks, hsized.agendas, hsized.results, by simpa using hsized.instances⟩
      (fun t ht => .inl ht) rfl fun p => .of_hand rfl rfl (.refl _) rfl

/-- Fewer tasks are pending. -/
theorem less (hb : Booked c h w) {pending : Pending μ} {candidates : List (MessageId × List TaskId)}
    (hsub : pending.tasks.Sublist w.pending.tasks) :
    Booked c h { w with pending := pending, candidates := candidates } := by
  have hsized := hb.sized
  refine hb.quiet ⟨hsized.clocks, hsized.agendas, hsized.results, hsized.instances⟩
    (fun t ht => .inl ?_) rfl fun p => .of_hand rfl rfl (hsub.filterMap _).subperm rfl
  exact (hsub.append_left h.tasks).subset ht

/-- Nothing that the books are about changes. -/
theorem frame (hb : Booked c h w) (hsized : w'.Sized c) (hpending : w'.pending = w.pending)
    (hcrashed : w'.fault.crashed = w.fault.crashed)
    (hstanding : ∀ p, w'.standing? p = w.standing? p)
    (hlog : ∀ p, w'.operationLog p = w.operationLog p) : Booked c h w' := by
  refine hb.quiet hsized (fun u hu => .inl (hpending ▸ hu)) hcrashed fun p =>
    .of_hand (hstanding p) (hlog p) (by rw [hpending]) ?_
  rw [FaultState.isCrashed, hcrashed]
  rfl

theorem recorded (hb : Booked c h w) (v : NodeId) {e : Event} (he : e.isOperation = false) :
    Booked c h (w.recorded v e) :=
  hb.frame ⟨hb.sized.clocks, hb.sized.agendas, hb.sized.results, hb.sized.instances⟩ rfl rfl
    (fun _ => rfl) fun _ => World.operationLog_recorded_aside he

/-- The network is split or joined, and no node goes down or comes back. -/
theorem faulted (hb : Booked c h w) {source : Source} {fault : FaultState}
    (hcrashed : fault.crashed = w.fault.crashed) :
    Booked c h { w with source := source, fault := fault } :=
  hb.frame ⟨hb.sized.clocks, hb.sized.agendas, hb.sized.results, hb.sized.instances⟩ rfl hcrashed
    (fun _ => rfl) fun _ => rfl

/-- A task leaves the hand. -/
theorem shed {t : Task μ} {ts : List (Task μ)} {d : Duty μ} (hb : Booked c ⟨t :: ts, d⟩ w) :
    Booked c ⟨ts, d⟩ w :=
  hb.quiet hb.sized (fun _ hu => .inl (List.mem_cons_of_mem t hu)) rfl fun _ =>
    ⟨rfl, rfl, ((List.sublist_cons_self t _).filterMap _).subperm, .refl _, rfl, .rfl, id⟩

/-- A duty that is not about operations. -/
theorem duty {d : Duty μ} (hb : Booked c .free w) (hfall : ∀ p, d ≠ .fall p)
    (hresume : ∀ p, d ≠ .resume p) : Booked c ⟨[], d⟩ w :=
  hb.quiet hb.sized (fun _ hu => .inl hu) rfl fun p =>
    ⟨rfl, rfl, .refl _, .refl _, rfl, by simp [Hand.free, hfall p], fun h => absurd h (hresume p)⟩

/-- A task is taken for execution. -/
theorem take (hb : Booked c .free w) (hw : w.Numbered) {id : TaskId} {t : Task μ}
    {pending : Pending μ} (htake : w.pending.take id = some (t, pending)) :
    Booked c (.of t) { w with pending := pending } := by
  have hperm := (hw.of_take htake).1
  have hsized := hb.sized
  refine hb.quiet ⟨hsized.clocks, hsized.agendas, hsized.results, hsized.instances⟩
    (fun u hu => .inl (hperm.symm.subset hu)) rfl fun p => ⟨rfl, rfl, ?_, ?_, rfl, ?_, ?_⟩
  · exact (hperm.symm.filterMap _).subperm
  · exact runs_subperm ((List.sublist_cons_self t pending.tasks).subperm.trans hperm.symm.subperm)
  · simp [Hand.of, Hand.free]
  · simp [Hand.of]

/-- The rest of a task is given up. -/
theorem drop (hb : Booked c h w) (quiet : ∀ u, h.duty ≠ .fall u) : Booked c .free w := by
  refine hb.quiet hb.sized (fun t ht => .inl (List.mem_append_right _ ht)) rfl fun p =>
    ⟨rfl, rfl, ?_, .refl _, rfl, ?_, nofun⟩
  · exact ((List.sublist_append_right h.tasks w.pending.tasks).filterMap _).subperm
  · simpa [Hand.free] using quiet p

/-- An operation is started. -/
theorem begin {t : Task μ} {i next : UInt64} {operation : Operation} {a : Agenda}
    (hb : Booked c (.of t) w) (hbody : t.body = .operation i)
    (hup : w.fault.isCrashed t.owner = false)
    (hlisted : (c.operations t.owner)[i.toNat]? = some operation)
    (ha : w.agendas[t.owner.index]? = some a) (hnext : wordSucc? i = some next) :
    Booked c .free (w.begun t.owner a i next operation.text) := by
  have hsized := hb.sized
  have hlt : t.owner.index < w.agendas.length := (List.getElem?_eq_some_iff.mp ha).1
  have hlt' : t.owner.index < w.results.length := by
    rw [hsized.results, ← hsized.agendas]
    exact hlt
  obtain ⟨rs, hrs⟩ : ∃ rs, w.results[t.owner.index]? = some rs := ⟨_, List.getElem?_eq_getElem hlt'⟩
  have hagendas : (w.begun t.owner a i next operation.text).agendas =
      w.agendas.set t.owner.index { a with current := some i, next := next } := rfl
  have hresults : (w.begun t.owner a i next operation.text).results =
      w.results.set t.owner.index (rs ++ [.missing]) := by
    show w.results.modify t.owner.index (· ++ [.missing]) = _
    rw [List.modify_eq_set_getElem?, hrs]
    rfl
  have hstanding := World.standing?_of_set hlt hlt' hagendas hresults
  have hlog := World.operationLog_recorded { w with
    agendas := w.agendas.set t.owner.index { a with current := some i, next := next }
    results := w.results.modify t.owner.index (· ++ [.missing]) } t.owner
      (.started i operation.text)
  refine hb.update t.owner ?_ (fun u hu => .inl (List.mem_cons_of_mem t hu)) hb.crashed
    (fun p hp => .of_free ?_ ?_ (.refl _) rfl) ?_
  · exact ⟨hsized.clocks, by simpa [World.begun, World.recorded] using hsized.agendas,
      by simpa [World.begun, World.recorded] using hsized.results, hsized.instances⟩
  · rw [hstanding, if_neg hp]
  · refine (hlog p).trans ?_
    rw [if_neg fun heq => hp heq.1.symm, List.append_nil]
    rfl
  · -- The operation that was waiting is now in flight, and no other one waits.
    have hqueue : (Hand.of t).queue w t.owner = i :: runs t.owner w.pending.tasks := by
      simp [Hand.queue, Hand.of, runs, Task.operationOf?, hbody]
    have hbooks := (hb.kept t.owner).books _ (World.standing?_eq_some ha hrs)
    rw [hqueue] at hbooks
    obtain ⟨-, hsingle, -⟩ := hbooks.eq_of_mem List.mem_cons_self
    have hnone : runs t.owner w.pending.tasks = [] := by simpa using hsingle
    refine ⟨fun s hs => ?_, fun hdown => ?_, (fun hduty => by cases hduty),
      fun hduty => by cases hduty⟩
    · rw [hstanding, if_pos rfl] at hs
      cases hs
      have hlog' : (w.begun t.owner a i next operation.text).operationLog t.owner =
          w.operationLog t.owner ++ [.started i operation.text] := (hlog t.owner).trans (by
            rw [if_pos ⟨rfl, rfl⟩]
            rfl)
      have hqueue' : Hand.free.queue (w.begun t.owner a i next operation.text) t.owner = [] := hnone
      rw [hlog', hqueue']
      exact hbooks.begin List.mem_cons_self hlisted hnext
    · have hup' : (w.begun t.owner a i next operation.text).fault.isCrashed t.owner = false := hup
      rw [hup'] at hdown
      cases hdown

/-- A node goes down, and its waiting operation with it. -/
theorem crash {t : Task μ} {fault : FaultState} (hb : Booked c (.of t) w) (m : MessageId)
    (hallowed : w.fault.crash? t.owner = some fault) :
    Booked c ⟨w.pending.tasks.filter (Step.diesWith t.owner m), .fall t.owner⟩
      (w.struck t.owner fault (Step.diesWith t.owner m)) := by
  have hsized := hb.sized
  obtain ⟨hcrashed, hnot⟩ := FaultState.crashed_of_crash? hallowed
  have hsplit := List.filter_append_perm (Step.diesWith t.owner m) w.pending.tasks
  have hqueue : ∀ p, (runs p (w.pending.tasks.filter (Step.diesWith t.owner m) ++
      w.pending.tasks.filter fun u => !Step.diesWith t.owner m u)).Subperm
        ((Hand.of t).queue w p) := fun p =>
    (hsplit.filterMap _).subperm.trans
      ((List.sublist_cons_self t w.pending.tasks).filterMap _).subperm
  refine hb.update t.owner ⟨hsized.clocks, hsized.agendas, hsized.results, hsized.instances⟩
    (fun u hu => .inl (List.mem_cons_of_mem t (hsplit.subset hu)))
    (hcrashed.nodup_iff.mpr (List.nodup_cons.mpr ⟨hnot, hb.crashed⟩)) (fun p hp => ?_) ?_
  · refine ⟨rfl, World.operationLog_recorded_aside rfl, hqueue p, ?_, ?_, ?_,
      fun hduty => by cases hduty⟩
    · exact (List.filter_sublist.filterMap _).subperm
    · rw [Bool.eq_iff_iff, FaultState.isCrashed_iff, FaultState.isCrashed_iff]
      have hmem : p ∈ fault.crashed ↔ p ∈ w.fault.crashed := by
        rw [hcrashed.mem_iff, List.mem_cons]
        simp [hp]
      exact hmem
    · simp [Hand.of, Ne.symm hp]
  · refine ⟨fun s hs => ?_, fun _ hfall => absurd rfl hfall, fun _ => ?_,
      fun hduty => by cases hduty⟩
    · have hlog : (w.struck t.owner fault (Step.diesWith t.owner m)).operationLog t.owner =
          w.operationLog t.owner := World.operationLog_recorded_aside rfl
      rw [hlog]
      exact ((hb.kept t.owner).books s hs).less (hqueue t.owner)
    · refine List.filterMap_eq_nil_iff.mpr fun u hu => ?_
      have hstays : Step.diesWith t.owner m u = false := by simpa using (List.mem_filter.mp hu).2
      cases hbody : u.body with
      | operation i =>
        have howner : u.owner ≠ t.owner := fun heq => by
          simp [Step.diesWith, heq, Task.kind, hbody] at hstays
        simp [Task.operationOf?, hbody, howner]
      | _ => simp [Task.operationOf?, hbody]

/-- A node has gone down: its operation in flight ended with it. -/
theorem fall (hb : Booked c ⟨[], .fall v⟩ w)
    (stops : (w.Idle v ∧ w' = w.vacated v) ∨ ∃ i, Ends v .crashed i (w.vacated v) w') :
    Booked c ⟨[], .undo v .recover⟩ w' := by
  have hsized : (w.vacated v).Sized c := ⟨hb.sized.clocks, hb.sized.agendas, hb.sized.results,
    by simpa [World.vacated] using hb.sized.instances⟩
  have hnone := (hb.kept v).falling rfl
  -- Another node does not notice that the duty is done.
  have hduty : ∀ {p w₁}, p ≠ v → Unmoved p ⟨[], .fall v⟩ (w.vacated v) ⟨[], .fall v⟩ w₁ →
      Unmoved p ⟨[], .fall v⟩ w ⟨[], .undo v .recover⟩ w₁ := fun {p w₁} hp hun =>
    ⟨hun.standing, hun.log, hun.queue, hun.pending, hun.crashed, by simp [Ne.symm hp],
      nofun⟩
  rcases stops with ⟨⟨a, ha, hcurrent⟩, rfl⟩ | ⟨i, ends⟩
  · refine hb.update v hsized (fun t ht => .inl ht) hb.crashed
      (fun p hp => hduty hp (.of_hand rfl rfl (.refl _) rfl))
      ⟨(hb.kept v).books, fun _ _ => ⟨hnone, fun s hs => ?_⟩, nofun, nofun⟩
    exact (World.agenda_of_standing? ha hs).1.trans hcurrent
  · obtain ⟨hvacant, hbooks⟩ := Ends.books (h := ⟨[], .undo v .recover⟩) ends (by simp)
      (hb.kept v).books
    exact hb.update v (ends.sized hsized) (fun t ht => .inl (by rwa [ends.frame.1] at ht))
      (ends.frame.2 ▸ hb.crashed) (fun p hp => hduty hp (ends.unmoved hp))
      ⟨hbooks, fun _ _ => hvacant, nofun, nofun⟩

/-- A node comes back with nothing to do. -/
theorem recover {t : Task μ} {fault : FaultState} {a : Agenda} (hb : Booked c (.of t) w)
    (hallowed : w.fault.recover? t.owner = some fault)
    (ha : w.agendas[t.owner.index]? = some a) :
    Booked c ⟨[], .resume t.owner⟩ (w.revived c t.owner fault a) := by
  have hsized := hb.sized
  obtain ⟨hdown, hcrashed⟩ := FaultState.crashed_of_recover? hallowed
  have hstanding : ∀ p, (w.revived c t.owner fault a).standing? p = w.standing? p := fun p => by
    apply World.standing?_of_start ha <;> rfl
  have hlog : ∀ p, (w.revived c t.owner fault a).operationLog p = w.operationLog p := fun p =>
    World.operationLog_recorded_aside rfl
  have hqueue : ∀ p, (runs p w.pending.tasks).Subperm ((Hand.of t).queue w p) := fun p =>
    ((List.sublist_cons_self t w.pending.tasks).filterMap _).subperm
  refine hb.update t.owner ?_ (fun u hu => .inl (List.mem_cons_of_mem t hu))
    (hcrashed ▸ hb.crashed.erase _) (fun p hp => ?_) ?_
  · exact ⟨hsized.clocks, by simpa [World.revived, World.recorded] using hsized.agendas,
      hsized.results, by simpa [World.revived, World.recorded] using hsized.instances⟩
  · refine ⟨hstanding p, hlog p, hqueue p, .refl _, ?_, by simp [Hand.of], ?_⟩
    · rw [Bool.eq_iff_iff, FaultState.isCrashed_iff, FaultState.isCrashed_iff]
      have hmem : p ∈ fault.crashed ↔ p ∈ w.fault.crashed := by
        rw [hcrashed, List.mem_erase_of_ne hp]
      exact hmem
    · simp [Ne.symm hp]
  · have hk := hb.kept t.owner
    obtain ⟨hempty, hidle⟩ := hk.down (FaultState.isCrashed_iff.mpr hdown) (by simp [Hand.of])
    have hup : fault.isCrashed t.owner = false := by
      rw [← Bool.not_eq_true, FaultState.isCrashed_iff, hcrashed]
      exact hb.crashed.not_mem_erase
    have hnone : runs t.owner w.pending.tasks = [] :=
      List.subperm_nil.mp (hempty ▸ hqueue t.owner)
    have hvacant : Vacant ⟨[], .resume t.owner⟩ (w.revived c t.owner fault a) t.owner :=
      ⟨hnone, fun s hs => hidle s (hstanding t.owner ▸ hs)⟩
    refine ⟨fun s hs => ?_, fun _ _ => hvacant, (fun hduty => by cases hduty),
      fun _ => ⟨hvacant, hup⟩⟩
    rw [hlog]
    exact (hk.books s (hstanding t.owner ▸ hs)).less (hqueue t.owner)

/-- A node that is back takes up its operations. -/
theorem resume {a : Agenda} (hb : Booked c ⟨[], .resume v⟩ w) (hw : w.Numbered)
    (does : if a.current.isNone then Queued c v w w' else w' = w) : Booked c .free w' := by
  obtain ⟨hvacant, hup⟩ := (hb.kept v).resuming rfl
  have hfree : Booked c .free w := hb.drop (by simp)
  split at does
  · exact hfree.queued hw hvacant hup (by simp [Hand.free]) (by simp [Hand.free]) does
  · exact does ▸ hfree

/-- Every change keeps the books. -/
theorem change (hb : Booked c h w) (hw : w.Numbered) (change : Change c h w h' w') :
    Booked c h' w' := by
  have hsized := hb.sized
  have herase : ∀ ids : List TaskId,
      (ids.foldl Pending.erase w.pending).tasks.Sublist w.pending.tasks := fun ids =>
    Pending.foldl_erase_sublist ids w.pending
  cases change with
  | request quiet does => exact hb.request hw quiet does
  | prune => exact hb.less (herase _)
  | close v => exact hb.recorded v rfl
  | withdraw => exact hb.less (herase _)
  | lose body doomed => exact hb.shed.recorded _ rfl
  | receive body up reached clock ticks =>
    refine hb.shed.frame ⟨?_, hsized.agendas, hsized.results, hsized.instances⟩ rfl rfl
      (fun _ => rfl) fun _ => World.operationLog_recorded_aside rfl
    simpa [World.arrived, World.recorded, Step.ticked] using hsized.clocks
  | skip void => exact hb.shed
  | discard => exact hb.shed
  | begin body up listed agenda number => exact hb.begin body up listed agenda number
  | crash body allowed => exact hb.crash _ allowed
  | fall stops => exact hb.fall stops
  | undo mends does =>
    have hfree : Booked c .free w := hb.drop (by simp)
    split at does
    · refine hfree.scheduled hw ?_ does
      rcases mends with rfl | rfl <;> simp
    · exact does ▸ hfree
  | recover body allowed agenda => exact hb.recover allowed agenda
  | resume agenda does => exact hb.resume hw does
  | split body drawn =>
    refine Booked.duty (Booked.recorded ?_ _ ?_) (by simp) (by simp)
    · exact hb.shed.faulted (FaultState.crashed_of_partition? drawn)
    · rfl
  | splitRefused body drawn => exact hb.shed.faulted rfl
  | heal body drawn =>
    refine Booked.recorded ?_ _ ?_
    · exact hb.shed.faulted (FaultState.crashed_of_heal? drawn)
    · rfl
  | healRefused body drawn => exact hb.shed.faulted rfl

/-- At the start every node waits to run its first operation. -/
theorem reset (hsize : c.size < UInt32.size) (w : World σ μ) : Booked c .free (w.reset c) := by
  have hindex : ∀ i < c.size, (NodeId.ofIndex i).index = i := fun i hi =>
    NodeId.index_ofIndex (Nat.lt_trans hi hsize)
  refine ⟨⟨by simp [World.reset], by simp [World.reset, World.blank],
    by simp [World.reset, World.blank], by simp [World.reset]⟩, fun t ht => ?_, List.nodup_nil,
    fun p => ⟨fun s hs => ?_, nofun, nofun, nofun⟩⟩
  · obtain ⟨i, hi, rfl⟩ := List.mem_map.mp ht
    have hlt := List.mem_range.mp hi
    exact (hindex i hlt).symm ▸ hlt
  · have hs : s = ⟨none, 0, []⟩ := World.standing?_reset hs
    have hqueue : Hand.free.queue (w.reset c) p =
        (List.range c.size).filterMap fun i => if NodeId.ofIndex i = p then some 0 else none := by
      show runs p ((List.range c.size).map (World.firstTask c.size)) = _
      rw [runs, List.filterMap_map]
      rfl
    have hlog : (w.reset c).operationLog p = [] := rfl
    rw [hs, hqueue, hlog]
    refine Books.initial ?_ fun i hi => ?_
    · -- Only one place has the address of the node.
      rw [List.length_filterMap_eq_countP]
      calc (List.range c.size).countP (fun i =>
            (if NodeId.ofIndex i = p then some (0 : UInt64) else none).isSome)
          ≤ (List.range c.size).countP (· == p.index) := by
            refine List.countP_mono_left fun i hi hsome => ?_
            have heq : NodeId.ofIndex i = p := by
              by_contra hne
              simp [hne] at hsome
            simp [← heq, hindex i (List.mem_range.mp hi)]
        _ ≤ 1 := List.nodup_iff_count_le_one.mp List.nodup_range p.index
    · obtain ⟨j, -, hj⟩ := List.mem_filterMap.mp hi
      split at hj <;> cases hj
      rfl

/-- An operation in flight has its place for a result. -/
theorem intact (hb : Booked c h w) {v : NodeId} (hv : v.index < c.size) : w.Intact v where
  clock := hb.sized.clocks ▸ hv
  agenda := hb.sized.agendas ▸ hv
  result a i ha hcurrent := by
    have hlt : v.index < w.results.length := hb.sized.results ▸ hv
    obtain ⟨rs, hrs⟩ : ∃ rs, w.results[v.index]? = some rs := ⟨_, List.getElem?_eq_getElem hlt⟩
    have hbooks := (hb.kept v).books _ (World.standing?_eq_some ha hrs)
    have hlast : i.toNat + 1 = a.next.toNat := (hbooks.flight i hcurrent).1
    have hlength : rs.length = a.next.toNat := hbooks.length
    exact ⟨rs, hrs, by omega⟩

end Booked

end

/-- The books agree in every state reached without a panic but a handler's own. -/
theorem Reaches.booked_of_clean {c : Cluster σ μ} {w : World σ μ} (hsize : c.size < UInt32.size)
    (hw : Reaches c Abort.Clean w) : w.Numbered ∧ Booked c .free w := by
  refine hw.keeps (P := fun h w => w.Numbered ∧ Booked c h w) (fun _ h => h) ?_ ?_ ?_ ?_
  · exact fun w => ⟨World.numbered_reset hsize w, .reset hsize w⟩
  · rintro w id t pending htake ⟨hnumbered, hb⟩
    exact ⟨(hnumbered.of_take htake).2, hb.take hnumbered htake⟩
  · rintro h₁ w₁ h₂ w₂ change ⟨hnumbered, hb⟩
    exact ⟨hnumbered.change change, hb.change hnumbered change⟩
  · rintro e h w - quiet ⟨hnumbered, hb⟩
    exact ⟨hnumbered, hb.drop quiet⟩

theorem Reaches.booked {c : Cluster σ μ} {w : World σ μ} (hsize : c.size < UInt32.size)
    (hw : Reaches c (fun e => ∀ p, e ≠ .panic p) w) : w.Numbered ∧ Booked c .free w :=
  (hw.mono fun _ => .of_calm).booked_of_clean hsize

section

variable {c : Cluster σ μ} {w : World σ μ}

/-- A state between two changes in which all books agree leaves no entry out of bounds. -/
theorem Leaves.bounds {h : Hand μ} {v : NodeId} {e : Abort} {w' : World σ μ}
    (hleaves : Leaves v e w w') (hb : Booked c h w) (hv : v.index < c.size) (n i : Nat) :
    e ≠ .panic (.outOfBounds n i) := by
  cases hleaves with
  | whole clean same => exact fun h => by simpa using clean _ h
  | broken breaks => exact breaks.bounds (hb.intact hv) n i

namespace Booked

theorem changes {h h' : Hand μ} {w' : World σ μ} (hb : Booked c h w) (hw : w.Numbered)
    (changes : Changes c h w h' w') : Booked c h' w' :=
  (changes.keeps (P := fun h w => w.Numbered ∧ Booked c h w)
    (fun change ⟨hw, hb⟩ => ⟨hw.change change, hb.change hw change⟩) ⟨hw, hb⟩).2

/-- No task asks for an entry out of bounds. -/
theorem advance_bounds (hb : Booked c .free w) (hw : w.Numbered) (id : TaskId) (n i : Nat) :
    (Step.advance c id w).1 ≠ .error (.panic (.outOfBounds n i)) := by
  intro hfails
  have hrun : Step.advance c id w = (.error (.panic (.outOfBounds n i)), (Step.advance c id w).2) :=
    Prod.ext hfails rfl
  rcases Step.exists_changes_of_error hrun with ⟨hunknown, -⟩ |
    ⟨t, pending, h₁, w₁, htake, hchanges, hleaves, -⟩
  · cases hunknown
  · obtain ⟨hperm, hw'⟩ := hw.of_take htake
    have howner : t.owner.index < c.size := hb.owners t (hperm.symm.subset List.mem_cons_self)
    exact hleaves.bounds ((hb.take hw htake).changes hw' hchanges) howner n i rfl

/-- Nor does telling a node that the scenario is over. -/
theorem farewell_bounds (hb : Booked c .free w) (hw : w.Numbered) (v : NodeId) (n i : Nat) :
    (Step.farewell c v w).1 ≠ .error (.panic (.outOfBounds n i)) := by
  intro hfails
  have hrun : Step.farewell c v w = (.error (.panic (.outOfBounds n i)), (Step.farewell c v w).2) :=
    Prod.ext hfails rfl
  by_cases hv : v.index < c.size
  · obtain ⟨h₁, w₁, hchanges, hleaves, -⟩ := (Step.unfolds_farewell v w).cut hrun
    exact hleaves.bounds (hb.changes hw hchanges) hv n i rfl
  · -- A node outside the cluster has no instance to tell.
    have hnone : w.instances[v.index]? = none :=
      List.getElem?_eq_none (by rw [hb.sized.instances]; omega)
    have hquiet : Step.farewell c v w = (.ok (), w) := by
      unfold Step.farewell Step.onInstance
      rw [Attempt.bind_apply, Attempt.get_bind, hnone]
      rfl
    rw [hquiet] at hfails
    cases hfails

end Booked

/-- Operations are run in order, one at a time, in every state reached from the start of an
iteration by tasks and hooks in any order, none of which panics. There are as many results as
operations started; the operation in flight is the last of these; an operation waiting is the next
one, and there is none while one is in flight; and the log tells the results. So no task and no hook
asks for an entry out of bounds. -/
theorem Reaches.operations_in_order (haccept : c.toSetup.accept = .ok ())
    (hw : Reaches c (fun e => ∀ p, e ≠ .panic p) w) :
    (∀ p : NodeId, p.index < c.size → ∃ a rs,
      w.agendas[p.index]? = some a ∧ w.results[p.index]? = some rs ∧
      rs.length = a.next.toNat ∧ a.next.toNat ≤ (c.operations p).length ∧
      (∀ i, a.current = some i → i.toNat + 1 = a.next.toNat) ∧
      (runs p w.pending.tasks).length + a.current.toList.length ≤ 1 ∧
      (∀ i ∈ runs p w.pending.tasks, i = a.next) ∧
      w.operationLog p = story (c.operations p) rs) ∧
    (∀ id n i, (Step.advance c id w).1 ≠ .error (.panic (.outOfBounds n i))) ∧
    ∀ v n i, (Step.farewell c v w).1 ≠ .error (.panic (.outOfBounds n i)) := by
  obtain ⟨hnumbered, hb⟩ := hw.booked (Setup.size_lt_of_accept haccept)
  refine ⟨fun p hp => ?_, hb.advance_bounds hnumbered, hb.farewell_bounds hnumbered⟩
  have ha : p.index < w.agendas.length := hb.sized.agendas ▸ hp
  have hrs : p.index < w.results.length := hb.sized.results ▸ hp
  have hbooks := (hb.kept p).books _
    (World.standing?_eq_some (List.getElem?_eq_getElem ha) (List.getElem?_eq_getElem hrs))
  exact ⟨_, _, List.getElem?_eq_getElem ha, List.getElem?_eq_getElem hrs, hbooks.length,
    hbooks.bound, fun i hi => (hbooks.flight i hi).1, hbooks.single, hbooks.index, hbooks.log⟩

/-- The first peer crashed after its operation and is up again. -/
theorem Reaches.operations_in_order_fragile :
    let w := (Step.advances Broadcast.fragile [⟨0⟩, ⟨3⟩, ⟨4⟩]
      ((World.new Broadcast.fragile).reset Broadcast.fragile)).2
    w.fault.crashed = [] ∧ w.operationLog ⟨0⟩ = story [.named "send" ["a"]] [.void] ∧
      ∀ n i, (Step.advance Broadcast.fragile ⟨1⟩ w).1 ≠ .error (.panic (.outOfBounds n i)) := by
  intro w
  have hw : Reaches Broadcast.fragile (fun e => ∀ p, e ≠ .panic p) w :=
    (Reaches.start (World.new Broadcast.fragile)).advances (by decide +kernel)
  obtain ⟨hnodes, hadvance, -⟩ := hw.operations_in_order rfl
  obtain ⟨a, rs, -, hrs, -, -, -, -, -, hlog⟩ := hnodes ⟨0⟩ (by decide)
  have hresults : w.results[NodeId.index ⟨0⟩]? = some [.void] := by decide +kernel
  cases hresults.symm.trans hrs
  exact ⟨by decide +kernel, hlog, hadvance ⟨1⟩⟩

end

end Interleave
