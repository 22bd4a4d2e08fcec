/-
# The states of an execution

A state is reached from the start of an iteration by executing pending tasks and
telling nodes that the scenario is over, in any order (`Reaches`). What the start
satisfies and every change keeps holds in all of them (`Reaches.keeps`). The first such
invariant is about numbers (`World.Numbered`): the pending tasks stand by ascending
number, below the number to be handed out next, and the fault candidates of a message
are fault tasks.
-/
import Interleave.Proofs.Change
import Interleave.Proofs.Reduction

namespace Interleave

variable {σ μ : Type} {c : Cluster σ μ} {w w' : World σ μ}

/-! ### Executing a pending task -/

namespace Step

open Attempt

/-- A task leaves the pending ones for the hand, and is then executed. -/
theorem changes_of_advance {id : TaskId} {t : Task μ} (h : advance c id w = (.ok t, w')) :
    ∃ pending, w.pending.take id = some (t, pending) ∧
      Changes c (.of t) { w with pending := pending } .free w' := by
  obtain ⟨pending, htake, hexecute⟩ := advance_ok_iff.mp h
  exact ⟨pending, htake, (unfolds_execute t _).done hexecute⟩

/-- A task that breaks off was not pending, or it leaves a state between two changes, unless it
panics otherwise than in a handler. -/
theorem exists_changes_of_error {id : TaskId} {e : Abort} (h : advance c id w = (.error e, w')) :
    (e = .unknownTask id ∧ w' = w) ∨
      ∃ t pending h₁ w₁, w.pending.take id = some (t, pending) ∧
        Changes c (.of t) { w with pending := pending } h₁ w₁ ∧ Leaves t.owner e w₁ w' ∧
        ∀ u, h₁.duty = .fall u → ¬ e.Clean := by
  rw [advance, get_bind] at h
  cases htake : w.pending.take id with
  | none =>
    rw [htake] at h
    cases h
    exact .inl ⟨rfl, rfl⟩
  | some taken =>
    obtain ⟨t, pending⟩ := taken
    rw [htake] at h
    simp only [modify_bind] at h
    rcases bind_error h with hexecute | ⟨u, w₁, -, hdone⟩
    · obtain ⟨h₁, w₁, hchanges, hleaves, hpanic⟩ := (unfolds_execute t _).cut hexecute
      exact .inr ⟨t, pending, h₁, w₁, rfl, hchanges, hleaves, hpanic⟩
    · cases hdone

end Step

/-- The states reached in an iteration by executing pending tasks and telling nodes that the
scenario is over, in any order. Each of them succeeds or ends in an abort that is spared. -/
inductive Reaches (c : Cluster σ μ) (spared : Abort → Prop) : World σ μ → Prop
  | start (w : World σ μ) : Reaches c spared (w.reset c)
  | task {w w' : World σ μ} {r : Except Abort (Task μ)} (id : TaskId) (reached : Reaches c spared w)
      (run : Step.advance c id w = (r, w')) (spares : ∀ e, r = .error e → spared e) :
      Reaches c spared w'
  | farewell {w w' : World σ μ} {r : Except Abort Unit} (v : NodeId) (reached : Reaches c spared w)
      (run : Step.farewell c v w = (r, w')) (spares : ∀ e, r = .error e → spared e) :
      Reaches c spared w'

theorem Reaches.mono {spared spared' : Abort → Prop} (hspared : ∀ e, spared e → spared' e)
    (reaches : Reaches c spared w) : Reaches c spared' w := by
  induction reaches with
  | start w => exact .start w
  | task id reached run spares ih => exact .task id ih run fun e he => hspared e (spares e he)
  | farewell v reached run spares ih => exact .farewell v ih run fun e he => hspared e (spares e he)

/-- What is kept when a task is taken, by every change, and when the rest of a task is given up after
an abort that is spared. -/
structure Lasting (c : Cluster σ μ) (spared : Abort → Prop) (P : Hand μ → World σ μ → Prop) :
    Prop where
  clean : ∀ e, spared e → e.Clean
  take : ∀ {w : World σ μ} {id t pending}, w.pending.take id = some (t, pending) → P .free w →
    P (.of t) { w with pending := pending }
  change : ∀ {h₁ w₁ h₂ w₂}, Change c h₁ w₁ h₂ w₂ → P h₁ w₁ → P h₂ w₂
  drop : ∀ {e : Abort} {h : Hand μ} {w : World σ μ}, spared e → (∀ u, h.duty ≠ .fall u) →
    P h w → P .free w

namespace Lasting

variable {spared : Abort → Prop} {P : Hand μ → World σ μ → Prop}

/-- The rest of what was spared is given up between two changes. -/
theorem leaves (hP : Lasting c spared P) {v : NodeId} {e : Abort} {h : Hand μ} (he : spared e)
    (hw : P h w) (hleaves : Leaves v e w w') (hpanic : ∀ u, h.duty = .fall u → ¬ e.Clean) :
    P .free w' := by
  have hquiet : ∀ u, h.duty ≠ .fall u := fun u hu => hpanic u hu (hP.clean e he)
  cases hleaves with
  | whole _ same => exact same ▸ hP.drop he hquiet hw
  | broken breaks => exact absurd (hP.clean e he) breaks.unclean

theorem advance (hP : Lasting c spared P) {id : TaskId} {r : Except Abort (Task μ)}
    (run : Step.advance c id w = (r, w')) (spares : ∀ e, r = .error e → spared e)
    (hw : P .free w) : P .free w' := by
  cases r with
  | ok t =>
    obtain ⟨pending, htaken, hchanges⟩ := Step.changes_of_advance run
    exact hchanges.keeps hP.change (hP.take htaken hw)
  | error e =>
    rcases Step.exists_changes_of_error run with ⟨-, rfl⟩ | ⟨t, pending, h₁, w₁, htaken, hchanges, h⟩
    · exact hw
    · exact hP.leaves (spares e rfl) (hchanges.keeps hP.change (hP.take htaken hw)) h.1 h.2

theorem farewell (hP : Lasting c spared P) {v : NodeId} {r : Except Abort Unit}
    (run : Step.farewell c v w = (r, w')) (spares : ∀ e, r = .error e → spared e)
    (hw : P .free w) : P .free w' := by
  cases r with
  | ok u => exact ((Step.unfolds_farewell v _).done run).keeps hP.change hw
  | error e =>
    obtain ⟨h₁, w₁, hchanges, h⟩ := (Step.unfolds_farewell v _).cut run
    exact hP.leaves (spares e rfl) (hchanges.keeps hP.change hw) h.1 h.2

end Lasting

/-- What holds at the start, and is kept when a task is taken, by every change and when the rest of
a task is given up, holds in all states that are reached without a panic but a handler's own. -/
theorem Reaches.keeps {spared : Abort → Prop} (hspared : ∀ e, spared e → e.Clean)
    {P : Hand μ → World σ μ → Prop} (hstart : ∀ w : World σ μ, P .free (w.reset c))
    (htake : ∀ {w : World σ μ} {id t pending}, w.pending.take id = some (t, pending) → P .free w →
      P (.of t) { w with pending := pending })
    (hchange : ∀ {h₁ w₁ h₂ w₂}, Change c h₁ w₁ h₂ w₂ → P h₁ w₁ → P h₂ w₂)
    (hdrop : ∀ {e : Abort} {h : Hand μ} {w : World σ μ}, spared e → (∀ u, h.duty ≠ .fall u) →
      P h w → P .free w)
    (reaches : Reaches c spared w) : P .free w := by
  have lasting : Lasting c spared P := ⟨hspared, htake, hchange, hdrop⟩
  induction reaches with
  | start w => exact hstart w
  | task id reached run spares ih => exact lasting.advance run spares ih
  | farewell v reached run spares ih => exact lasting.farewell run spares ih

/-- Executes pending tasks in the order given. -/
def Step.advances (c : Cluster σ μ) (ids : List TaskId) : Step σ μ Unit :=
  ids.forM fun id => do let _ ← advance c id

/-- Tasks that all succeed lead to a reached state. -/
theorem Reaches.advances {spared : Abort → Prop} {ids : List TaskId} (reaches : Reaches c spared w)
    (h : (Step.advances c ids w).1 = .ok ()) : Reaches c spared (Step.advances c ids w).2 := by
  generalize hrun : Step.advances c ids w = run at h
  obtain ⟨r, w'⟩ := run
  subst h
  induction ids generalizing w with
  | nil => cases hrun; exact reaches
  | cons id ids ih =>
    obtain ⟨u, w₁, hfirst, hrest⟩ := Attempt.bind_ok hrun
    obtain ⟨t, w₂, hadvance, hdone⟩ := Attempt.bind_ok hfirst
    cases hdone
    exact ih (reaches.task id hadvance fun e he => by cases he) hrest

/-- Two peers, each with one value to broadcast, of which one may crash and come back. -/
def Broadcast.fragile : Cluster Broadcast.Peer String :=
  { Broadcast.pair with config := { Config.default with maxFailed := 1, recovery := .all } }

/-! ### Pending tasks -/

namespace Pending

/-- A task with the highest number goes to the end. -/
theorem insertSorted_of_lt {t : Task μ} : ∀ {l : List (Task μ)}, (∀ u ∈ l, u.id < t.id) →
    insertSorted t l = l ++ [t]
  | [], _ => rfl
  | u :: l, hl => by
    have hu : u.id < t.id := hl u (by simp)
    have hnot : ¬ t.id < u.id := fun h => Nat.lt_asymm hu h
    rw [insertSorted, if_neg hnot, insertSorted_of_lt fun x hx => hl x (by simp [hx])]
    rfl

theorem foldl_erase_tasks (ids : List TaskId) (p : Pending μ) :
    (ids.foldl erase p).tasks = p.tasks.filter fun t => t.id ∉ ids := by
  induction ids generalizing p with
  | nil => simp
  | cons id ids ih =>
    rw [List.foldl_cons, ih, erase, List.filter_filter]
    refine List.filter_congr fun t _ => ?_
    simp [Bool.and_comm]

theorem foldl_erase_sublist (ids : List TaskId) (p : Pending μ) :
    (ids.foldl erase p).tasks.Sublist p.tasks := by
  rw [foldl_erase_tasks]
  exact List.filter_sublist

end Pending

/-! ### Numbers -/

namespace World

theorem withdrawn_sublist (w : World σ μ) (m : MessageId) :
    (w.withdrawn m).pending.tasks.Sublist w.pending.tasks :=
  Pending.foldl_erase_sublist _ w.pending

theorem pruned_sublist (w : World σ μ) : w.pruned.pending.tasks.Sublist w.pending.tasks :=
  Pending.foldl_erase_sublist _ w.pending

/-- The pending tasks stand by ascending number, below the next number, and only fault tasks are
attached to messages. -/
structure Numbered (w : World σ μ) : Prop where
  sorted : w.pending.tasks.Pairwise fun t u => t.id < u.id
  below : ∀ t ∈ w.pending.tasks, t.id < w.nextTask
  marked : ∀ e ∈ w.candidates, ∀ id ∈ e.2, id < w.nextTask ∧
    ∀ t ∈ w.pending.tasks, t.id = id → t.kind.isFault = true

theorem numbered_reset (hsize : c.size < UInt32.size) (w : World σ μ) : (w.reset c).Numbered := by
  have hword : ∀ {i : Nat}, i ≤ c.size → i.toUInt64.toNat = i := fun hi =>
    UInt64.toNat_ofNat_of_lt' (by rw [UInt32.size] at hsize; rw [UInt64.size]; omega)
  refine ⟨?_, ?_, fun e he => by cases he⟩
  · show ((List.range c.size).map (firstTask c.size)).Pairwise fun t u => t.id < u.id
    refine List.pairwise_map.mpr (List.pairwise_lt_range.imp_of_mem fun {i j} hi hj hij => ?_)
    show i.toUInt64.toNat < j.toUInt64.toNat
    rwa [hword (Nat.le_of_lt (List.mem_range.mp hi)), hword (Nat.le_of_lt (List.mem_range.mp hj))]
  · intro t ht
    obtain ⟨i, hi, rfl⟩ := List.mem_map.mp ht
    show i.toUInt64.toNat < c.size.toUInt64.toNat
    rw [hword (Nat.le_of_lt (List.mem_range.mp hi)), hword (Nat.le_refl _)]
    exact List.mem_range.mp hi

namespace Numbered

/-- Numbers matter to tasks, candidates and the next number only. -/
theorem less (hw : w.Numbered) (hpending : w'.pending.tasks.Sublist w.pending.tasks)
    (hnext : w'.nextTask = w.nextTask)
    (hcandidates : ∀ e ∈ w'.candidates, ∀ id ∈ e.2, ∃ e₀ ∈ w.candidates, id ∈ e₀.2) :
    w'.Numbered where
  sorted := hw.sorted.sublist hpending
  below t ht := hnext ▸ hw.below t (hpending.subset ht)
  marked e he id hid := by
    obtain ⟨e₀, he₀, hid₀⟩ := hcandidates e he id hid
    obtain ⟨hlt, hfault⟩ := hw.marked e₀ he₀ id hid₀
    exact ⟨hnext ▸ hlt, fun t ht => hfault t (hpending.subset ht)⟩

theorem congr (hw : w.Numbered) (hpending : w'.pending = w.pending)
    (hnext : w'.nextTask = w.nextTask) (hcandidates : w'.candidates = w.candidates) : w'.Numbered :=
  hw.less (by rw [hpending]) hnext fun e he id hid => ⟨e, hcandidates ▸ he, hid⟩

theorem distinct (hw : w.Numbered) : (w.pending.tasks.map Task.id).Nodup :=
  List.pairwise_map.mpr (hw.sorted.imp fun {t u} (h : t.id < u.id) (heq : t.id = u.id) =>
    Nat.lt_irrefl u.id.number (by rw [heq] at h; exact h))

theorem eq_of_id_eq (hw : w.Numbered) {t u : Task μ} (ht : t ∈ w.pending.tasks)
    (hu : u ∈ w.pending.tasks) (h : t.id = u.id) : t = u :=
  List.inj_on_of_nodup_map hw.distinct ht hu h

theorem get?_of_mem (hw : w.Numbered) {t : Task μ} (ht : t ∈ w.pending.tasks) :
    w.pending.get? t.id = some t := by
  cases hfind : w.pending.get? t.id with
  | none => exact absurd (by simp) (List.find?_eq_none.mp hfind t ht)
  | some u =>
    have hid : u.id = t.id := by simpa using List.find?_some hfind
    rw [hw.eq_of_id_eq (List.mem_of_find?_eq_some hfind) ht hid]

theorem take_of_mem (hw : w.Numbered) {t : Task μ} (ht : t ∈ w.pending.tasks) :
    w.pending.take t.id = some (t, w.pending.erase t.id) :=
  Pending.take_eq_some_iff.mpr ⟨hw.get?_of_mem ht, rfl⟩

theorem mem_erase (hw : w.Numbered) {t u : Task μ} (ht : t ∈ w.pending.tasks) :
    u ∈ (w.pending.erase t.id).tasks ↔ u ∈ w.pending.tasks ∧ u ≠ t := by
  refine List.mem_filter.trans (and_congr_right fun hu => ?_)
  rw [decide_eq_true_iff]
  exact not_congr ⟨hw.eq_of_id_eq hu ht, congrArg Task.id⟩

/-- Taking a task leaves the others. -/
theorem of_take (hw : w.Numbered) {id : TaskId} {t : Task μ} {pending : Pending μ}
    (htake : w.pending.take id = some (t, pending)) :
    w.pending.tasks.Perm (t :: pending.tasks) ∧ { w with pending := pending }.Numbered := by
  obtain ⟨hget, rfl⟩ := Pending.take_eq_some_iff.mp htake
  have hmem : t ∈ w.pending.tasks := List.mem_of_find?_eq_some hget
  have hid : t.id = id := by simpa using List.find?_some hget
  subst hid
  exact ⟨Pending.perm_erase hw.distinct hmem,
    hw.less List.filter_sublist rfl fun e he id hid => ⟨e, he, hid⟩⟩

/-- A new task goes to the end. -/
theorem enqueued_tasks (hw : w.Numbered) (owner : NodeId) (k : Clock) (body : Work μ)
    (next : TaskId) : (Step.enqueued w owner k body next).pending.tasks =
      w.pending.tasks ++ [⟨w.nextTask, owner, k, body⟩] :=
  Pending.insertSorted_of_lt hw.below

theorem enqueued (hw : w.Numbered) {owner : NodeId} {k : Clock} {body : Work μ} {next : TaskId}
    (hnext : w.nextTask.next? = some next) : (Step.enqueued w owner k body next).Numbered := by
  have hstep : next.number = w.nextTask.number + 1 := TaskId.number_of_next? hnext
  have hup : ∀ {id : TaskId}, id < w.nextTask → id < next := fun {id} h => by
    show id.number < next.number
    have hid : id.number < w.nextTask.number := h
    omega
  have hlast : w.nextTask < next := by
    show w.nextTask.number < next.number
    omega
  refine ⟨?_, ?_, ?_⟩
  · rw [hw.enqueued_tasks]
    refine List.pairwise_append.mpr ⟨hw.sorted, List.pairwise_singleton _ _, fun t ht u hu => ?_⟩
    cases List.mem_singleton.mp hu
    exact hw.below t ht
  · intro t ht
    rw [hw.enqueued_tasks] at ht
    rcases List.mem_append.mp ht with ht | ht
    · exact hup (hw.below t ht)
    · cases List.mem_singleton.mp ht
      exact hlast
  · intro e he id hid
    obtain ⟨hlt, hfault⟩ := hw.marked e he id hid
    refine ⟨hup hlt, fun t ht heq => ?_⟩
    rw [hw.enqueued_tasks] at ht
    rcases List.mem_append.mp ht with ht | ht
    · exact hfault t ht heq
    · -- A number in use is not the next one.
      cases List.mem_singleton.mp ht
      subst heq
      exact absurd hlt (Nat.lt_irrefl _)

theorem scheduled (hw : w.Numbered) {v : NodeId} {body : Work μ} (h : Scheduled v body w w') :
    w'.Numbered := by
  obtain ⟨k, k', next, -, -, hnext, rfl⟩ := h
  have hticked : (Step.ticked w v .work k').Numbered := hw.congr rfl rfl rfl
  exact hticked.enqueued hnext

theorem queued (hw : w.Numbered) {v : NodeId} (h : Queued c v w w') : w'.Numbered := by
  obtain ⟨a, -, h⟩ := h
  split at h
  · exact hw.scheduled h
  · exact h ▸ hw

theorem ended (hw : w.Numbered) {v : NodeId} {result : Answer} {i : UInt64}
    (h : Ends v result i w w') : w'.Numbered := by
  obtain ⟨a, rs, -, -, -, -, rfl⟩ := h
  exact hw.congr rfl rfl rfl

/-- Tasks that were offered stand at the end, in order, and nothing but their numbers changed. -/
theorem of_offered {v : NodeId} {k : Clock} {bodies : List (Work μ)} {ids : List TaskId}
    (hw : w.Numbered) (h : Offered v k bodies w ids w') :
    w'.Numbered ∧ ∃ new next,
      w' = { w with nextTask := next, pending := ⟨w.pending.tasks ++ new⟩ } ∧
      new.map Task.id = ids ∧ new.map Task.body = bodies ∧ ∀ t ∈ new, t.owner = v ∧ t.clock = k := by
  induction h with
  | nil w => exact ⟨hw, [], w.nextTask, by simp, rfl, rfl, by simp⟩
  | @cons body bodies w w' next ids number rest ih =>
    obtain ⟨hw', new, last, heq, hids, hbodies, hnew⟩ := ih (hw.enqueued number)
    refine ⟨hw', ⟨w.nextTask, v, k, body⟩ :: new, last, ?_, ?_, ?_, ?_⟩
    · rw [heq, hw.enqueued_tasks, List.append_assoc]
      rfl
    · simp [hids]
    · simp [hbodies]
    · intro t ht
      rcases List.mem_cons.mp ht with rfl | ht
      · exact ⟨rfl, rfl⟩
      · exact hnew t ht

theorem attached (hw : w.Numbered) {m : MessageId} {ids : List TaskId}
    (hids : ∀ id ∈ ids, id < w.nextTask ∧ ∀ t ∈ w.pending.tasks, t.id = id → t.kind.isFault = true) :
    (w.attached m ids).Numbered := by
  unfold World.attached
  split
  · exact hw
  · refine ⟨hw.sorted, hw.below, fun e he => ?_⟩
    rcases Ascending.mem_of_mem_put he with rfl | he
    · exact hids
    · exact hw.marked e he

end Numbered

theorem isFault_of_offers {v : NodeId} {m : MessageId} {t : Task μ}
    (h : t.body ∈ w.offers c v m) : t.kind.isFault = true := by
  unfold offers at h
  rcases List.mem_append.mp h with h | h
  · split at h
    · cases hbody : t.body <;> simp_all [Task.kind, TaskKind.isFault]
    · cases h
  · split at h
    · cases hbody : t.body <;> simp_all [Task.kind, TaskKind.isFault]
    · cases h

/-- The task is a fault offered at the next message of node `v`, sent at clock `k`. -/
structure Candidate (c : Cluster σ μ) (w : World σ μ) (v : NodeId) (k : Clock) (t : Task μ) : Prop where
  owner : t.owner = v
  clock : t.clock = k
  body : t.body ∈ w.offers c v w.nextMessage

theorem Candidate.isFault {v : NodeId} {k : Clock} {t : Task μ} (h : w.Candidate c v k t) :
    t.kind.isFault = true := isFault_of_offers h.body

namespace Numbered

/-- A posted message stands at the end, followed by the faults offered at it. -/
theorem of_posted {v target : NodeId} {message : μ} {k : Clock} {next : MessageId}
    {nextTask : TaskId} {ids : List TaskId} {w₁ : World σ μ} (hw : w.Numbered)
    (hplace : w.nextTask.next? = some nextTask)
    (h : Offered v k (w.offers c v w.nextMessage) (Step.enqueued (w.dispatched c v message target k next)
      target k (.receive v message w.nextMessage) nextTask) ids w₁) :
    w₁.Numbered ∧ ∃ new last,
      w₁ = { w.dispatched c v message target k next with
        nextTask := last
        pending := ⟨w.pending.tasks ++
          ⟨w.nextTask, target, k, .receive v message w.nextMessage⟩ :: new⟩ } ∧
      new.map Task.id = ids ∧ ∀ t ∈ new, w.Candidate c v k t := by
  have hsent : (w.dispatched c v message target k next).Numbered := hw.congr rfl rfl rfl
  obtain ⟨hw₁, new, last, heq, hids, hbodies, hnew⟩ := (hsent.enqueued hplace).of_offered h
  refine ⟨hw₁, new, last, ?_, hids, fun t ht => ?_⟩
  · rw [heq, hsent.enqueued_tasks, List.append_assoc]
    rfl
  · exact ⟨(hnew t ht).1, (hnew t ht).2, hbodies ▸ List.mem_map_of_mem ht⟩

theorem request {v : NodeId} (hw : w.Numbered) (h : Request c v w w') : w'.Numbered := by
  cases h with
  | lose => exact hw.congr rfl rfl rfl
  | @post w₁ k k' next nextTask ids message target known clock ticks number reached place offered =>
    obtain ⟨hw₁, new, last, heq, hids, hnew⟩ := hw.of_posted place offered
    refine hw₁.attached fun id hid => ?_
    obtain ⟨t, ht, rfl⟩ := List.mem_map.mp (hids ▸ hid)
    have hmem : t ∈ w₁.pending.tasks := by
      rw [heq]
      simp [ht]
    exact ⟨hw₁.below t hmem, fun u hu heq => hw₁.eq_of_id_eq hu hmem heq ▸ (hnew t ht).isFault⟩
  | note => exact hw.congr rfl rfl rfl
  | conclude real ends queued =>
    exact (hw.ended ends).queued queued
  | start => exact hw.congr rfl rfl rfl
  | lend => exact hw.congr rfl rfl rfl

theorem withdrawn (hw : w.Numbered) (m : MessageId) : (w.withdrawn m).Numbered :=
  hw.less (w.withdrawn_sublist m) rfl fun e he _ hid => ⟨e, (List.mem_filter.mp he).1, hid⟩

theorem pruned (hw : w.Numbered) : w.pruned.Numbered := by
  refine hw.less w.pruned_sublist rfl fun e he id hid => ?_
  obtain ⟨e₀, he₀, rfl⟩ := List.mem_map.mp (List.mem_filter.mp he).1
  exact ⟨e₀, he₀, (List.mem_filter.mp hid).1⟩

theorem change {h h' : Hand μ} (hw : w.Numbered) (change : Change c h w h' w') : w'.Numbered := by
  cases change with
  | request _ does => exact hw.request does
  | prune => exact hw.pruned
  | withdraw => exact hw.withdrawn _
  | crash =>
    exact hw.less List.filter_sublist rfl fun e he id hid => ⟨e, he, hid⟩
  | fall stops =>
    rename_i v
    have hvacated : (w.vacated v).Numbered := hw.congr rfl rfl rfl
    rcases stops with ⟨-, rfl⟩ | ⟨i, ends⟩
    · exact hvacated
    · exact hvacated.ended ends
  | undo _ does =>
    split at does
    · exact hw.scheduled does
    · exact does ▸ hw
  | resume _ does =>
    split at does
    · exact hw.queued does
    · exact does ▸ hw
  | _ => exact hw.congr rfl rfl rfl

end Numbered

end World

end Interleave
