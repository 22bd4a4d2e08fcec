/-
# What a protocol sees

Where no fault can be injected nothing is lost, and what a task does to the nodes is
known exactly. A scene is what there is for a protocol to see of a state: which
operation of each node is in flight and which comes next, the instances, the results,
the letters on each link in the order they were sent, and the operations that wait
(`Scene`).

Each part of a step changes the scene in one way. A task that does not have to wait
takes the first letter of its link (`Orderly.scene_of_receive`); a message that is sent
goes to the end of it (`Calm.scene_send`); an operation that ends calls the next one
(`Calm.scene_concludes`). All else, from clocks to the log, is not seen.
-/
import Interleave.Proofs.Episode
import Interleave.Proofs.Links
import Interleave.Proofs.Reduction

namespace Interleave

variable {σ μ : Type} {c : Cluster σ μ} {v p q : NodeId} {t : Task μ} {w w' : World σ μ}

/-! ### Letters -/

/-- The message that the task delivers on the link from `p` to `q`. -/
def Task.letter? (p q : NodeId) (t : Task μ) : Option μ :=
  match t.body with
  | .receive sender message _ => if sender = p ∧ t.owner = q then some message else none
  | _ => none

/-- The messages on their way from `p` to `q`, in the order of their tasks. -/
def letters (p q : NodeId) (l : List (Task μ)) : List μ := l.filterMap (Task.letter? p q)

theorem letters_append (l l' : List (Task μ)) :
    letters p q (l ++ l') = letters p q l ++ letters p q l' := List.filterMap_append

theorem letters_cons (t : Task μ) (l : List (Task μ)) :
    letters p q (t :: l) = (t.letter? p q).toList ++ letters p q l := by
  cases h : t.letter? p q <;> simp [letters, h]

theorem Task.letter?_of_body {sender : NodeId} {message : μ} {m : MessageId}
    (hbody : t.body = .receive sender message m) (p q : NodeId) :
    t.letter? p q = if sender = p ∧ t.owner = q then some message else none := by
  simp [letter?, hbody]

theorem Task.letter?_of_operation {i : UInt64} (hbody : t.body = .operation i) :
    t.letter? p q = none := by
  simp [letter?, hbody]

/-- A link without arrivals has no letters. -/
theorem letters_eq_nil {l : List (Task μ)} (h : arrivals p q l = []) : letters p q l = [] := by
  refine List.filterMap_eq_nil_iff.mpr fun t ht => ?_
  have harrival := List.filterMap_eq_nil_iff.mp h t ht
  cases hbody : t.body with
  | receive sender message m =>
    rw [Task.arrival?_of_body hbody] at harrival
    rw [Task.letter?_of_body hbody]
    split at harrival
    · cases harrival
    · rename_i hlink
      exact if_neg hlink
  | _ => simp [Task.letter?, hbody]

/-! ### Scenes -/

/-- The operation in flight and the one to run next. -/
def Agenda.turn (a : Agenda) : Option UInt64 × UInt64 := (a.current, a.next)

/-- What a protocol can see of a state. -/
@[ext] structure Scene (σ μ : Type) where
  turns : List (Option UInt64 × UInt64)
  instances : List (Option σ)
  results : List (List Answer)
  letters : NodeId → NodeId → List μ
  /-- The operations of a node that wait to be run. -/
  waiting : NodeId → List UInt64
  /-- How many tasks there have been. -/
  tasks : Nat

def World.scene (w : World σ μ) : Scene σ μ where
  turns := w.agendas.map Agenda.turn
  instances := w.instances
  results := w.results
  letters p q := Interleave.letters p q w.pending.tasks
  waiting p := runs p w.pending.tasks
  tasks := w.nextTask.number

namespace Scene

/-- Operation `i` of node `v` is started. -/
def begun (S : Scene σ μ) (v : NodeId) (i next : UInt64) : Scene σ μ :=
  { S with
    turns := S.turns.set v.index (some i, next)
    results := S.results.modify v.index (· ++ [.missing]) }

/-- Node `v` is given another instance. -/
def seated (S : Scene σ μ) (v : NodeId) (x : Option σ) : Scene σ μ :=
  { S with instances := S.instances.set v.index x }

/-- The link from `p` to `q` carries letters `l`. -/
def carrying (S : Scene σ μ) (p q : NodeId) (l : List μ) : Scene σ μ :=
  { S with letters := fun p' q' => if p = p' ∧ q = q' then l else S.letters p' q' }

/-- Operations `l` of node `v` wait. -/
def awaiting (S : Scene σ μ) (v : NodeId) (l : List UInt64) : Scene σ μ :=
  { S with waiting := fun p => if v = p then l else S.waiting p }

/-- A message is sent. -/
def posted (S : Scene σ μ) (v target : NodeId) (message : μ) : Scene σ μ :=
  { S.carrying v target (S.letters v target ++ [message]) with tasks := S.tasks + 1 }

/-- Operation `i` of node `v` ends, with operation `next` after it. -/
def ended (S : Scene σ μ) (v : NodeId) (i next : UInt64) (result : Answer) : Scene σ μ :=
  { S with
    turns := S.turns.set v.index (none, next)
    results := S.results.modify v.index (·.set i.toNat result) }

/-- Operation `i` of node `v` is called, if there is one. -/
def called (S : Scene σ μ) (v : NodeId) (i : UInt64) (operations : List Operation) : Scene σ μ :=
  if i.toNat < operations.length then
    { S.awaiting v (S.waiting v ++ [i]) with tasks := S.tasks + 1 }
  else S

/-! An instance that is lent out is not missed by anything else. -/

section

variable (S : Scene σ μ) (v : NodeId) (x y : Option σ)

theorem seated_seated : (S.seated v x).seated v y = S.seated v y := by
  simp [seated, List.set_set]

theorem posted_seated (p q : NodeId) (message : μ) :
    (S.seated v x).posted p q message = (S.posted p q message).seated v x := rfl

theorem ended_seated (p : NodeId) (i next : UInt64) (result : Answer) :
    (S.seated v x).ended p i next result = (S.ended p i next result).seated v x := rfl

theorem called_seated (p : NodeId) (i : UInt64) (operations : List Operation) :
    (S.seated v x).called p i operations = (S.called p i operations).seated v x := by
  unfold called
  split
  · rfl
  · rfl

end

end Scene

theorem World.scene_begun (w : World σ μ) (v : NodeId) (a : Agenda) (i next : UInt64) (text : String) :
    (w.begun v a i next text).scene = w.scene.begun v i next := by
  simp [scene, Scene.begun, begun, recorded, List.map_set, Agenda.turn]

/-! ### Tasks taken -/

/-- The operation that is taken is one that waits. -/
theorem World.Numbered.scene_of_operation (hw : w.Numbered) {id : TaskId} {pending : Pending μ}
    (htake : w.pending.take id = some (t, pending)) {i : UInt64} (hbody : t.body = .operation i) :
    ∃ l l', w.scene.waiting t.owner = l ++ i :: l' ∧
      World.scene { w with pending := pending } = w.scene.awaiting t.owner (l ++ l') := by
  obtain ⟨rfl, before, after, hsplit, hrest⟩ := hw.split_of_take htake
  have hruns : ∀ p, runs p (t :: after) = (if t.owner = p then [i] else []) ++ runs p after := by
    intro p
    by_cases hp : t.owner = p
    · simp [runs, Task.operationOf?, hbody, hp]
    · simp [runs, Task.operationOf?, hbody, hp]
  refine ⟨runs t.owner before, runs t.owner after, ?_, ?_⟩
  · show runs t.owner w.pending.tasks = _
    rw [hsplit, runs_append, hruns, if_pos rfl]
    rfl
  · refine Scene.ext rfl rfl rfl (funext fun p => funext fun q => ?_) (funext fun p => ?_) rfl
    · show letters p q pending.tasks = letters p q w.pending.tasks
      rw [hsplit, hrest, letters_append, letters_append, letters_cons, Task.letter?_of_operation hbody]
      rfl
    · show runs p pending.tasks = if t.owner = p then _ else runs p w.pending.tasks
      rw [hsplit, hrest, runs_append, runs_append, hruns]
      by_cases hp : t.owner = p
      · rw [if_pos hp, hp]
      · rw [if_neg hp, if_neg hp, List.nil_append]

/-- A delivery that does not have to wait takes the first letter of its link. -/
theorem Orderly.scene_of_receive (ho : Orderly .free w) {id : TaskId} {pending : Pending μ}
    (htake : w.pending.take id = some (t, pending))
    (hwaits : Tree.waits w.pending.views t.view = false) {sender : NodeId} {message : μ}
    {m : MessageId} (hbody : t.body = .receive sender message m) :
    ∃ l, w.scene.letters sender t.owner = message :: l ∧
      World.scene { w with pending := pending } = w.scene.carrying sender t.owner l := by
  obtain ⟨rfl, before, after, hsplit, hrest⟩ := ho.numbered.split_of_take htake
  have hbefore : letters sender t.owner before = [] :=
    letters_eq_nil (ho.arrivals_before hsplit hwaits (m := m) (by simp [Task.arrival?, hbody]))
  have hruns : ∀ p, runs p (t :: after) = runs p after := fun p => by
    simp [runs, Task.operationOf?, hbody]
  refine ⟨letters sender t.owner after, ?_, ?_⟩
  · show letters sender t.owner w.pending.tasks = _
    rw [hsplit, letters_append, letters_cons, hbefore, Task.letter?_of_body hbody, if_pos ⟨rfl, rfl⟩]
    rfl
  · refine Scene.ext rfl rfl rfl (funext fun p => funext fun q => ?_) (funext fun p => ?_) rfl
    · show letters p q pending.tasks = if sender = p ∧ t.owner = q then _ else letters p q w.pending.tasks
      rw [hsplit, hrest, letters_append, letters_append, letters_cons, Task.letter?_of_body hbody]
      by_cases hlink : sender = p ∧ t.owner = q
      · obtain ⟨rfl, rfl⟩ := hlink
        simp [hbefore]
      · rw [if_neg hlink, if_neg hlink]
        rfl
    · show runs p pending.tasks = runs p w.pending.tasks
      rw [hsplit, hrest, runs_append, runs_append, hruns]

/-! ### Steps -/

/-- A task that is executed makes room for the tasks it brings about. -/
theorem Net.Moves.card_pool {a : Draft μ} {N N' : Net σ μ} (h : Net.Moves c a N N') :
    N'.pool.card + 1 + N.tasks = N.pool.card + N'.tasks := by
  obtain ⟨hpool, -⟩ := h
  rw [hpool, Multiset.card_cons]
  simp only [Net.after, Multiset.card_add, Multiset.coe_card]
  omega

namespace Calm

/-- Starting a node that does nothing at its start is not seen. -/
theorem scene_wake (hf : ∀ x, c.protocol.onStart (c.site v) x = .done (x, .ok ()))
    (hw : Calm c w) (h : Step.wake c v w = (.ok (), w')) : Calm c w' ∧ w'.scene = w.scene := by
  obtain ⟨a, ha, rfl | rfl⟩ := Step.wake_idle_eq hf h
  · exact ⟨hw, rfl⟩
  · refine ⟨hw.of_core_eq rfl, Scene.ext ?_ rfl rfl rfl rfl rfl⟩
    show (w.agendas.set v.index { a with started := true }).map Agenda.turn = _
    rw [List.map_set]
    refine set_eq_self ?_
    rw [List.getElem?_map, ha]
    rfl

theorem withdrawn (hw : Calm c w) (m : MessageId) : w.withdrawn m = w := by
  have hbare := hw.bare
  cases w
  cases hbare
  rfl

/-- A receipt moves the clock. -/
theorem arrived (hw : Calm c w) (hv : v.index < c.size) {sender : NodeId} {message : μ}
    {m : MessageId} {clock k k' : Clock} (hk : w.clocks.clocks[v.index]? = some k)
    (hk' : (k.join clock).tick? v = some k') :
    Calm c (w.arrived c v sender message m (k.join clock) k') := by
  have hle : k.le k' = true := Clock.le_trans (k.le_join_left clock) (Clock.le_tick hk')
  refine (calm_clocked hv hw hk hle).of_core_eq ?_
  simp [World.core, World.arrived, World.recorded, Step.ticked, clocked]

/-- A message that is sent goes to the end of its link. -/
theorem scene_send {α : Type} (hc : FaultFree c) (hw : Calm c w) (hv : v.index < c.size)
    {message : μ} {target : NodeId} (ht : target.index < c.size) {a b : α}
    (h : Step.perform c v (.send message target (.done a)) w = (.ok b, w')) :
    b = a ∧ Calm c w' ∧ w'.scene = w.scene.posted v target message := by
  obtain ⟨u, w₁, hsend, hdone⟩ := Attempt.bind_ok h
  cases hdone
  obtain ⟨k, k', nextMessage, nextTask, hk, hk', hm, hn, rfl⟩ := (send_ok_iff hc hv hw ht).mp hsend
  refine ⟨rfl, calm_sent hv hw ht hk hk' hm hn, ?_⟩
  have hpending : (sentWorld c w v message target k' nextMessage nextTask).pending.tasks =
      w.pending.tasks ++ [⟨w.nextTask, target, k', .receive v message w.nextMessage⟩] :=
    Pending.insertSorted_of_lt hw.fresh
  refine Scene.ext rfl rfl rfl (funext fun p => funext fun q => ?_) (funext fun p => ?_)
    (TaskId.number_of_next? hn)
  · show letters p q (sentWorld c w v message target k' nextMessage nextTask).pending.tasks =
      if v = p ∧ target = q then letters v target w.pending.tasks ++ [message]
      else letters p q w.pending.tasks
    rw [hpending, letters_append, letters_cons, Task.letter?_of_body rfl]
    by_cases hlink : v = p ∧ target = q
    · obtain ⟨rfl, rfl⟩ := hlink
      simp [letters]
    · simp [letters, hlink]
  · show runs p (sentWorld c w v message target k' nextMessage nextTask).pending.tasks = _
    rw [hpending, runs_append]
    exact List.append_nil _

/-- An operation that ends calls the next one. -/
theorem scene_concludes (hw : Calm c w) {i next : UInt64} {result : Answer} {b : Bool}
    (hturn : w.scene.turns[v.index]? = some (some i, next)) (h : Concludes c v result w b w') :
    w'.scene = (w.scene.ended v i next result).called v next (c.operations v) := by
  have hagenda : ∀ a, w.agendas[v.index]? = some a → a.current = some i ∧ a.next = next := by
    intro a ha
    have hmap : (w.agendas.map Agenda.turn)[v.index]? = some (some i, next) := hturn
    rw [List.getElem?_map, ha] at hmap
    exact Prod.mk.inj (Option.some.inj hmap)
  cases h with
  | idle idle =>
    obtain ⟨a, ha, hnone⟩ := idle
    cases hnone.symm.trans (hagenda a ha).1
  | ends ends queued =>
    obtain ⟨a, rs, ha, hcurrent, hrs, -, rfl⟩ := ends
    obtain ⟨hi, hnext⟩ := hagenda a ha
    cases hcurrent.symm.trans hi
    have hended : (w.ended v a i rs result).scene = w.scene.ended v i next result := by
      refine Scene.ext ?_ rfl ?_ rfl rfl rfl
      · show (w.agendas.set v.index { a with current := none }).map Agenda.turn = _
        rw [List.map_set, ← hnext]
        rfl
      · show w.results.set v.index (rs.set i.toNat result) = w.results.modify v.index _
        rw [List.modify_eq_set_getElem?, hrs]
        rfl
    obtain ⟨a', ha', hqueued⟩ := queued
    obtain rfl : a' = { a with current := none } := (eq_of_getElem?_set ha').symm
    rw [← hended, Scene.called, ← hnext]
    split at hqueued
    · rename_i hlt
      rw [if_pos hlt]
      obtain ⟨k, k', task, -, -, hn, rfl⟩ := hqueued
      have hpending : (Step.enqueued (Step.ticked (w.ended v a i rs result) v .work k') v k'
          (.operation a.next) task).pending.tasks =
          w.pending.tasks ++ [⟨w.nextTask, v, k', .operation a.next⟩] :=
        Pending.insertSorted_of_lt hw.fresh
      refine Scene.ext rfl rfl rfl (funext fun p => funext fun q => ?_) (funext fun p => ?_)
        (TaskId.number_of_next? hn)
      · show letters p q (Step.enqueued _ _ _ _ _).pending.tasks = letters p q w.pending.tasks
        rw [hpending, letters_append]
        exact List.append_nil _
      · show runs p (Step.enqueued _ _ _ _ _).pending.tasks =
          if v = p then runs v w.pending.tasks ++ [a.next] else runs p w.pending.tasks
        rw [hpending, runs_append]
        by_cases hp : v = p
        · simp [runs, Task.operationOf?, hp]
        · simp [runs, Task.operationOf?, hp]
    · rename_i hlt
      rw [if_neg hlt, hqueued]

/-- **What is seen of an operation that is run.** If there is none, nothing. -/
theorem scene_invoke (hc : c.Placid) (hw : Calm c w) {i : UInt64} {x : σ}
    (hx : w.scene.instances[v.index]? = some (some x)) (h : Step.invoke c v i w = (.ok (), w')) :
    ((c.operations v)[i.toNat]? = none ∧ w'.scene = w.scene) ∨
    ∃ operation next reply w₁ w₂, (c.operations v)[i.toNat]? = some operation ∧
      wordSucc? i = some next ∧ Calm c w₁ ∧
      w₁.scene = (w.scene.begun v i next).seated v none ∧
      Step.perform c v (c.protocol.onOperation (c.site v) operation x) w₁ = (.ok reply, w₂) ∧
      (reply.2 = .ok .later → w'.scene = w₂.scene.seated v (some reply.1)) ∧
      (reply.2 = .ok .void → Calm c w₂ → w₂.scene.turns[v.index]? = some (some i, next) →
        w'.scene = ((w₂.scene.seated v (some reply.1)).ended v i next .void).called v next
          (c.operations v)) := by
  rw [Step.invoke_eq, Attempt.get_bind, hw.isCrashed] at h
  obtain ⟨u, w₁, hwake, h⟩ := Attempt.bind_ok h
  obtain ⟨hw₁, hscene⟩ := hw.scene_wake (fun x => (hc v x).1) hwake
  cases hlisted : (c.operations v)[i.toNat]? with
  | none =>
    rw [hlisted] at h
    cases h
    exact .inl ⟨rfl, hscene⟩
  | some operation =>
    rw [hlisted] at h
    obtain ⟨u, w₂, hcommence, h⟩ := Attempt.bind_ok h
    obtain ⟨a, next, -, hnext, rfl⟩ := Step.commence_ok hcommence
    have hbegun : (w₁.begun v a i next operation.text).scene = w.scene.begun v i next := by
      rw [World.scene_begun, hscene]
    have hx' : (w₁.begun v a i next operation.text).instances[v.index]? = some (some x) :=
      (congrArg (fun S => S.instances[v.index]?) hscene).trans hx
    rcases Step.answer_ok h with ⟨hnone, -⟩ | ⟨y, reply, w₃, hy, hperform, hlater, hvoid⟩
    · rw [hx'] at hnone
      cases hnone
    · cases hx'.symm.trans hy
      refine .inr ⟨operation, next, reply, _, w₃, rfl, hnext, hw₁.of_core_eq ?_, ?_, hperform,
        fun hok => by rw [hlater hok]; rfl, fun hok hw₃ hturn => ?_⟩
      · simp [World.core, World.begun, World.recorded]
      · rw [← hbegun]
        rfl
      · obtain ⟨b, hconcludes⟩ := hvoid hok
        have hseated : Calm c { w₃ with instances := w₃.instances.set v.index (some reply.1) } :=
          hw₃.of_core_eq (by simp [World.core])
        exact hseated.scene_concludes hturn hconcludes

/-- **What is seen of a message that is delivered.** -/
theorem scene_deliver (hc : c.Placid) (hw : Calm c w) (hv : v.index < c.size) {sender : NodeId}
    (hs : sender.index < c.size) {clock : Clock} {message : μ} {m : MessageId} {x : σ}
    (hx : w.scene.instances[v.index]? = some (some x))
    (h : Step.deliver c v clock sender message m w = (.ok (), w')) :
    ∃ reply w₁ w₂, Calm c w₁ ∧ w₁.scene = w.scene.seated v none ∧
      Step.perform c v (c.protocol.onMessage (c.site v) message sender x) w₁ = (.ok reply, w₂) ∧
      (reply.2 = .ok () → w'.scene = w₂.scene.seated v (some reply.1)) := by
  have hwithdrawn : Step.withdraw m w = (.ok (), w) := congrArg _ (hw.withdrawn m)
  rw [Step.deliver_eq, Attempt.bind_of_ok hwithdrawn, Attempt.get_bind, hw.isCrashed,
    hw.reaches hs hv] at h
  obtain ⟨u, w₁, hwake, h⟩ := Attempt.bind_ok h
  obtain ⟨hw₁, hscene⟩ := hw.scene_wake (fun x => (hc v x).1) hwake
  obtain ⟨u, w₂, harrive, h⟩ := Attempt.bind_ok h
  obtain ⟨k, k', hk, hk', rfl⟩ := Step.arrive_ok harrive
  have harrived : Calm c (w₁.arrived c v sender message m (k.join clock) k') :=
    hw₁.arrived hv hk hk'
  have hx' : (w₁.arrived c v sender message m (k.join clock) k').instances[v.index]? =
      some (some x) := (congrArg (fun S => S.instances[v.index]?) hscene).trans hx
  rcases Step.runHook_ok h with ⟨hnone, -⟩ | ⟨y, reply, w₃, hy, hperform, hw'⟩
  · rw [hx'] at hnone
    cases hnone
  · cases hx'.symm.trans hy
    refine ⟨reply, _, w₃, harrived.of_core_eq ?_, ?_, hperform, fun hok => ?_⟩
    · simp [World.core]
    · rw [← hscene]
      rfl
    · rw [hw' hok]
      rfl

/-- Every task there has been is pending or was executed. -/
theorem length_schedule (hc : FaultFree c) (hp : c.protocol.Discreet) {rule : Rule}
    {finished : Option TaskView} {ts : List (Task μ)} (h : Schedule c rule finished w ts w')
    (hw : Calm c w) : Calm c w' ∧
      ts.length + w'.pending.tasks.length + w.nextTask.number =
        w.pending.tasks.length + w'.nextTask.number := by
  induction h with
  | nil => exact ⟨hw, by simp⟩
  | @cons finished w w₁ w' t ts allowed done rest ih =>
    obtain ⟨hw₁, hmoves⟩ := hw.moves hc hp done
    obtain ⟨hw', hlength⟩ := ih hw₁
    have hmoved := hmoves.card_pool
    refine ⟨hw', ?_⟩
    simp only [World.net, Multiset.coe_card, List.length_map] at hmoved
    rw [List.length_cons]
    omega

end Calm

end Interleave
