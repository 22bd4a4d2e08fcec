/-
# Tasks that succeed

To follow what a protocol does, the handlers have to be taken at their word: which
instance they ran on, what they asked for and which state they left. So here the
handlers of a task are not a parameter of its stint, but the ones that its cluster
has for it, and all of them succeeded (`Success`). What all such tasks keep holds in
every state reached (`Reaches.successes`).

Most of what happens around a handler is of no concern to a protocol. `Aside` says
that no operation started or ended, no instance and no result changed, and that no
delivery was added. All that is done to clocks, candidates and the log is of that
kind, and so is a handler that asks for nothing (`Step.runHook_idle`).
-/
import Interleave.Proofs.Traffic
import Interleave.Proofs.Turn

namespace Interleave

variable {σ μ : Type}

/-! ### What is of no concern to a protocol -/

/-- The operation of each node in flight. -/
def World.currents (w : World σ μ) : List (Option UInt64) := w.agendas.map Agenda.current

/-- Nothing changed that a protocol is about, but that deliveries may have gone. -/
structure Aside (w w' : World σ μ) : Prop where
  currents : w'.currents = w.currents
  instances : w'.instances = w.instances
  results : w'.results = w.results
  posts : (deliveries w'.pending.tasks).Sublist (deliveries w.pending.tasks)

theorem set_eq_self {α : Type} {l : List α} {i : Nat} {a : α} (h : l[i]? = some a) :
    l.set i a = l := by
  obtain ⟨hi, rfl⟩ := List.getElem?_eq_some_iff.mp h
  exact List.set_getElem_self hi

theorem eq_of_getElem?_set {α : Type} {l : List α} {i : Nat} {a b : α}
    (h : (l.set i a)[i]? = some b) : a = b := by
  have hi : i < l.length := by simpa using (List.getElem?_eq_some_iff.mp h).1
  rw [List.getElem?_set_self hi] at h
  exact Option.some.inj h

/-- An instance that is lent and put back as it was. -/
theorem World.lend_back {w : World σ μ} {v : NodeId} {x : σ}
    (hx : w.instances[v.index]? = some (some x)) :
    { w with instances := (w.instances.set v.index none).set v.index (some x) } = w := by
  rw [List.set_set, set_eq_self hx]

/-- A new task that delivers nothing leaves the deliveries. -/
theorem deliveries_insertSorted {t : Task μ} (ht : t.kind ≠ .receive) : ∀ l : List (Task μ),
    deliveries (Pending.insertSorted t l) = deliveries l
  | [] => deliveries_cons_of_ne ht
  | u :: l => by
    unfold Pending.insertSorted
    split
    · exact deliveries_cons_of_ne ht
    · by_cases hu : u.kind = .receive
      · rw [deliveries_cons hu, deliveries_cons hu, deliveries_insertSorted ht l]
      · rw [deliveries_cons_of_ne hu, deliveries_cons_of_ne hu, deliveries_insertSorted ht l]

/-- At all nodes but `v` nothing changed that a protocol is about. -/
structure Elsewhere (v : NodeId) (w w' : World σ μ) : Prop where
  currents : ∀ i, i ≠ v.index → w'.currents[i]? = w.currents[i]?
  instances : ∀ i, i ≠ v.index → w'.instances[i]? = w.instances[i]?
  results : ∀ i, i ≠ v.index → w'.results[i]? = w.results[i]?

namespace Aside

variable {c : Cluster σ μ} {v : NodeId} {w w₁ w₂ w' : World σ μ}

theorem refl (w : World σ μ) : Aside w w := ⟨rfl, rfl, rfl, .refl _⟩

theorem trans (first : Aside w w₁) (second : Aside w₁ w₂) : Aside w w₂ :=
  ⟨second.currents.trans first.currents, second.instances.trans first.instances,
    second.results.trans first.results, second.posts.trans first.posts⟩

theorem withdrawn (w : World σ μ) (m : MessageId) : Aside w (w.withdrawn m) :=
  ⟨rfl, rfl, rfl, (w.withdrawn_sublist m).filter _⟩

theorem pruned (w : World σ μ) : Aside w w.pruned := ⟨rfl, rfl, rfl, w.pruned_sublist.filter _⟩

theorem recorded (w : World σ μ) (v : NodeId) (e : Event) : Aside w (w.recorded v e) :=
  ⟨rfl, rfl, rfl, .refl _⟩

theorem drawn (w : World σ μ) (source : Source) (fault : FaultState) :
    Aside w { w with source := source, fault := fault } := ⟨rfl, rfl, rfl, .refl _⟩

theorem arrived (w : World σ μ) (v sender : NodeId) (message : μ) (m : MessageId) (k k' : Clock) :
    Aside w (w.arrived c v sender message m k k') := ⟨rfl, rfl, rfl, .refl _⟩

theorem foldl_forfeited (ts : List (Task μ)) (w : World σ μ) :
    Aside w (ts.foldl World.forfeited w) := by
  obtain ⟨pending, candidates, hsub, heq⟩ := World.foldl_forfeited_eq ts w
  rw [heq]
  exact ⟨rfl, rfl, rfl, hsub.filter _⟩

theorem enqueued (w : World σ μ) (k : Clock) {body : Work μ} (next : TaskId)
    (hbody : ∀ sender message m, body ≠ .receive sender message m) :
    Aside w (Step.enqueued w v k body next) :=
  ⟨rfl, rfl, rfl, by
    rw [show deliveries (Step.enqueued w v k body next).pending.tasks = deliveries w.pending.tasks from
      deliveries_insertSorted (Task.kind_ne_receive hbody) _]⟩

theorem scheduled {body : Work μ} (hbody : ∀ sender message m, body ≠ .receive sender message m)
    (h : Scheduled v body w w') : Aside w w' := by
  obtain ⟨k, k', next, -, -, -, rfl⟩ := h
  have hticked : Aside w (Step.ticked w v .work k') := ⟨rfl, rfl, rfl, .refl _⟩
  exact hticked.trans (enqueued _ _ _ hbody)

theorem queued (h : Queued c v w w') : Aside w w' := by
  obtain ⟨a, -, h⟩ := h
  split at h
  · exact scheduled (by simp) h
  · exact h ▸ refl w

theorem started {a : Agenda} (ha : w.agendas[v.index]? = some a) :
    Aside w { w with agendas := w.agendas.set v.index { a with started := true } } := by
  refine ⟨?_, rfl, rfl, .refl _⟩
  unfold World.currents
  rw [List.map_set]
  refine set_eq_self ?_
  rw [List.getElem?_map, ha, Option.map_some]

end Aside

/-- A task that a send posts along with its message delivers nothing. -/
theorem Offered.aside {v : NodeId} {k : Clock} {bodies : List (Work μ)} {ids : List TaskId}
    {w w' : World σ μ} (hbodies : ∀ body ∈ bodies, ∀ sender message m, body ≠ .receive sender message m)
    (h : Offered v k bodies w ids w') : Aside w w' := by
  induction h with
  | nil w => exact .refl w
  | @cons body bodies w w' next ids number rest ih =>
    have hfirst : Aside w (Step.enqueued w v k body next) :=
      .enqueued w k next (hbodies body List.mem_cons_self)
    exact hfirst.trans (ih fun b hb => hbodies b (List.mem_cons_of_mem body hb))

section

variable {c : Cluster σ μ} {v : NodeId} {w w' : World σ μ}

/-- A message that is sent becomes a delivery, unless it is lost. Nothing else changes that a
protocol is about. -/
theorem Sends.posts {message : μ} {target : NodeId} (h : Sends c v message target w w') :
    w'.currents = w.currents ∧ w'.instances = w.instances ∧ w'.results = w.results ∧
      ((deliveries w'.pending.tasks).Sublist (deliveries w.pending.tasks) ∨
        ∃ d : Task μ, d.owner = target ∧ (∃ m, d.body = .receive v message m) ∧
          (deliveries w'.pending.tasks).Subperm (d :: deliveries w.pending.tasks)) := by
  cases h with
  | unknown absent => exact ⟨rfl, rfl, rfl, .inl (.refl _)⟩
  | lose known clock ticks number cut => exact ⟨rfl, rfl, rfl, .inl (.refl _)⟩
  | @post w₁ k k' next nextTask ids known clock ticks number reached place offered =>
    have hoffers : ∀ body ∈ w.offers c v w.nextMessage, ∀ sender message m,
        body ≠ .receive sender message m := by
      intro body hbody sender message m heq
      have hfault := World.isFault_of_offers (t := ⟨w.nextTask, v, k', body⟩) hbody
      subst heq
      cases hfault
    have haside := offered.aside hoffers
    obtain ⟨candidates, hattached⟩ := World.attached_eq w₁ w.nextMessage ids
    rw [hattached]
    refine ⟨haside.currents, haside.instances, haside.results, .inr
      ⟨⟨w.nextTask, target, k', .receive v message w.nextMessage⟩, rfl, ⟨w.nextMessage, rfl⟩, ?_⟩⟩
    refine haside.posts.subperm.trans (List.Perm.subperm ?_)
    have hperm := (Pending.insertSorted_perm
      (⟨w.nextTask, target, k', .receive v message w.nextMessage⟩ : Task μ) w.pending.tasks).filter
        fun t => t.kind = .receive
    exact hperm.trans (List.Perm.of_eq (deliveries_cons rfl))

theorem World.currents_begun {a : Agenda} {i next : UInt64} {text : String} :
    (w.begun v a i next text).currents = w.currents.set v.index (some i) := List.map_set

theorem World.currents_ended {a : Agenda} {i : UInt64} {rs : List Answer} {result : Answer} :
    (w.ended v a i rs result).currents = w.currents.set v.index none := List.map_set

end

/-! ### Handlers at their word -/

namespace Step

open Attempt

section

variable {c : Cluster σ μ} {v : NodeId} {w w' : World σ μ}

/-- A handler ran on the instance of its node and left another one, or there was none. -/
theorem onInstance_ok {ρ : Type} {f : Site → σ → Handler μ (Reply σ ρ)}
    {answer : Option (Except NodeError ρ)} (h : onInstance c v f w = (.ok answer, w')) :
    (answer = none ∧ w.instances[v.index]?.join = none ∧ w' = w) ∨
      ∃ x reply w₁, w.instances[v.index]? = some (some x) ∧
      perform c v (f (c.site v) x) { w with instances := w.instances.set v.index none } =
        (.ok reply, w₁) ∧
      answer = some reply.2 ∧
      w' = { w₁ with instances := w₁.instances.set v.index (some reply.1) } := by
  rw [onInstance, get_bind] at h
  cases hstate : w.instances[v.index]?.join with
  | none =>
    rw [hstate] at h
    cases h
    exact .inl ⟨rfl, rfl, rfl⟩
  | some x =>
    rw [hstate] at h
    simp only [setInstance, modify_bind] at h
    obtain ⟨reply, w₁, hperform, hdone⟩ := bind_ok h
    cases hdone
    exact .inr ⟨x, reply, w₁, Option.join_eq_some_iff.mp hstate, hperform, rfl, rfl⟩

/-- A handler that asks for nothing leaves everything as it is. -/
theorem onInstance_idle {ρ : Type} {f : Site → σ → Handler μ (Reply σ ρ)} {a : ρ}
    (hf : ∀ x, f (c.site v) x = .done (x, .ok a)) {answer : Option (Except NodeError ρ)}
    (h : onInstance c v f w = (.ok answer, w')) :
    w' = w ∧ ∀ result, answer = some result → result = .ok a := by
  rcases onInstance_ok h with ⟨rfl, -, rfl⟩ | ⟨x, reply, w₁, hx, hperform, rfl, rfl⟩
  · exact ⟨rfl, nofun⟩
  · rw [hf] at hperform
    cases hperform
    exact ⟨World.lend_back hx, fun result hr => (Option.some.inj hr).symm⟩

theorem runHook_idle {f : Site → σ → Handler μ (Reply σ Unit)}
    (hf : ∀ x, f (c.site v) x = .done (x, .ok ())) (h : runHook c v f w = (.ok (), w')) : w' = w := by
  obtain ⟨answer, w₁, hrun, hrest⟩ := bind_ok h
  obtain ⟨rfl, hanswer⟩ := onInstance_idle hf hrun
  rcases answer with _ | (e | u)
  · cases hrest
    rfl
  · cases hanswer _ rfl
  · cases hrest
    rfl

/-- A hook ran on the instance of its node, if there is one. -/
theorem runHook_ok {f : Site → σ → Handler μ (Reply σ Unit)} (h : runHook c v f w = (.ok (), w')) :
    (w.instances[v.index]?.join = none ∧ w' = w) ∨
      ∃ x reply w₁, w.instances[v.index]? = some (some x) ∧
      perform c v (f (c.site v) x) { w with instances := w.instances.set v.index none } =
        (.ok reply, w₁) ∧
      (reply.2 = .ok () → w' = { w₁ with instances := w₁.instances.set v.index (some reply.1) }) := by
  obtain ⟨answer, w₂, hrun, hrest⟩ := bind_ok h
  rcases onInstance_ok hrun with ⟨rfl, hnone, rfl⟩ | ⟨x, reply, w₁, hx, hperform, rfl, rfl⟩
  · cases hrest
    exact .inl ⟨hnone, rfl⟩
  · refine .inr ⟨x, reply, w₁, hx, hperform, fun hok => ?_⟩
    rw [hok] at hrest
    cases hrest
    rfl

/-- The handler of an operation ran on the instance of its node, if there is one. An operation that is
to end later stays in flight, and one without a value is concluded. -/
theorem answer_ok {operation : Operation} (h : answer c v operation w = (.ok (), w')) :
    (w.instances[v.index]?.join = none ∧ w' = w) ∨
      ∃ x reply w₁, w.instances[v.index]? = some (some x) ∧
      perform c v (c.protocol.onOperation (c.site v) operation x)
        { w with instances := w.instances.set v.index none } = (.ok reply, w₁) ∧
      (reply.2 = .ok .later →
        w' = { w₁ with instances := w₁.instances.set v.index (some reply.1) }) ∧
      (reply.2 = .ok .void → ∃ b, Concludes c v .void
        { w₁ with instances := w₁.instances.set v.index (some reply.1) } b w') := by
  obtain ⟨answer, w₂, hrun, hrest⟩ := bind_ok h
  rcases onInstance_ok hrun with ⟨rfl, hnone, rfl⟩ | ⟨x, reply, w₁, hx, hperform, rfl, rfl⟩
  · cases hrest
    exact .inl ⟨hnone, rfl⟩
  · refine .inr ⟨x, reply, w₁, hx, hperform, fun hlater => ?_, fun hvoid => ?_⟩
    · rw [hlater] at hrest
      cases hrest
      rfl
    · rw [hvoid] at hrest
      obtain ⟨b, w₃, hconclude, hdone⟩ := bind_ok hrest
      cases hdone
      exact ⟨b, conclude_ok hconclude⟩

/-- A handler that ends with sending a message. -/
theorem perform_send_ok {α : Type} {message : μ} {target : NodeId} {a b : α}
    (h : perform c v (.send message target (.done a)) w = (.ok b, w')) :
    b = a ∧ Sends c v message target w w' := by
  obtain ⟨u, w₁, hsend, hdone⟩ := bind_ok h
  cases hdone
  exact ⟨rfl, send_ok hsend⟩

/-- A handler that sends the same message to several nodes: each of them gets it at most once. -/
theorem perform_sendAll_ok {α : Type} {message : μ} {a b : α} : ∀ {targets : List NodeId}
    {w : World σ μ}, perform c v (.sendAll message targets (.done a)) w = (.ok b, w') →
      b = a ∧ w'.instances = w.instances ∧ w'.results = w.results ∧
        ∃ ds : List (Task μ), (ds.map Task.owner).Sublist targets ∧
          (∀ d ∈ ds, ∃ m, d.body = .receive v message m) ∧
          (deliveries w'.pending.tasks).Subperm (ds ++ deliveries w.pending.tasks)
  | [], w, h => by
    cases h
    exact ⟨rfl, rfl, rfl, [], .slnil, nofun, .refl _⟩
  | target :: targets, w, h => by
    obtain ⟨u, w₁, hsend, hrest⟩ := bind_ok h
    obtain ⟨rfl, hinstances, hresults, ds, howners, hbodies, hsub⟩ := perform_sendAll_ok hrest
    obtain ⟨-, hinstances₁, hresults₁, hposts⟩ := (send_ok hsend).posts
    refine ⟨rfl, hinstances.trans hinstances₁, hresults.trans hresults₁, ?_⟩
    rcases hposts with hposts | ⟨d, rfl, hbody, hposts⟩
    · exact ⟨ds, howners.cons _, hbodies, hsub.trans ((List.subperm_append_left ds).mpr hposts.subperm)⟩
    · refine ⟨d :: ds, howners.cons_cons _, fun e he => ?_, ?_⟩
      · rcases List.mem_cons.mp he with rfl | he
        · exact hbody
        · exact hbodies e he
      · exact (hsub.trans ((List.subperm_append_left ds).mpr hposts)).trans List.perm_middle.subperm

/-- A node that does nothing at its start is only marked as started. -/
theorem wake_idle_eq (hf : ∀ x, c.protocol.onStart (c.site v) x = .done (x, .ok ()))
    (h : wake c v w = (.ok (), w')) :
    ∃ a, w.agendas[v.index]? = some a ∧
      (w' = w ∨ w' = { w with agendas := w.agendas.set v.index { a with started := true } }) := by
  rw [wake, get_bind] at h
  obtain ⟨a, w₁, hentry, hrest⟩ := bind_ok h
  obtain ⟨ha, rfl⟩ := entry_ok_iff.mp hentry
  refine ⟨a, ha, ?_⟩
  cases hstarted : a.started with
  | true =>
    rw [hstarted] at hrest
    cases hrest
    exact .inl rfl
  | false =>
    rw [hstarted] at hrest
    exact .inr (runHook_idle hf hrest)

theorem wake_idle (hf : ∀ x, c.protocol.onStart (c.site v) x = .done (x, .ok ()))
    (h : wake c v w = (.ok (), w')) : Aside w w' := by
  obtain ⟨a, ha, rfl | rfl⟩ := wake_idle_eq hf h
  · exact .refl _
  · exact .started ha

theorem farewell_idle (hf : ∀ x, c.protocol.onFinish (c.site v) x = .done (x, .ok ()))
    (h : farewell c v w = (.ok (), w')) : Aside w w' := by
  obtain ⟨answer, w₁, hrun, hrest⟩ := bind_ok h
  obtain ⟨rfl, hanswer⟩ := onInstance_idle hf hrun
  rcases answer with _ | (e | u)
  · cases hrest
    exact .refl _
  · cases hanswer _ rfl
  · cases hrest
    exact .recorded _ _ _

end

end Step

/-! ### Tasks that succeed -/

/-- What comes of the handler that a task calls. -/
def Served (c : Cluster σ μ) (t : Task μ) (w w' : World σ μ) : Prop :=
  match t.body with
  | .operation i => ∃ operation, (c.operations t.owner)[i.toNat]? = some operation ∧
      Step.answer c t.owner operation w = (.ok (), w')
  | .receive sender message _ =>
    Step.runHook c t.owner (fun site state => c.protocol.onMessage site message sender state) w =
      (.ok (), w')
  | .recover => Step.runHook c t.owner c.protocol.onRecovery w = (.ok (), w')
  | _ => False

/-- What executing a task does if it succeeds. -/
abbrev Success (c : Cluster σ μ) (t : Task μ) : World σ μ → World σ μ → Prop :=
  Stint c (fun w w' => Step.wake c t.owner w = (.ok (), w')) (Served c t) t

section

variable {c : Cluster σ μ} {t : Task μ} {w w' : World σ μ}

theorem Step.serves_ok (t : Task μ) : Step.Serves c (fun _ => False) t
    (fun w w' => Step.wake c t.owner w = (.ok (), w')) (Served c t) where
  clean he := he.elim
  wake {r w w'} h hspares := by
    cases r with
    | ok u => exact h
    | error e => exact (hspares e rfl).elim
  answer {i operation r w w'} hbody hlisted h hspares := by
    cases r with
    | ok u =>
      unfold Served
      rw [hbody]
      exact ⟨operation, hlisted, h⟩
    | error e => exact (hspares e rfl).elim
  receive {sender message m r w w'} hbody h hspares := by
    cases r with
    | ok u =>
      unfold Served
      rw [hbody]
      exact h
    | error e => exact (hspares e rfl).elim
  recover {r w w'} hbody h hspares := by
    cases r with
    | ok u =>
      unfold Served
      rw [hbody]
      exact h
    | error e => exact (hspares e rfl).elim

/-- What holds at the start and is kept by every task and every hook that succeeds holds in all
states reached by them. -/
theorem Reaches.successes {P : World σ μ → Prop} (hstart : ∀ w : World σ μ, P (w.reset c))
    (htask : ∀ {w w' id t pending}, Reaches c (fun _ => False) w →
      w.pending.take id = some (t, pending) → Success c t { w with pending := pending } w' →
      P w → P w')
    (hfarewell : ∀ {v w w'}, Step.farewell c v w = (.ok (), w') → P w → P w')
    (reaches : Reaches c (fun _ => False) w) : P w := by
  induction reaches with
  | start w => exact hstart w
  | task id reached run spares ih =>
    rcases Step.advance_cases run spares with rfl | ⟨t, pending, r, htake, hexecute, hspares⟩
    · exact ih
    · exact htask reached htake (Step.stint_of_execute (Step.serves_ok t) hexecute hspares) ih
  | @farewell w w' r v reached run spares ih =>
    cases r with
    | ok u => exact hfarewell run ih
    | error e => exact (spares e rfl).elim

end

end Interleave
