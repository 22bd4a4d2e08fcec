/-
# Echo is right under every schedule

A crash happens at a message that is on its way. If it is a client that crashes, this
must be its one request, and the crash takes it along; an answer on its way goes down
with the client it is for (`Echo.Answering.crash`). So no errand outlives the operation
that it is run for, and every answer that a client takes is the answer to the operation
it has in flight.

That is kept by everything a task does, whichever fault is injected. And since a
client sends one message an operation and the server one a request, no counter
overflows either (`Echo.honours`). So all results are accepted and no task fails
(`Echo.accepted_and_executed`).
-/
import Interleave.Proofs.Episode
import Interleave.Proofs.Errands

namespace Interleave

namespace Echo

/-! ### The cluster -/

section

variable {s : Simulation} {v : NodeId}

theorem groups_eq (s : Simulation) : s.echoCluster.registry.groups =
    [⟨serverRole, 1, fun _ _ => .inr Server.initial⟩,
      ⟨clientRole, s.nodes - 1, fun _ _ => .inl Client.initial⟩] := rfl

theorem addresses_server (s : Simulation) (v : NodeId) :
    (s.echoCluster.site v).addresses serverRole = [NodeId.ofIndex 0] := rfl

theorem proper_of_spawn {n : Nat} {x : Client ⊕ Server}
    (h : s.echoCluster.registry.spawn? v n = some x) : proper v x := by
  unfold Registry.spawn? Registry.groupOf? at h
  rw [groups_eq, Registry.groupFrom, Registry.groupFrom] at h
  unfold proper
  by_cases hzero : v.index < 0 + 1
  · rw [if_pos hzero] at h
    cases h
    simp
    omega
  · rw [if_neg hzero] at h
    split at h
    · cases h
      simp
      omega
    · cases h

/-- Only clients have operations, and each has one argument. -/
theorem args_of_mem (hecho : s.workload = .echo) {operation : Operation}
    (h : operation ∈ s.echoCluster.operations v) :
    v.index ≠ 0 ∧ ∃ payload, operation.args = [payload] := by
  have hoperations : s.echoCluster.operations v =
      ((List.range s.nodes).map (Workload.echo.operationsOf s.operations)).getD v.index [] := by
    show (s.workload.scenario s.nodes s.operations).of v = _
    rw [hecho]
    rfl
  rw [hoperations, List.getD_eq_getElem?_getD, List.getElem?_map] at h
  by_cases hv : v.index < s.nodes
  · rw [List.getElem?_range hv] at h
    simp only [Option.map_some, Option.getD_some, Workload.operationsOf] at h
    split at h
    · cases h
    · rename_i hne
      obtain ⟨j, -, rfl⟩ := List.mem_map.mp h
      exact ⟨hne, _, rfl⟩
  · rw [List.getElem?_eq_none (by simpa using hv)] at h
    cases h

/-! ### Handlers -/

theorem onOperation_client {operation : Operation} {payload : String} (x : Client)
    (hargs : operation.args = [payload]) :
    s.echoCluster.protocol.onOperation (s.echoCluster.site v) operation (.inl x) =
      .send (.request x.nextId payload) (NodeId.ofIndex 0)
        (.done (.inl ⟨x.nextId + 1, some x.nextId⟩, .ok .later)) := by
  show (Client.onOperation (s.echoCluster.site v) operation x).map _ = _
  rw [Client.onOperation, addresses_server, hargs]
  rfl

theorem onMessage_reply {id : Nat} {payload : String} {sender : NodeId} {x : Client}
    (hid : x.outstanding = some id) :
    s.echoCluster.protocol.onMessage (s.echoCluster.site v) (.reply id payload) sender (.inl x) =
      .complete (some payload) fun _ => .done (.inl { x with outstanding := none }, .ok ()) := by
  show (Client.onMessage (s.echoCluster.site v) (.reply id payload) sender x).map _ = _
  rw [Client.onMessage, if_pos hid]
  rfl

theorem onMessage_request {id : Nat} {payload : String} {sender : NodeId} {x : Server} :
    s.echoCluster.protocol.onMessage (s.echoCluster.site v) (.request id payload) sender (.inr x) =
      .log ("echo " ++ payload ++ " for " ++ sender.text)
        (.send (.reply id payload) sender (.done (.inr ⟨x.echoed ++ [payload]⟩, .ok ()))) := rfl

theorem onMessage_stale {id : Nat} {payload : String} {sender : NodeId} {x : Client}
    (hid : x.outstanding ≠ some id) :
    s.echoCluster.protocol.onMessage (s.echoCluster.site v) (.reply id payload) sender (.inl x) =
      .done (.inl x, .ok ()) := by
  show (Client.onMessage (s.echoCluster.site v) (.reply id payload) sender x).map _ = _
  rw [Client.onMessage, if_neg hid]
  rfl

/-- Neither side does anything at its start, after a crash or at the end. -/
theorem hooks_idle (x : Client ⊕ Server) :
    s.echoCluster.protocol.onStart (s.echoCluster.site v) x = .done (x, .ok ()) ∧
    s.echoCluster.protocol.onRecovery (s.echoCluster.site v) x = .done (x, .ok ()) ∧
    s.echoCluster.protocol.onFinish (s.echoCluster.site v) x = .done (x, .ok ()) := by
  rcases x with x | x <;> exact ⟨rfl, rfl, rfl⟩

end

/-! ### Tasks -/

namespace Answering

open Step Attempt

variable {s : Simulation} {v : NodeId} {t : Task Message} {w w' : World (Client ⊕ Server) Message}

/-- A client that has an operation in flight sends its request, the only errand of the client. -/
theorem ask {operation : Operation} {payload : String} {i : UInt64}
    (h : Answering s.echoCluster (deliveries w.pending.tasks) w)
    (hfree : Free (deliveries w.pending.tasks) v)
    (hv : v.index ≠ 0) (hcurrent : w.currents[v.index]? = some (some i))
    (hlisted : (s.echoCluster.operations v)[i.toNat]? = some operation)
    (hargs : operation.args = [payload])
    (hran : answer s.echoCluster v operation w = (.ok (), w')) :
    Answering s.echoCluster (deliveries w'.pending.tasks) w' := by
  rcases answer_ok hran with ⟨-, rfl⟩ | ⟨x, reply, w₁, hx, hperform, hw', -⟩
  · exact h
  rcases x with y | y
  · rw [onOperation_client y hargs] at hperform
    obtain ⟨rfl, hsends⟩ := perform_send_ok hperform
    have hproper : proper v (.inl ⟨y.nextId + 1, some y.nextId⟩) := by simp [proper, hv]
    obtain ⟨hcurrents, hinstances, hsent⟩ := h.sent hfree hproper hsends (hw' rfl)
    have hpending : w'.pending = w₁.pending := by rw [hw' rfl]
    rw [hpending]
    obtain ⟨-, -, -, hsub | ⟨d, -, ⟨m, hbody⟩, hsub⟩⟩ := hsends.posts
    · exact hsent.less hsub.subperm
    have herrand : errand? d = some ⟨v, y.nextId, payload⟩ := by simp [errand?, hbody]
    refine (hsent.post (d := d) (fun e he => ?_) (fun u hu e e' he he' => ?_) ?_).less hsub
    · cases herrand.symm.trans he
      refine ⟨i, ⟨y.nextId + 1, some y.nextId⟩, operation, ?_, ?_, rfl, hlisted, by rw [hargs]; rfl⟩
      · rw [hcurrents, hcurrent]
      · rw [hinstances, List.getElem?_set_self (List.getElem?_eq_some_iff.mp hx).1]
    · cases herrand.symm.trans he
      exact (hfree u hu e' he').symm
    · simp [hbody]
  · exact absurd ((h.sides v _ hx).mp rfl) hv

/-- A client starts an operation. -/
theorem operation (hecho : s.workload = .echo) {operation : Operation} {a : Agenda} {i next : UInt64}
    (h : Answering s.echoCluster (deliveries w.pending.tasks) w)
    (hidle : w.currents[v.index]? = some none)
    (hlisted : (s.echoCluster.operations v)[i.toNat]? = some operation)
    (hran : answer s.echoCluster v operation (w.begun v a i next operation.text) = (.ok (), w')) :
    Answering s.echoCluster (deliveries w'.pending.tasks) w' := by
  obtain ⟨hv, payload, hargs⟩ := args_of_mem hecho (List.mem_of_getElem? hlisted)
  have hfree : Free (deliveries w.pending.tasks) v := by
    intro u hu e he heq
    obtain ⟨j, -, -, hcurrent, -⟩ := h.due u hu e he
    rw [heq, hidle] at hcurrent
    cases hcurrent
  have hcurrent : (w.begun v a i next operation.text).currents[v.index]? = some (some i) := by
    rw [World.currents_begun, List.getElem?_set_self (List.getElem?_eq_some_iff.mp hidle).1]
  have hbegun : Answering s.echoCluster
      (deliveries (w.begun v a i next operation.text).pending.tasks)
      (w.begun v a i next operation.text) := h.begun hfree
  exact hbegun.ask hfree hv hcurrent hlisted hargs hran

/-- The server passes a request on as an answer. -/
theorem request {id : Nat} {payload : String} {sender : NodeId} {m : MessageId}
    (hbody : t.body = .receive sender (.request id payload) m)
    (h : Answering s.echoCluster (t :: deliveries w.pending.tasks) w)
    (hran : runHook s.echoCluster v
      (fun site x => s.echoCluster.protocol.onMessage site (.request id payload) sender x) w =
        (.ok (), w')) :
    Answering s.echoCluster (deliveries w'.pending.tasks) w' := by
  have hless := h.less (List.sublist_cons_self t _).subperm
  rcases runHook_ok hran with ⟨-, rfl⟩ | ⟨x, reply, w₁, hx, hperform, hw'⟩
  · exact hless
  rcases x with y | y
  · -- A client ignores requests.
    cases hperform
    have hsame : w' = w := (hw' rfl).trans (World.lend_back hx)
    exact hsame ▸ hless
  · have hv : v.index = 0 := (h.sides v _ hx).mp rfl
    rw [onMessage_request] at hperform
    obtain ⟨u, w₀, hlog, hperform⟩ := bind_ok hperform
    cases hlog
    obtain ⟨rfl, hsends⟩ := perform_send_ok hperform
    have hnoted : Answering s.echoCluster (t :: deliveries w.pending.tasks)
        ({ w with logs := w.logs.modify v.index (· ++ ["echo " ++ payload ++ " for " ++ sender.text]) :
          World (Client ⊕ Server) Message }.recorded v
            (.noted ("echo " ++ payload ++ " for " ++ sender.text))) := h.congr rfl rfl rfl
    have hproper : proper v (.inr ⟨y.echoed ++ [payload]⟩) := by simp [proper, hv]
    obtain ⟨-, -, hsent⟩ := hnoted.sent (hnoted.free_of_server hv) hproper hsends (hw' rfl)
    have hpending : w'.pending = w₁.pending := by rw [hw' rfl]
    rw [hpending]
    obtain ⟨-, -, -, hsub | ⟨d, howner, ⟨m', hreply⟩, hsub⟩⟩ := hsends.posts
    · exact hsent.less (hsub.trans (List.sublist_cons_self t _)).subperm
    have herrand : errand? d = errand? t := by simp [errand?, hbody, hreply, howner]
    refine (hsent.forward herrand fun sender' id' payload' n heq => ?_).less hsub
    rw [hreply] at heq
    cases heq
    exact hv

/-- A client takes the answer to its operation in flight. -/
theorem reply {id : Nat} {payload : String} {sender : NodeId} {m : MessageId}
    (hbody : t.body = .receive sender (.reply id payload) m)
    (h : Answering s.echoCluster (t :: deliveries w.pending.tasks) w)
    (hran : runHook s.echoCluster t.owner
      (fun site x => s.echoCluster.protocol.onMessage site (.reply id payload) sender x) w =
        (.ok (), w')) :
    Answering s.echoCluster (deliveries w'.pending.tasks) w' := by
  have hless := h.less (List.sublist_cons_self t _).subperm
  have herrand : errand? t = some ⟨t.owner, id, payload⟩ := by simp [errand?, hbody]
  have hfree : Free (deliveries w.pending.tasks) t.owner :=
    fun u hu e he heq => (List.pairwise_cons.mp h.single).1 u hu _ e herrand he heq.symm
  obtain ⟨i, y, operation, hcurrent, hy, hid, hlisted, hargs⟩ := h.due t List.mem_cons_self _ herrand
  rcases runHook_ok hran with ⟨-, rfl⟩ | ⟨x, reply, w₁, hx, hperform, hw'⟩
  · exact hless
  obtain rfl : x = .inl y := by
    rw [hx] at hy
    exact Option.some.inj (Option.some.inj hy)
  rw [onMessage_reply hid] at hperform
  obtain ⟨b, w₀, hconclude, hperform⟩ := bind_ok hperform
  cases hperform
  have hlent : Answering s.echoCluster (deliveries (w.vacated t.owner).pending.tasks)
      (w.vacated t.owner) := hless.lent (x := none) hfree nofun rfl rfl rfl
  have hright : ∀ (j : UInt64) operation', w.currents[t.owner.index]? = some (some j) →
      (s.echoCluster.operations t.owner)[j.toNat]? = some operation' →
        accepts (.value payload) operation' = true := by
    intro j operation' hj hlisted'
    rw [hcurrent] at hj
    cases hj
    rw [hlisted] at hlisted'
    cases hlisted'
    exact decide_eq_true hargs
  obtain ⟨hended, hsub⟩ := hlent.concluded hfree hright (conclude_ok hconclude)
  obtain rfl := hw' rfl
  refine hended.lent (hfree.subset hsub.subset) (fun z hz => ?_) rfl rfl rfl
  cases hz
  exact h.sides t.owner (.inl y) hx

/-- A client crashes at the request it waits for, so no errand of a node that crashes is left. -/
theorem free_of_crash {c : Cluster (Client ⊕ Server) Message} {d : Task Message} {message : Message}
    {m : MessageId} (h : Answering c (deliveries w.pending.tasks) w) (hd : d ∈ w.pending.tasks)
    (hbody : d.body = .receive v message m) :
    Free (deliveries (w.pending.tasks.filter fun u => !diesWith v m u)) v := by
  intro u hu e he heq
  obtain ⟨hmem, hkind⟩ := List.mem_filter.mp hu
  obtain ⟨hmem, hlives⟩ := List.mem_filter.mp hmem
  have hposted : u ∈ deliveries w.pending.tasks := List.mem_filter.mpr ⟨hmem, hkind⟩
  have hdposted : d ∈ deliveries w.pending.tasks :=
    List.mem_filter.mpr ⟨hd, decide_eq_true (Task.kind_of_receive hbody)⟩
  by_cases hv : v.index = 0
  · exact h.free_of_server hv u hposted e he heq
  cases message with
  | reply id payload => exact hv (h.served d hdposted v id payload m hbody)
  | request id payload =>
    have hdies : diesWith v m d = true := by
      have hle : m ≤ m := Nat.le_refl m.number
      simp [diesWith, Task.sender?, Task.message?, hbody, hle]
    have hne : u ≠ d := fun hsame => by simp [hsame, hdies] at hlives
    have herrand : errand? d = some ⟨v, id, payload⟩ := by simp [errand?, hbody]
    exact h.single.forall hposted hdposted hne e _ he herrand heq

/-- A node crashes at a message of its own that is on its way. -/
theorem crash {c : Cluster (Client ⊕ Server) Message} {d : Task Message} {message : Message}
    {m : MessageId} {fault : FaultState} {w₁ w₂ : World (Client ⊕ Server) Message}
    (h : Answering c (deliveries w.pending.tasks) w) (hd : d ∈ w.pending.tasks)
    (hbody : d.body = .receive v message m)
    (hlost : Aside (w.struck v fault (diesWith v m)) w₁)
    (hstops : w₂ = w₁.vacated v ∨ ∃ i, Ends v .crashed i (w₁.vacated v) w₂)
    (hafter : Aside w₂ w') : Answering c (deliveries w'.pending.tasks) w' := by
  have hstruck : Answering c (deliveries (w.struck v fault (diesWith v m)).pending.tasks)
      (w.struck v fault (diesWith v m)) :=
    (h.less (List.filter_sublist.filter _).subperm).congr rfl rfl rfl
  have hstricken : Answering c (deliveries w₁.pending.tasks) w₁ := hstruck.aside [] hlost
  have hfree : Free (deliveries w₁.pending.tasks) v :=
    (h.free_of_crash hd hbody).subset hlost.posts.subset
  have hvacated : Answering c (deliveries w₁.pending.tasks) (w₁.vacated v) :=
    hstricken.lent (x := none) hfree nofun rfl rfl rfl
  have hstopped : Answering c (deliveries w₂.pending.tasks) w₂ := by
    rcases hstops with rfl | ⟨i, hends⟩
    · exact hvacated
    · rw [hends.frame.1]
      exact hvacated.ended hfree hends fun _ _ => rfl
  exact hstopped.aside [] hafter

/-- A node that comes back starts afresh. No errand is run for it, since it was not there. -/
theorem recover {fault : FaultState} {a : Agenda}
    (h : Answering s.echoCluster (deliveries w.pending.tasks) w)
    (hvacant : w.instances[v.index]?.join = none) (ha : w.agendas[v.index]? = some a)
    (hafter : Aside (w.revived s.echoCluster v fault a) w') :
    Answering s.echoCluster (deliveries w'.pending.tasks) w' := by
  have hfree : Free (deliveries w.pending.tasks) v := by
    intro u hu e he heq
    obtain ⟨j, x, -, -, hx, -⟩ := h.due u hu e he
    rw [heq] at hx
    rw [hx] at hvacant
    cases hvacant
  have hrevived : Answering s.echoCluster
      (deliveries (w.revived s.echoCluster v fault a).pending.tasks)
      (w.revived s.echoCluster v fault a) :=
    h.lent hfree (fun y hy => proper_of_spawn hy) (Aside.started ha).currents rfl rfl
  exact hrevived.aside [] hafter

/-- Everything that a task does keeps the errands in order and the results right. -/
theorem episode (hecho : s.workload = .echo)
    (h : Answering s.echoCluster (deliveries (t :: w.pending.tasks)) w)
    (hepisode : Episode s.echoCluster t w w') :
    Answering s.echoCluster (deliveries w'.pending.tasks) w' := by
  have hrest : Answering s.echoCluster (deliveries w.pending.tasks) w :=
    h.less ((List.sublist_cons_self t _).filter _).subperm
  cases hepisode with
  | pass aside => exact hrest.aside [] aside
  | @begin i next operation a rs w₁ _ body listed woken agenda idle results count ran =>
    have hidle : w₁.currents[t.owner.index]? = some none := by
      rw [World.currents, List.getElem?_map, agenda, Option.map_some, idle]
    exact (hrest.aside [] woken).operation hecho hidle listed ran
  | @receive sender message m w₁ _ body arrived ran =>
    rw [deliveries_cons (Task.kind_of_receive body)] at h
    have harrived := h.aside [t] arrived
    cases message with
    | request id payload => exact harrived.request body ran
    | reply id payload => exact harrived.reply body ran
  | crash body pending carries lost stops after => exact hrest.crash pending carries lost stops after
  | recover body vacant agenda after => exact hrest.recover vacant agenda after

theorem reset (w : World (Client ⊕ Server) Message) :
    Answering s.echoCluster (deliveries (w.reset s.echoCluster).pending.tasks)
      (w.reset s.echoCluster) := by
  have hposts : deliveries (w.reset s.echoCluster).pending.tasks = [] := by
    refine deliveries_eq_nil fun t ht => ?_
    obtain ⟨i, -, rfl⟩ := List.mem_map.mp ht
    exact TaskKind.noConfusion
  rw [hposts]
  refine ⟨fun v x hx => ?_, nofun, .nil, nofun, fun p rs hrs => ?_⟩
  · have hinstances : (w.reset s.echoCluster).instances = (List.range s.echoCluster.size).map fun i =>
        s.echoCluster.registry.spawn? (NodeId.ofIndex i) (w.made.getD i 0) := rfl
    rw [hinstances, List.getElem?_map] at hx
    obtain ⟨i, hi, hspawn⟩ := Option.map_eq_some_iff.mp hx
    obtain rfl : v.index = i := by simpa using (List.getElem?_eq_some_iff.mp hi).2
    rw [NodeId.ofIndex_index] at hspawn
    exact proper_of_spawn hspawn
  · have hrs : (List.replicate s.echoCluster.size ([] : List Answer))[p.index]? = some rs := hrs
    obtain rfl := List.eq_of_mem_replicate (List.mem_of_getElem? hrs)
    exact nofun

end Answering

/-- Errands are in order and results right in all states reached. -/
theorem reaches_answering {s : Simulation} {w : World (Client ⊕ Server) Message}
    (hecho : s.workload = .echo) (hsize : s.echoCluster.size < UInt32.size)
    (hw : Reaches s.echoCluster (fun _ => False) w) :
    Answering s.echoCluster (deliveries w.pending.tasks) w :=
  hw.episodes (fun _ x => hooks_idle x) hsize Answering.reset
    (fun hperm h => (h.less (hperm.filter _).symm.subperm).congr rfl rfl rfl)
    (fun hepisode h => h.episode hecho hepisode) fun haside h => h.aside [] haside

/-! ### What the protocol counts -/

/-- An operation may add to the counters what its request and the answer add, and an answer
nothing. -/
def contract (s : Simulation) : Contract (Client ⊕ Server) Message where
  message
    | .request _ _ => 12
    | .reply _ _ => 0
  operation := 24
  proper := proper
  cap := 2 * s.echoCluster.size + 26 * s.echoCluster.scenario.total

/-- All handlers keep to the contract: an operation sends one request, and a request one answer. -/
theorem honours {s : Simulation} (hecho : s.workload = .echo) :
    s.echoCluster.Honours (contract s) where
  start := Nat.le_refl _
  spawn := proper_of_spawn
  onStart {v x} hx := by
    rw [(hooks_idle x).1]
    exact ⟨hx, (), rfl⟩
  onOperation {v x operation} hx hlisted := by
    obtain ⟨hv, payload, hargs⟩ := args_of_mem hecho hlisted
    rcases x with y | y
    · rw [onOperation_client y hargs]
      exact ⟨Nat.le_refl _, hx, .later, rfl⟩
    · exact absurd (hx.mp rfl) hv
  onMessage {v x message sender} hx := by
    rcases x with y | y
    · cases message with
      | request id payload => exact ⟨hx, (), rfl⟩
      | reply id payload =>
        by_cases hid : y.outstanding = some id
        · rw [onMessage_reply hid]
          exact fun _ => ⟨hx, (), rfl⟩
        · rw [onMessage_stale hid]
          exact ⟨hx, (), rfl⟩
    · cases message with
      | request id payload => exact ⟨Nat.le_refl _, hx, (), rfl⟩
      | reply id payload => exact ⟨hx, (), rfl⟩
  onRecovery {v x} hx := by
    rw [(hooks_idle x).2.1]
    exact ⟨hx, (), rfl⟩
  onFinish {v x} hx := by
    rw [(hooks_idle x).2.2]
    exact ⟨hx, (), rfl⟩

/-! ### The verifier -/

theorem all_accepts {operations : List Operation} {results : List Answer}
    (h : Right operations results) :
    ((results.zip operations).all fun p => accepts p.1 p.2) = true := by
  refine List.all_eq_true.mpr fun p hp => ?_
  obtain ⟨i, hi⟩ := List.mem_iff_getElem?.mp hp
  obtain ⟨hresult, hoperation⟩ := List.getElem?_zip_eq_some.mp hi
  exact h i p.1 p.2 hresult hoperation

theorem verifyFrom_eq_true {scenario : Scenario} (results : List (List Answer)) (n : Nat)
    (h : ∀ (i : Nat) rs, results[i]? = some rs → Right (scenario.of (NodeId.ofIndex (n + i))) rs) :
    verifyFrom scenario n results = true := by
  induction results generalizing n with
  | nil => rfl
  | cons rs rest ih =>
    rw [verifyFrom, Bool.and_eq_true]
    refine ⟨all_accepts (h 0 rs rfl), ih (n + 1) fun i rs' hrs' => ?_⟩
    have hnext := h (i + 1) rs' hrs'
    rwa [show n + (i + 1) = n + 1 + i by omega] at hnext

theorem accepts_completed {r : Answer} {operation : Operation} {payload : String}
    (hargs : operation.args = [payload]) (hr : r.isCompleted = true)
    (haccepts : accepts r operation = true) : r = .value payload := by
  cases r with
  | value text =>
    have hhead : operation.args.head? = some text := of_decide_eq_true haccepts
    rw [hargs] at hhead
    cases hhead
    rfl
  | void => cases haccepts
  | exception kind => cases haccepts
  | crashed => cases hr
  | missing => cases hr

/-- **Echo is right under every schedule**, in all states reached from the start by pending tasks in
any order, however many clients and operations there are and whichever faults are injected: the
results pass the verifier, and every operation that was finished returned its own argument. No
pending task fails; a counter could run out only if the scenario took more than all of memory. -/
theorem accepted_and_executed {s : Simulation} {w : World (Client ⊕ Server) Message}
    (hecho : s.workload = .echo) (haccept : s.echoCluster.toSetup.accept = .ok ())
    (hw : Reaches s.echoCluster (fun _ => False) w) :
    verifier s.echoCluster.scenario w.results = true ∧
    (∀ (p : NodeId) (i : Nat) rs r operation, w.results[p.index]? = some rs → rs[i]? = some r →
      (s.echoCluster.operations p)[i]? = some operation → r.isCompleted = true →
        ∃ payload, operation.args = [payload] ∧ r = .value payload) ∧
    ∀ t ∈ w.pending.tasks, (∃ w', Step.advance s.echoCluster t.id w = (.ok t, w')) ∨
      (memory < s.echoCluster.scenario.bytes ∧
        ∃ w', Step.advance s.echoCluster t.id w = (.error (.panic .overflow), w')) := by
  have hsize : s.echoCluster.size < UInt32.size := Setup.size_lt_of_accept haccept
  have hsized := ((hw.mono fun _ => False.elim).booked_of_clean hsize).2.sized
  have hanswering := reaches_answering hecho hsize hw
  refine ⟨verifyFrom_eq_true w.results 0 fun i rs hrs => ?_, ?_, fun t ht => ?_⟩
  · have hi : i < UInt32.size := by
      have hlt := (List.getElem?_eq_some_iff.mp hrs).1
      rw [hsized.results] at hlt
      omega
    rw [Nat.zero_add]
    exact hanswering.right (.ofIndex i) rs (by rwa [NodeId.index_ofIndex hi])
  · intro p i rs r operation hrs hr hoperation hcompleted
    obtain ⟨-, payload, hargs⟩ := args_of_mem hecho (List.mem_of_getElem? hoperation)
    have haccepts := hanswering.right p rs hrs i r operation hr hoperation
    exact ⟨payload, hargs, accepts_completed hargs hcompleted haccepts⟩
  · refine (hw.advance_ok_or_overflow (honours hecho) hsize id ht).imp_right ?_
    rintro ⟨hcap, hfails⟩
    have hcap : UInt64.size ≤ 2 * s.echoCluster.size + 26 * s.echoCluster.scenario.total := hcap
    refine ⟨?_, hfails⟩
    unfold memory Scenario.bytes
    rw [UInt32.size] at hsize
    rw [UInt64.size] at hcap ⊢
    omega

/-- A client and a server. One of them may crash, until it recovers. -/
def duet : Simulation := ⟨.echo, 2, 2, { Config.default with maxFailed := 1, recovery := .all }⟩

/-- The client crashes at its first request, and its second request goes under the same number. It
takes the answer to that one. -/
theorem accepted_and_executed_duet :
    let w := (Step.advances duet.echoCluster [⟨1⟩, ⟨3⟩, ⟨4⟩, ⟨5⟩, ⟨6⟩]
      ((World.new duet.echoCluster).reset duet.echoCluster)).2
    let w' := (Step.advances duet.echoCluster [⟨1⟩, ⟨3⟩, ⟨4⟩, ⟨5⟩, ⟨6⟩, ⟨8⟩]
      ((World.new duet.echoCluster).reset duet.echoCluster)).2
    (∃ t ∈ w.pending.tasks, t.owner = ⟨1⟩ ∧ t.kind = .receive ∧
      ∃ w₁, Step.advance duet.echoCluster t.id w = (.ok t, w₁)) ∧
    w'.results = [[], [.crashed, .value "c1-1"]] ∧
    verifier duet.echoCluster.scenario w'.results = true ∧
    ∀ operation, (duet.echoCluster.operations ⟨1⟩)[1]? = some operation →
      operation.args = ["c1-1"] := by
  intro w w'
  have hw : Reaches duet.echoCluster (fun _ => False) w :=
    (Reaches.start (World.new duet.echoCluster)).advances (by decide +kernel)
  have hw' : Reaches duet.echoCluster (fun _ => False) w' :=
    (Reaches.start (World.new duet.echoCluster)).advances (by decide +kernel)
  have hresults : w'.results = [[], [.crashed, .value "c1-1"]] := by decide +kernel
  have hreply : ∃ t ∈ w.pending.tasks, t.owner = ⟨1⟩ ∧ t.kind = .receive := by decide +kernel
  obtain ⟨t, ht, howner, hkind⟩ := hreply
  obtain ⟨-, -, hexecuted⟩ := accepted_and_executed rfl (by decide +kernel) hw
  obtain ⟨haccepted, hreturned, -⟩ := accepted_and_executed rfl (by decide +kernel) hw'
  refine ⟨⟨t, ht, howner, hkind, ?_⟩, hresults, haccepted, fun operation hoperation => ?_⟩
  · have hfits : ¬ memory < duet.echoCluster.scenario.bytes := by decide +kernel
    exact (hexecuted t ht).resolve_right fun hfails => hfits hfails.1
  · have hrs : w'.results[(⟨1⟩ : NodeId).index]? = some [.crashed, .value "c1-1"] := by
      rw [hresults]
      rfl
    obtain ⟨payload, hargs, heq⟩ := hreturned ⟨1⟩ 1 _ _ operation hrs rfl hoperation rfl
    cases heq
    exact hargs

end Echo

end Interleave
