/-
# The register on first-in first-out links

A client and a server, with no faults. What can be seen of them is small: the client
rests, or it asked and the server did not get there, or the answer is on its way
(`Register.Phase`). Writes are on the link in the order they were sent and a read comes
after them, so the number that the server will hold when it comes to the read is the
one written last.

Executing any task that does not overtake another leads from one of these phases to
one of them (`Register.Serving.schedule`), so the results are right in all of them
(`Register.reads_own_writes`).
-/
import Interleave.Proofs.Closing
import Interleave.Proofs.Reads
import Interleave.Proofs.Scene
import Interleave.Simulation

namespace Interleave

namespace Register

/-! ### The cluster -/

/-- The address of the client. -/
def clientAddress : NodeId := ⟨1⟩

/-- A server and a client with these operations. -/
def pair (config : Config) (operations : List Operation) : Cluster (Client ⊕ Server) Message :=
  { Simulation.registerCluster ⟨.register, 2, 0, config⟩ with scenario := ⟨[[], operations]⟩ }

/-- A read, or a write of an integer. -/
def Accessible (operation : Operation) : Prop :=
  operation.name = "read" ∨ operation.name = "write" ∧ (Client.argument? operation).isSome = true

instance (operation : Operation) : Decidable (Accessible operation) :=
  inferInstanceAs (Decidable (_ ∨ _))

variable {config : Config} {operations : List Operation} {v : NodeId}

theorem size_pair : (pair config operations).size < UInt32.size := by
  show 2 < UInt32.size
  decide

theorem server_lt : serverAddress.index < (pair config operations).size := Nat.two_pos

theorem client_lt : clientAddress.index < (pair config operations).size := Nat.one_lt_two

theorem groups_pair : (pair config operations).registry.groups =
    [⟨serverRole, 1, fun _ _ => .inr Server.initial⟩,
      ⟨clientRole, 1, fun _ _ => .inl Client.initial⟩] := rfl

theorem total_pair : (pair config operations).scenario.total = operations.length := by
  show ([] ++ (operations ++ [])).length = _
  simp

theorem deterministic_pair : (pair config operations).registry.Deterministic := by
  intro g hg v i j
  rw [groups_pair] at hg
  simp only [List.mem_cons, List.not_mem_nil, or_false] at hg
  rcases hg with rfl | rfl
  · rfl
  · rfl

/-- There are two nodes. -/
theorem address_of_lt (hv : v.index < 2) : v = serverAddress ∨ v = clientAddress := by
  have hword : v.val.toNat < 2 := hv
  obtain ⟨val⟩ := v
  have hval : val = 0 ∨ val = 1 := by
    rcases Nat.lt_succ_iff_lt_or_eq.mp hword with hlt | heq
    · exact .inl (UInt32.toNat_inj.mp (Nat.lt_one_iff.mp hlt))
    · exact .inr (UInt32.toNat_inj.mp heq)
  rcases hval with rfl | rfl
  · exact .inl rfl
  · exact .inr rfl

/-- Only the client has operations. -/
theorem eq_client_of_mem {operation : Operation}
    (h : operation ∈ (pair config operations).operations v) :
    v = clientAddress ∧ operation ∈ operations := by
  by_cases hv : v.index < 2
  · rcases address_of_lt hv with rfl | rfl
    · cases h
    · exact ⟨rfl, h⟩
  · have hnone : (pair config operations).operations v = [] := by
      show [[], operations].getD v.index [] = []
      rw [List.getD_eq_getElem?_getD, List.getElem?_eq_none (Nat.not_lt.mp hv)]
      rfl
    rw [hnone] at h
    cases h

/-! ### Handlers -/

section

variable {site : Site} {operation : Operation} {sender : NodeId}

theorem onOperation_write {n : Int64} (x : Client) (hname : operation.name = "write")
    (hargument : Client.argument? operation = some n) :
    (pair config operations).protocol.onOperation site operation (.inl x) =
      .send (.write n) serverAddress (.done (.inl x, .ok .void)) := by
  show (Client.onOperation site operation x).map _ = _
  rw [Client.onOperation, if_pos hname, hargument]
  rfl

theorem onOperation_read (x : Client) (hname : operation.name = "read") :
    (pair config operations).protocol.onOperation site operation (.inl x) =
      .send .read serverAddress (.done (.inl ⟨true⟩, .ok .later)) := by
  show (Client.onOperation site operation x).map _ = _
  rw [Client.onOperation, if_neg (by rw [hname]; decide), if_pos hname]
  rfl

theorem onMessage_write (n : Int64) (y : Server) :
    (pair config operations).protocol.onMessage site (.write n) sender (.inr y) =
      .done (.inr ⟨n⟩, .ok ()) := rfl

theorem onMessage_read (y : Server) :
    (pair config operations).protocol.onMessage site .read sender (.inr y) =
      .send (.value y.value) sender (.done (.inr y, .ok ())) := rfl

theorem onMessage_value (n : Int64) :
    (pair config operations).protocol.onMessage site (.value n) sender (.inl ⟨true⟩) =
      .complete (some (numberText n)) fun _ => .done (.inl ⟨false⟩, .ok ()) := rfl

end

theorem placid : (pair config operations).Placid := by
  rintro v (x | y)
  · exact ⟨rfl, rfl, rfl⟩
  · exact ⟨rfl, rfl, rfl⟩

theorem discreet : (pair config operations).protocol.Discreet where
  start site x := by
    rcases x with x | y <;> trivial
  quiet site x := by
    rcases x with x | y <;> trivial
  operation site operation x := by
    rcases x with x | y
    · show ((Client.onOperation site operation x).map _).Discreet
      unfold Client.onOperation
      split
      · split <;> trivial
      · split <;> trivial
    · trivial
  message site message sender x := by
    rcases x with x | y
    · show ((Client.onMessage site message sender x).map _).Discreet
      unfold Client.onMessage
      split
      · split
        · exact fun _ => trivial
        · trivial
      · trivial
    · cases message <;> trivial

/-! ### What is seen -/

/-- What can be seen of a client and a server. -/
structure View where
  server : Server
  client : Client
  /-- The operation of the client that is in flight. -/
  current : Option UInt64
  /-- The operation of the client that is to run next. -/
  next : UInt64
  results : List Answer
  /-- The messages to the server. -/
  requests : List Message
  /-- The messages to the client. -/
  replies : List Message
  /-- The operations of the server that wait. There is nothing to them. -/
  idle : List UInt64
  /-- The operations of the client that wait. -/
  waiting : List UInt64
  tasks : Nat

namespace View

def scene (V : View) : Scene (Client ⊕ Server) Message where
  turns := [(none, 0), (V.current, V.next)]
  instances := [some (.inr V.server), some (.inl V.client)]
  results := [[], V.results]
  letters p q :=
    if p = clientAddress ∧ q = serverAddress then V.requests
    else if p = serverAddress ∧ q = clientAddress then V.replies else []
  waiting p :=
    if p = serverAddress then V.idle else if p = clientAddress then V.waiting else []
  tasks := V.tasks

variable (V : View)

theorem scene_seated_client (x : Client) :
    V.scene.seated clientAddress (some (.inl x)) = { V with client := x }.scene := rfl

theorem scene_seated_server (x : Server) :
    V.scene.seated serverAddress (some (.inr x)) = { V with server := x }.scene := rfl

theorem scene_begun (i next : UInt64) :
    V.scene.begun clientAddress i next = View.scene { V with
      current := some i, next := next, results := V.results ++ [.missing] } := rfl

theorem scene_carrying_requests (l : List Message) :
    V.scene.carrying clientAddress serverAddress l = { V with requests := l }.scene := by
  refine Scene.ext rfl rfl rfl (funext fun p => funext fun q => ?_) rfl rfl
  show (if clientAddress = p ∧ serverAddress = q then l else V.scene.letters p q) = _
  by_cases hlink : p = clientAddress ∧ q = serverAddress
  · obtain ⟨rfl, rfl⟩ := hlink
    rfl
  · rw [if_neg fun h => hlink ⟨h.1.symm, h.2.symm⟩]
    simp [scene, hlink]

theorem scene_carrying_replies (l : List Message) :
    V.scene.carrying serverAddress clientAddress l = { V with replies := l }.scene := by
  refine Scene.ext rfl rfl rfl (funext fun p => funext fun q => ?_) rfl rfl
  show (if serverAddress = p ∧ clientAddress = q then l else V.scene.letters p q) = _
  by_cases hlink : p = serverAddress ∧ q = clientAddress
  · obtain ⟨rfl, rfl⟩ := hlink
    rfl
  · rw [if_neg fun h => hlink ⟨h.1.symm, h.2.symm⟩]
    simp [scene, hlink]

theorem scene_posted_request (message : Message) :
    V.scene.posted clientAddress serverAddress message =
      { V with requests := V.requests ++ [message], tasks := V.tasks + 1 }.scene := by
  unfold Scene.posted
  rw [show V.scene.letters clientAddress serverAddress = V.requests from rfl, scene_carrying_requests]
  rfl

theorem scene_posted_reply (message : Message) :
    V.scene.posted serverAddress clientAddress message =
      { V with replies := V.replies ++ [message], tasks := V.tasks + 1 }.scene := by
  unfold Scene.posted
  rw [show V.scene.letters serverAddress clientAddress = V.replies from rfl, scene_carrying_replies]
  rfl

theorem scene_awaiting_server (l : List UInt64) :
    V.scene.awaiting serverAddress l = { V with idle := l }.scene := by
  refine Scene.ext rfl rfl rfl rfl (funext fun p => ?_) rfl
  show (if serverAddress = p then l else V.scene.waiting p) = _
  by_cases hp : p = serverAddress
  · subst hp
    rfl
  · rw [if_neg fun h => hp h.symm]
    simp [scene, hp]

theorem scene_awaiting_client (l : List UInt64) :
    V.scene.awaiting clientAddress l = { V with waiting := l }.scene := by
  refine Scene.ext rfl rfl rfl rfl (funext fun p => ?_) rfl
  show (if clientAddress = p then l else V.scene.waiting p) = _
  by_cases hp : p = clientAddress
  · subst hp
    rfl
  · rw [if_neg fun h => hp h.symm]
    simp [scene, hp]

/-- The client after operation `i`, with the next one called if there is one. -/
def rested (V : View) (operations : List Operation) (i next : UInt64) (result : Answer) : View :=
  { V with
    current := none
    next := next
    results := V.results.set i.toNat result
    waiting := V.waiting ++ if next.toNat < operations.length then [next] else []
    tasks := V.tasks + if next.toNat < operations.length then 1 else 0 }

theorem scene_rested (operations : List Operation) (i next : UInt64) (result : Answer) :
    (V.scene.ended clientAddress i next result).called clientAddress next operations =
      (V.rested operations i next result).scene := by
  have hended : V.scene.ended clientAddress i next result =
      { V with current := none, next := next, results := V.results.set i.toNat result }.scene := rfl
  rw [hended, Scene.called, rested]
  by_cases hlt : next.toNat < operations.length
  · rw [if_pos hlt, if_pos hlt, if_pos hlt, scene_awaiting_client]
    rfl
  · rw [if_neg hlt, if_neg hlt, if_neg hlt, List.append_nil]
    rfl

end View

/-! ### Phases -/

/-- Where a client and a server stand. Throughout, `due` says that the server will hold what was
written last once it has taken the writes that are on their way. -/
inductive Phase (operations : List Operation) : View → Prop
  | resting {server : Server} {i : UInt64} {written : List Int64} {idle waiting : List UInt64}
      {n : Nat} (within : i.toNat ≤ operations.length)
      (due : written.getLastD server.value = lastWritten 0 (operations.take i.toNat))
      (called : waiting = [i] ∨ waiting = [] ∧ i.toNat = operations.length)
      (count : n ≤ 2 + 3 * i.toNat) :
      Phase operations ⟨server, ⟨false⟩, none, i, answers 0 (operations.take i.toNat),
        written.map .write, [], idle, waiting, n⟩
  | asking {server : Server} {operation : Operation} {i next : UInt64} {written : List Int64}
      {idle : List UInt64} {n : Nat} (listed : operations[i.toNat]? = some operation)
      (read : operation.name = "read") (step : next.toNat = i.toNat + 1)
      (due : written.getLastD server.value = lastWritten 0 (operations.take i.toNat))
      (count : n ≤ 3 + 3 * i.toNat) :
      Phase operations ⟨server, ⟨true⟩, some i, next,
        answers 0 (operations.take i.toNat) ++ [.missing], written.map .write ++ [.read], [], idle, [], n⟩
  | answered {server : Server} {operation : Operation} {i next : UInt64} {idle : List UInt64}
      {n : Nat} (listed : operations[i.toNat]? = some operation) (read : operation.name = "read")
      (step : next.toNat = i.toNat + 1)
      (due : server.value = lastWritten 0 (operations.take i.toNat)) (count : n ≤ 4 + 3 * i.toNat) :
      Phase operations ⟨server, ⟨true⟩, some i, next,
        answers 0 (operations.take i.toNat) ++ [.missing], [], [.value server.value], idle, [], n⟩

namespace Phase

variable {V : View} {operation : Operation} {i next : UInt64}

theorem idled (h : Phase operations V) (l : List UInt64) :
    Phase operations { V with idle := l } := by
  cases h with
  | resting within due called count => exact .resting within due called count
  | asking listed read step due count => exact .asking listed read step due count
  | answered listed read step due count => exact .answered listed read step due count

theorem tasks_le (h : Phase operations V) : V.tasks ≤ 2 + 3 * operations.length := by
  cases h with
  | resting within due called count => dsimp only; omega
  | asking listed read step due count =>
    have hlt := (List.getElem?_eq_some_iff.mp listed).1
    dsimp only
    omega
  | answered listed read step due count =>
    have hlt := (List.getElem?_eq_some_iff.mp listed).1
    dsimp only
    omega

/-- In all phases the results are right as far as they go. -/
theorem results_eq (h : Phase operations V) :
    ∃ k rest, V.results = answers 0 (operations.take k) ++ rest ∧ ∀ r ∈ rest, r = .missing := by
  cases h with
  | resting => exact ⟨_, [], (List.append_nil _).symm, nofun⟩
  | asking => exact ⟨_, [.missing], rfl, fun r hr => List.mem_singleton.mp hr⟩
  | answered => exact ⟨_, [.missing], rfl, fun r hr => List.mem_singleton.mp hr⟩

/-- Where nothing is on its way and nothing waits, all operations are done. -/
theorem finished (h : Phase operations V) (hrequests : V.requests = []) (hreplies : V.replies = [])
    (hwaiting : V.waiting = []) : V.results = answers 0 operations := by
  cases h with
  | resting within due called count =>
    rcases called with rfl | ⟨-, hlength⟩
    · cases hwaiting
    · dsimp only
      rw [hlength, List.take_length]
  | asking => exact absurd hrequests (by simp)
  | answered => cases hreplies

/-- An operation of the client waits only while the client rests, and it is the next one. -/
theorem of_waiting {l l' : List UInt64} (h : Phase operations V)
    (hwaiting : V.waiting = l ++ i :: l') :
    ∃ (server : Server) (written : List Int64) (n : Nat),
      { V with waiting := l ++ l' } = View.mk server ⟨false⟩ none i
        (answers 0 (operations.take i.toNat)) (written.map .write) [] V.idle [] n ∧
      i.toNat ≤ operations.length ∧
      written.getLastD server.value = lastWritten 0 (operations.take i.toNat) ∧
      n ≤ 2 + 3 * i.toNat := by
  cases h with
  | asking => exact absurd hwaiting (by simp)
  | answered => exact absurd hwaiting (by simp)
  | @resting server j written idle waiting n within due called count =>
    rcases called with rfl | ⟨rfl, -⟩
    · have hwaiting : l ++ i :: l' = [j] := hwaiting.symm
      rcases List.append_eq_singleton_iff.mp hwaiting with ⟨rfl, htail⟩ | ⟨-, htail⟩
      · cases htail
        exact ⟨server, written, n, rfl, within, due, count⟩
      · cases htail
    · exact absurd hwaiting (by simp)

/-- The client rests after an operation that returned what it should. -/
theorem rested {server : Server} {written : List Int64} {idle : List UInt64} {n : Nat}
    (hlisted : operations[i.toNat]? = some operation) (hstep : next.toNat = i.toNat + 1)
    (hdue : written.getLastD server.value =
      writtenBy (lastWritten 0 (operations.take i.toNat)) operation)
    (hcount : n ≤ 4 + 3 * i.toNat) :
    Phase operations (View.rested ⟨server, ⟨false⟩, some i, next,
      answers 0 (operations.take i.toNat) ++ [.missing], written.map .write, [], idle, [], n⟩
      operations i next (answer (lastWritten 0 (operations.take i.toNat)) operation)) := by
  have hlt : i.toNat < operations.length := (List.getElem?_eq_some_iff.mp hlisted).1
  have htake : operations.take next.toNat = operations.take i.toNat ++ [operation] := by
    rw [hstep, List.take_add_one, hlisted]
    rfl
  have hlength : (answers 0 (operations.take i.toNat)).length = i.toNat := by
    rw [length_answers, List.length_take_of_le (Nat.le_of_lt hlt)]
  have hresults : (answers 0 (operations.take i.toNat) ++ [Answer.missing]).set i.toNat
      (answer (lastWritten 0 (operations.take i.toNat)) operation) =
      answers 0 (operations.take next.toNat) := by
    rw [htake, answers_concat, List.set_append_right _ _ (Nat.le_of_eq hlength), hlength,
      Nat.sub_self]
    rfl
  unfold View.rested
  dsimp only
  rw [hresults]
  refine .resting (by omega) ?_ ?_ ?_
  · rw [hdue, htake, lastWritten_concat]
  · by_cases hnext : next.toNat < operations.length
    · exact .inl (by rw [if_pos hnext]; rfl)
    · exact .inr ⟨by rw [if_neg hnext]; rfl, by omega⟩
  · split <;> omega

/-- The server takes the request that comes first: a write is stored, a read is answered. -/
theorem request {message : Message} {l : List Message} (h : Phase operations V)
    (hrequests : V.requests = message :: l) :
    (∃ k, message = .write k ∧ Phase operations { V with server := ⟨k⟩, requests := l }) ∨
    (message = .read ∧ Phase operations { V with
      requests := l, replies := V.replies ++ [.value V.server.value], tasks := V.tasks + 1 }) := by
  cases h with
  | @resting server i written idle waiting n within due called count =>
    obtain ⟨k, rest, rfl, rfl, rfl⟩ := List.map_eq_cons_iff.mp hrequests
    rw [List.getLastD_cons] at due
    exact .inl ⟨k, rfl, .resting within due called count⟩
  | @asking server operation i next written idle n listed read step due count =>
    cases written with
    | nil =>
      cases hrequests
      exact .inr ⟨rfl, .answered listed read step due (by dsimp only; omega)⟩
    | cons k rest =>
      cases hrequests
      rw [List.getLastD_cons] at due
      exact .inl ⟨k, rfl, .asking listed read step due count⟩
  | answered => cases hrequests

/-- The client takes the answer to its read. -/
theorem reply {message : Message} {l : List Message} (h : Phase operations V)
    (hreplies : V.replies = message :: l) :
    ∃ i k, message = .value k ∧ V.client = ⟨true⟩ ∧ V.current = some i ∧
      Phase operations (View.rested { V with client := ⟨false⟩, replies := l } operations i V.next
        (.value (numberText k))) := by
  cases h with
  | resting => cases hreplies
  | asking => cases hreplies
  | @answered server operation i next idle n listed read step due count =>
    cases hreplies
    have hwrite : operation.name ≠ "write" := by rw [read]; decide
    have hanswer : answer (lastWritten 0 (operations.take i.toNat)) operation =
        .value (numberText server.value) := by rw [answer, if_neg hwrite, due]
    have hdue : ([] : List Int64).getLastD server.value =
        writtenBy (lastWritten 0 (operations.take i.toNat)) operation := by
      rw [writtenBy, if_neg hwrite]
      exact due
    refine ⟨i, server.value, rfl, rfl, rfl, ?_⟩
    rw [← hanswer]
    exact rested listed step hdue count

end Phase

/-! ### Tasks -/

/-- A client and a server in one of the phases. -/
structure Serving (config : Config) (operations : List Operation)
    (w : World (Client ⊕ Server) Message) : Prop where
  calm : Calm (pair config operations) w
  orderly : Orderly .free w
  phase : ∃ V : View, w.scene = V.scene ∧ Phase operations V

namespace Serving

variable {t : Task Message} {w w' : World (Client ⊕ Server) Message}

/-- The server has no operations to start. -/
theorem idle (hw : Calm (pair config operations) w) {V : View} (hphase : Phase operations V)
    {l : List UInt64} (hscene : w.scene = { V with idle := l }.scene) {i : UInt64}
    (hran : Step.invoke (pair config operations) serverAddress i w = (.ok (), w')) :
    ∃ V' : View, w'.scene = V'.scene ∧ Phase operations V' := by
  have hx : w.scene.instances[serverAddress.index]? = some (some (.inr V.server)) := by
    rw [hscene]
    rfl
  rcases hw.scene_invoke placid hx hran with ⟨-, hsame⟩ | ⟨operation, _, _, _, _, hlisted, -⟩
  · exact ⟨_, hsame.trans hscene, hphase.idled l⟩
  · cases hlisted

/-- The client starts the operation it comes to next, if there is one. -/
theorem operation (hc : FaultFree (pair config operations))
    (haccess : ∀ o ∈ operations, Accessible o)
    (hw : Calm (pair config operations) w) {V : View} {i : UInt64} {l l' : List UInt64}
    (hphase : Phase operations V) (hwaiting : V.waiting = l ++ i :: l')
    (hscene : w.scene = { V with waiting := l ++ l' }.scene)
    (hran : Step.invoke (pair config operations) clientAddress i w = (.ok (), w')) :
    ∃ V' : View, w'.scene = V'.scene ∧ Phase operations V' := by
  obtain ⟨server, written, n, hview, within, due, count⟩ := hphase.of_waiting hwaiting
  rw [hview] at hscene
  have hx : w.scene.instances[clientAddress.index]? = some (some (.inl ⟨false⟩)) := by
    rw [hscene]
    rfl
  rcases hw.scene_invoke placid hx hran with
    ⟨hnone, hsame⟩ |
    ⟨operation, next, reply, w₁, w₂, hlisted, hnext, hw₁, hscene₁, hperform, hlater, hvoid⟩
  · have hlength : operations.length ≤ i.toNat := List.getElem?_eq_none_iff.mp hnone
    exact ⟨_, hsame.trans hscene, .resting within due (.inr ⟨rfl, by omega⟩) count⟩
  have hstep := toNat_of_wordSucc? hnext
  have hlisted : operations[i.toNat]? = some operation := hlisted
  rw [hscene] at hscene₁
  rcases haccess operation (List.mem_of_getElem? hlisted) with hread | ⟨hwrite, hsome⟩
  · rw [onOperation_read _ hread] at hperform
    obtain ⟨rfl, -, hscene₂⟩ := hw₁.scene_send hc client_lt server_lt hperform
    refine ⟨⟨server, ⟨true⟩, some i, next, answers 0 (operations.take i.toNat) ++ [.missing],
      written.map .write ++ [.read], [], V.idle, [], n + 1⟩, ?_,
      .asking hlisted hread hstep due (by omega)⟩
    rw [hlater rfl, hscene₂, hscene₁, Scene.posted_seated, Scene.seated_seated, View.scene_begun,
      View.scene_posted_request, View.scene_seated_client]
  · obtain ⟨k, hk⟩ := Option.isSome_iff_exists.mp hsome
    rw [onOperation_write _ hwrite hk] at hperform
    obtain ⟨rfl, hw₂, hscene₂⟩ := hw₁.scene_send hc client_lt server_lt hperform
    have hturn : w₂.scene.turns[clientAddress.index]? = some (some i, next) := by
      rw [hscene₂, hscene₁]
      rfl
    have hposted : w₂.scene.seated clientAddress (some (.inl ⟨false⟩)) =
        View.scene ⟨server, ⟨false⟩, some i, next,
          answers 0 (operations.take i.toNat) ++ [.missing], (written ++ [k]).map .write, [], V.idle, [],
          n + 1⟩ := by
      rw [hscene₂, hscene₁, Scene.posted_seated, Scene.seated_seated, View.scene_begun,
        View.scene_posted_request, View.scene_seated_client, List.map_append]
      rfl
    have hanswer : answer (lastWritten 0 (operations.take i.toNat)) operation = .void :=
      if_pos hwrite
    have hdue : (written ++ [k]).getLastD server.value =
        writtenBy (lastWritten 0 (operations.take i.toNat)) operation := by
      rw [writtenBy, if_pos hwrite, hk]
      simp
    have hcount : n + 1 ≤ 4 + 3 * i.toNat := by omega
    have hrested :=
      @Phase.rested operations operation i next server _ V.idle _ hlisted hstep hdue hcount
    rw [hanswer] at hrested
    refine ⟨_, ?_, hrested⟩
    rw [hvoid rfl hw₂ hturn, hposted]
    exact View.scene_rested _ _ _ _ _

/-- The server takes a request. -/
theorem request (hc : FaultFree (pair config operations)) (hw : Calm (pair config operations) w)
    {V : View} {message : Message} {l : List Message} (hphase : Phase operations V)
    (hrequests : V.requests = message :: l) (hscene : w.scene = { V with requests := l }.scene)
    {clock : Clock} {m : MessageId}
    (hran : Step.deliver (pair config operations) serverAddress clock clientAddress message m w =
      (.ok (), w')) :
    ∃ V' : View, w'.scene = V'.scene ∧ Phase operations V' := by
  have hx : w.scene.instances[serverAddress.index]? = some (some (.inr V.server)) := by
    rw [hscene]
    rfl
  obtain ⟨reply, w₁, w₂, hw₁, hscene₁, hperform, hdone⟩ :=
    hw.scene_deliver placid server_lt client_lt hx hran
  rw [hscene] at hscene₁
  rcases hphase.request hrequests with ⟨k, rfl, hstored⟩ | ⟨rfl, hserved⟩
  · rw [onMessage_write] at hperform
    cases hperform
    refine ⟨_, ?_, hstored⟩
    rw [hdone rfl, hscene₁, Scene.seated_seated, View.scene_seated_server]
  · rw [onMessage_read] at hperform
    obtain ⟨rfl, -, hscene₂⟩ := hw₁.scene_send hc server_lt client_lt hperform
    refine ⟨_, ?_, hserved⟩
    rw [hdone rfl, hscene₂, hscene₁, Scene.posted_seated, Scene.seated_seated,
      View.scene_posted_reply, View.scene_seated_server]

/-- The client takes an answer. -/
theorem reply (hw : Calm (pair config operations) w) {V : View} {message : Message}
    {l : List Message} (hphase : Phase operations V) (hreplies : V.replies = message :: l)
    (hscene : w.scene = { V with replies := l }.scene) {clock : Clock} {m : MessageId}
    (hran : Step.deliver (pair config operations) clientAddress clock serverAddress message m w =
      (.ok (), w')) :
    ∃ V' : View, w'.scene = V'.scene ∧ Phase operations V' := by
  obtain ⟨i, k, rfl, hclient, hcurrent, hrested⟩ := hphase.reply hreplies
  have hx : w.scene.instances[clientAddress.index]? = some (some (.inl ⟨true⟩)) := by
    rw [hscene, ← hclient]
    rfl
  obtain ⟨reply, w₁, w₂, hw₁, hscene₁, hperform, hdone⟩ :=
    hw.scene_deliver placid client_lt server_lt hx hran
  rw [hscene] at hscene₁
  rw [onMessage_value] at hperform
  obtain ⟨b, w₃, hconclude, hperform⟩ := Attempt.bind_ok hperform
  cases hperform
  have hturn : w₁.scene.turns[clientAddress.index]? = some (some i, V.next) := by
    rw [hscene₁, ← hcurrent]
    rfl
  refine ⟨_, ?_, hrested⟩
  rw [hdone rfl, hw₁.scene_concludes hturn (Step.conclude_ok hconclude), hscene₁,
    Scene.ended_seated, Scene.called_seated, Scene.seated_seated]
  show (Scene.called _ clientAddress V.next operations).seated clientAddress _ = _
  rw [View.scene_rested, View.scene_seated_client]
  rfl

/-- **Executing a task leads from a phase to a phase**, if the task does not have to wait. -/
theorem advance (hc : FaultFree (pair config operations))
    (haccess : ∀ o ∈ operations, Accessible o)
    (hw : Serving config operations w) (hwaits : Tree.waits w.pending.views t.view = false)
    (hrun : Step.advance (pair config operations) t.id w = (.ok t, w')) :
    Serving config operations w' := by
  refine ⟨(hw.calm.moves hc discreet hrun).1, hw.orderly.advance hwaits hrun, ?_⟩
  obtain ⟨V, hscene, hphase⟩ := hw.phase
  obtain ⟨pending, htake, hexec⟩ := Step.advance_ok_iff.mp hrun
  obtain ⟨hget, herase⟩ := Pending.take_eq_some_iff.mp htake
  have hrest : Calm (pair config operations) { w with pending := pending } := by
    rw [herase]
    exact hw.calm.erase t.id
  obtain ⟨howner, hbodied⟩ := hw.calm.sound t.draft
    (Multiset.mem_coe.mpr (List.mem_map_of_mem (hw.calm.get?_eq_some_iff.mp hget)))
  rw [Step.execute] at hexec
  cases hbody : t.body with
  | operation i =>
    rw [hbody] at hexec
    obtain ⟨l, l', hwaiting, htaken⟩ := hw.orderly.numbered.scene_of_operation htake hbody
    rcases address_of_lt howner with hv | hv
    · rw [show t.owner = serverAddress from hv] at hexec htaken
      rw [hscene, View.scene_awaiting_server] at htaken
      exact idle hrest hphase htaken hexec
    · rw [show t.owner = clientAddress from hv] at hexec htaken hwaiting
      rw [hscene] at hwaiting htaken
      rw [View.scene_awaiting_client] at htaken
      exact operation hc haccess hrest hphase hwaiting htaken hexec
  | receive sender message m =>
    rw [hbody] at hexec
    have hsender : sender.index < 2 := by
      simp only [Task.draft, hbody, Work.unnumbered] at hbodied
      exact hbodied.1
    obtain ⟨l, hletters, htaken⟩ := hw.orderly.scene_of_receive htake hwaits hbody
    rw [hscene] at hletters htaken
    rcases address_of_lt howner with hv | hv <;> rcases address_of_lt hsender with rfl | rfl
    all_goals rw [show t.owner = _ from hv] at hexec hletters htaken
    · cases hletters
    · rw [View.scene_carrying_requests] at htaken
      exact request hc hrest hphase hletters htaken hexec
    · rw [View.scene_carrying_replies] at htaken
      exact reply hrest hphase hletters htaken hexec
    · cases hletters
  | _ =>
    -- no fault is pending in a calm state
    simp [Task.draft, hbody, Work.unnumbered] at hbodied

theorem reset (w : World (Client ⊕ Server) Message) :
    Serving config operations (w.reset (pair config operations)) := by
  have hphase : Phase operations
      ⟨Server.initial, Client.initial, none, 0, [], [], [], [0], [0], 2⟩ :=
    @Phase.resting operations Server.initial 0 [] [0] [0] 2 (Nat.zero_le _) rfl (.inl rfl)
      (Nat.le_refl _)
  refine ⟨Calm.reset size_pair w, Orderly.reset size_pair w, _, ?_, hphase⟩
  refine Scene.ext rfl rfl rfl (funext fun p => funext fun q => ?_) (funext fun p => ?_) rfl
  · show ([] : List Message) = _
    simp [View.scene]
  · show runs p [World.firstTask 2 0, World.firstTask 2 1] = _
    by_cases hserver : p = serverAddress
    · subst hserver
      rfl
    by_cases hclient : p = clientAddress
    · subst hclient
      rfl
    have hnone : ∀ i, i < 2 → (NodeId.ofIndex i) ≠ p := by
      intro i hi hp
      have hlt : p.index < 2 := by
        rw [← hp, NodeId.index_ofIndex (Nat.lt_trans hi (by decide))]
        exact hi
      exact (address_of_lt hlt).elim hserver hclient
    simp [View.scene, hserver, hclient, runs, Task.operationOf?, World.firstTask, hnone 0 (by decide),
      hnone 1 (by decide)]

/-- Schedules in which no delivery overtakes another one lead from a phase to a phase. -/
theorem schedule (hc : FaultFree (pair config operations))
    (haccess : ∀ o ∈ operations, Accessible o)
    {finished : Option TaskView} {ts : List (Task Message)} (hw : Serving config operations w)
    (h : Schedule (pair config operations) (.linked .fifo) finished w ts w') :
    Serving config operations w' := by
  induction h with
  | nil => exact hw
  | cons allowed done rest ih => exact ih (hw.advance hc haccess (allowed rfl) done)

/-- The results pass the verifier. -/
theorem accepted (hw : Serving config operations w) :
    readYourWrites (pair config operations).scenario w.results = true := by
  obtain ⟨V, hscene, hphase⟩ := hw.phase
  obtain ⟨k, rest, hresults, hmissing⟩ := hphase.results_eq
  have hfits := readsFit_answers hmissing operations k 0
  rw [← hresults] at hfits
  have heq : w.results = [[], V.results] := congrArg Scene.results hscene
  rw [heq]
  show (true && (readsFit 0 (operations.zip V.results) && true)) = true
  rw [hfits]
  rfl

/-- When nothing is pending, all operations have returned what they should. -/
theorem finished (hw : Serving config operations w) (hempty : w.pending.isEmpty = true) :
    w.results = [[], answers 0 operations] := by
  obtain ⟨V, hscene, hphase⟩ := hw.phase
  have htasks : w.pending.tasks = [] := List.isEmpty_iff.mp hempty
  have hletters : ∀ p q, V.scene.letters p q = [] := fun p q => by
    rw [← hscene]
    show letters p q w.pending.tasks = []
    rw [htasks]
    rfl
  have hwaiting : V.scene.waiting clientAddress = [] := by
    rw [← hscene]
    show runs clientAddress w.pending.tasks = []
    rw [htasks]
    rfl
  have hresults := hphase.finished (hletters clientAddress serverAddress)
    (hletters serverAddress clientAddress) hwaiting
  rw [← hresults]
  exact congrArg Scene.results hscene

end Serving

/-! ### What the protocol counts -/

/-- An operation may add to the counters what its request and the answer add, and an answer
nothing. -/
def contract (operations : List Operation) : Contract (Client ⊕ Server) Message where
  message
    | .read => 12
    | .write _ => 0
    | .value _ => 0
  operation := 24
  proper v x := x.isRight = true ↔ v = serverAddress
  cap := 4 + 26 * operations.length

theorem proper_of_spawn {n : Nat} {x : Client ⊕ Server}
    (h : (pair config operations).registry.spawn? v n = some x) :
    (contract operations).proper v x := by
  by_cases hv : v.index < 2
  · rcases address_of_lt hv with rfl | rfl
    · cases h
      exact ⟨fun _ => rfl, fun _ => rfl⟩
    · cases h
      exact ⟨nofun, fun heq => absurd heq (by decide)⟩
  · unfold Registry.spawn? Registry.groupOf? at h
    rw [groups_pair, Registry.groupFrom, Registry.groupFrom] at h
    dsimp only at h
    rw [if_neg (by omega), if_neg (by omega)] at h
    cases h

/-- All handlers keep to the contract: an operation sends one request, and a read one answer. -/
theorem honours (haccess : ∀ o ∈ operations, Accessible o) :
    (pair config operations).Honours (contract operations) where
  start := by
    rw [total_pair]
    exact Nat.le_refl _
  spawn := proper_of_spawn
  onStart {v x} hx := by
    rw [(placid v x).1]
    exact ⟨hx, (), rfl⟩
  onOperation {v x operation} hx hlisted := by
    obtain ⟨rfl, hmem⟩ := eq_client_of_mem hlisted
    rcases x with x | y
    · rcases haccess operation hmem with hread | ⟨hwrite, hsome⟩
      · rw [onOperation_read x hread]
        exact ⟨Nat.le_refl 24, hx, .later, rfl⟩
      · obtain ⟨k, hk⟩ := Option.isSome_iff_exists.mp hsome
        rw [onOperation_write x hwrite hk]
        exact ⟨Nat.le_add_left 12 12, hx, .void, rfl⟩
    · exact absurd (hx.mp rfl) (by decide)
  onMessage {v x message sender} hx := by
    rcases x with ⟨⟨reading⟩⟩ | y
    · cases message with
      | write k => exact ⟨hx, (), rfl⟩
      | read => exact ⟨hx, (), rfl⟩
      | value k =>
        cases reading
        · exact ⟨hx, (), rfl⟩
        · rw [onMessage_value]
          exact fun _ => ⟨hx, (), rfl⟩
    · cases message with
      | write k => exact ⟨hx, (), rfl⟩
      | read => exact ⟨Nat.le_refl _, hx, (), rfl⟩
      | value k => exact ⟨hx, (), rfl⟩
  onRecovery {v x} hx := by
    rw [(placid v x).2.1]
    exact ⟨hx, (), rfl⟩
  onFinish {v x} hx := by
    rw [(placid v x).2.2]
    exact ⟨hx, (), rfl⟩

/-- No pending task fails, but for a counter that runs out. -/
theorem advance_ok_or_overflow (haccess : ∀ o ∈ operations, Accessible o)
    {w : World (Client ⊕ Server) Message} (hw : Reaches (pair config operations) (fun _ => False) w)
    {t : Task Message} (ht : t ∈ w.pending.tasks) :
    (∃ w', Step.advance (pair config operations) t.id w = (.ok t, w')) ∨
      (memory < (pair config operations).scenario.bytes ∧
        ∃ w', Step.advance (pair config operations) t.id w = (.error (.panic .overflow), w')) := by
  refine (hw.advance_ok_or_overflow (honours haccess) size_pair id ht).imp_right ?_
  rintro ⟨hcap, hfails⟩
  have hcap : UInt64.size ≤ 4 + 26 * operations.length := hcap
  refine ⟨?_, hfails⟩
  unfold memory Scenario.bytes
  rw [total_pair]
  rw [UInt64.size] at hcap ⊢
  omega

/-! ### Schedules and iterations -/

section

variable {w₀ w : World (Client ⊕ Server) Message} {ts : List (Task Message)}

/-- What a search executes does not overtake. -/
theorem upgrades (hc : FaultFree (pair config operations))
    (haccess : ∀ o ∈ operations, Accessible o) :
    Upgrades (pair config operations) (Serving config operations) (.driven .fifo)
      (.linked .fifo) where
  allows hw hget hrule := fun _ => hw.orderly.waits_of_driven hget hrule
  keeps hw hallowed hrun := hw.advance hc haccess (hallowed rfl) hrun

/-- An operation takes three tasks at most, and there are two at the start. -/
theorem length_add_pending_le (hc : FaultFree (pair config operations))
    (haccess : ∀ o ∈ operations, Accessible o)
    (h : Schedule (pair config operations) (.linked .fifo) none
      (w₀.reset (pair config operations)) ts w) :
    ts.length + w.pending.tasks.length ≤ 2 + 3 * operations.length := by
  have hstart : Serving config operations (w₀.reset (pair config operations)) := .reset w₀
  obtain ⟨V, hscene, hphase⟩ := (hstart.schedule hc haccess h).phase
  have htasks : w.nextTask.number = V.tasks := congrArg Scene.tasks hscene
  have hle := hphase.tasks_le
  have hlength : ts.length + w.pending.tasks.length + 2 = 2 + w.nextTask.number :=
    (hstart.calm.length_schedule hc discreet h).2
  omega

theorem invalidFrom_pair (instances : List (Option (Client ⊕ Server))) (i : Nat) :
    World.invalidFrom (pair config operations) i instances = none := by
  induction instances generalizing i with
  | nil => rfl
  | cons x rest ih =>
    have hvalid : x.bind (pair config operations).protocol.invalid? = none := by
      rcases x with _ | x | y
      · rfl
      · rfl
      · rfl
    rw [World.invalidFrom, hvalid]
    exact ih (i + 1)

theorem judge_of_accepted (executed : List TaskId)
    (h : readYourWrites (pair config operations).scenario w.results = true) :
    (Iteration.judge (pair config operations) readYourWrites executed w).1 =
      .completed (w.summary (pair config operations)) := by
  have hvalid : w.invalid? (pair config operations) = none := invalidFrom_pair w.instances 0
  unfold Iteration.judge
  rw [hvalid]
  exact if_pos h

/-- What a search executes can be executed from the start without overtaking. -/
theorem exists_linked (hc : FaultFree (pair config operations))
    (haccess : ∀ o ∈ operations, Accessible o)
    (h : Schedule (pair config operations) (.driven .fifo) none
      (Spot.start (pair config operations)).world ts w) :
    ∃ v, Schedule (pair config operations) (.linked .fifo) none
      (w₀.reset (pair config operations)) ts v ∧ v.forget = w.forget := by
  obtain ⟨v, hschedule, hv⟩ :=
    h.transport deterministic_pair (World.forget_reset deterministic_pair w₀ _)
  exact ⟨v, (hschedule.strengthen (upgrades hc haccess) (.reset w₀)).1, hv⟩

/-- **An iteration that does not overtake completes with the right results**, if there is time. -/
theorem outcome_of_closing (hc : FaultFree (pair config operations))
    (haccess : ∀ o ∈ operations, Accessible o) {v : World (Client ⊕ Server) Message}
    (h : Schedule (pair config operations) (.linked .fifo) none
      (w₀.reset (pair config operations)) ts v)
    (hv : v.forget = w.forget) {it : Iteration}
    (hclosing : it.Closing (pair config operations) readYourWrites ts w) :
    (∃ r, it.outcome = .completed r ∧ r.perNode = [[], answers 0 operations]) ∨
    (config.taskBudget < 2 + 3 * operations.length ∧
      ∃ f, it.outcome = .failed f ∧ f.kind = .deadlock config.timeout) ∨
    (memory < (pair config operations).scenario.bytes ∧
      ∃ f, it.outcome = .failed f ∧ f.kind = .unexpected (Abort.panic .overflow).message none) := by
  have hpending : w.pending = v.pending := (congrArg World.pending hv).symm
  have hresults : w.results = v.results := (congrArg World.results hv).symm
  cases hclosing with
  | @judged events empty verdict =>
    have hserving : Serving config operations v := (Serving.reset w₀).schedule hc haccess h
    have haccepted : readYourWrites (pair config operations).scenario w.results = true :=
      hresults ▸ hserving.accepted
    have hjudge : (Iteration.judge (pair config operations) readYourWrites it.executed
        { w with events := events }).1 = _ := judge_of_accepted it.executed haccepted
    refine .inl ⟨_, (congrArg Prod.fst verdict).symm.trans hjudge, ?_⟩
    exact hresults.trans (hserving.finished (hpending ▸ empty))
  | late pending spent outcome kind =>
    have hle := length_add_pending_le hc haccess h
    have hspent : config.taskBudget ≤ ts.length := spent
    have hpos : 0 < v.pending.tasks.length := by
      rw [hpending] at pending
      exact List.length_pos_iff.mpr fun hnil => by simp [Pending.isEmpty, hnil] at pending
    exact .inr (.inl ⟨by omega, _, outcome, kind⟩)
  | failed fails outcome kind =>
    obtain ⟨v', hfails, -⟩ := fails.transport deterministic_pair hv
    have ht := List.mem_of_find?_eq_some hfails.pending
    rcases advance_ok_or_overflow haccess (h.reaches (.start w₀)) ht with
      ⟨v₁, hok⟩ | ⟨hmemory, v₁, herror⟩
    · cases hfails.run.symm.trans hok
    · cases hfails.run.symm.trans herror
      exact .inr (.inr ⟨hmemory, _, outcome, kind fun hlate => by cases hlate⟩)

end

/-- **The register is right on first-in first-out links.** Whatever the client reads and writes, in
all states reached by pending tasks in any order in which no delivery overtakes an older one on its
link, the results pass the verifier, and once nothing is pending every operation has returned what
it should, which is after three tasks an operation at most. No pending task fails; a counter could
run out only if the scenario took more than all of memory.

The iterations of a search are such schedules. They complete with these results, unless there is no
time for all the tasks. -/
theorem reads_own_writes {config : Config} {operations : List Operation}
    (hc : FaultFree (pair config operations)) (horder : config.order = .fifo)
    (haccess : ∀ o ∈ operations, Accessible o) :
    (∀ (w₀ : World (Client ⊕ Server) Message) ts w,
      Schedule (pair config operations) (.linked .fifo) none
        (w₀.reset (pair config operations)) ts w →
      readYourWrites (pair config operations).scenario w.results = true ∧
      (w.pending.isEmpty = true → w.results = [[], answers 0 operations]) ∧
      ts.length + w.pending.tasks.length ≤ 2 + 3 * operations.length ∧
      ∀ t ∈ w.pending.tasks, (∃ w', Step.advance (pair config operations) t.id w = (.ok t, w')) ∨
        (memory < (pair config operations).scenario.bytes ∧
          ∃ w', Step.advance (pair config operations) t.id w = (.error (.panic .overflow), w'))) ∧
    ∀ (F : Type) [Share F] (x : Explorer F (Client ⊕ Server) Message),
      Explorer.Reachable (pair config operations) readYourWrites x → ∀ it ∈ x.run.1.history,
      ∃ ts w, Schedule (pair config operations) (.linked .fifo) none
          ((World.new (pair config operations)).reset (pair config operations)) ts w ∧
        it.executed = ts.map Task.id ∧ it.afterwards = [] ∧
        ((∃ r, it.outcome = .completed r ∧ r.perNode = [[], answers 0 operations]) ∨
          (config.taskBudget < 2 + 3 * operations.length ∧
            ∃ f, it.outcome = .failed f ∧ f.kind = .deadlock config.timeout) ∨
          (memory < (pair config operations).scenario.bytes ∧
            ∃ f, it.outcome = .failed f ∧
              f.kind = .unexpected (Abort.panic .overflow).message none)) := by
  refine ⟨fun w₀ ts w h => ?_, fun F _ x hx it hit => ?_⟩
  · have hw : Serving config operations w := (Serving.reset w₀).schedule hc haccess h
    exact ⟨hw.accepted, hw.finished, length_add_pending_le hc haccess h,
      fun t ht => advance_ok_or_overflow haccess (h.reaches (.start w₀)) ht⟩
  · obtain ⟨ts, w, hdriven, hexecuted, hafter, hclosing⟩ := hx.closing deterministic_pair placid hit
    rw [show (pair config operations).config.order = .fifo from horder] at hdriven
    obtain ⟨v, hlinked, hv⟩ := exists_linked hc haccess hdriven
    exact ⟨ts, v, hlinked, hexecuted, hafter, outcome_of_closing hc haccess hlinked hv hclosing⟩

/-- Two writes and a read. The client does not wait for the server before it reads. -/
def errand : List Operation :=
  [.named "write" ["5"], .named "write" ["-7"], .named "read" []]

/-- In the first iteration of a search the read returns what the second write wrote. -/
theorem reads_own_writes_errand :
    let config := { Config.default with maxIterations := 1 }
    let c := pair config errand
    ∃ it ∈ (Explorer.fresh c readYourWrites : Explorer Float _ _).run.1.history,
      (∃ ts w, Schedule c (.linked .fifo) none ((World.new c).reset c) ts w ∧
        it.executed = ts.map Task.id ∧ readYourWrites c.scenario w.results = true) ∧
      ∃ r, it.outcome = .completed r ∧ r.perNode = [[], [.void, .void, .value "-7"]] := by
  intro config c
  have hc : FaultFree c := ⟨rfl, rfl⟩
  have haccess : ∀ o ∈ errand, Accessible o := by decide +kernel
  obtain ⟨hschedules, hiterations⟩ := reads_own_writes hc rfl haccess
  have hx : Explorer.Reachable c readYourWrites
      (Explorer.fresh c readYourWrites : Explorer Float _ _) := .new (Explorer.new_eq_fresh rfl)
  obtain ⟨it, hit⟩ :=
    List.exists_mem_of_ne_nil (Explorer.fresh c readYourWrites : Explorer Float _ _).run.1.history
      (by decide +kernel)
  obtain ⟨ts, w, h, hexecuted, -, houtcome⟩ := hiterations Float _ hx it hit
  obtain ⟨haccepted, -⟩ := hschedules _ ts w h
  refine ⟨it, hit, ⟨ts, w, h, hexecuted, haccepted⟩, ?_⟩
  have hanswers : answers 0 errand = [.void, .void, .value "-7"] := by decide +kernel
  have htime : ¬ config.taskBudget < 2 + 3 * errand.length := by decide +kernel
  have hfits : ¬ memory < c.scenario.bytes := by decide +kernel
  rcases houtcome with hcompleted | ⟨hlate, -⟩ | ⟨hmemory, -⟩
  · rwa [hanswers] at hcompleted
  · exact absurd hlate htime
  · exact absurd hmemory hfits

end Register

end Interleave
