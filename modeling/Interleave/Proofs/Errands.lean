/-
# Errands of the echo protocol

A client numbers its requests from zero, and a client that comes back after a crash
starts again at zero. So an old answer could pass for the answer to a later request,
and the number alone does not exclude it. What does is that there never is an old
answer: of every client at most one request or answer is on its way, and only while
the client waits for it.

`Echo.Answering` says so for the deliveries on their way, and that all results are
right. Here is what it takes to keep it: changes at a node that no errand is run for
(`Echo.Answering.update`), a delivery that is added or passed on
(`Echo.Answering.forward`), and operations that start and end (`Echo.Answering.begun`,
`Echo.Answering.ended`).
-/
import Interleave.Proofs.Served
import Interleave.Simulation

namespace Interleave

namespace Echo

/-! ### Errands -/

/-- A request or its answer on the way. -/
structure Errand where
  client : NodeId
  id : Nat
  payload : String

/-- The errand that a task is on. -/
def errand? (t : Task Message) : Option Errand :=
  match t.body with
  | .receive sender (.request id payload) _ => some ⟨sender, id, payload⟩
  | .receive _ (.reply id payload) _ => some ⟨t.owner, id, payload⟩
  | _ => none

/-- Node 0 answers, and all others ask. -/
def proper (v : NodeId) (x : Client ⊕ Server) : Prop := x.isRight = true ↔ v.index = 0

/-- The results are right for these operations, as far as they go. -/
def Right (operations : List Operation) (results : List Answer) : Prop :=
  ∀ (i : Nat) r operation, results[i]? = some r → operations[i]? = some operation →
    accepts r operation = true

namespace Right

variable {operations : List Operation} {results : List Answer}

/-- An operation that is started has no result yet. -/
theorem begin (h : Right operations results) : Right operations (results ++ [.missing]) := by
  intro i r operation hr hoperation
  rw [List.getElem?_append] at hr
  split at hr
  · exact h i r operation hr hoperation
  · have hmissing : r = .missing := by
      have hmem := List.mem_of_getElem? hr
      simpa using hmem
    rw [hmissing]
    rfl

theorem finish {j : Nat} {result : Answer} (h : Right operations results)
    (hresult : ∀ operation, operations[j]? = some operation → accepts result operation = true) :
    Right operations (results.set j result) := by
  intro i r operation hr hoperation
  rw [List.getElem?_set] at hr
  split at hr
  · rename_i hij
    subst hij
    split at hr
    · cases hr
      exact hresult operation hoperation
    · cases hr
  · exact h i r operation hr hoperation

end Right

section

variable {c : Cluster (Client ⊕ Server) Message} {w w' : World (Client ⊕ Server) Message}

/-- The client waits for the errand, which is about the argument of its operation in flight. -/
def Due (c : Cluster (Client ⊕ Server) Message) (w : World (Client ⊕ Server) Message) (e : Errand) :
    Prop :=
  ∃ i x operation, w.currents[e.client.index]? = some (some i) ∧
    w.instances[e.client.index]? = some (some (.inl x)) ∧ x.outstanding = some e.id ∧
    (c.operations e.client)[i.toNat]? = some operation ∧ operation.args.head? = some e.payload

theorem Due.elsewhere {v : NodeId} {e : Errand} (h : Due c w e) (hv : e.client ≠ v)
    (helse : Elsewhere v w w') : Due c w' e := by
  obtain ⟨i, x, operation, hcurrent, hx, hrest⟩ := h
  have hne : e.client.index ≠ v.index := fun heq => hv (NodeId.index_inj.mp heq)
  exact ⟨i, x, operation, by rw [helse.currents _ hne, hcurrent],
    by rw [helse.instances _ hne, hx], hrest⟩

/-- The two deliveries are not on errands of one client. -/
def Apart (t u : Task Message) : Prop :=
  ∀ e e', errand? t = some e → errand? u = some e' → e.client ≠ e'.client

instance : Std.Symm Apart where
  symm _ _ h e e' he he' heq := h e' e he' he heq.symm

/-- No errand is run for node `v`. -/
def Free (posts : List (Task Message)) (v : NodeId) : Prop :=
  ∀ t ∈ posts, ∀ e, errand? t = some e → e.client ≠ v

theorem Free.subset {posts posts' : List (Task Message)} {v : NodeId} (h : Free posts v)
    (hsub : posts' ⊆ posts) : Free posts' v := fun t ht => h t (hsub ht)

/-- With `posts` on their way, every errand is due and the only one of its client, answers come from
node 0, and all results are right. -/
structure Answering (c : Cluster (Client ⊕ Server) Message) (posts : List (Task Message))
    (w : World (Client ⊕ Server) Message) : Prop where
  sides : ∀ v x, w.instances[v.index]? = some (some x) → proper v x
  due : ∀ t ∈ posts, ∀ e, errand? t = some e → Due c w e
  single : posts.Pairwise Apart
  served : ∀ t ∈ posts, ∀ sender id payload m,
    t.body = .receive sender (.reply id payload) m → sender.index = 0
  right : ∀ (p : NodeId) rs, w.results[p.index]? = some rs → Right (c.operations p) rs

namespace Answering

variable {posts posts' : List (Task Message)} {v : NodeId} {t : Task Message}

theorem less (h : Answering c posts w) (hsub : posts'.Subperm posts) : Answering c posts' w where
  sides := h.sides
  due t ht := h.due t (hsub.subset ht)
  single := by
    obtain ⟨l, hperm, hlist⟩ := hsub
    exact (hperm.pairwise_iff symm).mp (h.single.sublist hlist)
  served t ht := h.served t (hsub.subset ht)
  right := h.right

/-- Everything is about the operations in flight, the instances and the results. -/
theorem congr (h : Answering c posts w) (hcurrents : w'.currents = w.currents)
    (hinstances : w'.instances = w.instances) (hresults : w'.results = w.results) :
    Answering c posts w' := by
  refine ⟨?_, fun t ht e he => ?_, h.single, h.served, ?_⟩
  · rw [hinstances]
    exact h.sides
  · have hdue := h.due t ht e he
    unfold Due at hdue ⊢
    rwa [hcurrents, hinstances]
  · rw [hresults]
    exact h.right

/-- What is no concern of a protocol keeps everything. -/
theorem aside (held : List (Task Message)) (h : Answering c (held ++ deliveries w.pending.tasks) w)
    (haside : Aside w w') : Answering c (held ++ deliveries w'.pending.tasks) w' := by
  have hless := h.less (haside.posts.append_left held).subperm
  exact hless.congr haside.currents haside.instances haside.results

/-- An errand is run for a client. -/
theorem index_ne_zero {e : Errand} (h : Answering c posts w) (hdue : Due c w e) :
    e.client.index ≠ 0 := by
  obtain ⟨i, x, operation, -, hx, -⟩ := hdue
  intro hzero
  have hside := (h.sides e.client _ hx).mpr hzero
  cases hside

/-- No errand is run for the server. -/
theorem free_of_server (h : Answering c posts w) (hv : v.index = 0) : Free posts v := by
  intro t ht e he heq
  exact h.index_ne_zero (h.due t ht e he) (heq ▸ hv)

/-- Something changed at node `v` that no errand is run for. -/
theorem update (h : Answering c posts w) (v : NodeId) (hfree : Free posts v)
    (helse : Elsewhere v w w')
    (hside : ∀ x, w'.instances[v.index]? = some (some x) → proper v x)
    (hright : ∀ rs, w'.results[v.index]? = some rs → Right (c.operations v) rs) :
    Answering c posts w' where
  sides u x hx := by
    by_cases hu : u = v
    · subst hu
      exact hside x hx
    · have hne : u.index ≠ v.index := fun heq => hu (NodeId.index_inj.mp heq)
      exact h.sides u x (helse.instances _ hne ▸ hx)
  due t ht e he := (h.due t ht e he).elsewhere (hfree t ht e he) helse
  single := h.single
  served := h.served
  right p rs hrs := by
    by_cases hp : p = v
    · subst hp
      exact hright rs hrs
    · have hne : p.index ≠ v.index := fun heq => hp (NodeId.index_inj.mp heq)
      exact h.right p rs (helse.results _ hne ▸ hrs)

/-- The instance of node `v` is lent, replaced or gone. -/
theorem lent {x : Option (Client ⊕ Server)} (h : Answering c posts w) (hfree : Free posts v)
    (hx : ∀ y, x = some y → proper v y) (hcurrents : w'.currents = w.currents)
    (hinstances : w'.instances = w.instances.set v.index x) (hresults : w'.results = w.results) :
    Answering c posts w' := by
  refine h.update v hfree ⟨fun i _ => by rw [hcurrents], fun i hi => ?_, fun i _ => by rw [hresults]⟩
    (fun y hy => ?_) fun rs hrs => h.right v rs (hresults ▸ hrs)
  · rw [hinstances, List.getElem?_set_ne hi.symm]
  · rw [hinstances] at hy
    exact hx y (eq_of_getElem?_set hy)

/-- A handler of node `v` sent a message and left the instance `x`. -/
theorem sent {x : Client ⊕ Server} {message : Message} {target : NodeId}
    {w₁ : World (Client ⊕ Server) Message} (h : Answering c posts w) (hfree : Free posts v)
    (hx : proper v x)
    (hsends : Sends c v message target { w with instances := w.instances.set v.index none } w₁)
    (hw' : w' = { w₁ with instances := w₁.instances.set v.index (some x) }) :
    w'.currents = w.currents ∧ w'.instances = w.instances.set v.index (some x) ∧
      Answering c posts w' := by
  subst hw'
  obtain ⟨hcurrents, hinstances, hresults, -⟩ := hsends.posts
  have hback : w₁.instances.set v.index (some x) = w.instances.set v.index (some x) := by
    rw [hinstances, List.set_set]
  exact ⟨hcurrents, hback, h.lent hfree (fun y hy => Option.some.inj hy ▸ hx) hcurrents hback hresults⟩

/-- Node `v` starts an operation while none of its own is in flight. -/
theorem begun {a : Agenda} {i next : UInt64} {text : String} (h : Answering c posts w)
    (hfree : Free posts v) : Answering c posts (w.begun v a i next text) := by
  have hresults : (w.begun v a i next text).results = w.results.modify v.index (· ++ [.missing]) := rfl
  refine h.update v hfree ⟨fun j hj => ?_, fun j _ => rfl, fun j hj => ?_⟩ (h.sides v) fun rs hrs => ?_
  · rw [World.currents_begun, List.getElem?_set_ne hj.symm]
  · rw [hresults, List.getElem?_modify_ne _ _ (Ne.symm hj)]
  · rw [hresults, List.getElem?_modify_eq] at hrs
    obtain ⟨rs', hrs', rfl⟩ := Option.map_eq_some_iff.mp hrs
    exact (h.right v rs' hrs').begin

/-- The operation of node `v` in flight ends with a result that is right. -/
theorem ended {i : UInt64} {result : Answer} (h : Answering c posts w)
    (hfree : Free posts v) (hends : Ends v result i w w')
    (hresult : ∀ operation, (c.operations v)[i.toNat]? = some operation →
      accepts result operation = true) : Answering c posts w' := by
  obtain ⟨a, rs, -, -, hrs, -, rfl⟩ := hends
  have hresults : (w.ended v a i rs result).results =
      w.results.set v.index (rs.set i.toNat result) := rfl
  refine h.update v hfree ⟨fun j hj => ?_, fun j _ => rfl, fun j hj => ?_⟩ (h.sides v)
    fun rs' hrs' => ?_
  · rw [World.currents_ended, List.getElem?_set_ne hj.symm]
  · rw [hresults, List.getElem?_set_ne hj.symm]
  · rw [hresults] at hrs'
    exact eq_of_getElem?_set hrs' ▸ (h.right v rs hrs).finish hresult

/-- A handler finished the operation of node `v` in flight, if there is one, and the next one is
queued. -/
theorem concluded {b : Bool} {result : Answer} (h : Answering c (deliveries w.pending.tasks) w)
    (hfree : Free (deliveries w.pending.tasks) v)
    (hresult : ∀ (i : UInt64) operation, w.currents[v.index]? = some (some i) →
      (c.operations v)[i.toNat]? = some operation → accepts result operation = true)
    (hconcludes : Concludes c v result w b w') :
    Answering c (deliveries w'.pending.tasks) w' ∧
      (deliveries w'.pending.tasks).Sublist (deliveries w.pending.tasks) := by
  cases hconcludes with
  | idle idle => exact ⟨h, .refl _⟩
  | @ends i w₁ _ ends queued =>
    have hpending : w₁.pending = w.pending := ends.frame.1
    have hcurrent : w.currents[v.index]? = some (some i) := by
      obtain ⟨a, rs, ha, hcurrent, -⟩ := ends
      rw [World.currents, List.getElem?_map, ha, Option.map_some, hcurrent]
    have hended : Answering c (deliveries w₁.pending.tasks) w₁ := by
      rw [hpending]
      exact h.ended hfree ends fun operation => hresult i operation hcurrent
    have haside : Aside w₁ w' := .queued queued
    exact ⟨hended.aside [] haside, hpending ▸ haside.posts⟩

/-- A delivery is added that is on the only errand of its client. -/
theorem post {d : Task Message} (h : Answering c posts w)
    (hdue : ∀ e, errand? d = some e → Due c w e)
    (hapart : ∀ u ∈ posts, Apart d u)
    (hserved : ∀ sender id payload m, d.body = .receive sender (.reply id payload) m →
      sender.index = 0) : Answering c (d :: posts) w where
  sides := h.sides
  due t ht e he := by
    rcases List.mem_cons.mp ht with rfl | ht
    · exact hdue e he
    · exact h.due t ht e he
  single := List.pairwise_cons.mpr ⟨hapart, h.single⟩
  served t ht := by
    rcases List.mem_cons.mp ht with rfl | ht
    · exact hserved
    · exact h.served t ht
  right := h.right

/-- A delivery is replaced by another on the same errand. -/
theorem forward {d : Task Message} (h : Answering c (t :: posts) w) (hd : errand? d = errand? t)
    (hserved : ∀ sender id payload m, d.body = .receive sender (.reply id payload) m →
      sender.index = 0) : Answering c (d :: posts) w := by
  have hrest := h.less (List.sublist_cons_self t posts).subperm
  refine hrest.post (fun e he => h.due t List.mem_cons_self e (hd ▸ he)) (fun u hu e e' he he' => ?_)
    hserved
  exact (List.pairwise_cons.mp h.single).1 u hu e e' (hd ▸ he) he'

end Answering

end

end Echo

end Interleave
