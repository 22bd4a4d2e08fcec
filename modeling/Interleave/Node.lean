/-
# Node logic

The code under check is a protocol: handlers for the start of a node, for its
operations and for messages, over a state of any type. A handler does not touch
the cluster; it is a tree of requests, each of which is answered before the next
one is made, and it ends in the new state and a result, or breaks off. So all
that a handler can do to the cluster is listed in `Handler`, and the same
answers always lead to the same requests.

Key definitions: `Handler`, `Site`, `Completion`, `Protocol`, `Protocol.either`.
-/
import Interleave.Error
import Interleave.Event

namespace Interleave

/-- Requests of a handler, for messages of type `μ` and a result of type `α`. -/
inductive Handler (μ α : Type) where
  | done (result : α)
  /-- Break off, with a text or without. -/
  | raise (payload : Option String)
  /-- Never return. -/
  | hang
  | send (message : μ) (target : NodeId) (rest : Handler μ α)
  /-- Add a line to the node's log. -/
  | log (text : String) (rest : Handler μ α)
  /-- Finish the operation in flight, with a value or without; answered by whether there was one. -/
  | complete (value : Option String) (rest : Bool → Handler μ α)
  /-- The events recorded at this node so far. -/
  | events (rest : List Event → Handler μ α)
  /-- The logs of all nodes. -/
  | logs (rest : List (List String) → Handler μ α)

namespace Handler

variable {μ α β : Type}

/-- The requests of `h`, and then those of `f` on its result. -/
def bind : Handler μ α → (α → Handler μ β) → Handler μ β
  | done a, f => f a
  | raise payload, _ => raise payload
  | hang, _ => hang
  | send message target rest, f => send message target (rest.bind f)
  | log text rest, f => log text (rest.bind f)
  | complete value rest, f => complete value fun ok => (rest ok).bind f
  | events rest, f => events fun l => (rest l).bind f
  | logs rest, f => logs fun l => (rest l).bind f

instance : Monad (Handler μ) where
  pure := done
  bind := bind

/-- The same requests with another result. -/
def map (f : α → β) (h : Handler μ α) : Handler μ β := h.bind fun a => done (f a)

/-- Sends a message to each of the targets, in order. -/
def sendAll (message : μ) : List NodeId → Handler μ α → Handler μ α
  | [], rest => rest
  | v :: targets, rest => send message v (sendAll message targets rest)

end Handler

/-- Where a handler runs: its own address and what is fixed about the cluster. -/
structure Site where
  me : NodeId
  size : Nat
  /-- The addresses of a role, lowest first. -/
  addresses : Role → List NodeId

namespace Site

/-- All nodes but this one. -/
def others (s : Site) : List NodeId := ((List.range s.size).map NodeId.ofIndex).filter (· ≠ s.me)

end Site

/-- How an operation handler ended: with the result, or to be completed later. -/
inductive Completion where
  | value (text : String)
  | void
  | later
  deriving DecidableEq

/-- The new state of a node and how the handler ended. -/
abbrev Reply (σ ρ : Type) := σ × Except NodeError ρ

/-- The logic of the nodes of a cluster, with states of type `σ` and messages of type `μ`. -/
structure Protocol (σ μ : Type) where
  onStart : Site → σ → Handler μ (Reply σ Unit)
  onOperation : Site → Operation → σ → Handler μ (Reply σ Completion)
  onMessage : Site → μ → NodeId → σ → Handler μ (Reply σ Unit)
  /-- Runs on a new instance after a crash. -/
  onRecovery : Site → σ → Handler μ (Reply σ Unit)
  /-- Runs when no task is left. -/
  onFinish : Site → σ → Handler μ (Reply σ Unit)
  /-- Why a final state is rejected, if it is. -/
  invalid? : σ → Option String
  stateText : σ → String
  messageText : μ → String

namespace Protocol

variable {σ τ μ : Type}

/-- A cluster of two kinds of node that exchange the same messages. -/
def either (p : Protocol σ μ) (q : Protocol τ μ) : Protocol (σ ⊕ τ) μ where
  onStart site
    | .inl x => (p.onStart site x).map fun r => (.inl r.1, r.2)
    | .inr x => (q.onStart site x).map fun r => (.inr r.1, r.2)
  onOperation site operation
    | .inl x => (p.onOperation site operation x).map fun r => (.inl r.1, r.2)
    | .inr x => (q.onOperation site operation x).map fun r => (.inr r.1, r.2)
  onMessage site message sender
    | .inl x => (p.onMessage site message sender x).map fun r => (.inl r.1, r.2)
    | .inr x => (q.onMessage site message sender x).map fun r => (.inr r.1, r.2)
  onRecovery site
    | .inl x => (p.onRecovery site x).map fun r => (.inl r.1, r.2)
    | .inr x => (q.onRecovery site x).map fun r => (.inr r.1, r.2)
  onFinish site
    | .inl x => (p.onFinish site x).map fun r => (.inl r.1, r.2)
    | .inr x => (q.onFinish site x).map fun r => (.inr r.1, r.2)
  invalid?
    | .inl x => p.invalid? x
    | .inr x => q.invalid? x
  stateText
    | .inl x => p.stateText x
    | .inr x => q.stateText x
  messageText := p.messageText

/-- A handler that leaves the state as it is and asks for nothing. -/
def idle (_ : Site) (x : σ) : Handler μ (Reply σ Unit) := .done (x, .ok ())

end Protocol

end Interleave
