/-
# Best-effort broadcast

A peer sends the argument of its operation to all other peers. A state is
invalid if the same value of the same sender was delivered twice.
-/
import Interleave.Node
import Interleave.Text.Quoted

namespace Interleave

/-- The role of nodes that are all alike. -/
def peerRole : Role := ⟨"peer"⟩

namespace Broadcast

structure Peer where
  /-- The values delivered and their senders, in order. -/
  delivered : List (String × NodeId)
  deriving DecidableEq

namespace Peer

def initial : Peer := ⟨[]⟩

def onOperation (site : Site) (operation : Operation) (x : Peer) :
    Handler String (Reply Peer Completion) :=
  Handler.sendAll (operation.args.headD operation.name) site.others (.done (x, .ok .void))

def onMessage (_ : Site) (message : String) (sender : NodeId) (x : Peer) :
    Handler String (Reply Peer Unit) :=
  .done (⟨x.delivered ++ [(message, sender)]⟩, .ok ())

/-- The first entry of a list that is also among the earlier ones. -/
def repeated? (earlier : List (String × NodeId)) : List (String × NodeId) → Option (String × NodeId)
  | [] => none
  | e :: rest => if earlier.contains e then some e else repeated? (earlier ++ [e]) rest

def deliveryText (e : String × NodeId) : String := e.1 ++ " from " ++ e.2.text

end Peer

def protocol : Protocol Peer String where
  onStart := Protocol.idle
  onOperation := Peer.onOperation
  onMessage := Peer.onMessage
  onRecovery := Protocol.idle
  onFinish := Protocol.idle
  invalid? x :=
    (Peer.repeated? [] x.delivered).map fun e => Peer.deliveryText e ++ " delivered twice"
  stateText x := "[" ++ String.intercalate ", " (x.delivered.map Peer.deliveryText) ++ "]"
  messageText := Text.quoted

end Broadcast

end Interleave
