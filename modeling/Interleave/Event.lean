/-
# Events

What an iteration records, each event at the node it concerns.
-/
import Interleave.Scenario

namespace Interleave

inductive Event where
  | started (index : UInt64) (operation : String)
  | finished (index : UInt64) (result : Answer)
  | sent (id : MessageId) (target : NodeId) (message : String)
  | received (id : MessageId) (sender : NodeId) (message : String)
  | lost (id : MessageId) (target : NodeId)
  | noted (message : String)
  | crashed
  | recovered
  | partitioned (description : String)
  | healed (description : String)
  | closed
  deriving DecidableEq

namespace Event

def name : Event → String
  | started .. => "OperationStarted"
  | finished .. => "OperationFinished"
  | sent .. => "MessageSent"
  | received .. => "MessageReceived"
  | lost .. => "MessageLost"
  | noted _ => "InternalEvent"
  | crashed => "NodeCrashed"
  | recovered => "NodeRecovered"
  | partitioned _ => "NetworkPartitioned"
  | healed _ => "PartitionHealed"
  | closed => "ScenarioFinished"

/-- Whether the event is an injected fault, its undoing or its effect on a message. -/
def isFault : Event → Bool
  | crashed | recovered | partitioned _ | healed _ | lost .. => true
  | _ => false

def text : Event → String
  | started index operation => s!"start op #{index.toNat}: " ++ operation
  | finished index result => s!"finish op #{index.toNat}: " ++ result.text
  | sent id target message => "send " ++ id.text ++ " to " ++ target.text ++ ": " ++ message
  | received id sender message =>
    "receive " ++ id.text ++ " from " ++ sender.text ++ ": " ++ message
  | lost id target => "lost " ++ id.text ++ " to " ++ target.text
  | noted message => "internal: " ++ message
  | crashed => "CRASH"
  | recovered => "RECOVER"
  | partitioned description => "PARTITION " ++ description
  | healed description => "HEAL " ++ description
  | closed => "scenario finished"

end Event

/-- An event and the node it is recorded at. -/
structure Occurrence where
  node : NodeId
  event : Event
  deriving DecidableEq

namespace Occurrence

def text (e : Occurrence) : String := "[" ++ e.node.text ++ "] " ++ e.event.text

end Occurrence

end Interleave
