/-
# The exchange form of names, clocks, scenarios and events

How each serializable type is written as structured data and read back, by an
`encode` and a `decode` each. Numbers stand for names; a type with several variants
is written as the name of the variant, or as a record of one field with that name if
it carries data. Failures are only written (`Failure.encode`).
-/
import Interleave.Clock
import Interleave.Config
import Interleave.Data
import Interleave.Outcome

namespace Interleave

namespace NodeId

def encode (v : NodeId) : Data := .nat v.index

def decode (d : Data) : Option NodeId := d.word32.map NodeId.mk

end NodeId

namespace TaskId

def encode (t : TaskId) : Data := .nat t.number

def decode (d : Data) : Option TaskId := d.word64.map TaskId.mk

end TaskId

namespace MessageId

def encode (m : MessageId) : Data := .nat m.number

def decode (d : Data) : Option MessageId := d.word64.map MessageId.mk

end MessageId

namespace Clock

def encode (c : Clock) : Data := .record [("clocks", .list (c.slots.map fun x => .nat x.toNat))]

def decode (d : Data) : Option Clock :=
  match d.fieldsOf ["clocks"] with
  | some [slots] => (slots.listOf Data.word64).map Clock.mk
  | _ => none

end Clock

namespace Recovery

def encode : Recovery → Data
  | none => .text "NoRecoveries"
  | all => .text "AllRecoveries"

def decode (d : Data) : Option Recovery :=
  match d.variantOf with
  | some ("NoRecoveries", c) => if Data.carriesNothing c then some .none else Option.none
  | some ("AllRecoveries", c) => if Data.carriesNothing c then some .all else Option.none
  | _ => Option.none

end Recovery

namespace DeliveryOrder

def encode : DeliveryOrder → Data
  | synchronous => .text "Synchronous"
  | fifo => .text "Fifo"
  | asynchronous => .text "Asynchronous"

def decode (d : Data) : Option DeliveryOrder :=
  match d.variantOf with
  | some ("Synchronous", c) => if Data.carriesNothing c then some .synchronous else none
  | some ("Fifo", c) => if Data.carriesNothing c then some .fifo else none
  | some ("Asynchronous", c) => if Data.carriesNothing c then some .asynchronous else none
  | _ => none

end DeliveryOrder

namespace SplitMode

def encode : SplitMode → Data
  | halves => .text "Halves"
  | singleEdge => .text "SingleEdge"

def decode (d : Data) : Option SplitMode :=
  match d.variantOf with
  | some ("Halves", c) => if Data.carriesNothing c then some .halves else none
  | some ("SingleEdge", c) => if Data.carriesNothing c then some .singleEdge else none
  | _ => none

end SplitMode

namespace Operation

def encode (o : Operation) : Data :=
  .record [("name", .text o.name), ("args", .list (o.args.map .text)),
    ("handled_errors", .list (o.expected.map .text))]

def decode (d : Data) : Option Operation :=
  match d.fieldsOf ["name", "args", "handled_errors"] with
  | some [name, args, handled] => do
    return ⟨← name.string, ← args.listOf Data.string, ← handled.listOf Data.string⟩
  | _ => none

end Operation

namespace Scenario

def encode (s : Scenario) : Data :=
  .record [("operations", .list (s.operations.map fun l => .list (l.map Operation.encode)))]

def decode (d : Data) : Option Scenario :=
  match d.fieldsOf ["operations"] with
  | some [operations] => (operations.listOf (Data.listOf Operation.decode)).map Scenario.mk
  | _ => none

end Scenario

namespace Answer

def encode : Answer → Data
  | value s => .record [("Value", .text s)]
  | void => .text "Void"
  | exception kind => .record [("Exception", .text kind)]
  | crashed => .text "Crashed"
  | missing => .text "NoResult"

def decode (d : Data) : Option Answer :=
  match d.variantOf with
  | some ("Value", c) => (c.bind Data.string).map .value
  | some ("Void", c) => if Data.carriesNothing c then some .void else none
  | some ("Exception", c) => (c.bind Data.string).map .exception
  | some ("Crashed", c) => if Data.carriesNothing c then some .crashed else none
  | some ("NoResult", c) => if Data.carriesNothing c then some .missing else none
  | _ => none

end Answer

namespace Event

def encode : Event → Data
  | started index operation =>
    .record [("OperationStarted",
      .record [("index", .nat index.toNat), ("operation", .text operation)])]
  | finished index result =>
    .record [("OperationFinished",
      .record [("index", .nat index.toNat), ("result", result.encode)])]
  | sent id target message =>
    .record [("MessageSent",
      .record [("id", id.encode), ("to", target.encode), ("message", .text message)])]
  | received id sender message =>
    .record [("MessageReceived",
      .record [("id", id.encode), ("from", sender.encode), ("message", .text message)])]
  | lost id target => .record [("MessageLost", .record [("id", id.encode), ("to", target.encode)])]
  | noted message => .record [("InternalEvent", .record [("message", .text message)])]
  | crashed => .text "NodeCrashed"
  | recovered => .text "NodeRecovered"
  | partitioned description =>
    .record [("NetworkPartitioned", .record [("description", .text description)])]
  | healed description =>
    .record [("PartitionHealed", .record [("description", .text description)])]
  | closed => .text "ScenarioFinished"

def decodeStarted (c : Option Data) : Option Event :=
  match Data.variantFields ["index", "operation"] c with
  | some [index, operation] => do return .started (← index.word64) (← operation.string)
  | _ => none

def decodeFinished (c : Option Data) : Option Event :=
  match Data.variantFields ["index", "result"] c with
  | some [index, result] => do
    return .finished (← index.word64) (← Answer.decode result)
  | _ => none

def decodeSent (c : Option Data) : Option Event :=
  match Data.variantFields ["id", "to", "message"] c with
  | some [id, target, message] => do
    return .sent (← MessageId.decode id) (← NodeId.decode target) (← message.string)
  | _ => none

def decodeReceived (c : Option Data) : Option Event :=
  match Data.variantFields ["id", "from", "message"] c with
  | some [id, sender, message] => do
    return .received (← MessageId.decode id) (← NodeId.decode sender) (← message.string)
  | _ => none

def decodeLost (c : Option Data) : Option Event :=
  match Data.variantFields ["id", "to"] c with
  | some [id, target] => do return .lost (← MessageId.decode id) (← NodeId.decode target)
  | _ => none

/-- A variant with one text field. -/
def decodeText (name : String) (make : String → Event) (c : Option Data) : Option Event :=
  match Data.variantFields [name] c with
  | some [s] => s.string.map make
  | _ => none

def decode (d : Data) : Option Event :=
  match d.variantOf with
  | some ("OperationStarted", c) => decodeStarted c
  | some ("OperationFinished", c) => decodeFinished c
  | some ("MessageSent", c) => decodeSent c
  | some ("MessageReceived", c) => decodeReceived c
  | some ("MessageLost", c) => decodeLost c
  | some ("InternalEvent", c) => decodeText "message" .noted c
  | some ("NodeCrashed", c) => if Data.carriesNothing c then some .crashed else none
  | some ("NodeRecovered", c) => if Data.carriesNothing c then some .recovered else none
  | some ("NetworkPartitioned", c) => decodeText "description" .partitioned c
  | some ("PartitionHealed", c) => decodeText "description" .healed c
  | some ("ScenarioFinished", c) => if Data.carriesNothing c then some .closed else none
  | _ => none

end Event

namespace Occurrence

def encode (e : Occurrence) : Data := .record [("node", e.node.encode), ("event", e.event.encode)]

def decode (d : Data) : Option Occurrence :=
  match d.fieldsOf ["node", "event"] with
  | some [node, event] => do return ⟨← NodeId.decode node, ← Event.decode event⟩
  | _ => none

end Occurrence

namespace Data

def optional (encode : α → Data) : Option α → Data
  | some a => encode a
  | none => null

end Data

namespace Duration

def encode (d : Duration) : Data :=
  .record [("secs", .nat (d.nanos / second)), ("nanos", .nat (d.nanos % second))]

end Duration

namespace Results

def encode (r : Results) : Data :=
  .record [("per_node", .list (r.perNode.map fun l => .list (l.map Answer.encode))),
    ("states", .list (r.states.map (Data.optional .text)))]

end Results

namespace FailureCause

def encode : FailureCause → Data
  | unexpected message tree =>
    .record [("UnexpectedException",
      .record [("message", .text message), ("tree_dump", Data.optional .text tree)])]
  | deadlock timeout => .record [("Deadlock", .record [("timeout", timeout.encode)])]
  | invalidState node message =>
    .record [("ValidationFailure", .record [("node", node.encode), ("message", .text message)])]
  | wrongResults results => .record [("IncorrectResults", .record [("results", results.encode)])]

end FailureCause

namespace Failure

def encode (f : Failure) : Data :=
  .record [("kind", f.kind.encode), ("interleaving", .list (f.interleaving.map TaskId.encode)),
    ("trace", .list (f.trace.map Occurrence.encode))]

end Failure

end Interleave
