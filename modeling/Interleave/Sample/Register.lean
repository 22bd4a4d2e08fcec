/-
# A register on one server

Node 0 holds a number. A client's write is acknowledged as soon as the request
is sent; a read waits for the answer. Where links may reorder messages, a read
can overtake a write of the same client and return the old number, which the verifier
finds (`Register.readYourWrites`).
-/
import Interleave.Node
import Interleave.Outcome
import Interleave.Text.Decimal

namespace Interleave

namespace Register

def numberText (n : Int64) : String := toString n.toInt

inductive Message where
  | write (value : Int64)
  | read
  | value (value : Int64)
  deriving DecidableEq

namespace Message

def text : Message → String
  | write n => "Write(" ++ numberText n ++ ")"
  | read => "Read"
  | value n => "Value(" ++ numberText n ++ ")"

end Message

/-- The address of the server. -/
def serverAddress : NodeId := ⟨0⟩

structure Client where
  /-- Whether the answer to a read is awaited. -/
  reading : Bool
  deriving DecidableEq

namespace Client

def initial : Client := ⟨false⟩

/-- The number that an operation is to write. -/
def argument? (operation : Operation) : Option Int64 := operation.args.head?.bind Text.readInteger?

def onOperation (_ : Site) (operation : Operation) (x : Client) :
    Handler Message (Reply Client Completion) :=
  if operation.name = "write" then
    match argument? operation with
    | none => .done (x, .error ⟨"BadArgs", "write takes an integer"⟩)
    | some n => .send (.write n) serverAddress (.done (x, .ok .void))
  else if operation.name = "read" then
    .send .read serverAddress (.done (⟨true⟩, .ok .later))
  else .done (x, .error ⟨"Unsupported", operation.name⟩)

def onMessage (_ : Site) (message : Message) (_ : NodeId) (x : Client) :
    Handler Message (Reply Client Unit) :=
  match message with
  | .value n =>
    if x.reading then .complete (some (numberText n)) fun _ => .done (⟨false⟩, .ok ())
    else .done (x, .ok ())
  | _ => .done (x, .ok ())

end Client

def client : Protocol Client Message where
  onStart := Protocol.idle
  onOperation := Client.onOperation
  onMessage := Client.onMessage
  onRecovery := Protocol.idle
  onFinish := Protocol.idle
  invalid? _ := none
  stateText x := "reading=" ++ (if x.reading then "true" else "false")
  messageText := Message.text

structure Server where
  value : Int64
  deriving DecidableEq

namespace Server

def initial : Server := ⟨0⟩

def onOperation (_ : Site) (operation : Operation) (x : Server) :
    Handler Message (Reply Server Completion) :=
  .done (x, .error ⟨"Unsupported", operation.name⟩)

def onMessage (_ : Site) (message : Message) (sender : NodeId) (x : Server) :
    Handler Message (Reply Server Unit) :=
  match message with
  | .write n => .done (⟨n⟩, .ok ())
  | .read => .send (.value x.value) sender (.done (x, .ok ()))
  | .value _ => .done (x, .ok ())

end Server

def server : Protocol Server Message where
  onStart := Protocol.idle
  onOperation := Server.onOperation
  onMessage := Server.onMessage
  onRecovery := Protocol.idle
  onFinish := Protocol.idle
  invalid? _ := none
  stateText x := "value=" ++ numberText x.value
  messageText := Message.text

/-- Clients and servers together. -/
def protocol : Protocol (Client ⊕ Server) Message := client.either server

/-- Whether the reads among these operations return what was written last, `written` at first. -/
def readsFit (written : Int64) : List (Operation × Answer) → Bool
  | [] => true
  | (operation, result) :: rest =>
    if operation.name = "write" then readsFit ((Client.argument? operation).getD 0) rest
    else
      match result with
      | .value text =>
        (operation.name ≠ "read" || Text.readInteger? text = some written) && readsFit written rest
      | _ => readsFit written rest

def verifyFrom (scenario : Scenario) : Nat → List (List Answer) → Bool
  | _, [] => true
  | i, results :: rest =>
    readsFit 0 ((scenario.of (NodeId.ofIndex i)).zip results) && verifyFrom scenario (i + 1) rest

/-- Every read of a node returned what the node itself wrote last. -/
def readYourWrites : Verifier := fun scenario results => verifyFrom scenario 0 results

end Register

end Interleave
