/-
# Echo

A client sends the argument of its operation to the first server and waits for
the answer, which is the operation's result. Answers to earlier operations are
ignored. By the verifier every finished operation returned its own argument.
-/
import Interleave.Node
import Interleave.Outcome
import Interleave.Text.Quoted

namespace Interleave

/-- The role of nodes that answer. -/
def serverRole : Role := ⟨"server"⟩

/-- The role of nodes that ask. -/
def clientRole : Role := ⟨"client"⟩

namespace Echo

inductive Message where
  | request (id : Nat) (payload : String)
  | reply (id : Nat) (payload : String)
  deriving DecidableEq

namespace Message

def fields (id : Nat) (payload : String) : String :=
  " \x7b id: " ++ toString id ++ ", payload: " ++ Text.quoted payload ++ " \x7d"

def text : Message → String
  | request id payload => "Request" ++ fields id payload
  | reply id payload => "Reply" ++ fields id payload

end Message

structure Client where
  nextId : Nat
  /-- The request whose answer is awaited. -/
  outstanding : Option Nat
  deriving DecidableEq

namespace Client

def initial : Client := ⟨0, none⟩

def onOperation (site : Site) (operation : Operation) (x : Client) :
    Handler Message (Reply Client Completion) :=
  match site.addresses serverRole, operation.args with
  | [], _ => .done (x, .error ⟨"NoServer", "no server registered"⟩)
  | _ :: _, [] => .done (x, .error ⟨"BadArgs", "echo takes one argument"⟩)
  | server :: _, payload :: _ =>
    .send (.request x.nextId payload) server
      (.done (⟨x.nextId + 1, some x.nextId⟩, .ok .later))

def onMessage (_ : Site) (message : Message) (_ : NodeId) (x : Client) :
    Handler Message (Reply Client Unit) :=
  match message with
  | .request .. => .done (x, .ok ())
  | .reply id payload =>
    if x.outstanding = some id then
      .complete (some payload) fun _ => .done ({ x with outstanding := none }, .ok ())
    else .done (x, .ok ())

end Client

def client : Protocol Client Message where
  onStart := Protocol.idle
  onOperation := Client.onOperation
  onMessage := Client.onMessage
  onRecovery := Protocol.idle
  onFinish := Protocol.idle
  invalid? _ := none
  stateText x := "outstanding=" ++ Text.option toString x.outstanding
  messageText := Message.text

structure Server where
  echoed : List String
  deriving DecidableEq

namespace Server

def initial : Server := ⟨[]⟩

def onOperation (_ : Site) (operation : Operation) (x : Server) :
    Handler Message (Reply Server Completion) :=
  .done (x, .error ⟨"Unsupported", "server has no operation " ++ operation.name⟩)

def onMessage (_ : Site) (message : Message) (sender : NodeId) (x : Server) :
    Handler Message (Reply Server Unit) :=
  match message with
  | .request id payload =>
    .log ("echo " ++ payload ++ " for " ++ sender.text)
      (.send (.reply id payload) sender (.done (⟨x.echoed ++ [payload]⟩, .ok ())))
  | .reply .. => .done (x, .ok ())

end Server

def server : Protocol Server Message where
  onStart := Protocol.idle
  onOperation := Server.onOperation
  onMessage := Server.onMessage
  onRecovery := Protocol.idle
  onFinish := Protocol.idle
  invalid? _ := none
  stateText x := String.intercalate "," x.echoed
  messageText := Message.text

/-- Clients and servers together. -/
def protocol : Protocol (Client ⊕ Server) Message := client.either server

/-- Whether a result is what the operation asked to be echoed, or is missing. -/
def accepts (result : Answer) (operation : Operation) : Bool :=
  match result with
  | .value text => operation.args.head? = some text
  | .crashed | .missing => true
  | .void | .exception _ => false

def verifyFrom (scenario : Scenario) : Nat → List (List Answer) → Bool
  | _, [] => true
  | i, results :: rest =>
    (results.zip (scenario.of (NodeId.ofIndex i))).all (fun p => accepts p.1 p.2)
      && verifyFrom scenario (i + 1) rest

/-- Every finished operation returned its own argument. -/
def verifier : Verifier := fun scenario results => verifyFrom scenario 0 results

end Echo

end Interleave
