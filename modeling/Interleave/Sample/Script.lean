/-
# Scripted nodes

Node logic given as data: lists of actions for the start, the end, the recovery,
each operation and each message. A scripted node keeps notes and knows how many
instances were made at its address before it. In texts, the mark `{m}` stands for
the message at hand, or for the first argument of the operation at hand.
-/
import Interleave.Node
import Interleave.Text.Quoted

namespace Interleave

namespace Script

/-- Whom an action sends to. -/
inductive Target where
  | node (v : NodeId)
  /-- The node after this one, the first after the last. -/
  | next
  | me
  /-- The sender of the message at hand, or this node. -/
  | sender

inductive Action where
  | send (target : Target) (text : String)
  | broadcast (text : String)
  | log (text : String)
  | note (text : String)
  /-- Completes the operation in flight and notes whether there was one. -/
  | complete (value : Option String)
  /-- Ends the list, and the operation with a value. -/
  | value (text : String)
  /-- Ends the list, and the operation without a value. -/
  | void
  /-- Ends the list and leaves the operation to be completed later. -/
  | later
  | fail (kind message : String)
  | raise (payload : Option String)
  | hang
  /-- Notes the names of the events recorded so far. -/
  | events
  /-- Notes the logs of all nodes. -/
  | logs
  /-- Notes the addresses of a role. -/
  | addresses (role : Role)
  /-- Runs the actions if the note is there. -/
  | whenNoted (text : String) (actions : List Action)
  /-- Runs the actions if the note is not there. -/
  | unlessNoted (text : String) (actions : List Action)
  /-- Runs the actions from the `k`-th instance on. -/
  | fromInstance (k : Nat) (actions : List Action)

end Script

/-- The action lists of a node. -/
structure Script where
  start : List Script.Action
  /-- What to do on recovery; what is done at the start if missing. -/
  recovery : Option (List Script.Action)
  finish : List Script.Action
  /-- Actions by operation name, with `*` for all others. -/
  operations : List (String × List Script.Action)
  /-- Actions by message, with `*` for all others. -/
  messages : List (String × List Script.Action)
  /-- A note that makes the state invalid. -/
  invalid : Option String

namespace Script

/-- A node that follows a script. -/
structure Actor where
  script : Script
  /-- How many instances were made at the address before. -/
  earlier : Nat
  notes : List String

/-- How a list of actions ended before its end. -/
inductive Ending where
  | outcome (o : Completion)
  | failed (e : NodeError)

/-- What an action list is run on. -/
structure Occasion where
  site : Site
  sender : NodeId
  /-- What the mark stands for. -/
  subject : String

/-- Characters with every mark among them replaced by the subject. -/
def fillChars (subject : List Char) : List Char → List Char
  | '\x7b' :: 'm' :: '\x7d' :: rest => subject ++ fillChars subject rest
  | c :: rest => c :: fillChars subject rest
  | [] => []

/-- The mark replaced by the subject. -/
def fill (o : Occasion) (text : String) : String :=
  String.ofList (fillChars o.subject.toList text.toList)

def resolve (o : Occasion) : Target → NodeId
  | .node v => v
  | .next => NodeId.ofIndex ((o.site.me.index + 1) % o.site.size)
  | .me => o.site.me
  | .sender => o.sender

def Actor.noting (x : Actor) (text : String) : Actor := { x with notes := x.notes ++ [text] }

def plus (l : List String) : String := String.intercalate "+" l

mutual

/-- Runs one action. -/
def runAction (o : Occasion) (x : Actor) : Action → Handler String (Actor × Option Ending)
  | .send target text => .send (fill o text) (resolve o target) (.done (x, none))
  | .broadcast text => Handler.sendAll (fill o text) o.site.others (.done (x, none))
  | .log text => .log (fill o text) (.done (x, none))
  | .note text => .done (x.noting (fill o text), none)
  | .complete value =>
    .complete (value.map (fill o)) fun ok =>
      .done (x.noting ("complete=" ++ (if ok then "true" else "false")), none)
  | .value text => .done (x, some (.outcome (.value (fill o text))))
  | .void => .done (x, some (.outcome .void))
  | .later => .done (x, some (.outcome .later))
  | .fail kind message => .done (x, some (.failed ⟨fill o kind, fill o message⟩))
  | .raise payload => .raise (payload.map (fill o))
  | .hang => .hang
  | .events => .events fun l => .done (x.noting ("events=" ++ plus (l.map Event.name)), none)
  | .logs => .logs fun l =>
    .done (x.noting ("logs=" ++ String.intercalate "|" (l.map plus)), none)
  | .addresses role =>
    .done (x.noting ("addresses=" ++ plus ((o.site.addresses role).map NodeId.text)), none)
  | .whenNoted text actions =>
    if x.notes.contains (fill o text) then runActions o x actions else .done (x, none)
  | .unlessNoted text actions =>
    if x.notes.contains (fill o text) then .done (x, none) else runActions o x actions
  | .fromInstance k actions =>
    if k ≤ x.earlier then runActions o x actions else .done (x, none)

/-- Runs actions until one ends the list. -/
def runActions (o : Occasion) (x : Actor) : List Action → Handler String (Actor × Option Ending)
  | [] => .done (x, none)
  | a :: rest =>
    (runAction o x a).bind fun r =>
      match r with
      | (x, none) => runActions o x rest
      | (x, some ending) => .done (x, some ending)

end

/-- Runs a list that has no result of its own. -/
def runHook (o : Occasion) (actions : List Action) (x : Actor) :
    Handler String (Reply Actor Unit) :=
  (runActions o x actions).map fun
    | (x, some (.failed e)) => (x, .error e)
    | (x, _) => (x, .ok ())

/-- The actions for a name: its own, else those for all others, else none. -/
def actionsFor (table : List (String × List Action)) (name : String) : List Action :=
  match table.find? (·.1 == name) with
  | some e => e.2
  | none => ((table.find? (·.1 == "*")).map (·.2)).getD []

namespace Actor

def atHome (site : Site) : Occasion := ⟨site, site.me, ""⟩

def onStart (site : Site) (x : Actor) : Handler String (Reply Actor Unit) :=
  runHook (atHome site) x.script.start x

def onRecovery (site : Site) (x : Actor) : Handler String (Reply Actor Unit) :=
  runHook (atHome site) (x.script.recovery.getD x.script.start) x

def onFinish (site : Site) (x : Actor) : Handler String (Reply Actor Unit) :=
  runHook (atHome site) x.script.finish x

def onOperation (site : Site) (operation : Operation) (x : Actor) :
    Handler String (Reply Actor Completion) :=
  (runActions ⟨site, site.me, operation.args.headD ""⟩ x
      (actionsFor x.script.operations operation.name)).map fun
    | (x, some (.failed e)) => (x, .error e)
    | (x, some (.outcome o)) => (x, .ok o)
    | (x, none) => (x, .ok .void)

def onMessage (site : Site) (message : String) (sender : NodeId) (x : Actor) :
    Handler String (Reply Actor Unit) :=
  runHook ⟨site, sender, message⟩ (actionsFor x.script.messages message) x

/-- Why the state is rejected, if it is. -/
def invalid? (x : Actor) : Option String :=
  (x.script.invalid.filter x.notes.contains).map ("found " ++ ·)

end Actor

def protocol : Protocol Actor String where
  onStart := Actor.onStart
  onOperation := Actor.onOperation
  onMessage := Actor.onMessage
  onRecovery := Actor.onRecovery
  onFinish := Actor.onFinish
  invalid? := Actor.invalid?
  stateText x := String.intercalate "," x.notes
  messageText := Text.quoted

end Script

end Interleave
