/-
# The tree of interleavings

Every node of the tree is a point of an execution at which a choice was open,
and its children are keyed by the task executed next. Which tasks are worth
executing next is reduced by the message order and by causality: right after a
task of node `p`, a pending task of a lower node is worth executing only if it
causally follows the finished one, for else the two commute and the other order
is explored elsewhere.

The nodes stand in an array, a child after its parent.

Key definitions: `Tree`, `Tree.eligible`, `Tree.observe`, `Tree.next?`,
`Tree.branch`, `Tree.recount`, `Tree.trail?`.
-/
import Interleave.Ascending
import Interleave.Config
import Interleave.Task
import Interleave.Tree.Share

namespace Interleave

/-- Why the tree cannot follow an execution. -/
inductive TreeError where
  | missing (node : Nat)
  | notEligible (task : TaskId) (node : Nat)
  /-- A later visit found other tasks eligible. -/
  | changed (known found : List TaskId)
  deriving DecidableEq

namespace TreeError

def idList (l : List TaskId) : String :=
  "[" ++ String.intercalate ", " (l.map fun t => "TaskId(" ++ toString t.number ++ ")") ++ "]"

def message : TreeError → String
  | missing node => "no tree node " ++ toString node
  | notEligible task node => task.text ++ " is not eligible at tree node " ++ toString node
  | changed known found =>
    "eligible tasks changed between visits: " ++ idList known ++ " then " ++ idList found

def toAbort (e : TreeError) : Abort := .treeInvariant e.message

end TreeError

/-- A point of an execution. Shares are numbers of type `F`. -/
structure TreeNode (F : Type) where
  /-- The task executed to get here; none at the root. -/
  task : Option (TaskId × TaskKind)
  parent : Option Nat
  /-- The tasks worth executing next; none before the first visit. -/
  eligible : Option (List (TaskId × TaskKind))
  children : List (TaskId × Nat)
  explored : Bool
  /-- The unexplored share of the interleavings from here. -/
  unexplored : F

namespace TreeNode

variable {F : Type} [Share F]

/-- A point not visited yet. -/
def fresh (task : Option (TaskId × TaskKind)) (parent : Option Nat) : TreeNode F :=
  ⟨task, parent, none, [], false, Share.one⟩

def child? (x : TreeNode F) (t : TaskId) : Option Nat := Ascending.lookup t x.children

/-- The eligible tasks by ascending number; none before the first visit. -/
def eligibleIds (x : TreeNode F) : List TaskId := (x.eligible.getD []).map (·.1)

/-- Whether `a` comes before `b` in the canonical order. -/
def before (a b : TaskId × TaskKind) : Bool :=
  a.2.rank < b.2.rank || a.2.rank = b.2.rank && a.1 < b.1

/-- The task that comes first in the canonical order. -/
def canonical : List (TaskId × TaskKind) → Option (TaskId × TaskKind)
  | [] => none
  | a :: l =>
    match canonical l with
    | none => some a
    | some b => some (if before b a then b else a)

/-- The canonical choice at a visited node. -/
def next? (x : TreeNode F) : Option TaskId := (x.eligible.bind canonical).map (·.1)

end TreeNode

structure Tree (F : Type) where
  nodes : Array (TreeNode F)
  order : DeliveryOrder

namespace Tree

variable {F : Type} [Share F]

/-- Place of the root: the state right after a reset. -/
def root : Nat := 0

/-- Only a root, not visited yet. -/
def empty (order : DeliveryOrder) : Tree F := ⟨#[TreeNode.fresh none none], order⟩

def size (t : Tree F) : Nat := t.nodes.size

def isExplored (t : Tree F) (n : Nat) : Bool := (t.nodes[n]?.map (·.explored)).getD false

def unexplored (t : Tree F) (n : Nat) : F := (t.nodes[n]?.map (·.unexplored)).getD Share.zero

def parent? (t : Tree F) (n : Nat) : Option Nat := t.nodes[n]?.bind (·.parent)

def eligibleIds (t : Tree F) (n : Nat) : List TaskId :=
  (t.nodes[n]?.map TreeNode.eligibleIds).getD []

def next? (t : Tree F) (n : Nat) : Option TaskId := t.nodes[n]?.bind TreeNode.next?

/-- The messages whose delivery is pending, oldest first. -/
def deliveries (pending : List TaskView) : List MessageId :=
  Ascending.ofList ((pending.filter (·.kind = .receive)).filterMap (·.message))

/-- A fault candidate applies only while its message is among those in flight. -/
def live (inFlight : List MessageId) (t : TaskView) : Bool :=
  !t.kind.isFault || (t.message.map inFlight.contains).getD false

/-- No message comes before any message. -/
def older : Option MessageId → Option MessageId → Bool
  | _, none => false
  | none, some _ => true
  | some a, some b => a < b

/-- Whether the delivery `t` has to wait for an older message on its link. -/
def waits (pending : List TaskView) (t : TaskView) : Bool :=
  t.kind = .receive && pending.any fun u =>
    u.kind = .receive && u.sender = t.sender && u.owner = t.owner && older u.message t.message

/-- The deliveries that first-in first-out links hold back. -/
def blocked (order : DeliveryOrder) (pending : List TaskView) : List TaskId :=
  match order with
  | .fifo => (pending.filter (waits pending)).map (·.id)
  | _ => []

/-- Whether `t` is worth executing right after `finished`. -/
def follows (finished : Option TaskView) (t : TaskView) : Bool :=
  match finished with
  | none => true
  | some f => f.owner ≤ t.owner || f.clock.happensBefore t.clock

/-- The message that alone may move when messages are synchronous. -/
def oldest? (order : DeliveryOrder) (inFlight : List MessageId) : Option MessageId :=
  match order with
  | .synchronous => inFlight.head?
  | _ => none

/-- The pending tasks worth executing right after `finished`. -/
def eligibleViews (order : DeliveryOrder) (finished : Option TaskView) (pending : List TaskView) :
    List TaskView :=
  let inFlight := deliveries pending
  match oldest? order inFlight with
  | some m => pending.filter fun t => live inFlight t && t.message = some m
  | none =>
    let held := blocked order pending
    pending.filter fun t => live inFlight t && !held.contains t.id && follows finished t

/-- The same tasks by ascending number, with their kinds. -/
def eligible (order : DeliveryOrder) (finished : Option TaskView) (pending : List TaskView) :
    List (TaskId × TaskKind) :=
  Ascending.ofEntries ((eligibleViews order finished pending).map fun t => (t.id, t.kind))

/-- Records what is eligible at node `n` on the first visit, and checks it on every later one.
`finished` is the task that led here and `pending` all tasks pending after it. -/
def observe (t : Tree F) (n : Nat) (finished : Option TaskView) (pending : List TaskView) :
    Except TreeError Unit × Tree F :=
  let found := eligible t.order finished pending
  match t.nodes[n]? with
  | none => (.error (.missing n), t)
  | some x =>
    match x.eligible with
    | none =>
      (.ok (), { t with nodes := t.nodes.modify n fun x => { x with eligible := some found } })
    | some known =>
      if known = found then (.ok (), t)
      else (.error (.changed (known.map (·.1)) (found.map (·.1))), t)

/-- The tree with a new child of node `n`, at its end. -/
def grow (t : Tree F) (n : Nat) (task : TaskId) (kind : TaskKind) : Tree F :=
  let index := t.nodes.size
  let nodes := t.nodes.modify n fun x =>
    { x with children := Ascending.put task index x.children }
  { t with nodes := nodes.push (TreeNode.fresh (some (task, kind)) (some n)) }

/-- The child of node `n` by an eligible task, made on first use. -/
def branch (t : Tree F) (n : Nat) (task : TaskId) : Except TreeError Nat × Tree F :=
  match t.nodes[n]? with
  | none => (.error (.missing n), t)
  | some x =>
    match x.child? task with
    | some c => (.ok c, t)
    | none =>
      match Ascending.lookup task (x.eligible.getD []) with
      | none => (.error (.notEligible task n), t)
      | some kind => (.ok t.size, t.grow n task kind)

/-- The unexplored share behind a task at a node; all of it before the first try. -/
def weight (t : Tree F) (x : TreeNode F) (task : TaskId) : F :=
  match x.child? task with
  | none => Share.one
  | some c => if t.isExplored c then Share.zero else t.unexplored c

/-- Whether the interleavings behind a task at a node are all explored. -/
def exploredBehind (t : Tree F) (x : TreeNode F) (task : TaskId) : Bool :=
  match x.child? task with
  | none => false
  | some c => t.isExplored c

def sum (l : List F) : F := l.foldl Share.add Share.zero

/-- Node `x` with its statistics computed anew from its children. -/
def recounted (t : Tree F) (x : TreeNode F) (eligible : List TaskId) : TreeNode F :=
  if eligible.all (t.exploredBehind x) then { x with explored := true, unexplored := Share.zero }
  else
    { x with
      explored := false
      unexplored := Share.divNat (sum (eligible.map (t.weight x))) eligible.length }

/-- Computes the statistics of node `n` anew, unless it was never visited. -/
def recountNode (t : Tree F) (n : Nat) : Except Panic Unit × Tree F :=
  match t.nodes[n]? with
  | none => (.error (.outOfBounds t.size n), t)
  | some x =>
    match x.eligible with
    | none => (.ok (), t)
    | some _ =>
      let y := t.recounted x x.eligibleIds
      (.ok (), { t with nodes := t.nodes.modify n fun _ => y })

/-- Computes statistics anew for nodes listed from the bottom up. Stops at a place that is not in
the tree, with the changes made so far. -/
def recountUp (t : Tree F) : List Nat → Except Panic Unit × Tree F
  | [] => (.ok (), t)
  | n :: rest =>
    match t.recountNode n with
    | (.ok (), t) => t.recountUp rest
    | (.error e, t) => (.error e, t)

/-- Computes statistics anew along a path listed from the root down. -/
def recount (t : Tree F) (path : List Nat) : Except Panic Unit × Tree F :=
  t.recountUp path.reverse

def trailFrom (t : Tree F) (n : Nat) : List TaskId → Option (List Nat)
  | [] => some [n]
  | task :: rest =>
    match t.nodes[n]?.bind (·.child? task) with
    | none => none
    | some c => (trailFrom t c rest).map (n :: ·)

/-- The nodes from the root along a path of tasks, if all of them exist. -/
def trail? (t : Tree F) (path : List TaskId) : Option (List Nat) := t.trailFrom root path

end Tree

end Interleave
