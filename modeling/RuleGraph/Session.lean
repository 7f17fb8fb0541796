import RuleGraph.Document.Policy
import RuleGraph.Document.Writing
import RuleGraph.Session.EditOp
import RuleGraph.Session.Relayout
import RuleGraph.Snapshot

/-!
# Editing sessions

A session holds the graph of one document, the edits since it was loaded, and the earlier graphs. A
request answers with the session after it and whether it was granted. Keys and ids of new nodes come
from a supply that is never drawn from twice at one place.
-/

namespace RuleGraph

/-- Endless lists of keys and ids for new nodes. -/
structure Supply where
  keys : Nat → Key
  ids : Nat → String

inductive SessionError where
  | document (error : DocumentError)
  | edit (error : EditError)
  | rebuild (error : RebuildError)
  | snapshot (error : SnapshotError)
  | nothingToUndo

def SessionError.message : SessionError → String
  | document error => error.message
  | edit error => error.message
  | rebuild error => error.message
  | snapshot error => error.message
  | nothingToUndo => "Nothing to undo"

/-- The program stops where it would have to answer with this. -/
def SessionError.stops : SessionError → Bool
  | edit error => error.stops
  | rebuild error => error.stops
  | _ => false

/-- An open editor. -/
structure Session where
  layout : Layout Float
  supply : Supply
  /-- How many keys of the supply are spent. -/
  keysDrawn : Nat
  /-- How many ids of the supply are spent. -/
  idsDrawn : Nat
  graph : Graph Float
  /-- Earlier graphs, the latest first, each with the number of edits recorded at its time. -/
  history : List (Graph Float × Nat)
  /-- The edits since the document was loaded, the oldest first. -/
  log : List EditOp

namespace Session

/-- The session after a request, and why it was refused if it was. -/
abbrev Answer := Session × Except SessionError Unit

/-- The keys of the supply that are not spent. -/
def freshKeys (session : Session) (n : Nat) : Key :=
  session.supply.keys (session.keysDrawn + n)

def freshIds (session : Session) (n : Nat) : String :=
  session.supply.ids (session.idsDrawn + n)

def start (supply : Supply) (layout : Layout Float) : Session where
  layout := layout
  supply := supply
  keysDrawn := 1
  idsDrawn := 0
  graph := layout.document supply.keys []
  history := []
  log := []

/-- Replaces the document; history and log start over. -/
def loadDocument (session : Session) (document : Document) : Session :=
  let graph := session.layout.document session.freshKeys document
  { session with
    keysDrawn := session.keysDrawn + graph.nodes.length
    graph
    history := []
    log := [] }

def load (session : Session) (v : Json) : Answer :=
  match Document.ofJson v with
  | .error e => (session, .error (.document e))
  | .ok document => (session.loadDocument document, .ok ())

def loadUnder (session : Session) (policy : Policy) (v : Json) : Answer :=
  match Document.ofJsonUnder policy v with
  | .error e => (session, .error (.document e))
  | .ok document => (session.loadDocument document, .ok ())

def openOn (supply : Supply) (layout : Layout Float) (v : Json) : Except SessionError Session :=
  let (session, answer) := (start supply layout).load v
  answer.map fun _ => session

/-- Shows another graph, and keeps the one shown before. -/
def replaceGraph (session : Session) (graph : Graph Float) : Session :=
  { session with graph, history := (session.graph, session.log.length) :: session.history }

def apply (session : Session) (op : EditOp) : Answer :=
  match op.run session.layout (session.freshIds 0) (session.freshKeys 0) session.graph with
  | .error e => (session, .error (.edit e))
  | .ok graph =>
    let next := session.replaceGraph graph
    ({ next with
      keysDrawn := session.keysDrawn + 1
      idsDrawn := session.idsDrawn + 1
      log := session.log ++ [op] }, .ok ())

/-- Goes back to the latest earlier graph, and to the log of its time. -/
def undo (session : Session) : Answer :=
  match session.history with
  | [] => (session, .error .nothingToUndo)
  | (graph, edits) :: history =>
    ({ session with graph, history, log := session.log.take edits }, .ok ())

/-- Going back reverts whatever the replaced graph was. -/
theorem undo_replaceGraph (session : Session) (graph : Graph Float) :
    (session.replaceGraph graph).undo = (session, .ok ()) := by
  rw [replaceGraph, undo]
  dsimp only
  rw [List.take_length]

def canUndo (session : Session) : Bool :=
  !session.history.isEmpty

def document (session : Session) : Except SessionError Document :=
  match session.graph.document with
  | .error e => .error (.rebuild e)
  | .ok document => .ok document

def save (session : Session) : Except SessionError Json :=
  match session.document with
  | .error e => .error e
  | .ok document =>
    match document.toJson with
    | .error e => .error (.document e)
    | .ok v => .ok v

/-- Draws the document afresh; keys and detached nodes stay. -/
def relayout (session : Session) : Answer :=
  match session.graph.trace with
  | .error e => (session, .error (.rebuild e))
  | .ok trace =>
    let graph := session.graph.relaid session.layout session.freshKeys session.freshIds trace
    let next := session.replaceGraph graph
    ({ next with
      keysDrawn := session.keysDrawn + graph.nodes.length
      idsDrawn := session.idsDrawn + session.graph.nodes.length }, .ok ())

def snapshot (session : Session) : Except SessionError Bytes :=
  match session.graph.toBytes with
  | .error e => .error (.snapshot e)
  | .ok bytes => .ok bytes

def restore (session : Session) (bytes : Bytes) : Answer :=
  match Graph.ofBytes bytes with
  | .error e => (session, .error (.snapshot e))
  | .ok graph => (session.replaceGraph graph, .ok ())

end Session

end RuleGraph
