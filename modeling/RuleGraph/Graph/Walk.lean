import RuleGraph.Graph.Rebuild

/-!
# Walks

The roots are rebuilt one after another by a single walker. All visits share what it carries: the
operations around the visited node, as a set and as a stack, the path at which the node stands in
the document, the keys that are noted, and the ids that were met. An operation is entered before its
arguments are visited and left when they are settled.
-/

namespace RuleGraph

/-- What the visits of a walk share. -/
structure Walker where
  /-- The operations around the visited node. -/
  visiting : List String
  /-- The operations around the visited node, the outermost first. -/
  stack : List String
  /-- The path at which the visited node stands in the document. -/
  path : List Nat
  /-- The keys of the operations met so far, by their paths. -/
  keys : Table (List Nat) Key
  /-- The ids of the nodes met so far. -/
  visited : List String

namespace Walker

variable {α : Type}

def fresh : Walker :=
  ⟨[], [], [], [], []⟩

def meet (walker : Walker) (node : Node α) : Walker :=
  { walker with visited := walker.visited ++ [node.id] }

def enter (walker : Walker) (node : Node α) : Walker :=
  { walker with
    visiting := node.id :: walker.visiting
    stack := walker.stack ++ [node.id]
    keys := walker.keys.put walker.path node.key }

def leave (walker : Walker) (node : Node α) : Walker :=
  { walker with
    visiting := walker.visiting.erase node.id
    stack := walker.stack.dropLast }

def push (walker : Walker) (position : Nat) : Walker :=
  { walker with path := walker.path ++ [position] }

def pop (walker : Walker) : Walker :=
  { walker with path := walker.path.dropLast }

end Walker

abbrev Walk :=
  StateT Walker (Except RebuildError)

namespace GraphIndex

variable {α : Type}

def walkPosition (index : GraphIndex α) (visit : Node α → Walk Argument) (node : Node α)
    (inline : List (Option Literal)) (position : Nat) : Walk (Option Argument) :=
  match index.edgeFrom? node.id position with
  | some edge =>
    match index.node? edge.target with
    | none => throw (.nodeNotFound edge.target node.id)
    | some target => do
      modify fun walker => walker.push position
      let argument ← visit target
      modify Walker.pop
      return some argument
  | none =>
    match inline[position]? with
    | some (some value) => return some (.literal value)
    | _ =>
      if (node.slot? position).any fun slot => slot.required then throw (node.missingSlot position)
      else return none

/-- An operation is settled with what fills its positions, and left. -/
def walkSettled (node : Node α) (name : String) (positions : List (Option Argument)) :
    Walk Argument :=
  let kept := dropTrailingEmpty positions
  match kept.findIdx? Option.isNone with
  | some gap => throw (node.missingSlot gap)
  | none => do
    modify fun walker => walker.leave node
    return .nested name (kept.filterMap id)

/-- The visit of a node, with a bound on the nesting as for `unfold`. -/
def walk (index : GraphIndex α) : Nat → Node α → Walk Argument
  | 0, node => do throw (.cyclicGraph node.id ((← get).stack ++ [node.id]))
  | fuel + 1, node => do
    modify fun walker => walker.meet node
    match node.content with
    | .constant value => return .literal value
    | .operation name inline =>
      if node.id ∈ (← get).visiting then
        throw (.cyclicGraph node.id ((← get).stack ++ [node.id]))
      else if name = "" then throw (.unnamedOperation node.id)
      else do
        modify fun walker => walker.enter node
        if overflows node.slots inline then throw (.overflow node.id)
        else
          let positions ← (List.range (argumentCount node.slots inline)).mapM fun position =>
            index.walkPosition (walk index fuel) node inline position
          walkSettled node name positions

def walkRoot (index : GraphIndex α) (fuel : Nat) (id : String) (path : List Nat) :
    Walk Expression :=
  match index.node? id with
  | none => throw (.nodeNotFound id "<root>")
  | some node =>
    if node.content.isConstant then throw (.constantRoot id)
    else do
      modify fun walker => { walker with path }
      match (← index.walk fuel node).expression? with
      | some e => return e
      | none => throw (.constantRoot id)

end GraphIndex

namespace Graph

variable {α : Type}

/-- The expression that a walker of its own rebuilds from the node with an id. -/
def walkFrom (graph : Graph α) (id : String) : Except RebuildError Expression := do
  let (e, _) ← (graph.index.walkRoot graph.nestingBound id []).run .fresh
  return e

/-- The document that one walker rebuilds from the roots, in order, with what it has noted. -/
def walkRoots (graph : Graph α) : Except RebuildError Trace := do
  let index := graph.index
  let (expressions, walker) ← (graph.roots.zipIdx.mapM fun root =>
    index.walkRoot graph.nestingBound root.1 [root.2]).run .fresh
  return ⟨expressions, walker.keys, walker.visited⟩

end Graph

end RuleGraph
