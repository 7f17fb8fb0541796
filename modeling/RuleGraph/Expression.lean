/-!
# Expressions

A rule is a tree of named operations. The arguments of an operation are ordered, and each of them is
a literal or another operation; positions count every argument, literals included.
-/

namespace RuleGraph

/-- A number or a text that stands for itself. -/
inductive Literal where
  | number (value : Float)
  | text (value : String)

/-- An operand: a literal, or an operation with operands of its own. -/
inductive Argument where
  | literal (value : Literal)
  | nested (name : String) (arguments : List Argument)

/-- A named operation with ordered arguments. -/
structure Expression where
  name : String
  arguments : List Argument

instance : Inhabited Literal := ⟨.text ""⟩
instance : Inhabited Argument := ⟨.literal default⟩
instance : Inhabited Expression := ⟨⟨"", []⟩⟩

namespace Literal

/-- Not-a-number and the infinities cannot be written in a document. -/
def isFinite : Literal → Bool
  | .number x => x.isFinite
  | .text _ => true

def same : Literal → Literal → Bool
  | .number x, .number y => x == y
  | .text s, .text t => s == t
  | _, _ => false

end Literal

namespace Argument

def ofExpression (e : Expression) : Argument :=
  .nested e.name e.arguments

def expression? : Argument → Option Expression
  | .literal _ => none
  | .nested name arguments => some ⟨name, arguments⟩

def literal? : Argument → Option Literal
  | .literal value => some value
  | .nested _ _ => none

@[simp] theorem expression?_ofExpression (e : Expression) : (ofExpression e).expression? = some e :=
  rfl

mutual

def nodeCount : Argument → Nat
  | .literal _ => 0
  | .nested _ arguments => 1 + nodeCountAll arguments

def nodeCountAll : List Argument → Nat
  | [] => 0
  | argument :: rest => argument.nodeCount + nodeCountAll rest

end

mutual

/-- Longest chain of operations in the argument, from the outermost one inwards. -/
def depth : Argument → Nat
  | .literal _ => 0
  | .nested _ arguments => 1 + depthAll arguments

def depthAll : List Argument → Nat
  | [] => 0
  | argument :: rest => max argument.depth (depthAll rest)

end

mutual

def names : Argument → List String
  | .literal _ => []
  | .nested name arguments => name :: namesAll arguments

def namesAll : List Argument → List String
  | [] => []
  | argument :: rest => argument.names ++ namesAll rest

end

mutual

/-- Equality with literals compared as `Literal.same` does. -/
def same : Argument → Argument → Bool
  | .literal x, .literal y => x.same y
  | .nested f xs, .nested g ys => f == g && sameAll xs ys
  | _, _ => false

def sameAll : List Argument → List Argument → Bool
  | [], [] => true
  | x :: xs, y :: ys => x.same y && sameAll xs ys
  | _, _ => false

end

end Argument

namespace Expression

def nested (e : Expression) : List (Nat × Expression) :=
  e.arguments.zipIdx.filterMap fun entry => entry.1.expression?.map fun child => (entry.2, child)

def isLeaf (e : Expression) : Bool :=
  e.nested.isEmpty

def nodeCount (e : Expression) : Nat :=
  1 + Argument.nodeCountAll e.arguments

/-- Longest chain of operations; an operation without nested ones has depth one. -/
def depth (e : Expression) : Nat :=
  1 + Argument.depthAll e.arguments

/-- Every operation name in the tree, depth first and left to right. -/
def names (e : Expression) : List String :=
  e.name :: Argument.namesAll e.arguments

/-- Equality with literals compared as `Literal.same` does. -/
def same (e f : Expression) : Bool :=
  e.name == f.name && Argument.sameAll e.arguments f.arguments

end Expression

abbrev Document : Type :=
  List Expression

def Document.same : Document → Document → Bool
  | [], [] => true
  | e :: es, f :: fs => e.same f && Document.same es fs
  | _, _ => false

end RuleGraph
