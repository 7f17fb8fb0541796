/-!
# Path ids

A laid-out node is named by its path: the root token, then the argument positions that lead to the
node, each behind a dot. An edge is named by its source and slot. Reading accepts exactly the names
that writing produces.
-/

namespace RuleGraph

/-- The token that every path id starts with. -/
def rootId : String :=
  "root"

def childId (parent : String) (position : Nat) : String :=
  parent ++ "." ++ toString position

def idOfPath (path : List Nat) : String :=
  path.foldl childId rootId

@[simp] theorem idOfPath_nil : idOfPath [] = rootId :=
  rfl

/-- One step further down is one more segment. -/
theorem idOfPath_concat (path : List Nat) (position : Nat) :
    idOfPath (path ++ [position]) = childId (idOfPath path) position := by
  rw [idOfPath, List.foldl_append]
  rfl

def edgeId (source : String) (slot : Nat) : String :=
  source ++ "-" ++ toString slot

/-- Why a text is not a path id. -/
inductive IdError where
  | notRooted (id : String)
  | invalidSegment (id segment : String)
  deriving DecidableEq

def IdError.message : IdError → String
  | notRooted id => "Node id '" ++ id ++ "' is not rooted at the document root"
  | invalidSegment id segment =>
    "Node id '" ++ id ++ "' has a non-numeric segment '" ++ segment ++ "'"

/-- The pieces of a text between dots: one more than there are dots. -/
def splitDots : List Char → List (List Char)
  | [] => [[]]
  | c :: rest =>
    match splitDots rest with
    | [] => [[c]]
    | piece :: pieces => if c = '.' then [] :: piece :: pieces else (c :: piece) :: pieces

/-- A position that fits into a word, in its only spelling: decimal digits without a leading
zero. -/
def position? (digits : List Char) : Option Nat :=
  if digits = [] then none
  else if digits.all Char.isDigit = false then none
  else if 1 < digits.length ∧ digits.head? = some '0' then none
  else
    let value := digits.foldl (fun n c => n * 10 + (c.toNat - '0'.toNat)) 0
    if value < UInt64.size then some value else none

/-- The positions that the segments of an id name; the first segment that names none is reported. -/
def readSegments (id : String) : List (List Char) → Except IdError (List Nat)
  | [] => .ok []
  | segment :: rest =>
    match position? segment with
    | none => .error (.invalidSegment id (String.ofList segment))
    | some position =>
      match readSegments id rest with
      | .error e => .error e
      | .ok path => .ok (position :: path)

/-- The path that an id names. -/
def pathOfId (id : String) : Except IdError (List Nat) :=
  match splitDots id.toList with
  | [] => .error (.notRooted id)
  | first :: segments =>
    if first = rootId.toList then readSegments id segments else .error (.notRooted id)

end RuleGraph
