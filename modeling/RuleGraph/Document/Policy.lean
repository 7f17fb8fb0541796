import RuleGraph.Document.Reading
import RuleGraph.Registry

/-!
# Policies

Rules for the top-level expressions of a document that is in good order. The first defect in the
order of expressions, and for one expression in the order of rules, refuses the document.
-/

namespace RuleGraph

/-- A rule for top-level expressions. -/
inductive Policy where
  /-- Each expression is `IFTHEN` with a `checkEventType` condition. -/
  | studyRule
  /-- Each operation name, at any depth, is known. -/
  | knownOperations (registry : Registry)
  /-- A rule of the caller. -/
  | custom (rule : Nat → Expression → Except DocumentError Unit)
  /-- Each of several rules holds. -/
  | all (policies : List Policy)

def checkStudyRule (index : Nat) (e : Expression) : Except DocumentError Unit :=
  if e.name = "IFTHEN" then
    match e.arguments.head?.bind Argument.expression? with
    | some condition =>
      if condition.name = "checkEventType" then .ok ()
      else .error (.invalidExpression [index, 0] (.wrongCondition condition.name))
    | none => .error (.invalidExpression [index, 0] .noCondition)
  else .error (.invalidExpression [index] (.notARule e.name))

mutual

def checkKnown (registry : Registry) (path : List Nat) : Argument → Except DocumentError Unit
  | .literal _ => .ok ()
  | .nested name arguments =>
    if registry.contains name then checkKnownAll registry path 0 arguments
    else .error (.invalidExpression path (.unknownOperation name))

def checkKnownAll (registry : Registry) (path : List Nat) (position : Nat) :
    List Argument → Except DocumentError Unit
  | [] => .ok ()
  | argument :: rest =>
    match checkKnown registry (path ++ [position]) argument with
    | .error e => .error e
    | .ok () => checkKnownAll registry path (position + 1) rest

end

mutual

def Policy.check (index : Nat) (e : Expression) : Policy → Except DocumentError Unit
  | .studyRule => checkStudyRule index e
  | .knownOperations registry => checkKnown registry [index] (.ofExpression e)
  | .custom rule => rule index e
  | .all policies => checkPolicies index e policies

def checkPolicies (index : Nat) (e : Expression) : List Policy → Except DocumentError Unit
  | [] => .ok ()
  | policy :: rest =>
    match policy.check index e with
    | .error e => .error e
    | .ok () => checkPolicies index e rest

end

def Policy.checkDocument (policy : Policy) (index : Nat) : Document → Except DocumentError Unit
  | [] => .ok ()
  | e :: rest =>
    match policy.check index e with
    | .error e => .error e
    | .ok () => policy.checkDocument (index + 1) rest

def Document.ofJsonUnder (policy : Policy) (v : Json) : Except DocumentError Document :=
  match Document.ofJson v with
  | .error e => .error e
  | .ok document =>
    match policy.checkDocument 0 document with
    | .error e => .error e
    | .ok () => .ok document

end RuleGraph
