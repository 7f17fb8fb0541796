import RuleGraph.Decimal.Shortest

/-!
# Document errors

Why a document is refused, and at which place: a path leads to an expression or argument through the
index of the top-level expression and then through argument positions.
-/

namespace RuleGraph

/-- What is wrong with an expression or an argument. -/
inductive Defect where
  | notAnObject (found : String)
  | missingName
  | emptyName
  | nameNotText (found : String)
  | dataNotAList (found : String)
  | argumentNotAnObject (found : String)
  | noArgumentType
  | unknownArgumentType (dtype : String)
  | noNumber
  | noText
  | noExpression
  | unwritableNumber (value : Float)
  | notARule (name : String)
  | wrongCondition (name : String)
  | noCondition
  | unknownOperation (name : String)
  /-- A defect in the words of the caller. -/
  | stated (reason : String)

def Defect.message : Defect → String
  | notAnObject found => "expected an object, found " ++ found
  | missingName => "missing 'name'"
  | emptyName => "'name' is empty"
  | nameNotText found => "'name' must be a string, found " ++ found
  | dataNotAList found => "'data' must be an array, found " ++ found
  | argumentNotAnObject found => "expected an argument object, found " ++ found
  | noArgumentType => "argument has no string 'dtype'"
  | unknownArgumentType dtype => "unknown dtype '" ++ dtype ++ "'"
  | noNumber => "argument of dtype 'num' has no numeric 'num'"
  | noText => "argument of dtype 'str' has no string 'str'"
  | noExpression => "argument of dtype 'exp' has no 'exp'"
  | unwritableNumber value => "number " ++ plainText value ++ " cannot be written as JSON"
  | notARule name => "study rule must be 'IFTHEN', found '" ++ name ++ "'"
  | wrongCondition name =>
    "study rule condition must be 'checkEventType', found '" ++ name ++ "'"
  | noCondition => "study rule condition must be a 'checkEventType' expression"
  | unknownOperation name => "unknown operation '" ++ name ++ "'"
  | stated reason => reason

inductive DocumentError where
  | invalidDocument (reason : String)
  | invalidExpression (path : List Nat) (defect : Defect)
  | json (reason : String)

def pathText (path : List Nat) : String :=
  if path.isEmpty then "<document>" else ".".intercalate (path.map toString)

def DocumentError.message : DocumentError → String
  | invalidDocument reason => "Invalid expression document: " ++ reason
  | invalidExpression path defect =>
    "Invalid expression at " ++ pathText path ++ ": " ++ defect.message
  | json reason => "Failed to parse document JSON: " ++ reason

end RuleGraph
