import RuleGraph.Decimal.Shortest
import RuleGraph.Json.Value

/-!
# Writing JSON texts

Two layouts of one text: `Json.compact` without any blank, and `Json.pretty` with a line for each
item and member, indented by two blanks a level.
-/

namespace RuleGraph

/-- Numbers in JSON texts: an exponent part from `1e16` on and below `1e-5`, `.0` behind integral
values, and the even one of two equally near decimals. -/
def DecimalStyle.json : DecimalStyle :=
  ⟨.toEven, fun leading => -5 ≤ leading && leading < 16, ".0"⟩

namespace Json

/-- A number as text. A double that is not finite has no text of its own. -/
def numberChars : Number → List Char
  | .natural n => Nat.toDigits 10 n.toNat
  | .real x =>
    match Binary64.ofFloat? x with
    | some parts => (DecimalStyle.json.write parts).toList
    | none => ['n', 'u', 'l', 'l']

/-- One character of a string: quotes, backslashes and control characters are escaped. -/
def escapedChar (c : Char) : List Char :=
  if c = '"' then ['\\', '"']
  else if c = '\\' then ['\\', '\\']
  else if c = '\x08' then ['\\', 'b']
  else if c = '\x0c' then ['\\', 'f']
  else if c = '\n' then ['\\', 'n']
  else if c = '\r' then ['\\', 'r']
  else if c = '\t' then ['\\', 't']
  else if c.toNat < 0x20 then
    ['\\', 'u', '0', '0', Nat.digitChar (c.toNat / 16), Nat.digitChar (c.toNat % 16)]
  else [c]

def stringChars (s : String) : List Char :=
  '"' :: (s.toList.flatMap escapedChar ++ ['"'])

mutual

/-- The text of a value without blanks, in front of a rest. -/
def compactOnto (rest : List Char) : Json → List Char
  | .null => 'n' :: 'u' :: 'l' :: 'l' :: rest
  | .bool true => 't' :: 'r' :: 'u' :: 'e' :: rest
  | .bool false => 'f' :: 'a' :: 'l' :: 's' :: 'e' :: rest
  | .number n => numberChars n ++ rest
  | .string s => stringChars s ++ rest
  | .array [] => '[' :: ']' :: rest
  | .array (item :: others) => '[' :: item.compactOnto (compactItems rest others)
  | .object [] => '\x7b' :: '\x7d' :: rest
  | .object ((name, item) :: others) =>
    '\x7b' :: (stringChars name ++ ':' :: item.compactOnto (compactMembers rest others))

def compactItems (rest : List Char) : List Json → List Char
  | [] => ']' :: rest
  | item :: others => ',' :: item.compactOnto (compactItems rest others)

def compactMembers (rest : List Char) : List (String × Json) → List Char
  | [] => '\x7d' :: rest
  | (name, item) :: others =>
    ',' :: (stringChars name ++ ':' :: item.compactOnto (compactMembers rest others))

end

def newLine (level : Nat) : List Char :=
  '\n' :: List.replicate (2 * level) ' '

mutual

/-- The indented text of a value that starts on a line of the given level, in front of a rest. -/
def prettyOnto (level : Nat) (rest : List Char) : Json → List Char
  | .null => 'n' :: 'u' :: 'l' :: 'l' :: rest
  | .bool true => 't' :: 'r' :: 'u' :: 'e' :: rest
  | .bool false => 'f' :: 'a' :: 'l' :: 's' :: 'e' :: rest
  | .number n => numberChars n ++ rest
  | .string s => stringChars s ++ rest
  | .array [] => '[' :: ']' :: rest
  | .array (item :: others) =>
    '[' :: (newLine (level + 1) ++ item.prettyOnto (level + 1) (prettyItems level rest others))
  | .object [] => '\x7b' :: '\x7d' :: rest
  | .object ((name, item) :: others) =>
    '\x7b' :: (newLine (level + 1) ++ stringChars name ++ ':' :: ' ' ::
      item.prettyOnto (level + 1) (prettyMembers level rest others))

def prettyItems (level : Nat) (rest : List Char) : List Json → List Char
  | [] => newLine level ++ ']' :: rest
  | item :: others =>
    ',' :: (newLine (level + 1) ++ item.prettyOnto (level + 1) (prettyItems level rest others))

def prettyMembers (level : Nat) (rest : List Char) : List (String × Json) → List Char
  | [] => newLine level ++ '\x7d' :: rest
  | (name, item) :: others =>
    ',' :: (newLine (level + 1) ++ stringChars name ++ ':' :: ' ' ::
      item.prettyOnto (level + 1) (prettyMembers level rest others))

end

def compact (v : Json) : String :=
  String.ofList (v.compactOnto [])

def pretty (v : Json) : String :=
  String.ofList (v.prettyOnto 0 [])

end Json

end RuleGraph
