import RuleGraph.Json.Value

/-!
# JSON numerals

A numeral is read in two steps: the grammar splits it into its runs of digits, and the value is then
measured. The measure collects digits while they fit into 64 bits and scales the result by a power
of ten in double arithmetic; a numeral whose value is beyond the range of doubles has none.
-/

namespace RuleGraph

/-- The parts of a numeral. The fraction is empty if there is no point. -/
structure Numeral where
  negative : Bool
  whole : List Nat
  fraction : List Nat
  /-- The sign of the exponent, true for a minus, and its digits. -/
  exponent : Option (Bool × List Nat)

def digitValue (c : Char) : Nat :=
  c.toNat - '0'.toNat

def spanDigits (cs : List Char) : List Nat × List Char :=
  ((cs.takeWhile Char.isDigit).map digitValue, cs.dropWhile Char.isDigit)

namespace Numeral

def readWhole (cs : List Char) : Option (List Nat × List Char) :=
  match spanDigits cs with
  | ([], _) => none
  | (0 :: _ :: _, _) => none
  | found => some found

/-- The fraction, which has at least one digit behind its point. -/
def readFraction : List Char → Option (List Nat × List Char)
  | '.' :: rest =>
    match spanDigits rest with
    | ([], _) => none
    | found => some found
  | cs => some ([], cs)

def readExponentDigits (negative : Bool) (cs : List Char) :
    Option (Option (Bool × List Nat) × List Char) :=
  match spanDigits cs with
  | ([], _) => none
  | (digits, rest) => some (some (negative, digits), rest)

def readExponent : List Char → Option (Option (Bool × List Nat) × List Char)
  | c :: rest =>
    if c = 'e' ∨ c = 'E' then
      match rest with
      | '+' :: rest => readExponentDigits false rest
      | '-' :: rest => readExponentDigits true rest
      | rest => readExponentDigits false rest
    else some (none, c :: rest)
  | [] => some (none, [])

/-- The numeral at the start of a text, and what follows it. -/
def read (cs : List Char) : Option (Numeral × List Char) := do
  let (negative, cs) := match cs with
    | '-' :: rest => (true, rest)
    | cs => (false, cs)
  let (whole, cs) ← readWhole cs
  let (fraction, cs) ← readFraction cs
  let (exponent, cs) ← readExponent cs
  some (⟨negative, whole, fraction, exponent⟩, cs)

/-- Appends digits to a significand while it fits into a word; returns the digits left over. -/
def collect (significand : Nat) : List Nat → Nat × List Nat
  | [] => (significand, [])
  | digit :: rest =>
    if significand * 10 + digit < UInt64.size then collect (significand * 10 + digit) rest
    else (significand, digit :: rest)

def natural (digits : List Nat) : Nat :=
  digits.foldl (fun n digit => n * 10 + digit) 0

def power (n : Nat) : Float :=
  Float.ofScientific 1 false n

/-- A nonnegative double times a power of ten. Exponents below -308 are taken in steps of 308; a
significand of 64 bits vanishes after two of them, so that three steps are enough. -/
def scaled : Nat → Float → Int → Option Float
  | 0, x, _ => some x
  | steps + 1, x, exponent =>
    if exponent.natAbs ≤ 308 then
      if 0 ≤ exponent then
        let y := x * power exponent.natAbs
        if y.isFinite then some y else none
      else some (x / power exponent.natAbs)
    else if x == 0.0 then some x
    else if 0 ≤ exponent then none
    else scaled steps (x / power 308) (exponent + 308)

/-- The exponents that a double's scale is kept within. -/
def clampExponent (exponent : Int) : Int :=
  max (-2147483648) (min 2147483647 exponent)

/-- The size of a numeral with a fraction, an exponent or too many digits. -/
def magnitude (n : Numeral) : Option Float :=
  let (wholeDigits, dropped) := collect 0 n.whole
  let (significand, unread) := collect wholeDigits n.fraction
  let shift : Int := (dropped.length : Int) - ((n.fraction.length - unread.length : Nat) : Int)
  let start := (UInt64.ofNat significand).toFloat
  match n.exponent with
  | none => scaled 3 start shift
  | some (negative, digits) =>
    let exponent := natural digits
    if 2147483647 < exponent then
      if significand ≠ 0 ∧ negative = false then none else some 0.0
    else
      scaled 3 start (clampExponent (if negative then shift - exponent else shift + exponent))

/-- The value of a numeral, if it is within the range of doubles. -/
def value (n : Numeral) : Option Number :=
  if n.fraction = [] ∧ n.exponent = none ∧ natural n.whole < UInt64.size then
    let size := UInt64.ofNat (natural n.whole)
    some (if n.negative then .real (-size.toFloat) else .natural size)
  else
    n.magnitude.map fun x => .real (if n.negative then -x else x)

end Numeral

end RuleGraph
