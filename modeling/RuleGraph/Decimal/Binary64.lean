/-!
# Finite doubles as scaled integers

A finite double is a natural number times a power of two, with a sign. All decimal writing in the
library starts from this view, so that it is exact arithmetic on naturals.
-/

namespace RuleGraph

/-- A finite double, `mantissa * 2 ^ exponent` under a sign. -/
structure Binary64 where
  negative : Bool
  mantissa : Nat
  exponent : Int
  /-- The gap to the next value towards zero is half the gap to the next value away from it. -/
  narrowBelow : Bool
  deriving DecidableEq, Repr

namespace Binary64

/-- The scaled integer behind the bits of a double; not-a-number and the infinities have none. -/
def ofBits? (bits : UInt64) : Option Binary64 :=
  let negative := bits >>> 63 == 1
  let field := ((bits >>> 52) &&& 0x7FF).toNat
  let fraction := (bits &&& 0xFFFFFFFFFFFFF).toNat
  if field = 0x7FF then none
  else if field = 0 then some ⟨negative, fraction, -1074, false⟩
  else
    some ⟨negative, 4503599627370496 + fraction, (field : Int) - 1075, fraction == 0 && 1 < field⟩

def ofFloat? (x : Float) : Option Binary64 :=
  ofBits? x.toBits

/-- The size of the value is `numerator / denominator`. -/
def numerator (x : Binary64) : Nat :=
  x.mantissa * Nat.pow 2 x.exponent.toNat

/-- One for values with a nonnegative exponent, else a power of two. -/
def denominator (x : Binary64) : Nat :=
  Nat.pow 2 (-x.exponent).toNat

def integer? (x : Binary64) : Option Int :=
  if x.numerator % x.denominator = 0 then
    let size : Int := (x.numerator / x.denominator : Nat)
    some (if x.negative then -size else size)
  else none

/-- The minus sign of a negative value, negative zero included. -/
def sign (x : Binary64) : String :=
  if x.negative then "-" else ""

end Binary64

/-- How a double that is not finite is spelled where plain text is wanted. -/
def nonFiniteText (x : Float) : String :=
  if x.isNaN then "NaN" else if x < 0.0 then "-inf" else "inf"

/-! ## A fixed number of places -/

/-- The natural number nearest to a quotient, a half going to the even neighbour. -/
def roundHalfEven (numerator denominator : Nat) : Nat :=
  let below := numerator / denominator
  match compare (2 * (numerator % denominator)) denominator with
  | .lt => below
  | .gt => below + 1
  | .eq => if below % 2 = 0 then below else below + 1

namespace Binary64

/-- The value with exactly `places` digits behind the point, its sign kept when it rounds to
zero. -/
def fixed (places : Nat) (x : Binary64) : String :=
  let count := roundHalfEven (x.numerator * Nat.pow 10 places) x.denominator
  let digits := Nat.toDigits 10 count
  let padded := List.replicate (places + 1 - digits.length) '0' ++ digits
  let whole := padded.length - places
  let fraction := if places = 0 then "" else "." ++ String.ofList (padded.drop whole)
  x.sign ++ String.ofList (padded.take whole) ++ fraction

end Binary64

def fixedText (places : Nat) (x : Float) : String :=
  match Binary64.ofFloat? x with
  | some parts => parts.fixed places
  | none => nonFiniteText x

end RuleGraph
