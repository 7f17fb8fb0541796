import RuleGraph.Decimal.Binary64

/-!
# Shortest decimals

`Binary64.shortest` is a decimal with the fewest digits among those that round to a given double,
and the nearest of these. The search tries one digit, two digits and so on; on each decimal grid
only the two neighbours of the value can be the nearest, so only these are tested, in exact
arithmetic on naturals. `DecimalStyle` holds what a text format decides by itself.
-/

namespace RuleGraph

structure Decimal where
  digits : Nat
  exponent : Int
  deriving DecidableEq, Repr

/-- Which of two equally near neighbours a choice falls on. -/
inductive Tie where
  | toEven
  | up
  deriving DecidableEq, Repr

def digitCount (n : Nat) : Nat :=
  (Nat.toDigits 10 n).length

namespace Decimal

/-- Moves at most `fuel` trailing zeros of the digits into the exponent. -/
def stripZeros : Nat → Decimal → Decimal
  | 0, d => d
  | fuel + 1, d =>
    if d.digits % 10 = 0 ∧ d.digits ≠ 0 then stripZeros fuel ⟨d.digits / 10, d.exponent + 1⟩ else d

def strip (d : Decimal) : Decimal :=
  d.stripZeros (digitCount d.digits)

end Decimal

namespace Binary64

/-- The least `k` with the value below `10 ^ k`; the value is not zero. No double but zero is below
`10 ^ (-400)`. -/
def scale (x : Binary64) : Int :=
  (digitCount (x.numerator * Nat.pow 10 400 / x.denominator) : Int) - 400

/-- The numerator, over `gridUnit`, of `quarters / 4 * 2 ^ exponent` counted in grid steps. -/
def onGrid (x : Binary64) (grid : Int) (quarters : Nat) : Nat :=
  quarters * Nat.pow 2 x.exponent.toNat * Nat.pow 10 (-grid).toNat

def gridUnit (x : Binary64) (grid : Int) : Nat :=
  4 * x.denominator * Nat.pow 10 grid.toNat

/-- The point `count * 10 ^ grid` lies among the reals that round to the value: from halfway to the
neighbour below to halfway to the neighbour above, ends included when the mantissa is even. -/
def readsBack (x : Binary64) (grid : Int) (count : Nat) : Bool :=
  let low := x.onGrid grid (4 * x.mantissa - if x.narrowBelow then 1 else 2)
  let high := x.onGrid grid (4 * x.mantissa + 2)
  let point := count * x.gridUnit grid
  if x.mantissa % 2 = 0 then decide (low ≤ point ∧ point ≤ high)
  else decide (low < point ∧ point < high)

/-- The nearest point of a decimal grid that reads back to the value, if there is one. -/
def nearestOnGrid? (tie : Tie) (x : Binary64) (grid : Int) : Option Nat :=
  let value := x.onGrid grid (4 * x.mantissa)
  let unit := x.gridUnit grid
  let below := value / unit
  match x.readsBack grid below, x.readsBack grid (below + 1) with
  | false, false => none
  | true, false => some below
  | false, true => some (below + 1)
  | true, true =>
    match compare (2 * value) ((2 * below + 1) * unit) with
    | .lt => some below
    | .gt => some (below + 1)
    | .eq => match tie with
      | .toEven => some (if below % 2 = 0 then below else below + 1)
      | .up => some (below + 1)

def exact (x : Binary64) : Decimal :=
  ⟨x.numerator * Nat.pow 5 (-x.exponent).toNat, min x.exponent 0⟩

/-- The shortest decimal that reads back to the value, and the nearest of these. Seventeen digits
are enough for every double; the exact expansion stands behind the search all the same. -/
def shortest (tie : Tie) (x : Binary64) : Decimal :=
  if x.mantissa = 0 then ⟨0, 0⟩
  else
    let scale := x.scale
    let hit := (List.range 17).findSome? fun (n : Nat) =>
      let grid := scale - ((n : Int) + 1)
      (x.nearestOnGrid? tie grid).map fun count => (⟨count, grid⟩ : Decimal)
    (hit.getD x.exact).strip

end Binary64

/-- The decisions of one text format for decimals. -/
structure DecimalStyle where
  /-- Where two shortest decimals are equally near. -/
  tie : Tie
  /-- The exponents of the leading digit that are written without an exponent part. -/
  positional : Int → Bool
  /-- What follows an integral value written without an exponent part. -/
  integralSuffix : String

namespace DecimalStyle

def zeros (n : Nat) : String :=
  String.ofList (List.replicate n '0')

def positionalText (style : DecimalStyle) (d : Decimal) : String :=
  let digits := Nat.toDigits 10 d.digits
  if 0 ≤ d.exponent then
    String.ofList digits ++ zeros d.exponent.toNat ++ style.integralSuffix
  else
    let point := (digits.length : Int) + d.exponent
    if 0 < point then
      String.ofList (digits.take point.toNat) ++ "." ++ String.ofList (digits.drop point.toNat)
    else "0." ++ zeros (-point).toNat ++ String.ofList digits

/-- One digit, the others behind a point, and the exponent with its sign. -/
def scientificText (d : Decimal) (leading : Int) : String :=
  let digits := Nat.toDigits 10 d.digits
  let head := String.ofList (digits.take 1)
  let tail := digits.drop 1
  let fraction := if tail.isEmpty then "" else "." ++ String.ofList tail
  head ++ fraction ++ (if leading < 0 then "e-" else "e+") ++ toString leading.natAbs

def write (style : DecimalStyle) (x : Binary64) : String :=
  let d := x.shortest style.tie
  let leading := (digitCount d.digits : Int) + d.exponent - 1
  x.sign ++ if style.positional leading then style.positionalText d else scientificText d leading

end DecimalStyle

/-- Numbers shown to people: never an exponent part, integral values without a point, and the
upper of two equally near decimals. -/
def DecimalStyle.plain : DecimalStyle :=
  ⟨.up, fun _ => true, ""⟩

def plainText (x : Float) : String :=
  match Binary64.ofFloat? x with
  | some parts => DecimalStyle.plain.write parts
  | none => nonFiniteText x

end RuleGraph
