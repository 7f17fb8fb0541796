import Mathlib.Data.List.Basic
import Mathlib.Tactic.IntervalCases
import RuleGraph.Json.Reader
import RuleGraph.Json.Writer
import RuleGraph.Proofs.Ids
import RuleGraph.Proofs.Rounding

/-!
# Numerals as they are written

The text of a number is the spelling of a numeral, and a spelled numeral is read back as it is,
whatever follows that cannot continue it. What the number is read as is therefore the value of the
numeral (`Number.reread?`). For naturals this is the number itself. For doubles it is what the
measure makes of the shortest decimal, and this need not be the double again.
-/

namespace RuleGraph

/-! ## Digits -/

/-- The decimal digits of a number, the most significant first. -/
def decimalDigits (n : Nat) : List Nat :=
  (Nat.toDigits 10 n).map digitValue

def digitChars (digits : List Nat) : List Char :=
  digits.map Nat.digitChar

theorem digitValue_digitChar {d : Nat} (h : d < 10) : digitValue (Nat.digitChar d) = d := by
  interval_cases d <;> rfl

theorem isDigit_digitChar {d : Nat} (h : d < 10) : (Nat.digitChar d).isDigit = true := by
  interval_cases d <;> rfl

theorem digitChar_digitValue {c : Char} (h : c.isDigit = true) :
    digitValue c < 10 ∧ Nat.digitChar (digitValue c) = c := by
  simp only [Char.isDigit, Bool.and_eq_true, decide_eq_true_eq, UInt32.le_iff_toNat_le] at h
  have hvalue : c = Char.ofNat (48 + digitValue c) := by
    have hcode : 48 + (c.toNat - 48) = c.toNat := by
      have hlow : 48 ≤ c.toNat := h.1
      omega
    simp [digitValue, hcode]
  have hlt : digitValue c < 10 := by
    have hhigh : c.toNat ≤ 57 := h.2
    simp only [digitValue, show '0'.toNat = 48 from rfl]
    omega
  refine ⟨hlt, ?_⟩
  rw [hvalue]
  generalize digitValue c = d at hlt
  interval_cases d <;> rfl

theorem decimalDigits_lt {n d : Nat} (h : d ∈ decimalDigits n) : d < 10 := by
  obtain ⟨c, hc, rfl⟩ := List.mem_map.mp h
  exact (digitChar_digitValue (Nat.isDigit_of_mem_toDigits (by decide) (by decide) hc)).1

theorem digitChars_decimalDigits (n : Nat) : digitChars (decimalDigits n) = Nat.toDigits 10 n := by
  have hall : ∀ c ∈ Nat.toDigits 10 n, Nat.digitChar (digitValue c) = c := fun c hc =>
    (digitChar_digitValue (Nat.isDigit_of_mem_toDigits (by decide) (by decide) hc)).2
  rw [digitChars, decimalDigits, List.map_map]
  exact (List.map_congr_left hall).trans (List.map_id _)

theorem decimalDigits_ne_nil (n : Nat) : decimalDigits n ≠ [] := by
  simp [decimalDigits, Nat.toDigits_ne_nil]

theorem length_decimalDigits (n : Nat) : (decimalDigits n).length = digitCount n := by
  simp [decimalDigits, digitCount]

theorem head?_decimalDigits {n : Nat} (h : 0 < n) : (decimalDigits n).head? ≠ some 0 := by
  have hhead := head?_toDigits_ne h
  rw [decimalDigits, List.head?_map, Ne, Option.map_eq_some_iff]
  rintro ⟨c, hc, hzero⟩
  have hdigit := Nat.isDigit_of_mem_toDigits (by decide) (by decide) (List.mem_of_head? hc)
  have hchar : '0' = c := by
    have hback := (digitChar_digitValue hdigit).2
    rwa [hzero] at hback
  exact hhead (hchar ▸ hc)

theorem head?_decimalDigits_of_long {n : Nat} (h : 1 < (decimalDigits n).length) :
    (decimalDigits n).head? ≠ some 0 := by
  apply head?_decimalDigits
  rw [Nat.pos_iff_ne_zero]
  rintro rfl
  simp [decimalDigits] at h

theorem natural_append (digits others : List Nat) :
    Numeral.natural (digits ++ others) =
      others.foldl (fun n digit => n * 10 + digit) (Numeral.natural digits) := by
  rw [Numeral.natural, List.foldl_append]
  rfl

theorem natural_decimalDigits (n : Nat) : Numeral.natural (decimalDigits n) = n := by
  have hvalue := value_toString n
  rw [Nat.toString_eq_repr, Nat.toList_repr] at hvalue
  rw [Numeral.natural, decimalDigits, List.foldl_map]
  exact hvalue

/-! ## Spelling -/

def EndsNumeral (rest : List Char) : Prop :=
  ∀ c ∈ rest.head?, c.isDigit = false ∧ c ≠ '.' ∧ c ≠ 'e' ∧ c ≠ 'E'

def EndsDigits (rest : List Char) : Prop :=
  ∀ c ∈ rest.head?, c.isDigit = false

theorem EndsNumeral.endsDigits {rest : List Char} (h : EndsNumeral rest) : EndsDigits rest :=
  fun c hc => (h c hc).1

namespace Numeral

def exponentChars : Option (Bool × List Nat) → List Char
  | none => []
  | some (negative, digits) => 'e' :: (if negative then '-' else '+') :: digitChars digits

def fractionChars (fraction : List Nat) : List Char :=
  if fraction = [] then [] else '.' :: digitChars fraction

def chars (n : Numeral) : List Char :=
  (if n.negative then ['-'] else []) ++
    (digitChars n.whole ++ (fractionChars n.fraction ++ exponentChars n.exponent))

/-- The numeral can be spelled. -/
structure WellFormed (n : Numeral) : Prop where
  whole_lt : ∀ d ∈ n.whole, d < 10
  whole_ne_nil : n.whole ≠ []
  /-- Only a single digit may be a zero in front. -/
  head_ne_zero : 1 < n.whole.length → n.whole.head? ≠ some 0
  fraction_lt : ∀ d ∈ n.fraction, d < 10
  exponent_lt : ∀ sign digits, n.exponent = some (sign, digits) →
    digits ≠ [] ∧ ∀ d ∈ digits, d < 10

theorem spanDigits_digitChars {digits : List Nat} (hdigits : ∀ d ∈ digits, d < 10)
    {rest : List Char} (hrest : EndsDigits rest) :
    spanDigits (digitChars digits ++ rest) = (digits, rest) := by
  induction digits with
  | nil =>
      cases rest with
      | nil => rfl
      | cons c rest =>
          have hc := hrest c rfl
          simp [spanDigits, digitChars, hc]
  | cons d digits ih =>
      have hd := hdigits d List.mem_cons_self
      have hrest := ih fun other hother => hdigits other (List.mem_cons_of_mem _ hother)
      simp only [spanDigits, digitChars, Prod.mk.injEq] at hrest
      simp [spanDigits, digitChars, isDigit_digitChar hd, digitValue_digitChar hd, hrest]

theorem readWhole_digitChars {digits : List Nat} (hdigits : ∀ d ∈ digits, d < 10)
    (hne : digits ≠ []) (hhead : 1 < digits.length → digits.head? ≠ some 0) {rest : List Char}
    (hrest : EndsDigits rest) : readWhole (digitChars digits ++ rest) = some (digits, rest) := by
  rw [readWhole, spanDigits_digitChars hdigits hrest]
  split
  · rename_i hnil
    exact absurd (Prod.mk.inj hnil).1 hne
  · rename_i hzero
    rw [(Prod.mk.inj hzero).1] at hhead
    simp at hhead
  · rfl

theorem readFraction_fractionChars {fraction : List Nat} (hfraction : ∀ d ∈ fraction, d < 10)
    {rest : List Char} (hrest : EndsDigits rest) (hpoint : rest.head? ≠ some '.') :
    readFraction (fractionChars fraction ++ rest) = some (fraction, rest) := by
  by_cases hnil : fraction = []
  · subst hnil
    rw [fractionChars, if_pos rfl, List.nil_append]
    cases rest with
    | nil => rfl
    | cons c rest =>
        rw [readFraction]
        intro others hothers
        exact hpoint (by rw [hothers, List.head?_cons])
  · rw [fractionChars, if_neg hnil, List.cons_append, readFraction,
      spanDigits_digitChars hfraction hrest]
    split
    · rename_i hempty
      exact absurd (Prod.mk.inj hempty).1 hnil
    · rfl

theorem readExponentDigits_digitChars (negative : Bool) {digits : List Nat}
    (hdigits : ∀ d ∈ digits, d < 10) (hne : digits ≠ []) {rest : List Char}
    (hrest : EndsDigits rest) :
    readExponentDigits negative (digitChars digits ++ rest) =
      some (some (negative, digits), rest) := by
  rw [readExponentDigits, spanDigits_digitChars hdigits hrest]
  split
  · rename_i hnil
    exact absurd (Prod.mk.inj hnil).1 hne
  · rename_i hfound
    cases hfound
    rfl

theorem readExponent_exponentChars {exponent : Option (Bool × List Nat)}
    (hexponent : ∀ sign digits, exponent = some (sign, digits) →
      digits ≠ [] ∧ ∀ d ∈ digits, d < 10)
    {rest : List Char} (hrest : EndsNumeral rest) :
    readExponent (exponentChars exponent ++ rest) = some (exponent, rest) := by
  cases exponent with
  | none =>
      cases rest with
      | nil => rfl
      | cons c rest =>
          have hc := hrest c rfl
          simp [exponentChars, readExponent, hc]
  | some found =>
      obtain ⟨negative, digits⟩ := found
      obtain ⟨hne, hdigits⟩ := hexponent negative digits rfl
      cases negative with
      | true => exact readExponentDigits_digitChars true hdigits hne hrest.endsDigits
      | false => exact readExponentDigits_digitChars false hdigits hne hrest.endsDigits

theorem ends_exponentChars (exponent : Option (Bool × List Nat)) {rest : List Char}
    (hrest : EndsNumeral rest) :
    EndsDigits (exponentChars exponent ++ rest) ∧
      (exponentChars exponent ++ rest).head? ≠ some '.' := by
  cases exponent with
  | none => exact ⟨hrest.endsDigits, fun hpoint => (hrest '.' hpoint).2.1 rfl⟩
  | some found => simp [exponentChars, EndsDigits]

theorem endsDigits_fractionChars (fraction : List Nat) {rest : List Char}
    (hrest : EndsDigits rest) : EndsDigits (fractionChars fraction ++ rest) := by
  by_cases hnil : fraction = []
  · simpa [fractionChars, hnil] using hrest
  · simp [fractionChars, hnil, EndsDigits]

/-- A numeral is read as it is spelled. -/
theorem read_chars {n : Numeral} (h : n.WellFormed) {rest : List Char} (hrest : EndsNumeral rest) :
    read (n.chars ++ rest) = some (n, rest) := by
  obtain ⟨negative, whole, fraction, exponent⟩ := n
  obtain ⟨hdigits, hpoint⟩ := ends_exponentChars exponent hrest
  have hwhole := readWhole_digitChars h.whole_lt h.whole_ne_nil h.head_ne_zero
    (endsDigits_fractionChars fraction hdigits)
  have hfraction := readFraction_fractionChars h.fraction_lt hdigits hpoint
  have hexponent := readExponent_exponentChars h.exponent_lt hrest
  dsimp only at hwhole hfraction hexponent
  cases negative with
  | true =>
      simp [read, chars, hwhole, hfraction, hexponent]
  | false =>
      obtain ⟨first, others, rfl⟩ := List.exists_cons_of_ne_nil h.whole_ne_nil
      have hminus : Nat.digitChar first ≠ '-' := by
        intro heq
        have hdigit := isDigit_digitChar (h.whole_lt first List.mem_cons_self)
        rw [heq] at hdigit
        exact Bool.noConfusion hdigit
      rw [digitChars, List.map_cons, List.cons_append] at hwhole
      simp only [read, chars, digitChars, List.map_cons, List.cons_append, List.nil_append,
        List.append_assoc, Bool.false_eq_true, if_false]
      split
      · rename_i hfirst
        exact absurd (List.cons.inj hfirst).1 hminus
      · simp [hwhole, hfraction, hexponent]

end Numeral

/-! ## Shortest decimals -/

namespace Binary64

variable {x : Binary64} {tie : Tie}

theorem pos_of_readsBack (hx : x.mantissa ≠ 0) {grid : Int} {count : Nat}
    (h : x.readsBack grid count = true) : 0 < count := by
  -- the lower end of what rounds to the value is not zero
  have hlow : 0 < x.onGrid grid (4 * x.mantissa - if x.narrowBelow then 1 else 2) := by
    have hquarters : 0 < 4 * x.mantissa - if x.narrowBelow then 1 else 2 := by
      split <;> omega
    exact Nat.mul_pos (Nat.mul_pos hquarters (Nat.two_pow_pos _)) (Nat.pow_pos (by decide))
  rw [Nat.pos_iff_ne_zero]
  rintro rfl
  rw [readsBack, Nat.zero_mul] at h
  split at h
  · rw [decide_eq_true_iff] at h
    omega
  · rw [decide_eq_true_iff] at h
    omega

theorem readsBack_of_nearestOnGrid? {grid : Int} {count : Nat}
    (h : x.nearestOnGrid? tie grid = some count) : x.readsBack grid count = true := by
  unfold nearestOnGrid? at h
  dsimp only at h
  split at h
  · cases h
  · rename_i hbelow _
    cases h
    exact hbelow
  · rename_i _ habove
    cases h
    exact habove
  · rename_i hbelow habove
    split at h
    · cases h
      exact hbelow
    · cases h
      exact habove
    · split at h
      · split at h <;> cases h
        · exact hbelow
        · exact habove
      · cases h
        exact habove

theorem exact_digits_pos (hx : x.mantissa ≠ 0) : 0 < x.exact.digits :=
  Nat.mul_pos (Nat.mul_pos (Nat.pos_of_ne_zero hx) (Nat.two_pow_pos _)) (Nat.pow_pos (by decide))

end Binary64

theorem Decimal.stripZeros_pos {d : Decimal} (fuel : Nat) (h : 0 < d.digits) :
    0 < (d.stripZeros fuel).digits := by
  induction fuel generalizing d with
  | zero => exact h
  | succ fuel ih =>
      rw [stripZeros]
      split
      · rename_i hzero
        apply ih
        dsimp only
        omega
      · exact h

/-- The digits of a shortest decimal stand for a positive number, unless the value is zero. -/
theorem Binary64.shortest_digits_pos {x : Binary64} (tie : Tie) (hx : x.mantissa ≠ 0) :
    0 < (x.shortest tie).digits := by
  rw [shortest, if_neg hx]
  apply Decimal.stripZeros_pos
  cases hhit : (List.range 17).findSome? fun (n : Nat) =>
      (x.nearestOnGrid? tie (x.scale - ((n : Int) + 1))).map fun count =>
        (⟨count, x.scale - ((n : Int) + 1)⟩ : Decimal) with
  | none => exact exact_digits_pos hx
  | some d =>
      obtain ⟨n, _, hn⟩ := List.exists_of_findSome?_eq_some hhit
      obtain ⟨count, hcount, rfl⟩ := Option.map_eq_some_iff.mp hn
      exact pos_of_readsBack hx (readsBack_of_nearestOnGrid? hcount)

/-! ## Numbers -/

/-- The decimal is zero only as a single digit. -/
def Decimal.Proper (d : Decimal) : Prop :=
  d.digits = 0 → d.exponent = 0

theorem Binary64.shortest_proper (x : Binary64) (tie : Tie) : (x.shortest tie).Proper := by
  by_cases hx : x.mantissa = 0
  · simp [Decimal.Proper, shortest, hx]
  · intro hzero
    have hpos := shortest_digits_pos tie hx
    omega

namespace Decimal

/-- The numeral of a decimal with the point where the exponent puts it; `.0` stands behind integers.
-/
def positionalNumeral (negative : Bool) (d : Decimal) : Numeral :=
  let digits := decimalDigits d.digits
  if 0 ≤ d.exponent then
    ⟨negative, digits ++ List.replicate d.exponent.toNat 0, [0], none⟩
  else
    let point := (digits.length : Int) + d.exponent
    if 0 < point then ⟨negative, digits.take point.toNat, digits.drop point.toNat, none⟩
    else ⟨negative, [0], List.replicate (-point).toNat 0 ++ digits, none⟩

/-- The numeral of a decimal with the exponent of its leading digit. -/
def scientificNumeral (negative : Bool) (d : Decimal) (leading : Int) : Numeral :=
  let digits := decimalDigits d.digits
  ⟨negative, digits.take 1, digits.drop 1,
    some (decide (leading < 0), decimalDigits leading.natAbs)⟩

/-- The numeral of a decimal under a sign, as it is written in a JSON text. -/
def numeral (negative : Bool) (d : Decimal) : Numeral :=
  let leading := (digitCount d.digits : Int) + d.exponent - 1
  if DecimalStyle.json.positional leading then d.positionalNumeral negative
  else d.scientificNumeral negative leading

variable {d : Decimal}

theorem length_digits_pos (d : Decimal) : 0 < (decimalDigits d.digits).length :=
  List.length_pos_iff.mpr (decimalDigits_ne_nil _)

theorem head_ne_zero_of_proper (h : d.Proper) (hexponent : d.exponent ≠ 0) :
    (decimalDigits d.digits).head? ≠ some 0 :=
  head?_decimalDigits (Nat.pos_of_ne_zero fun hzero => hexponent (h hzero))

theorem take_digits_lt {count digit : Nat} (h : digit ∈ (decimalDigits d.digits).take count) :
    digit < 10 :=
  decimalDigits_lt (List.mem_of_mem_take h)

theorem drop_digits_lt {count digit : Nat} (h : digit ∈ (decimalDigits d.digits).drop count) :
    digit < 10 :=
  decimalDigits_lt (List.mem_of_mem_drop h)

theorem zeros_lt {count digit : Nat} (h : digit ∈ List.replicate count 0) : digit < 10 := by
  simp [List.eq_of_mem_replicate h]

theorem positionalNumeral_wellFormed (negative : Bool) (h : d.Proper) :
    (d.positionalNumeral negative).WellFormed := by
  have hlength := d.length_digits_pos
  unfold positionalNumeral
  dsimp only
  split
  · refine ⟨?_, by simp [decimalDigits_ne_nil], ?_, by simp, by simp⟩
    · intro digit hdigit
      exact (List.mem_append.mp hdigit).elim decimalDigits_lt zeros_lt
    · dsimp only
      rw [List.head?_append_of_ne_nil _ (decimalDigits_ne_nil _)]
      by_cases hexponent : d.exponent = 0
      · simpa [hexponent] using head?_decimalDigits_of_long
      · exact fun _ => head_ne_zero_of_proper h hexponent
  · rename_i hexponent
    split
    · rename_i hpoint
      refine ⟨fun _ => take_digits_lt, ?_, ?_, fun _ => drop_digits_lt, by simp⟩
      · simp only [ne_eq, List.take_eq_nil_iff, decimalDigits_ne_nil, or_false]
        omega
      · intro _
        rw [List.head?_take, if_neg (by omega)]
        exact head_ne_zero_of_proper h (by omega)
    · refine ⟨by simp, by simp, by simp, ?_, by simp⟩
      intro digit hdigit
      exact (List.mem_append.mp hdigit).elim zeros_lt decimalDigits_lt

theorem scientificNumeral_wellFormed (negative : Bool) (d : Decimal) (leading : Int) :
    (d.scientificNumeral negative leading).WellFormed := by
  refine ⟨fun _ => take_digits_lt, ?_, ?_, fun _ => drop_digits_lt, ?_⟩
  · simp [scientificNumeral, decimalDigits_ne_nil]
  · simp [scientificNumeral]
  · rintro sign digits hfound
    cases hfound
    exact ⟨decimalDigits_ne_nil _, fun _ => decimalDigits_lt⟩

theorem numeral_wellFormed (negative : Bool) (h : d.Proper) : (d.numeral negative).WellFormed := by
  rw [numeral]
  split
  · exact positionalNumeral_wellFormed negative h
  · exact scientificNumeral_wellFormed negative d _

theorem digitChars_take (count n : Nat) :
    digitChars ((decimalDigits n).take count) = (Nat.toDigits 10 n).take count := by
  rw [← digitChars_decimalDigits, digitChars, digitChars, List.map_take]

theorem digitChars_drop (count n : Nat) :
    digitChars ((decimalDigits n).drop count) = (Nat.toDigits 10 n).drop count := by
  rw [← digitChars_decimalDigits, digitChars, digitChars, List.map_drop]

theorem digitChars_append (digits others : List Nat) :
    digitChars (digits ++ others) = digitChars digits ++ digitChars others :=
  List.map_append

theorem digitChars_zeros (count : Nat) :
    digitChars (List.replicate count 0) = (DecimalStyle.zeros count).toList := by
  simp [digitChars, DecimalStyle.zeros]

theorem toList_positionalText (negative : Bool) (d : Decimal) :
    (if negative then ['-'] else []) ++ (DecimalStyle.json.positionalText d).toList =
      (d.positionalNumeral negative).chars := by
  have hlength : (decimalDigits d.digits).length = (Nat.toDigits 10 d.digits).length :=
    length_decimalDigits _
  have hdigits := digitChars_decimalDigits d.digits
  have hne := decimalDigits_ne_nil d.digits
  unfold positionalNumeral DecimalStyle.positionalText
  dsimp only
  rw [hlength]
  by_cases hexponent : 0 ≤ d.exponent
  · rw [if_pos hexponent, if_pos hexponent]
    simp [Numeral.chars, Numeral.fractionChars, Numeral.exponentChars, digitChars_append, hdigits,
      digitChars_zeros, DecimalStyle.json]
    rfl
  · rw [if_neg hexponent, if_neg hexponent]
    by_cases hpoint : 0 < ((Nat.toDigits 10 d.digits).length : Int) + d.exponent
    · have hfraction : (decimalDigits d.digits).drop
          (((Nat.toDigits 10 d.digits).length : Int) + d.exponent).toNat ≠ [] := by
        rw [Ne, List.drop_eq_nil_iff]
        omega
      rw [if_pos hpoint, if_pos hpoint]
      simp [Numeral.chars, Numeral.fractionChars, Numeral.exponentChars, hfraction, digitChars_take,
        digitChars_drop]
    · rw [if_neg hpoint, if_neg hpoint]
      simp [Numeral.chars, Numeral.fractionChars, Numeral.exponentChars, digitChars_append, hdigits,
        digitChars_zeros, hne]
      rfl

theorem toList_scientificText (negative : Bool) (d : Decimal) (leading : Int) :
    (if negative then ['-'] else []) ++ (DecimalStyle.scientificText d leading).toList =
      (d.scientificNumeral negative leading).chars := by
  have hempty :
      (decimalDigits d.digits).drop 1 = [] ↔ (Nat.toDigits 10 d.digits).drop 1 = [] := by
    rw [decimalDigits, ← List.map_drop, List.map_eq_nil_iff]
  have hexponent :
      (toString leading.natAbs).toList = digitChars (decimalDigits leading.natAbs) := by
    rw [digitChars_decimalDigits, Nat.toString_eq_repr, Nat.toList_repr]
  unfold scientificNumeral DecimalStyle.scientificText
  simp only [Numeral.chars, Numeral.fractionChars, Numeral.exponentChars, digitChars_take,
    digitChars_drop, hempty, String.toList_append, hexponent, List.isEmpty_iff]
  by_cases hfraction : (Nat.toDigits 10 d.digits).drop 1 = []
  · rw [if_pos hfraction, if_pos hfraction]
    by_cases hsign : leading < 0 <;> simp [hsign]
  · rw [if_neg hfraction, if_neg hfraction]
    by_cases hsign : leading < 0 <;> simp [hsign]

theorem negative_numeral (negative : Bool) (d : Decimal) :
    (d.numeral negative).negative = negative := by
  unfold numeral positionalNumeral scientificNumeral
  dsimp only
  split
  · split
    · rfl
    · split <;> rfl
  · rfl

/-- What is written has a fraction or an exponent, even if it stands for an integer. -/
theorem numeral_not_plain (negative : Bool) (d : Decimal) :
    (d.numeral negative).fraction ≠ [] ∨ (d.numeral negative).exponent ≠ none := by
  unfold numeral
  dsimp only
  split
  · left
    unfold positionalNumeral
    dsimp only
    split
    · simp
    · split
      · rw [Ne, List.drop_eq_nil_iff]
        omega
      · simp [decimalDigits_ne_nil]
  · right
    simp [scientificNumeral]

/-- What is written is read as a double. -/
theorem value_numeral (negative : Bool) (d : Decimal) :
    (d.numeral negative).value =
      (d.numeral negative).magnitude.map fun x => .real (if negative then -x else x) := by
  have hplain := d.numeral_not_plain negative
  rw [Numeral.value, if_neg, negative_numeral]
  rintro ⟨hfraction, hexponent, _⟩
  exact hplain.elim (fun h => h hfraction) (fun h => h hexponent)

end Decimal

/-- A finite double is written as the numeral of its shortest decimal. -/
theorem Binary64.toList_write (x : Binary64) :
    (DecimalStyle.json.write x).toList = ((x.shortest .toEven).numeral x.negative).chars := by
  have hsign : x.sign.toList = if x.negative then ['-'] else [] := by
    rw [sign]
    split <;> rfl
  have htie : DecimalStyle.json.tie = .toEven := rfl
  rw [DecimalStyle.write, htie, String.toList_append, hsign, Decimal.numeral]
  by_cases hpositional : DecimalStyle.json.positional
      ((digitCount (x.shortest .toEven).digits : Int) + (x.shortest .toEven).exponent - 1) = true
  · rw [if_pos hpositional, if_pos hpositional]
    exact Decimal.toList_positionalText _ _
  · rw [if_neg hpositional, if_neg hpositional]
    exact Decimal.toList_scientificText _ _ _

namespace Number

/-- The numeral that a number is written as. A double that is not finite is written as none. -/
def numeral? : Number → Option Numeral
  | .natural n => some ⟨false, decimalDigits n.toNat, [], none⟩
  | .real x =>
    (Binary64.ofFloat? x).map fun parts => (parts.shortest .toEven).numeral parts.negative

/-- The number that is read from the text of a number. -/
def reread? (n : Number) : Option Number :=
  (Numeral.read (Json.numberChars n)).bind fun found => found.1.value

def isFinite : Number → Bool
  | .natural _ => true
  | .real x => x.isFinite

theorem spelled_of_numeral? {n : Number} {numeral : Numeral} (h : n.numeral? = some numeral) :
    Json.numberChars n = numeral.chars ∧ numeral.WellFormed := by
  cases n with
  | natural n =>
      cases h
      refine ⟨?_, fun _ => decimalDigits_lt, decimalDigits_ne_nil _, head?_decimalDigits_of_long,
        by simp, by simp⟩
      simp [Json.numberChars, Numeral.chars, Numeral.fractionChars, Numeral.exponentChars,
        digitChars_decimalDigits]
  | real x =>
      obtain ⟨parts, hparts, rfl⟩ := Option.map_eq_some_iff.mp h
      refine ⟨?_, Decimal.numeral_wellFormed _ (parts.shortest_proper _)⟩
      rw [Json.numberChars, hparts]
      exact parts.toList_write

theorem reread?_eq_value {n : Number} {numeral : Numeral} (h : n.numeral? = some numeral) :
    n.reread? = numeral.value := by
  obtain ⟨hchars, hformed⟩ := spelled_of_numeral? h
  have hread : Numeral.read (numeral.chars ++ []) = some (numeral, []) :=
    Numeral.read_chars hformed (by simp [EndsNumeral])
  rw [reread?, hchars, ← List.append_nil numeral.chars, hread]
  rfl

theorem exists_numeral? {n : Number} (h : n.isFinite = true) :
    ∃ numeral, n.numeral? = some numeral := by
  cases n with
  | natural n => exact ⟨_, rfl⟩
  | real x =>
      obtain ⟨parts, hparts⟩ := exists_ofFloat? h
      exact ⟨_, by rw [numeral?, hparts]; rfl⟩

/-- The text of a finite number is read up to its end. -/
theorem exists_read {n : Number} (h : n.isFinite = true) {rest : List Char}
    (hrest : EndsNumeral rest) :
    ∃ numeral, Numeral.read (Json.numberChars n ++ rest) = some (numeral, rest) ∧
      numeral.value = n.reread? := by
  obtain ⟨numeral, hnumeral⟩ := exists_numeral? h
  obtain ⟨hchars, hformed⟩ := spelled_of_numeral? hnumeral
  refine ⟨numeral, ?_, (reread?_eq_value hnumeral).symm⟩
  rw [hchars]
  exact Numeral.read_chars hformed hrest

theorem reread?_real {x : Float} {parts : Binary64} (h : Binary64.ofFloat? x = some parts) :
    (real x).reread? =
      ((parts.shortest .toEven).numeral parts.negative).magnitude.map fun y =>
        real (if parts.negative then -y else y) := by
  have hnumeral : (real x).numeral? = some ((parts.shortest .toEven).numeral parts.negative) := by
    rw [numeral?, h]
    rfl
  rw [reread?_eq_value hnumeral, Decimal.value_numeral]

/-- The text of a double is never read as a natural. -/
theorem exists_real_of_reread? {x : Float} (h : x.isFinite = true) {n : Number}
    (hread : (real x).reread? = some n) : ∃ y, n = real y := by
  obtain ⟨parts, hparts⟩ := exists_ofFloat? h
  rw [reread?_real hparts] at hread
  obtain ⟨y, _, rfl⟩ := Option.map_eq_some_iff.mp hread
  exact ⟨_, rfl⟩

theorem reread?_eq_real {x y : Float} (h : x.isFinite = true) :
    (real x).reread? = some (real y) ↔ (real x).reread?.map toFloat = some y := by
  cases hread : (real x).reread? with
  | none => simp
  | some n =>
      obtain ⟨z, rfl⟩ := exists_real_of_reread? h hread
      simp [toFloat]

end Number

end RuleGraph
