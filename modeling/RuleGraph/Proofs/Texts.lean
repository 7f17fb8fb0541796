import RuleGraph.Proofs.Grammar
import RuleGraph.Proofs.Numerals
import RuleGraph.Proofs.Writing

/-!
# Texts of values

The indented text of a value is taken apart into the value again, numbers aside: a number stands
there as it is reread (`Json.raw`). Reading follows the writer part by part. A part is read up to
its end whatever follows it, and the length of the text bounds the steps.
-/

namespace RuleGraph

open RawJson

/-! ## Strings -/

/-- How a character is read from its escape: as a unit, if it is escaped by its number. -/
def unitOf (c : Char) : TextUnit :=
  if c.toNat < 0x20 ∧ c ∉ ['\x08', '\x0c', '\n', '\r', '\t'] then .unit c.toNat else .char c

theorem hexDigit?_digitChar {d : Nat} (h : d < 16) : hexDigit? (Nat.digitChar d) = some d := by
  interval_cases d <;> rfl

theorem readUnits_letter {letter c : Char} (hletter : letter ≠ 'u')
    (h : escaped? letter = some c) (rest : List Char) :
    readUnits ('\\' :: letter :: rest) =
      (readUnits rest).map fun found => (.char c :: found.1, found.2) := by
  rw [readUnits]
  · rw [h]
    cases readUnits rest <;> rfl
  · exact fun _ _ _ _ _ hu => absurd hu hletter

theorem readUnits_code {high low code : Nat} (hhigh : high < 16) (hlow : low < 16)
    (hcode : code = high * 16 + low) (rest : List Char) :
    readUnits ('\\' :: 'u' :: '0' :: '0' :: Nat.digitChar high :: Nat.digitChar low :: rest) =
      (readUnits rest).map fun found => (.unit code :: found.1, found.2) := by
  have hunit : hexUnit? '0' '0' (Nat.digitChar high) (Nat.digitChar low) = some code := by
    have hzero : hexDigit? '0' = some 0 := rfl
    simp [hexUnit?, hzero, hexDigit?_digitChar hhigh, hexDigit?_digitChar hlow, hcode]
  rw [readUnits, hunit]
  cases readUnits rest <;> rfl

theorem readUnits_plain {c : Char} (hquote : c ≠ '"') (hescape : c ≠ '\\') (h : ¬ c.toNat < 0x20)
    (rest : List Char) :
    readUnits (c :: rest) = (readUnits rest).map fun found => (.char c :: found.1, found.2) := by
  rw [readUnits, if_neg h]
  · cases readUnits rest <;> rfl
  · exact hquote
  · exact fun _ _ _ _ _ h _ => hescape h
  · exact fun _ _ h _ => hescape h

theorem readUnits_escapedChar (c : Char) (rest : List Char) :
    readUnits (Json.escapedChar c ++ rest) =
      (readUnits rest).map fun found => (unitOf c :: found.1, found.2) := by
  unfold Json.escapedChar unitOf
  by_cases hquote : c = '"'
  · subst hquote
    exact readUnits_letter (by decide) rfl rest
  by_cases hescape : c = '\\'
  · subst hescape
    exact readUnits_letter (by decide) rfl rest
  by_cases hback : c = '\x08'
  · subst hback
    exact readUnits_letter (by decide) rfl rest
  by_cases hfeed : c = '\x0c'
  · subst hfeed
    exact readUnits_letter (by decide) rfl rest
  by_cases hline : c = '\n'
  · subst hline
    exact readUnits_letter (by decide) rfl rest
  by_cases hreturn : c = '\r'
  · subst hreturn
    exact readUnits_letter (by decide) rfl rest
  by_cases htab : c = '\t'
  · subst htab
    exact readUnits_letter (by decide) rfl rest
  simp only [hquote, hescape, hback, hfeed, hline, hreturn, htab, if_false, List.mem_cons,
    List.not_mem_nil, or_self, not_false_eq_true, and_true]
  by_cases hcontrol : c.toNat < 0x20
  · simp only [hcontrol, if_true]
    exact readUnits_code (by omega) (by omega) (by omega) rest
  · simp only [hcontrol, if_false]
    exact readUnits_plain hquote hescape hcontrol rest

theorem readUnits_string (cs rest : List Char) :
    readUnits (cs.flatMap Json.escapedChar ++ '"' :: rest) = some (cs.map unitOf, rest) := by
  induction cs with
  | nil => rfl
  | cons c cs ih =>
      rw [List.flatMap_cons, List.append_assoc, readUnits_escapedChar, ih]
      rfl

/-- A unit below the surrogates is a character by itself, whatever follows. -/
theorem joinUnits_unit {code : Nat} (h : code < 0xD800) (rest : List TextUnit) :
    joinUnits (.unit code :: rest) = (joinUnits rest).map (Char.ofNat code :: ·) := by
  have hhigh : ¬(0xD800 ≤ code ∧ code < 0xDC00) := by omega
  have hlow : ¬(0xDC00 ≤ code ∧ code < 0xE000) := by omega
  have hany : ¬(0xD800 ≤ code ∧ code < 0xE000) := by omega
  cases rest with
  | nil => simp [joinUnits, hany]
  | cons next others =>
      cases next with
      | char c => simp [joinUnits, hany]
      | unit low => simp [joinUnits, hhigh, hlow]

theorem joinUnits_map_unitOf (cs : List Char) : joinUnits (cs.map unitOf) = some cs := by
  induction cs with
  | nil => rfl
  | cons c cs ih =>
      rw [List.map_cons]
      by_cases hcontrol : c.toNat < 0x20 ∧ c ∉ ['\x08', '\x0c', '\n', '\r', '\t']
      · rw [unitOf, if_pos hcontrol, joinUnits_unit (by omega), ih, Char.ofNat_toNat]
        rfl
      · rw [unitOf, if_neg hcontrol, joinUnits, ih]
        rfl

/-- A string is read as it was escaped. -/
theorem readString_stringChars (s : String) (rest : List Char) :
    readString (s.toList.flatMap Json.escapedChar ++ '"' :: rest) = some (some s, rest) := by
  rw [readString, readUnits_string]
  simp [joinUnits_map_unitOf]

/-! ## Numbers -/

theorem skipBlanks_cons {c : Char} (h : isBlank c = false) (rest : List Char) :
    skipBlanks (c :: rest) = c :: rest := by
  simp [skipBlanks, h]

def StartsNumeral (c : Char) : Prop :=
  c = '-' ∨ c.isDigit = true

theorem StartsNumeral.ne {c d : Char} (h : StartsNumeral c) (hminus : d ≠ '-')
    (hdigit : d.isDigit = false) : c ≠ d := by
  rintro rfl
  rcases h with h | h
  · exact hminus h
  · simp [hdigit] at h

theorem Numeral.exists_cons_chars {n : Numeral} (h : n.WellFormed) :
    ∃ c cs, n.chars = c :: cs ∧ StartsNumeral c := by
  obtain ⟨negative, whole, fraction, exponent⟩ := n
  cases negative with
  | true => exact ⟨'-', _, rfl, Or.inl rfl⟩
  | false =>
      obtain ⟨first, others, rfl⟩ := List.exists_cons_of_ne_nil h.whole_ne_nil
      exact ⟨_, _, rfl, Or.inr (isDigit_digitChar (h.whole_lt first List.mem_cons_self))⟩

theorem Number.exists_cons_chars {n : Number} (h : n.isFinite = true) :
    ∃ c cs, Json.numberChars n = c :: cs ∧ StartsNumeral c := by
  obtain ⟨numeral, hnumeral⟩ := exists_numeral? h
  obtain ⟨hchars, hformed⟩ := spelled_of_numeral? hnumeral
  rw [hchars]
  exact numeral.exists_cons_chars hformed

theorem StartsNumeral.isBlank {c : Char} (h : StartsNumeral c) : isBlank c = false := by
  have hspace : c ≠ ' ' := h.ne (by decide) (by decide)
  have hline : c ≠ '\n' := h.ne (by decide) (by decide)
  have htab : c ≠ '\t' := h.ne (by decide) (by decide)
  have hreturn : c ≠ '\r' := h.ne (by decide) (by decide)
  simp [RawJson.isBlank, hspace, hline, htab, hreturn]

theorem readValue_numeral {c : Char} (h : StartsNumeral c) (fuel : Nat) (cs : List Char) :
    readValue (fuel + 1) (c :: cs) =
      (Numeral.read (c :: cs)).map fun found => (.number found.1.value, found.2) := by
  have hnull : c ≠ 'n' := h.ne (by decide) (by decide)
  have htrue : c ≠ 't' := h.ne (by decide) (by decide)
  have hfalse : c ≠ 'f' := h.ne (by decide) (by decide)
  have hquote : c ≠ '"' := h.ne (by decide) (by decide)
  have hbracket : c ≠ '[' := h.ne (by decide) (by decide)
  have hbrace : c ≠ '\x7b' := h.ne (by decide) (by decide)
  simp only [readValue, skipBlanks_cons h.isBlank]
  split
  · rename_i heq
    exact absurd (List.cons.inj heq).1 hnull
  · rename_i heq
    exact absurd (List.cons.inj heq).1 htrue
  · rename_i heq
    exact absurd (List.cons.inj heq).1 hfalse
  · rename_i heq
    exact absurd (List.cons.inj heq).1 hquote
  · rename_i heq
    exact absurd (List.cons.inj heq).1 hbracket
  · rename_i heq
    exact absurd (List.cons.inj heq).1 hbrace
  · cases Numeral.read (c :: cs) <;> rfl

theorem readValue_number {n : Number} (h : n.isFinite = true) (fuel : Nat) {rest : List Char}
    (hrest : EndsNumeral rest) :
    readValue (fuel + 1) (Json.numberChars n ++ rest) = some (.number n.reread?, rest) := by
  obtain ⟨numeral, hread, hvalue⟩ := Number.exists_read h hrest
  obtain ⟨c, cs, hchars, hstarts⟩ := Number.exists_cons_chars h
  rw [hchars, List.cons_append] at hread ⊢
  rw [readValue_numeral hstarts, hread, ← hvalue]
  rfl

/-! ## Values -/

namespace Json

mutual

/-- What the text of a value is taken apart into: the value, each number as it is reread. -/
def raw : Json → RawJson
  | .null => .null
  | .bool value => .bool value
  | .number n => .number n.reread?
  | .string s => .string (some s)
  | .array items => .array (rawAll items)
  | .object members => .object (rawMembers members)

def rawAll : List Json → List RawJson
  | [] => []
  | item :: rest => item.raw :: rawAll rest

def rawMembers : List (String × Json) → List (Option String × RawJson)
  | [] => []
  | (name, item) :: rest => (some name, item.raw) :: rawMembers rest

end

theorem Finite.number {n : Number} (h : (number n).Finite) : n.isFinite = true := by
  cases h with
  | natural value => rfl
  | real hvalue => exact hvalue

theorem skipBlanks_newLine (level : Nat) (cs : List Char) :
    skipBlanks (newLine level ++ cs) = skipBlanks cs := by
  have hblanks : ∀ count, (List.replicate count ' ' ++ cs).dropWhile isBlank =
      cs.dropWhile isBlank := by
    intro count
    induction count with
    | zero => rfl
    | succ count ih => simpa [List.replicate_succ, isBlank] using ih
  simpa [skipBlanks, newLine, isBlank] using hblanks (2 * level)

theorem readValue_newLine (fuel level : Nat) (cs : List Char) :
    readValue fuel (newLine level ++ cs) = readValue fuel cs := by
  cases fuel with
  | zero => rfl
  | succ fuel => simp only [readValue, skipBlanks_newLine]

theorem readItems_newLine (fuel level : Nat) (cs : List Char) :
    RawJson.readItems fuel (newLine level ++ cs) = RawJson.readItems fuel cs := by
  cases fuel with
  | zero => rfl
  | succ fuel => simp only [RawJson.readItems, readValue_newLine]

theorem readMembers_newLine (fuel level : Nat) (cs : List Char) :
    readMembers fuel (newLine level ++ cs) = readMembers fuel cs := by
  cases fuel with
  | zero => rfl
  | succ fuel => simp only [readMembers, skipBlanks_newLine]

theorem endsNumeral_newLine (level : Nat) (cs : List Char) : EndsNumeral (newLine level ++ cs) := by
  simp [newLine, EndsNumeral]

theorem endsNumeral_prettyItems (level : Nat) (rest : List Char) (items : List Json) :
    EndsNumeral (prettyItems level rest items) := by
  cases items with
  | nil => exact endsNumeral_newLine level _
  | cons item others => simp [prettyItems, EndsNumeral]

theorem endsNumeral_prettyMembers (level : Nat) (rest : List Char)
    (members : List (String × Json)) : EndsNumeral (prettyMembers level rest members) := by
  cases members with
  | nil => exact endsNumeral_newLine level _
  | cons member others => simp [prettyMembers, EndsNumeral]

/-- A value starts with a character of its own. -/
theorem exists_cons_prettyOnto {v : Json} (h : v.Finite) (level : Nat) (rest : List Char) :
    ∃ c cs, v.prettyOnto level rest = c :: cs ∧ isBlank c = false ∧ c ≠ ']' := by
  cases v with
  | null => exact ⟨_, _, rfl, by decide, by decide⟩
  | bool value => cases value <;> exact ⟨_, _, rfl, by decide, by decide⟩
  | number n =>
      obtain ⟨c, cs, hchars, hstarts⟩ := Number.exists_cons_chars h.number
      refine ⟨c, cs ++ rest, ?_, hstarts.isBlank, hstarts.ne (by decide) (by decide)⟩
      rw [prettyOnto, hchars, List.cons_append]
  | string s => exact ⟨_, _, rfl, by decide, by decide⟩
  | array items => cases items <;> exact ⟨_, _, rfl, by decide, by decide⟩
  | object members => cases members <;> exact ⟨_, _, rfl, by decide, by decide⟩

/-! ### Lengths -/

theorem length_le_prettyItems {items : List Json}
    (h : ∀ item ∈ items, ∀ level rest, rest.length ≤ (item.prettyOnto level rest).length)
    (level : Nat) (rest : List Char) : rest.length ≤ (prettyItems level rest items).length := by
  induction items with
  | nil =>
      simp only [prettyItems, List.length_append, List.length_cons]
      omega
  | cons item others ih =>
      have hothers := ih fun other hother => h other (List.mem_cons_of_mem _ hother)
      have hitem := h item List.mem_cons_self (level + 1) (prettyItems level rest others)
      simp only [prettyItems, List.length_append, List.length_cons]
      omega

theorem length_le_prettyMembers {members : List (String × Json)}
    (h : ∀ member ∈ members, ∀ level rest,
      rest.length ≤ (member.2.prettyOnto level rest).length)
    (level : Nat) (rest : List Char) : rest.length ≤ (prettyMembers level rest members).length := by
  induction members with
  | nil =>
      simp only [prettyMembers, List.length_append, List.length_cons]
      omega
  | cons member others ih =>
      have hothers := ih fun other hother => h other (List.mem_cons_of_mem _ hother)
      have hmember := h member List.mem_cons_self (level + 1) (prettyMembers level rest others)
      simp only [prettyMembers, List.length_append, List.length_cons]
      omega

/-- Writing a value in front of a rest keeps the rest. -/
theorem length_le_prettyOnto (v : Json) (level : Nat) (rest : List Char) :
    rest.length ≤ (v.prettyOnto level rest).length := by
  induction v using Json.induct generalizing level rest with
  | null => simp [prettyOnto]; omega
  | bool value => cases value <;> simp [prettyOnto] <;> omega
  | number n => simp [prettyOnto]
  | string s => simp [prettyOnto]
  | array items ih =>
      cases items with
      | nil => simp [prettyOnto]; omega
      | cons item others =>
          have hothers := length_le_prettyItems
            (fun other hother => ih other (List.mem_cons_of_mem _ hother)) level rest
          have hitem := ih item List.mem_cons_self (level + 1) (prettyItems level rest others)
          simp only [prettyOnto, List.length_append, List.length_cons]
          omega
  | object members ih =>
      cases members with
      | nil => simp [prettyOnto]; omega
      | cons member others =>
          have hothers := length_le_prettyMembers
            (fun other hother => ih other (List.mem_cons_of_mem _ hother)) level rest
          have hmember := ih member List.mem_cons_self (level + 1) (prettyMembers level rest others)
          simp only [prettyOnto, List.length_append, List.length_cons]
          omega

/-! ### Reading -/

/-- The text of a value is read as it is taken apart, in as many steps as it has characters, twice.
-/
def ReadsRaw (v : Json) : Prop :=
  ∀ (level fuel : Nat) (rest : List Char), EndsNumeral rest →
    2 * (v.prettyOnto level rest).length ≤ fuel →
    readValue fuel (v.prettyOnto level rest) = some (v.raw, rest)

theorem readItems_pretty {items : List Json} (hitems : ∀ item ∈ items, item.ReadsRaw)
    {first : Json} (hfirst : first.ReadsRaw) (level fuel : Nat) (rest : List Char)
    (hfuel : 2 * (first.prettyOnto (level + 1) (prettyItems level rest items)).length + 1 ≤ fuel) :
    RawJson.readItems fuel (first.prettyOnto (level + 1) (prettyItems level rest items)) =
      some (rawAll (first :: items), rest) := by
  induction items generalizing first fuel with
  | nil =>
      cases fuel with
      | zero => omega
      | succ fuel =>
          have hread := hfirst (level + 1) fuel _ (endsNumeral_prettyItems level rest []) (by omega)
          rw [RawJson.readItems, hread]
          simp [prettyItems, skipBlanks_newLine, skipBlanks_cons, isBlank, rawAll]
  | cons second others ih =>
      cases fuel with
      | zero => omega
      | succ fuel =>
          have hread := hfirst (level + 1) fuel _
            (endsNumeral_prettyItems level rest (second :: others)) (by omega)
          have hlength := length_le_prettyOnto first (level + 1)
            (prettyItems level rest (second :: others))
          have hrest : (second.prettyOnto (level + 1) (prettyItems level rest others)).length + 1 ≤
              (prettyItems level rest (second :: others)).length := by
            simp only [prettyItems, List.length_cons, List.length_append]
            omega
          have hmore := ih (fun item hitem => hitems item (List.mem_cons_of_mem _ hitem))
            (hitems second List.mem_cons_self) fuel (by omega)
          rw [RawJson.readItems, hread]
          simp [prettyItems, skipBlanks_cons, isBlank, readItems_newLine, hmore, rawAll]

theorem readValue_space (fuel : Nat) (cs : List Char) :
    readValue fuel (' ' :: cs) = readValue fuel cs := by
  cases fuel with
  | zero => rfl
  | succ fuel =>
      have hskip : skipBlanks (' ' :: cs) = skipBlanks cs := by simp [skipBlanks, isBlank]
      simp only [readValue, hskip]

theorem readMembers_last {fuel : Nat} (name : String) {cs : List Char} {item : RawJson}
    {rest others : List Char} (h : readValue fuel cs = some (item, rest))
    (hclose : skipBlanks rest = '\x7d' :: others) :
    readMembers (fuel + 1) (stringChars name ++ ':' :: ' ' :: cs) =
      some ([(some name, item)], others) := by
  have hname := readString_stringChars name (':' :: ' ' :: cs)
  simp [readMembers, stringChars, skipBlanks_cons, isBlank, hname, readValue_space, h, hclose]

theorem readMembers_more {fuel : Nat} (name : String) {cs : List Char} {item : RawJson}
    {rest others : List Char} (h : readValue fuel cs = some (item, rest))
    (hcomma : skipBlanks rest = ',' :: others) :
    readMembers (fuel + 1) (stringChars name ++ ':' :: ' ' :: cs) =
      (readMembers fuel others).map fun more => ((some name, item) :: more.1, more.2) := by
  have hname := readString_stringChars name (':' :: ' ' :: cs)
  simp [readMembers, stringChars, skipBlanks_cons, isBlank, hname, readValue_space, h, hcomma]
  cases readMembers fuel others <;> rfl

theorem readMembers_pretty {members : List (String × Json)}
    (hmembers : ∀ member ∈ members, member.2.ReadsRaw) (name : String) {first : Json}
    (hfirst : first.ReadsRaw) (level fuel : Nat) (rest : List Char)
    (hfuel : 2 * (first.prettyOnto (level + 1) (prettyMembers level rest members)).length + 1 ≤
      fuel) :
    readMembers fuel (stringChars name ++ ':' :: ' ' ::
        first.prettyOnto (level + 1) (prettyMembers level rest members)) =
      some (rawMembers ((name, first) :: members), rest) := by
  induction members generalizing name first fuel with
  | nil =>
      cases fuel with
      | zero => omega
      | succ fuel =>
          have hread := hfirst (level + 1) fuel _ (endsNumeral_prettyMembers level rest [])
            (by omega)
          have hclose : skipBlanks (prettyMembers level rest []) = '\x7d' :: rest := by
            simp [prettyMembers, skipBlanks_newLine, skipBlanks_cons, isBlank]
          exact readMembers_last name hread hclose
  | cons member others ih =>
      obtain ⟨nextName, second⟩ := member
      cases fuel with
      | zero => omega
      | succ fuel =>
          have hread := hfirst (level + 1) fuel _
            (endsNumeral_prettyMembers level rest ((nextName, second) :: others)) (by omega)
          have hlength := length_le_prettyOnto first (level + 1)
            (prettyMembers level rest ((nextName, second) :: others))
          have hrest :
              (second.prettyOnto (level + 1) (prettyMembers level rest others)).length + 1 ≤
              (prettyMembers level rest ((nextName, second) :: others)).length := by
            simp only [prettyMembers, List.length_cons, List.length_append]
            omega
          have hsecond : second.ReadsRaw := hmembers (nextName, second) List.mem_cons_self
          have hmore := ih (fun other hother => hmembers other (List.mem_cons_of_mem _ hother))
            nextName hsecond fuel (by omega)
          have hcomma : skipBlanks (prettyMembers level rest ((nextName, second) :: others)) =
              ',' :: (newLine (level + 1) ++ (stringChars nextName ++ ':' :: ' ' ::
                second.prettyOnto (level + 1) (prettyMembers level rest others))) := by
            simp [prettyMembers, skipBlanks_cons, isBlank]
          rw [readMembers_more name hread hcomma, readMembers_newLine, hmore]
          rfl

theorem readsRaw_number {n : Number} (h : n.isFinite = true) : (number n).ReadsRaw := by
  intro level fuel rest hrest hfuel
  obtain ⟨c, cs, hchars, _⟩ := Number.exists_cons_chars h
  cases fuel with
  | zero => simp [prettyOnto, hchars] at hfuel
  | succ fuel => exact readValue_number h fuel hrest

theorem readsRaw_string (s : String) : (string s).ReadsRaw := by
  intro level fuel rest _ hfuel
  cases fuel with
  | zero => simp [prettyOnto, stringChars] at hfuel
  | succ fuel =>
      have hread := readString_stringChars s rest
      simp [prettyOnto, stringChars, readValue, skipBlanks_cons, isBlank, hread, raw]

theorem readsRaw_array {items : List Json} (h : ∀ item ∈ items, item.Finite)
    (hitems : ∀ item ∈ items, item.ReadsRaw) : (array items).ReadsRaw := by
  intro level fuel rest _ hfuel
  cases items with
  | nil =>
      cases fuel with
      | zero => simp [prettyOnto] at hfuel
      | succ fuel => simp [prettyOnto, readValue, skipBlanks_cons, isBlank, raw, rawAll]
  | cons item others =>
      cases fuel with
      | zero => simp [prettyOnto] at hfuel
      | succ fuel =>
          have hread := readItems_pretty
            (fun other hother => hitems other (List.mem_cons_of_mem _ hother))
            (hitems item List.mem_cons_self) level fuel rest (by
              simp only [prettyOnto, List.length_cons, List.length_append] at hfuel
              omega)
          obtain ⟨c, cs, hcs, hblank, hclose⟩ := exists_cons_prettyOnto
            (h item List.mem_cons_self) (level + 1) (prettyItems level rest others)
          rw [hcs] at hread
          simp only [prettyOnto, readValue, skipBlanks_cons (show isBlank '[' = false from rfl),
            skipBlanks_newLine, hcs, skipBlanks_cons hblank]
          split
          · rename_i heq
            exact absurd (List.cons.inj heq).1 hclose
          · rw [hread]
            rfl

theorem readsRaw_object {members : List (String × Json)}
    (hmembers : ∀ member ∈ members, member.2.ReadsRaw) : (object members).ReadsRaw := by
  intro level fuel rest _ hfuel
  cases members with
  | nil =>
      cases fuel with
      | zero => simp [prettyOnto] at hfuel
      | succ fuel => simp [prettyOnto, readValue, skipBlanks_cons, isBlank, raw, rawMembers]
  | cons member others =>
      obtain ⟨name, item⟩ := member
      cases fuel with
      | zero => simp [prettyOnto] at hfuel
      | succ fuel =>
          have hitem : item.ReadsRaw := hmembers (name, item) List.mem_cons_self
          have hread := readMembers_pretty
            (fun other hother => hmembers other (List.mem_cons_of_mem _ hother)) name hitem
            level fuel rest (by
              simp only [prettyOnto, List.length_cons, List.length_append] at hfuel
              omega)
          simp only [stringChars, List.cons_append, List.append_assoc] at hread
          simp only [prettyOnto, stringChars, readValue, List.append_assoc, List.cons_append,
            skipBlanks_cons (show isBlank '\x7b' = false from rfl), skipBlanks_newLine,
            skipBlanks_cons (show isBlank '"' = false from rfl)]
          split
          · rename_i heq
            exact absurd (List.cons.inj heq).1 (by decide)
          · rw [hread]
            rfl

/-- The text of a finite value is read as it is taken apart. -/
theorem Finite.readsRaw {v : Json} (h : v.Finite) : v.ReadsRaw := by
  induction h with
  | null =>
      intro level fuel rest _ hfuel
      cases fuel with
      | zero => simp [prettyOnto] at hfuel
      | succ fuel => simp [prettyOnto, readValue, skipBlanks_cons, isBlank, raw]
  | bool value =>
      intro level fuel rest _ hfuel
      cases fuel with
      | zero => cases value <;> simp [prettyOnto] at hfuel
      | succ fuel =>
          cases value <;> simp [prettyOnto, readValue, skipBlanks_cons, isBlank, raw]
  | natural value => exact readsRaw_number rfl
  | real hvalue => exact readsRaw_number hvalue
  | string s => exact readsRaw_string s
  | array hitems ih => exact readsRaw_array hitems ih
  | object _ ih => exact readsRaw_object ih

/-- The indented text of a finite value is taken apart into the value with each number as it is
reread. -/
theorem Finite.parse?_pretty {v : Json} (h : v.Finite) : RawJson.parse? v.pretty = some v.raw := by
  have hread := h.readsRaw 0 (2 * (v.prettyOnto 0 []).length + 2) [] (by simp [EndsNumeral])
    (Nat.le_add_right _ _)
  rw [RawJson.parse?, pretty, String.toList_ofList, hread]
  rfl

end Json

end RuleGraph
