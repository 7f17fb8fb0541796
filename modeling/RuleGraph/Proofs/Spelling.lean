import RuleGraph.Proofs.Lookup
import RuleGraph.Proofs.Numerals

/-!
# Texts that name paths

A path is read from a text exactly if the text is the id of that path and words hold its positions.
The pieces behind the dots are then the numerals of the positions, and digits without a leading zero
are the numeral of one number only. Every other text is refused for what is wrong with it first: the
piece in front is not the root token, or some piece behind it is not the numeral of a word.
-/

namespace RuleGraph

/-! ## Positions -/

/-- The characters are the decimal numeral of a number that fits into a word. -/
def IsWordNumeral (digits : List Char) : Prop :=
  ∃ position < UInt64.size, digits = (toString position).toList

/-- Digits that follow a numeral make it the numeral of the number that they add up to. -/
theorem toDigits_foldl {n : Nat} (hn : 0 < n) {cs : List Char}
    (hcs : ∀ c ∈ cs, c.isDigit = true) :
    Nat.toDigits 10 (cs.foldl (fun n c => n * 10 + (c.toNat - '0'.toNat)) n) =
      Nat.toDigits 10 n ++ cs := by
  induction cs generalizing n with
  | nil => rw [List.foldl_nil, List.append_nil]
  | cons c rest ih =>
      obtain ⟨hlt, hchar⟩ := digitChar_digitValue (hcs c List.mem_cons_self)
      have hone : Nat.toDigits 10 (n * 10 + digitValue c) = Nat.toDigits 10 n ++ [c] := by
        rw [Nat.mul_comm, ← Nat.toDigits_append_toDigits (by decide) hn hlt,
          Nat.toDigits_of_lt_base hlt, hchar]
      have hpos : 0 < n * 10 + digitValue c := by omega
      have hrest := ih hpos fun d hd => hcs d (List.mem_cons_of_mem _ hd)
      rw [hone, List.append_assoc] at hrest
      exact hrest

/-- Digits without a leading zero are the numeral of their value. -/
theorem toDigits_value {digits : List Char} (hne : digits ≠ [])
    (hdigits : ∀ c ∈ digits, c.isDigit = true)
    (hleading : ¬ (1 < digits.length ∧ digits.head? = some '0')) :
    Nat.toDigits 10 (digits.foldl (fun n c => n * 10 + (c.toNat - '0'.toNat)) 0) = digits := by
  cases digits with
  | nil => exact absurd rfl hne
  | cons c rest =>
      obtain ⟨hlt, hchar⟩ := digitChar_digitValue (hdigits c List.mem_cons_self)
      have hfirst : Nat.toDigits 10 (digitValue c) = [c] := by
        rw [Nat.toDigits_of_lt_base hlt, hchar]
      rw [List.foldl_cons, Nat.zero_mul, Nat.zero_add]
      cases rest with
      | nil => exact hfirst
      | cons d rest =>
          -- the first of several digits is no zero, so that the others continue a positive number
          have hpos : 0 < digitValue c := by
            rw [Nat.pos_iff_ne_zero]
            intro hzero
            rw [hzero] at hchar
            exact hleading ⟨by simp, by rw [← hchar]; rfl⟩
          have hrest := toDigits_foldl hpos fun e he => hdigits e (List.mem_cons_of_mem _ he)
          rw [hfirst] at hrest
          exact hrest

theorem position?_toString {n : Nat} (h : n < UInt64.size) :
    position? (toString n).toList = some n := by
  have hchars : (toString n).toList = Nat.toDigits 10 n := by
    rw [Nat.toString_eq_repr, Nat.toList_repr]
  have hdigits : (Nat.toDigits 10 n).all Char.isDigit = true := by
    rw [List.all_eq_true]
    intro c hc
    exact Nat.isDigit_of_mem_toDigits (by decide) (by decide) hc
  have hleading : ¬ (1 < (Nat.toDigits 10 n).length ∧ (Nat.toDigits 10 n).head? = some '0') := by
    rintro ⟨hlong, hzero⟩
    rcases Nat.eq_zero_or_pos n with rfl | hpos
    · rw [Nat.toDigits_zero] at hlong
      exact Nat.lt_irrefl _ hlong
    · exact head?_toDigits_ne hpos hzero
  have hvalue := value_toString n
  rw [hchars] at hvalue ⊢
  rw [position?, if_neg Nat.toDigits_ne_nil, hdigits, if_neg (by decide), if_neg hleading]
  dsimp only
  rw [hvalue, if_pos h]

/-- A position is read from its numeral alone. -/
theorem position?_eq_some_iff {digits : List Char} {n : Nat} :
    position? digits = some n ↔ n < UInt64.size ∧ digits = (toString n).toList := by
  constructor
  · intro h
    unfold position? at h
    split_ifs at h with hempty hdigits hleading
    dsimp only at h
    split_ifs at h with hword
    cases h
    rw [Bool.not_eq_false, List.all_eq_true] at hdigits
    refine ⟨hword, ?_⟩
    rw [Nat.toString_eq_repr, Nat.toList_repr, toDigits_value hempty hdigits hleading]
  · rintro ⟨hword, rfl⟩
    exact position?_toString hword

theorem position?_eq_none_iff {digits : List Char} :
    position? digits = none ↔ ¬ IsWordNumeral digits := by
  rw [Option.eq_none_iff_forall_ne_some, IsWordNumeral]
  simp only [ne_eq, position?_eq_some_iff, not_exists]

/-! ## Segments -/

theorem readSegments_toString (id : String) {path : List Nat}
    (h : ∀ position ∈ path, position < UInt64.size) :
    readSegments id (path.map fun position => (toString position).toList) = .ok path := by
  induction path with
  | nil => rfl
  | cons position rest ih =>
      rw [List.map_cons, readSegments, position?_toString (h position List.mem_cons_self)]
      dsimp only
      rw [ih fun other hother => h other (List.mem_cons_of_mem _ hother)]

theorem readSegments_eq_ok_iff {id : String} {segments : List (List Char)} {path : List Nat} :
    readSegments id segments = .ok path ↔ (∀ position ∈ path, position < UInt64.size) ∧
      segments = path.map fun position => (toString position).toList := by
  constructor
  · intro h
    induction segments generalizing path with
    | nil =>
        cases h
        exact ⟨fun _ hposition => absurd hposition List.not_mem_nil, rfl⟩
    | cons segment rest ih =>
        rw [readSegments] at h
        split at h
        · cases h
        · rename_i position hposition
          split at h
          · cases h
          · rename_i below hbelow
            cases h
            obtain ⟨hword, rfl⟩ := position?_eq_some_iff.mp hposition
            obtain ⟨hwords, rfl⟩ := ih hbelow
            exact ⟨List.forall_mem_cons.mpr ⟨hword, hwords⟩, rfl⟩
  · rintro ⟨hwords, rfl⟩
    exact readSegments_toString id hwords

/-- The first segment that names no position is reported. -/
theorem readSegments_eq_error_iff {id : String} {segments : List (List Char)} {e : IdError} :
    readSegments id segments = .error e ↔
      ∃ segment, FirstWith (fun digits => ¬ IsWordNumeral digits) segments (some segment) ∧
        e = .invalidSegment id (String.ofList segment) := by
  have hfind : readSegments id segments = .error e ↔
      ∃ segment, segments.find? (fun digits => (position? digits).isNone) = some segment ∧
        e = .invalidSegment id (String.ofList segment) := by
    induction segments with
    | nil => simp [readSegments]
    | cons segment rest ih =>
        rw [readSegments]
        cases hposition : position? segment with
        | none => simp [hposition, @eq_comm _ e]
        | some position =>
            rw [List.find?_cons_of_neg (by simp [hposition]), ← ih]
            dsimp only
            cases readSegments id rest <;> simp
  have hunread : ∀ digits, (position? digits).isNone = true ↔ ¬ IsWordNumeral digits := by
    intro digits
    rw [Option.isNone_iff_eq_none, position?_eq_none_iff]
  rw [hfind]
  simp only [find?_eq_iff_firstWith hunread]

/-! ## Pieces between dots -/

theorem splitDots_eq_splitOn (cs : List Char) : splitDots cs = cs.splitOn '.' := by
  induction cs with
  | nil => rfl
  | cons c rest ih =>
      rw [splitDots, ih, List.splitOn_cons_eq_if_modifyHead]
      cases hpieces : rest.splitOn '.' with
      | nil => exact absurd hpieces (List.splitOn_ne_nil _ _)
      | cons piece pieces => by_cases hdot : c = '.' <;> simp [hdot]

theorem splitDots_idOfPath (path : List Nat) :
    splitDots (idOfPath path).toList =
      rootId.toList :: path.map fun position => (toString position).toList := by
  rw [splitDots_eq_splitOn]
  induction path using List.reverseRecOn with
  | nil => rfl
  | append_singleton path position ih =>
      have hdigits : '.' ∉ (toString position).toList :=
        not_mem_toList_toString (by decide) position
      rw [idOfPath_concat, toList_childId, List.splitOn_append_cons_self,
        List.splitOn_eq_singleton hdigits, ih, List.map_append]
      rfl

/-- Joined by dots the pieces are the text again. -/
theorem intercalate_splitDots (cs : List Char) : ['.'].intercalate (splitDots cs) = cs := by
  rw [splitDots_eq_splitOn, List.intercalate_splitOn]

theorem splitDots_inj {cs ds : List Char} : splitDots cs = splitDots ds ↔ cs = ds := by
  constructor
  · intro h
    rw [← intercalate_splitDots cs, h, intercalate_splitDots]
  · rintro rfl
    rfl

def leadingPiece (id : String) : List Char :=
  id.toList.takeWhile (· ≠ '.')

/-- The pieces of a text behind its dots. -/
def segments (id : String) : List (List Char) :=
  (id.toList.splitOn '.').tail

theorem splitOn_eq_takeWhile_cons (cs : List Char) :
    cs.splitOn '.' = cs.takeWhile (· ≠ '.') :: (cs.splitOn '.').tail := by
  induction cs with
  | nil => rfl
  | cons c rest ih =>
      rw [List.splitOn_cons_eq_if_modifyHead]
      by_cases hdot : c = '.'
      · simp [hdot]
      · rw [if_neg (by simpa using hdot), ih]
        simp [hdot]

theorem splitDots_toList (id : String) : splitDots id.toList = leadingPiece id :: segments id :=
  (splitDots_eq_splitOn _).trans (splitOn_eq_takeWhile_cons _)

/-! ## Ids -/

theorem pathOfId_eq (id : String) :
    pathOfId id = if leadingPiece id = rootId.toList then readSegments id (segments id)
      else .error (.notRooted id) := by
  rw [pathOfId, splitDots_toList]

/-- A path is read from its own id alone. -/
theorem pathOfId_eq_ok_iff {id : String} {path : List Nat} :
    pathOfId id = .ok path ↔
      (∀ position ∈ path, position < UInt64.size) ∧ idOfPath path = id := by
  have hpieces : idOfPath path = id ↔ leadingPiece id = rootId.toList ∧
      segments id = path.map fun position => (toString position).toList := by
    rw [← String.toList_inj, ← splitDots_inj, splitDots_idOfPath, splitDots_toList, eq_comm,
      List.cons.injEq]
  rw [hpieces, pathOfId_eq]
  split_ifs with hroot
  · rw [readSegments_eq_ok_iff]
    exact ⟨fun h => ⟨h.1, hroot, h.2⟩, fun h => ⟨h.1, h.2.2⟩⟩
  · exact ⟨fun h => (nomatch h), fun h => absurd h.2.1 hroot⟩

/-- The id of a path of words is read back. -/
theorem pathOfId_idOfPath {path : List Nat} (h : ∀ position ∈ path, position < UInt64.size) :
    pathOfId (idOfPath path) = .ok path :=
  pathOfId_eq_ok_iff.mpr ⟨h, rfl⟩

/-- The path that is read from the id of a path is that path. -/
theorem eq_of_pathOfId {path other : List Nat} (h : pathOfId (idOfPath path) = .ok other) :
    other = path :=
  idOfPath_inj.mp (pathOfId_eq_ok_iff.mp h).2

theorem pathOfId_eq_notRooted_iff {id other : String} :
    pathOfId id = .error (.notRooted other) ↔ other = id ∧ leadingPiece id ≠ rootId.toList := by
  rw [pathOfId_eq]
  split_ifs with hroot
  · rw [readSegments_eq_error_iff]
    simp [hroot]
  · simp [hroot, eq_comm]

theorem pathOfId_eq_invalidSegment_iff {id other segment : String} :
    pathOfId id = .error (.invalidSegment other segment) ↔
      other = id ∧ leadingPiece id = rootId.toList ∧
        FirstWith (fun digits => ¬ IsWordNumeral digits) (segments id) (some segment.toList) := by
  rw [pathOfId_eq]
  split_ifs with hroot
  · rw [readSegments_eq_error_iff]
    simp only [IdError.invalidSegment.injEq]
    constructor
    · rintro ⟨digits, hfirst, rfl, rfl⟩
      rw [String.toList_ofList]
      exact ⟨rfl, hroot, hfirst⟩
    · rintro ⟨rfl, _, hfirst⟩
      exact ⟨segment.toList, hfirst, rfl, String.ofList_toList.symm⟩
  · simp [hroot]

/-- What is read from a text. -/
structure ReadExactly (id : String) : Prop where
  read_iff : ∀ path, pathOfId id = .ok path ↔
    (∀ position ∈ path, position < UInt64.size) ∧ idOfPath path = id
  accepted_iff : (∃ path, pathOfId id = .ok path) ↔
    ∃ path, (∀ position ∈ path, position < UInt64.size) ∧ idOfPath path = id
  notRooted_iff : ∀ other, pathOfId id = .error (.notRooted other) ↔
    other = id ∧ leadingPiece id ≠ rootId.toList
  invalidSegment_iff : ∀ other segment, pathOfId id = .error (.invalidSegment other segment) ↔
    other = id ∧ leadingPiece id = rootId.toList ∧
      FirstWith (fun digits => ¬ IsWordNumeral digits) (segments id) (some segment.toList)

/-- The id of a path is read as that path exactly if words hold its positions, and any text is read
as the path that it is the id of, or refused for its first defect. -/
theorem pathOfId_exact :
    (∀ path, pathOfId (idOfPath path) = .ok path ↔ ∀ position ∈ path, position < UInt64.size) ∧
      ∀ id, ReadExactly id := by
  refine ⟨fun path => ?_, fun id => ?_⟩
  · rw [pathOfId_eq_ok_iff, and_iff_left rfl]
  · exact ⟨fun _ => pathOfId_eq_ok_iff, exists_congr fun _ => pathOfId_eq_ok_iff,
      fun _ => pathOfId_eq_notRooted_iff, fun _ _ => pathOfId_eq_invalidSegment_iff⟩

/-- The last word is a position and the number after it is not, and the first of two defects is
reported, be it an empty segment. -/
example :
    pathOfId "root.0.18446744073709551615" = .ok [0, 18446744073709551615] ∧
      pathOfId "root.18446744073709551616" =
        .error (.invalidSegment "root.18446744073709551616" "18446744073709551616") ∧
      pathOfId "root.1..07" = .error (.invalidSegment "root.1..07" "") ∧
      pathOfId "rooted.1" = .error (.notRooted "rooted.1") :=
  ⟨rfl, rfl, rfl, rfl⟩

end RuleGraph
