import RuleGraph.Proofs.FirstFaults

/-!
# Where a document is at fault

The elements of a document are its expressions and arguments, malformed ones included, each at the
path that leads to it; the operation of an argument shares the path of the argument. An element has
a defect if its own shape is wrong, whatever its parts are. An array is refused exactly if one of
its elements has a defect, and the report is the first defect in the lexical order of paths.
-/

namespace RuleGraph

/-- A value as it stands in a document: in the place of an expression or of an argument. -/
inductive Element where
  | expression (v : Json)
  | argument (v : Json)

namespace Element

/-- A path leads from an element to an element inside it. Members are followed only where they
count: `data` if it is an array, and `exp` if the argument is of that type. -/
inductive Holds : Element → List Nat → Element → Prop
  | self (x : Element) : Holds x [] x
  | argument {members : List (String × Json)} {items : List Json} {i : Nat} {v : Json}
      {path : List Nat} {x : Element} (hdata : members.lookup "data" = some (.array items))
      (hv : items[i]? = some v) (h : Holds (.argument v) path x) :
      Holds (.expression (.object members)) (i :: path) x
  | operation {members : List (String × Json)} {v : Json} {path : List Nat} {x : Element}
      (htype : members.lookup "dtype" = some (.string "exp"))
      (hvalue : members.lookup "exp" = some v) (h : Holds (.expression v) path x) :
      Holds (.argument (.object members)) path x

/-- What is wrong with the shape of an element itself. The name of an expression is looked at before
its `data`, and the type of an argument before the member that it announces. -/
inductive HasDefect : Element → Defect → Prop
  | notAnObject {v : Json} (h : v.members? = none) :
      HasDefect (.expression v) (.notAnObject v.describe)
  | missingName {members : List (String × Json)} (h : members.lookup "name" = none) :
      HasDefect (.expression (.object members)) .missingName
  | emptyName {members : List (String × Json)} (h : members.lookup "name" = some (.string "")) :
      HasDefect (.expression (.object members)) .emptyName
  | nameNotText {members : List (String × Json)} {v : Json} (h : members.lookup "name" = some v)
      (hname : ∀ name, members.lookup "name" ≠ some (.string name)) :
      HasDefect (.expression (.object members)) (.nameNotText v.describe)
  | dataNotAList {members : List (String × Json)} {name : String} {v : Json}
      (hname : members.lookup "name" = some (.string name)) (hnonempty : name ≠ "")
      (h : members.lookup "data" = some v) (hdata : ∀ items, ¬ListsData (some v) items) :
      HasDefect (.expression (.object members)) (.dataNotAList v.describe)
  | argumentNotAnObject {v : Json} (h : v.members? = none) :
      HasDefect (.argument v) (.argumentNotAnObject v.describe)
  | noArgumentType {members : List (String × Json)}
      (h : ∀ dtype, members.lookup "dtype" ≠ some (.string dtype)) :
      HasDefect (.argument (.object members)) .noArgumentType
  | unknownArgumentType {members : List (String × Json)} {dtype : String}
      (h : members.lookup "dtype" = some (.string dtype)) (hdtype : dtype ∉ ["num", "str", "exp"]) :
      HasDefect (.argument (.object members)) (.unknownArgumentType dtype)
  | noNumber {members : List (String × Json)} (h : members.lookup "dtype" = some (.string "num"))
      (hvalue : ∀ n, members.lookup "num" ≠ some (.number n)) :
      HasDefect (.argument (.object members)) .noNumber
  | noText {members : List (String × Json)} (h : members.lookup "dtype" = some (.string "str"))
      (hvalue : ∀ s, members.lookup "str" ≠ some (.string s)) :
      HasDefect (.argument (.object members)) .noText
  | noExpression {members : List (String × Json)}
      (h : members.lookup "dtype" = some (.string "exp")) (hvalue : members.lookup "exp" = none) :
      HasDefect (.argument (.object members)) .noExpression

def FaultAt (x : Element) (path : List Nat) (defect : Defect) : Prop :=
  ∃ y, x.Holds path y ∧ y.HasDefect defect

variable {members : List (String × Json)} {path : List Nat} {d d' : Defect} {x y z : Element}

/-! ## One defect at a path -/

theorem HasDefect.unique (h : x.HasDefect d) (h' : x.HasDefect d') : d = d' := by
  cases h <;> cases h' <;> grind [Json.members?]

theorem not_hasDefect_of_operation {v : Json}
    (htype : members.lookup "dtype" = some (.string "exp"))
    (hvalue : members.lookup "exp" = some v) :
    ¬HasDefect (.argument (.object members)) d := by
  intro h
  cases h <;> simp_all [Json.members?]

theorem not_hasDefect_of_number {n : Number} (htype : members.lookup "dtype" = some (.string "num"))
    (hvalue : members.lookup "num" = some (.number n)) :
    ¬HasDefect (.argument (.object members)) d := by
  intro h
  cases h <;> simp_all [Json.members?]

theorem not_hasDefect_of_text {s : String} (htype : members.lookup "dtype" = some (.string "str"))
    (hvalue : members.lookup "str" = some (.string s)) :
    ¬HasDefect (.argument (.object members)) d := by
  intro h
  cases h <;> simp_all [Json.members?]

/-- Only one of the elements at a path has a defect: an argument with an operation has none. -/
theorem Holds.defect_unique (hy : x.Holds path y) (hd : y.HasDefect d) (hz : x.Holds path z)
    (hd' : z.HasDefect d') : d = d' := by
  induction hy with
  | self x =>
      cases hz with
      | self => exact hd.unique hd'
      | operation htype hvalue h => exact absurd hd (not_hasDefect_of_operation htype hvalue)
  | argument hdata hv h ih =>
      cases hz with
      | argument hdata' hv' h' =>
          obtain rfl : _ = _ := by simpa [hdata] using hdata'
          obtain rfl : _ = _ := by simpa [hv] using hv'
          exact ih hd h'
  | operation htype hvalue h ih =>
      cases hz with
      | self => exact absurd hd' (not_hasDefect_of_operation htype hvalue)
      | operation htype' hvalue' h' =>
          obtain rfl : _ = _ := by simpa [hvalue] using hvalue'
          exact ih hd h'

/-! ## Faults by shape -/

theorem faultAt_expression :
    FaultAt (.expression (.object members)) path d ↔
      path = [] ∧ HasDefect (.expression (.object members)) d ∨
        ∃ items, members.lookup "data" = some (.array items) ∧
          FaultFrom (fun v => FaultAt (.argument v)) 0 items path d := by
  constructor
  · rintro ⟨y, hy, hd⟩
    cases hy with
    | self => exact Or.inl ⟨rfl, hd⟩
    | argument hdata hv h =>
        exact Or.inr ⟨_, hdata, _, _, _, hv, ⟨y, h, hd⟩, by rw [Nat.zero_add]⟩
  · rintro (⟨rfl, hd⟩ | ⟨items, hdata, i, v, below, hv, ⟨y, h, hd⟩, rfl⟩)
    · exact ⟨_, .self _, hd⟩
    · rw [Nat.zero_add]
      exact ⟨y, .argument hdata hv h, hd⟩

theorem not_hasDefect_of_listed {name : String}
    (hname : members.lookup "name" = some (.string name)) (hnonempty : name ≠ "")
    {items : List Json} (hdata : ListsData (members.lookup "data") items) :
    ¬HasDefect (.expression (.object members)) d := by
  intro h
  cases h with
  | notAnObject h => cases h
  | missingName h => simp [hname] at h
  | emptyName h => simp_all
  | nameNotText _ h => exact h name hname
  | dataNotAList _ _ h hlist => exact hlist items (h ▸ hdata)

/-- An expression without arguments has no elements but itself. -/
theorem not_faultAt_of_no_items {name : String}
    (hname : members.lookup "name" = some (.string name)) (hnonempty : name ≠ "")
    (hdata : ListsData (members.lookup "data") [])
    (hitems : ∀ items, members.lookup "data" ≠ some (.array items)) :
    ¬FaultAt (.expression (.object members)) path d := by
  intro h
  rcases faultAt_expression.mp h with ⟨_, hd⟩ | ⟨items, harray, _⟩
  · exact not_hasDefect_of_listed hname hnonempty hdata hd
  · exact hitems items harray

theorem faultAt_operation {v : Json} (htype : members.lookup "dtype" = some (.string "exp"))
    (hvalue : members.lookup "exp" = some v) :
    FaultAt (.argument (.object members)) path d ↔ FaultAt (.expression v) path d := by
  constructor
  · rintro ⟨y, hy, hd⟩
    cases hy with
    | self => exact absurd hd (not_hasDefect_of_operation htype hvalue)
    | operation _ hvalue' h =>
        obtain rfl : _ = _ := by simpa [hvalue] using hvalue'
        exact ⟨y, h, hd⟩
  · rintro ⟨y, hy, hd⟩
    exact ⟨y, .operation htype hvalue hy, hd⟩

/-- An argument that is no operation has no elements but itself. -/
theorem not_faultAt_of_literal {dtype : String}
    (htype : members.lookup "dtype" = some (.string dtype)) (hliteral : dtype ≠ "exp")
    (hsound : ¬HasDefect (.argument (.object members)) d) :
    ¬FaultAt (.argument (.object members)) path d := by
  rintro ⟨y, hy, hd⟩
  cases hy with
  | self => exact hsound hd
  | operation htype' _ _ =>
      rw [htype] at htype'
      simp_all

end Element

/-! ## Reading -/

variable {members : List (String × Json)} {base : List Nat}

theorem exists_defect_of_readName {e : DocumentError} (h : readName base members = .error e) :
    ∃ d, e = .invalidExpression base d ∧ Element.HasDefect (.expression (.object members)) d := by
  unfold readName at h
  split at h
  · rename_i name hname
    split at h
    · rename_i hempty
      cases h
      exact ⟨_, rfl, .emptyName (hempty ▸ hname)⟩
    · cases h
  · rename_i v hother hname
    cases h
    refine ⟨_, rfl, .nameNotText hname fun name htext => ?_⟩
    rw [hname, Option.some.injEq] at htext
    exact hother name htext
  · rename_i hname
    cases h
    exact ⟨_, rfl, .missingName hname⟩

/-- However a value is read in a document, the first fault of what it holds is reported. -/
structure Json.ReportsFaults (v : Json) : Prop where
  expression : ∀ base, Reports (Element.expression v).FaultAt base (readExpression base v)
  argument : ∀ base, Reports (Element.argument v).FaultAt base (readArgument base v)
  items : ∀ items, v = .array items → ∀ item ∈ items, ∀ base,
    Reports (Element.argument item).FaultAt base (readArgument base item)

namespace Json

theorem reportsFaults_of_members? {v : Json} (hv : v.members? = none)
    (hitems : ∀ items, v = .array items → ∀ item ∈ items, ∀ base,
      Reports (Element.argument item).FaultAt base (readArgument base item)) :
    v.ReportsFaults := by
  refine ⟨?_, ?_, hitems⟩
  · intro base
    have hread : readExpression base v =
        .error (.invalidExpression base (.notAnObject v.describe)) := by
      cases v <;> first | rfl | cases hv
    rw [hread]
    exact .here ⟨_, .self _, .notAnObject hv⟩
  · intro base
    have hread : readArgument base v =
        .error (.invalidExpression base (.argumentNotAnObject v.describe)) := by
      cases v <;> first | rfl | cases hv
    rw [hread]
    exact .here ⟨_, .self _, .argumentNotAnObject hv⟩

theorem reports_readData (hmembers : ∀ member ∈ members, member.2.ReportsFaults) {name : String}
    (hname : members.lookup "name" = some (.string name)) (hnonempty : name ≠ "")
    (base : List Nat) :
    Reports (Element.expression (.object members)).FaultAt base (readData base members) := by
  rw [readData_eq]
  cases hdata : members.lookup "data" with
  | none =>
      exact .sound fun path d => Element.not_faultAt_of_no_items hname hnonempty
        (hdata ▸ .absent) (by simp [hdata])
  | some v =>
      dsimp only
      by_cases hlist : ∃ items, ListsData (some v) items
      · obtain ⟨items, hlist⟩ := hlist
        cases hlist with
        | null =>
            exact .sound fun path d => Element.not_faultAt_of_no_items hname hnonempty
              (hdata ▸ .null) (by simp [hdata])
        | array items =>
            have hitems := (hmembers _ (mem_of_lookup hdata)).items items rfl
            rw [readArguments, readItems_eq]
            refine (Reports.each (fun item hitem i => hitems item hitem _) 0).congr ?_
            intro path d
            rw [Element.faultAt_expression]
            have hsound : ¬Element.HasDefect (.expression (.object members)) d :=
              Element.not_hasDefect_of_listed hname hnonempty (hdata ▸ ListsData.array items)
            simp [hdata, hsound]
      · have hdefect : ∀ items, ¬ListsData (some v) items := not_exists.mp hlist
        have hread : readArguments base v =
            .error (.invalidExpression base (.dataNotAList v.describe)) := by
          cases v with
          | null => exact absurd .null (hdefect [])
          | array items => exact absurd (.array items) (hdefect items)
          | bool value => rfl
          | number value => rfl
          | string value => rfl
          | object members => rfl
        rw [hread]
        exact .here ⟨_, .self _, .dataNotAList hname hnonempty hdata hdefect⟩

theorem reports_readExpression (hmembers : ∀ member ∈ members, member.2.ReportsFaults)
    (base : List Nat) : Reports (Element.expression (.object members)).FaultAt base
      (readExpression base (.object members)) := by
  rw [readExpression]
  cases hread : readName base members with
  | error e =>
      obtain ⟨d, rfl, hd⟩ := exists_defect_of_readName hread
      exact .here ⟨_, .self _, hd⟩
  | ok name =>
      obtain ⟨hname, hnonempty⟩ := readName_eq_ok.mp hread
      have hreport := (reports_readData hmembers hname hnonempty base).map fun arguments =>
        (⟨name, arguments⟩ : Expression)
      dsimp only
      cases hdata : readData base members <;> rwa [hdata] at hreport

theorem reports_readNumber (htype : members.lookup "dtype" = some (.string "num"))
    (base : List Nat) : Reports (Element.argument (.object members)).FaultAt base
      (readNumber base members) := by
  unfold readNumber
  cases hvalue : (members.lookup "num").bind Json.float? with
  | none =>
      refine .here ⟨_, .self _, .noNumber htype fun n hn => ?_⟩
      simp [hn, Json.float?] at hvalue
  | some x =>
      obtain ⟨v, hv, hfloat⟩ := Option.bind_eq_some_iff.mp hvalue
      obtain ⟨n, rfl⟩ : ∃ n, v = .number n := by
        cases v <;> simp [Json.float?] at hfloat ⊢
      exact .sound fun path d => Element.not_faultAt_of_literal htype (by decide)
        (Element.not_hasDefect_of_number htype hv)

theorem reports_readText (htype : members.lookup "dtype" = some (.string "str"))
    (base : List Nat) : Reports (Element.argument (.object members)).FaultAt base
      (readText base members) := by
  unfold readText
  cases hvalue : (members.lookup "str").bind Json.string? with
  | none =>
      refine .here ⟨_, .self _, .noText htype fun s hs => ?_⟩
      simp [hs, Json.string?] at hvalue
  | some s =>
      obtain ⟨v, hv, hstring⟩ := Option.bind_eq_some_iff.mp hvalue
      rw [string?_eq_some_iff.mp hstring] at hv
      exact .sound fun path d => Element.not_faultAt_of_literal htype (by decide)
        (Element.not_hasDefect_of_text htype hv)

theorem reports_readNested (hmembers : ∀ member ∈ members, member.2.ReportsFaults)
    (htype : members.lookup "dtype" = some (.string "exp")) (base : List Nat) :
    Reports (Element.argument (.object members)).FaultAt base (readNested base members) := by
  rw [readNested_eq]
  cases hvalue : members.lookup "exp" with
  | none => exact .here ⟨_, .self _, .noExpression htype hvalue⟩
  | some v =>
      have hreport := (hmembers _ (mem_of_lookup hvalue)).expression base
      exact (hreport.map _).congr fun path d => Element.faultAt_operation htype hvalue

theorem reports_readArgument (hmembers : ∀ member ∈ members, member.2.ReportsFaults)
    (base : List Nat) : Reports (Element.argument (.object members)).FaultAt base
      (readArgument base (.object members)) := by
  rw [readArgument]
  cases hfound : (members.lookup "dtype").bind Json.string? with
  | none =>
      refine .here ⟨_, .self _, .noArgumentType fun dtype htype => ?_⟩
      simp [htype, Json.string?] at hfound
  | some dtype =>
      have htype : members.lookup "dtype" = some (.string dtype) := by
        obtain ⟨v, hv, hstring⟩ := Option.bind_eq_some_iff.mp hfound
        rw [hv, string?_eq_some_iff.mp hstring]
      dsimp only
      by_cases hnum : dtype = "num"
      · rw [if_pos hnum]
        exact reports_readNumber (hnum ▸ htype) base
      · rw [if_neg hnum]
        by_cases hstr : dtype = "str"
        · rw [if_pos hstr]
          exact reports_readText (hstr ▸ htype) base
        · rw [if_neg hstr]
          by_cases hexp : dtype = "exp"
          · rw [if_pos hexp]
            exact reports_readNested hmembers (hexp ▸ htype) base
          · rw [if_neg hexp]
            exact .here ⟨_, .self _, .unknownArgumentType htype (by simp [hnum, hstr, hexp])⟩

theorem reportsFaults (v : Json) : v.ReportsFaults := by
  induction v using Json.induct with
  | null => exact reportsFaults_of_members? rfl fun _ h => nomatch h
  | bool value => exact reportsFaults_of_members? rfl fun _ h => nomatch h
  | number value => exact reportsFaults_of_members? rfl fun _ h => nomatch h
  | string value => exact reportsFaults_of_members? rfl fun _ h => nomatch h
  | array items ih =>
      refine reportsFaults_of_members? rfl ?_
      intro listed hlisted item hitem base
      cases hlisted
      exact (ih item hitem).argument base
  | object members ih =>
      exact ⟨reports_readExpression ih, reports_readArgument ih, fun _ h => nomatch h⟩

/-- A path leads from an array to an element of the document that it is read as: first the index of
a top-level expression, then the positions of arguments. -/
inductive HasElement : Json → List Nat → Element → Prop
  | top {items : List Json} {index : Nat} {v : Json} {path : List Nat} {x : Element}
      (hv : items[index]? = some v) (h : (Element.expression v).Holds path x) :
      HasElement (.array items) (index :: path) x

def FaultAt (v : Json) (path : List Nat) (defect : Defect) : Prop :=
  ∃ x, v.HasElement path x ∧ x.HasDefect defect

theorem faultAt_array {items : List Json} {path : List Nat} {defect : Defect} :
    (array items).FaultAt path defect ↔
      FaultFrom (fun v => (Element.expression v).FaultAt) 0 items path defect := by
  constructor
  · rintro ⟨x, ⟨hv, h⟩, hd⟩
    exact ⟨_, _, _, hv, ⟨x, h, hd⟩, by rw [Nat.zero_add]⟩
  · rintro ⟨i, v, below, hv, ⟨x, h, hd⟩, rfl⟩
    rw [Nat.zero_add]
    exact ⟨x, .top hv h, hd⟩

theorem FaultAt.unique {v : Json} {path : List Nat} {d d' : Defect} (h : v.FaultAt path d)
    (h' : v.FaultAt path d') : d = d' := by
  obtain ⟨x, ⟨hv, hx⟩, hd⟩ := h
  obtain ⟨y, hy, hd'⟩ := h'
  cases hy with
  | top hv' hy =>
      obtain rfl : _ = _ := by simpa [hv] using hv'
      exact hx.defect_unique hd hy hd'

end Json

namespace Document

theorem reports_ofJson (items : List Json) :
    Reports (Json.array items).FaultAt [] (ofJson (.array items)) := by
  rw [ofJson, readExpressions_eq]
  exact (Reports.each (fun v _ i => v.reportsFaults.expression [i]) 0).congr
    fun path defect => Json.faultAt_array

/-- An array is refused exactly if one of the elements in it has a defect of its own shape. The
error is this defect with the path of the element, and no element with a defect has a lexically
smaller path. -/
theorem ofJson_refuses_first (items : List Json) :
    ((∃ error, ofJson (.array items) = .error error) ↔
      ∃ path x defect, (Json.array items).HasElement path x ∧ x.HasDefect defect) ∧
    (∀ error, ofJson (.array items) = .error error ↔
      ∃ path x defect, error = .invalidExpression path defect ∧
        (Json.array items).HasElement path x ∧ x.HasDefect defect ∧
        ∀ other y d, (Json.array items).HasElement other y → y.HasDefect d → path ≤ other) := by
  have hreport := reports_ofJson items
  have herror : ∀ error, ofJson (.array items) = .error error ↔
      ∃ path x defect, error = .invalidExpression path defect ∧
        (Json.array items).HasElement path x ∧ x.HasDefect defect ∧
        ∀ other y d, (Json.array items).HasElement other y → y.HasDefect d → path ≤ other := by
    intro error
    rw [hreport.eq_error_iff fun _ _ _ => Json.FaultAt.unique]
    constructor
    · rintro ⟨path, defect, rfl, ⟨⟨x, hx, hd⟩, hfirst⟩⟩
      exact ⟨path, x, defect, rfl, hx, hd, fun other y d hy hd' => hfirst other d ⟨y, hy, hd'⟩⟩
    · rintro ⟨path, x, defect, rfl, hx, hd, hfirst⟩
      exact ⟨path, defect, rfl, ⟨x, hx, hd⟩, fun other d ⟨y, hy, hd'⟩ => hfirst other y d hy hd'⟩
  refine ⟨?_, herror⟩
  constructor
  · rintro ⟨error, h⟩
    obtain ⟨path, x, defect, _, hx, hd, _⟩ := (herror error).mp h
    exact ⟨path, x, defect, hx, hd⟩
  · rintro ⟨path, x, defect, hx, hd⟩
    cases hread : ofJson (.array items) with
    | error error => exact ⟨error, rfl⟩
    | ok document =>
        rw [hread] at hreport
        exact absurd ⟨x, hx, hd⟩ (hreport.not_fault path defect)

/-- Of four elements with a defect the one that comes first in depth is reported. -/
example :
    let argument : Json := .object [("dtype", .string "num"), ("num", .string "1")]
    let operation : Json := .object [("name", .string "NOT"), ("data", .array [argument, .null])]
    ofJson (.array [.object [("name", .string "IF"),
      ("data", .array [.object [("dtype", .string "exp"), ("exp", operation)], .null])], .null]) =
      .error (.invalidExpression [0, 0, 0] .noNumber) :=
  rfl

end Document

end RuleGraph
