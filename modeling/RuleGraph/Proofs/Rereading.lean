import RuleGraph.Proofs.Measuring
import RuleGraph.Proofs.Texts

/-!
# Documents read from their texts

The text of a document is read back as the document, each number as it is reread, if the value is
nested no deeper than the reader goes. An operation costs three levels: its object, the array of its
arguments and the object of the argument that it is nested in. The outermost array costs one more,
so that operations may be nested 42 deep and no deeper. Numbers with short texts are reread as they
are, others not always.
-/

namespace RuleGraph

/-! ## Options along a list -/

section Options

variable {β γ δ : Type} {f : β → Option γ} {entries : List β}

theorem mapM_cons_eq_some {x : β} {found : List γ} :
    (x :: entries).mapM f = some found ↔
      ∃ first others, f x = some first ∧ entries.mapM f = some others ∧
        found = first :: others := by
  rw [List.mapM_cons]
  cases f x with
  | none => simp
  | some first => cases entries.mapM f <;> simp [eq_comm]

theorem exists_of_mem_mapM {found : List γ} (h : entries.mapM f = some found) {y : γ}
    (hy : y ∈ found) : ∃ x ∈ entries, f x = some y := by
  induction entries generalizing found with
  | nil =>
      cases h
      cases hy
  | cons x rest ih =>
      obtain ⟨first, others, hfirst, hothers, rfl⟩ := mapM_cons_eq_some.mp h
      rcases List.mem_cons.mp hy with rfl | hrest
      · exact ⟨x, List.mem_cons_self, hfirst⟩
      · obtain ⟨z, hz, hfound⟩ := ih hothers hrest
        exact ⟨z, List.mem_cons_of_mem _ hz, hfound⟩

theorem mapM_eq_self {f : β → Option β} :
    entries.mapM f = some entries ↔ ∀ x ∈ entries, f x = some x := by
  induction entries with
  | nil => simp
  | cons x rest ih =>
      rw [mapM_cons_eq_some, List.forall_mem_cons, ← ih]
      constructor
      · rintro ⟨first, others, hfirst, hothers, heq⟩
        cases heq
        exact ⟨hfirst, hothers⟩
      · intro h
        exact ⟨x, rest, h.1, h.2, rfl⟩

/-- Where the entries of a list are refused one by one, one refused entry refuses the list. -/
theorem mapM_guarded {p : β → Prop} [DecidablePred p] {g : β → Option δ} {h : δ → γ}
    (hf : ∀ x ∈ entries, f x = if p x then (g x).map h else none) :
    entries.mapM f = if ∀ x ∈ entries, p x then (entries.mapM g).map (List.map h) else none := by
  induction entries with
  | nil => simp
  | cons x rest ih =>
      have hfirst := hf x List.mem_cons_self
      have hrest := ih fun other hother => hf other (List.mem_cons_of_mem _ hother)
      rw [List.mapM_cons, List.mapM_cons, hfirst, hrest]
      simp only [List.forall_mem_cons]
      by_cases hp : p x
      · by_cases hall : ∀ y ∈ rest, p y
        · have hboth : p x ∧ ∀ y ∈ rest, p y := ⟨hp, hall⟩
          rw [if_pos hp, if_pos hall, if_pos hboth]
          cases g x <;> cases rest.mapM g <;> rfl
        · have hboth : ¬(p x ∧ ∀ y ∈ rest, p y) := fun hboth => hall hboth.2
          rw [if_pos hp, if_neg hall, if_neg hboth]
          cases g x <;> rfl
      · have hboth : ¬(p x ∧ ∀ y ∈ rest, p y) := fun hboth => hp hboth.1
        rw [if_neg hp, if_neg hboth]
        rfl

end Options

theorem RawJson.values?_eq (depth : Nat) (items : List RawJson) :
    values? depth items = items.mapM fun item => item.value? depth := by
  induction items with
  | nil => rfl
  | cons item rest ih =>
      rw [values?, ih, List.mapM_cons]
      rfl

theorem Json.rawAll_eq (items : List Json) : rawAll items = items.map raw := by
  induction items with
  | nil => rfl
  | cons item rest ih => rw [rawAll, ih, List.map_cons]

/-! ## Rereading -/

def Literal.reread? : Literal → Option Literal
  | .number x => (Number.real x).reread?.map fun n => .number n.toFloat
  | .text s => some (.text s)

theorem Literal.reread?_eq_self {value : Literal} (h : value.isFinite = true) :
    value.reread? = some value ↔
      ∀ x, value = .number x → (Number.real x).reread? = some (.real x) := by
  cases value with
  | text s => simp [reread?]
  | number x =>
      rw [reread?]
      simp [Number.reread?_eq_real h, Option.map_eq_some_iff]

namespace Argument

mutual

/-- The argument with its numbers reread. -/
def reread? : Argument → Option Argument
  | .literal value => value.reread?.map .literal
  | .nested name arguments => (rereadAll? arguments).map (.nested name)

def rereadAll? : List Argument → Option (List Argument)
  | [] => some []
  | a :: rest =>
    match a.reread?, rereadAll? rest with
    | some first, some others => some (first :: others)
    | _, _ => none

end

theorem rereadAll?_eq (arguments : List Argument) :
    rereadAll? arguments = arguments.mapM reread? := by
  induction arguments with
  | nil => rfl
  | cons a rest ih =>
      rw [rereadAll?, ih, List.mapM_cons]
      cases a.reread? <;> cases rest.mapM reread? <;> rfl

/-! ## Levels -/

mutual

/-- The levels of arrays and objects in the value of an argument. -/
def levels : Argument → Nat
  | .literal _ => 1
  | .nested _ arguments => 2 + levelsBelow arguments

/-- The levels of the array of some arguments. Without arguments there is no array. -/
def levelsBelow : List Argument → Nat
  | [] => 0
  | a :: rest => max (1 + a.levels) (levelsBelow rest)

end

/-- The array and what is nested in it stay within some levels if all that is nested does. -/
theorem levelsBelow_le_iff {arguments : List Argument} {depth : Nat} :
    levelsBelow arguments ≤ depth + 1 ↔ ∀ a ∈ arguments, a.levels ≤ depth := by
  induction arguments with
  | nil => simp [levelsBelow]
  | cons a rest ih =>
      rw [levelsBelow, List.forall_mem_cons, ← ih]
      omega

theorem levelsBelow_le {arguments : List Argument}
    (h : ∀ a ∈ arguments, a.levels ≤ 3 * a.depth + 1) :
    levelsBelow arguments ≤ 3 * depthAll arguments + 2 := by
  induction arguments with
  | nil => simp [levelsBelow]
  | cons a rest ih =>
      have hfirst := h a List.mem_cons_self
      have hrest := ih fun other hother => h other (List.mem_cons_of_mem _ hother)
      rw [levelsBelow, depthAll]
      omega

theorem levels_le (a : Argument) : a.levels ≤ 3 * a.depth + 1 := by
  induction a with
  | literal value => simp [levels]
  | nested name arguments ih =>
      have hbelow := levelsBelow_le ih
      rw [levels, depth]
      omega

theorem le_levelsBelow {arguments : List Argument}
    (h : ∀ a ∈ arguments, 3 * a.depth ≤ a.levels + 1) :
    3 * depthAll arguments ≤ levelsBelow arguments := by
  induction arguments with
  | nil => simp [depthAll]
  | cons a rest ih =>
      have hfirst := h a List.mem_cons_self
      have hrest := ih fun other hother => h other (List.mem_cons_of_mem _ hother)
      rw [levelsBelow, depthAll]
      omega

theorem le_levels (a : Argument) : 3 * a.depth ≤ a.levels + 1 := by
  induction a with
  | literal value => simp [depth]
  | nested name arguments ih =>
      have hbelow := le_levelsBelow ih
      rw [levels, depth]
      omega

/-! ## Values -/

/-- The value of an argument is read, numbers reread, exactly if it may be nested so deep. -/
def ReadsValue (a : Argument) : Prop :=
  ∀ depth, a.toJson.raw.value? depth =
    if a.levels ≤ depth then a.reread?.map toJson else none

theorem values?_toJsonAll {arguments : List Argument} (h : ∀ a ∈ arguments, a.ReadsValue)
    (depth : Nat) :
    RawJson.values? depth (Json.rawAll (toJsonAll arguments)) =
      if levelsBelow arguments ≤ depth + 1 then (rereadAll? arguments).map toJsonAll else none := by
  have hlist : toJsonAll = List.map toJson := funext toJsonAll_eq
  rw [hlist, Json.rawAll_eq, RawJson.values?_eq, List.mapM_map, List.mapM_map, rereadAll?_eq]
  simp only [levelsBelow_le_iff]
  exact mapM_guarded fun a ha => h a ha depth

theorem value?_expressionObject {arguments : List Argument}
    (h : ∀ a ∈ arguments, a.ReadsValue) (name : String) (depth : Nat) :
    (expressionObject name (toJsonAll arguments)).raw.value? depth =
      if 1 + levelsBelow arguments ≤ depth then
        (rereadAll? arguments).map fun found => expressionObject name (toJsonAll found)
      else none := by
  cases depth with
  | zero => simp [expressionObject, Json.raw, RawJson.value?]
  | succ depth =>
      cases arguments with
      | nil =>
          simp [expressionObject, toJsonAll, Json.raw, Json.rawMembers, RawJson.value?, levelsBelow,
            rereadAll?, RawJson.memberValues?, lastOfEach]
      | cons a rest =>
          have hobject : expressionObject name (toJsonAll (a :: rest)) =
              .object [("name", .string name), ("data", .array (toJsonAll (a :: rest)))] := rfl
          rw [hobject]
          cases depth with
          | zero =>
              have hlevels : ¬1 + levelsBelow (a :: rest) ≤ 0 + 1 := by
                rw [levelsBelow]
                omega
              rw [if_neg hlevels]
              rfl
          | succ depth =>
              have hlevels : 1 + levelsBelow (a :: rest) ≤ depth + 1 + 1 ↔
                  levelsBelow (a :: rest) ≤ depth + 1 := by omega
              simp only [Json.raw, Json.rawMembers, RawJson.value?, RawJson.memberValues?, hlevels,
                values?_toJsonAll h]
              by_cases hbelow : levelsBelow (a :: rest) ≤ depth + 1
              · rw [if_pos hbelow, if_pos hbelow]
                cases hfound : rereadAll? (a :: rest) with
                | none => rfl
                | some found =>
                    rw [rereadAll?_eq] at hfound
                    obtain ⟨first, others, _, _, rfl⟩ := mapM_cons_eq_some.mp hfound
                    simp [lastOfEach, expressionObject, toJsonAll]
              · rw [if_neg hbelow, if_neg hbelow]
                rfl

theorem readsValue_number {x : Float} (h : x.isFinite = true) :
    (literal (.number x)).ReadsValue := by
  intro depth
  cases depth with
  | zero => simp [toJson, Json.raw, RawJson.value?, levels]
  | succ depth =>
      have hlevels : levels (literal (.number x)) ≤ depth + 1 := by
        rw [levels]
        omega
      rw [if_pos hlevels, toJson, reread?, Literal.reread?]
      cases hread : (Number.real x).reread? with
      | none => simp [Json.raw, Json.rawMembers, RawJson.value?, RawJson.memberValues?, hread]
      | some n =>
          obtain ⟨y, rfl⟩ := Number.exists_real_of_reread? h hread
          simp [Json.raw, Json.rawMembers, RawJson.value?, RawJson.memberValues?, hread, lastOfEach,
            toJson, Number.toFloat]

theorem readsValue_text (s : String) : (literal (.text s)).ReadsValue := by
  intro depth
  cases depth with
  | zero => simp [toJson, Json.raw, RawJson.value?, levels]
  | succ depth =>
      simp [toJson, Json.raw, Json.rawMembers, RawJson.value?, RawJson.memberValues?, lastOfEach,
        levels, reread?, Literal.reread?]

theorem readsValue {a : Argument} (h : ∀ value ∈ a.literals, value.isFinite = true) :
    a.ReadsValue := by
  induction a with
  | literal value =>
      have hvalue : value.isFinite = true := h value (by simp [literals])
      cases value with
      | number x => exact readsValue_number hvalue
      | text s => exact readsValue_text s
  | nested name arguments ih =>
      have hbelow : ∀ a ∈ arguments, a.ReadsValue := fun a ha =>
        ih a ha fun value hvalue => h value (mem_literalsAll.mpr ⟨a, ha, hvalue⟩)
      intro depth
      cases depth with
      | zero => simp [toJson, Json.raw, RawJson.value?, levels]
      | succ depth =>
          have hlevels : levels (nested name arguments) ≤ depth + 1 ↔
              1 + levelsBelow arguments ≤ depth := by
            rw [levels]
            omega
          simp only [toJson, Json.raw, Json.rawMembers, RawJson.value?, RawJson.memberValues?,
            value?_expressionObject hbelow, hlevels, reread?]
          by_cases hdepth : 1 + levelsBelow arguments ≤ depth
          · rw [if_pos hdepth, if_pos hdepth]
            cases rereadAll? arguments with
            | none => rfl
            | some found => simp [lastOfEach, toJson]
          · rw [if_neg hdepth, if_neg hdepth]
            rfl

/-! ## What rereading keeps -/

theorem mem_names_of_reread? {a b : Argument} (h : a.reread? = some b) {name : String}
    (hname : name ∈ b.names) : name ∈ a.names := by
  induction a generalizing b with
  | literal value =>
      obtain ⟨found, _, rfl⟩ := Option.map_eq_some_iff.mp h
      simp [names] at hname
  | nested operation arguments ih =>
      obtain ⟨found, hfound, rfl⟩ := Option.map_eq_some_iff.mp h
      rw [rereadAll?_eq] at hfound
      simp only [names, List.mem_cons, mem_namesAll] at hname ⊢
      rcases hname with rfl | ⟨c, hc, hname⟩
      · exact Or.inl rfl
      · obtain ⟨a, ha, hac⟩ := exists_of_mem_mapM hfound hc
        exact Or.inr ⟨a, ha, ih a ha hac hname⟩

/-- Rereading leaves an argument as it is exactly if it leaves all its literals so. -/
theorem reread?_eq_self {a : Argument} :
    a.reread? = some a ↔ ∀ value ∈ a.literals, value.reread? = some value := by
  induction a with
  | literal value => simp [reread?, literals, Option.map_eq_some_iff]
  | nested name arguments ih =>
      have harguments : (nested name arguments).reread? = some (nested name arguments) ↔
          ∀ a ∈ arguments, a.reread? = some a := by
        rw [reread?, rereadAll?_eq, ← mapM_eq_self]
        simp [Option.map_eq_some_iff]
      rw [harguments]
      simp only [literals, mem_literalsAll]
      constructor
      · rintro h value ⟨a, ha, hvalue⟩
        exact (ih a ha).mp (h a ha) value hvalue
      · intro h a ha
        exact (ih a ha).mpr fun value hvalue => h value ⟨a, ha, hvalue⟩

/-! ## Finite values -/

theorem finite_expressionObject {name : String} {arguments : List Argument}
    (h : ∀ a ∈ arguments, a.toJson.Finite) :
    (expressionObject name (toJsonAll arguments)).Finite := by
  apply Json.Finite.object
  intro member hmember
  rcases List.mem_cons.mp hmember with rfl | hdata
  · exact .string name
  · split at hdata
    · cases hdata
    · rw [List.mem_singleton] at hdata
      subst hdata
      rw [toJsonAll_eq]
      apply Json.Finite.array
      intro item hitem
      obtain ⟨a, ha, rfl⟩ := List.mem_map.mp hitem
      exact h a ha

theorem finite_toJson {a : Argument} (h : ∀ value ∈ a.literals, value.isFinite = true) :
    a.toJson.Finite := by
  induction a with
  | literal value =>
      have hvalue : value.isFinite = true := h value (by simp [literals])
      cases value with
      | number x =>
          exact .object (List.forall_mem_cons.mpr
            ⟨.string "num", List.forall_mem_singleton.mpr (.real hvalue)⟩)
      | text s =>
          exact .object (List.forall_mem_cons.mpr
            ⟨.string "str", List.forall_mem_singleton.mpr (.string s)⟩)
  | nested name arguments ih =>
      have hbelow : ∀ a ∈ arguments, a.toJson.Finite := fun a ha =>
        ih a ha fun value hvalue => h value (mem_literalsAll.mpr ⟨a, ha, hvalue⟩)
      exact .object (List.forall_mem_cons.mpr
        ⟨.string "exp", List.forall_mem_singleton.mpr (finite_expressionObject hbelow)⟩)

end Argument

/-! ## Expressions -/

namespace Expression

def reread? (e : Expression) : Option Expression :=
  (Argument.rereadAll? e.arguments).map fun arguments => ⟨e.name, arguments⟩

variable {e : Expression}

theorem reread?_toArgument :
    (Argument.ofExpression e).reread? = e.reread?.map Argument.ofExpression := by
  rw [Argument.ofExpression, Argument.reread?, reread?, Option.map_map]
  rfl

theorem mem_literals {a : Argument} (ha : a ∈ e.arguments) {value : Literal}
    (h : value ∈ a.literals) : value ∈ e.literals :=
  Argument.mem_literalsAll.mpr ⟨a, ha, h⟩

theorem finite_toJson (h : ∀ value ∈ e.literals, value.isFinite = true) : e.toJson.Finite :=
  Argument.finite_expressionObject fun _ ha =>
    Argument.finite_toJson fun value hvalue => h value (mem_literals ha hvalue)

theorem mem_names_of_reread? {found : Expression} (h : e.reread? = some found) {name : String}
    (hname : name ∈ found.names) : name ∈ e.names := by
  have hargument : (Argument.ofExpression e).reread? = some (.ofExpression found) := by
    rw [reread?_toArgument, h]
    rfl
  exact Argument.mem_names_of_reread? hargument hname

theorem reread?_eq_self :
    e.reread? = some e ↔ ∀ value ∈ e.literals, value.reread? = some value := by
  have hargument : e.reread? = some e ↔
      (Argument.ofExpression e).reread? = some (.ofExpression e) := by
    rw [reread?_toArgument]
    constructor
    · intro h
      rw [h]
      rfl
    · intro h
      obtain ⟨found, hfound, heq⟩ := Option.map_eq_some_iff.mp h
      obtain ⟨name, arguments⟩ := found
      cases heq
      exact hfound
  rw [hargument]
  exact Argument.reread?_eq_self

/-- Two levels of arrays and objects less than a text may have are used up by the array of the
document and the object of the expression. -/
theorem levels_le_iff : 1 + Argument.levelsBelow e.arguments ≤ 126 ↔ e.depth ≤ 42 := by
  have hmost := Argument.levelsBelow_le fun a (_ : a ∈ e.arguments) => a.levels_le
  have hleast := Argument.le_levelsBelow fun a (_ : a ∈ e.arguments) => a.le_levels
  rw [depth]
  omega

/-- In an array that is a whole text, the value of an expression is read if it is no deeper than 42
operations. -/
theorem value?_toJson (h : ∀ value ∈ e.literals, value.isFinite = true) :
    e.toJson.raw.value? 126 = if e.depth ≤ 42 then e.reread?.map toJson else none := by
  have hbelow : ∀ a ∈ e.arguments, a.ReadsValue := fun a ha =>
    Argument.readsValue fun value hvalue => h value (mem_literals ha hvalue)
  rw [toJson, Argument.value?_expressionObject hbelow, reread?, Option.map_map]
  simp only [levels_le_iff]
  rfl

end Expression

/-! ## Documents -/

namespace Document

def reread? (document : Document) : Option Document :=
  document.mapM Expression.reread?

theorem names_of_reread? {document found : Document} (hnamed : ∀ e ∈ document, "" ∉ e.names)
    (h : document.reread? = some found) : ∀ e ∈ found, "" ∉ e.names := by
  intro other hother hname
  obtain ⟨e, he, hfound⟩ := exists_of_mem_mapM h hother
  exact hnamed e he (Expression.mem_names_of_reread? hfound hname)

theorem values?_toJson {document : Document}
    (h : ∀ e ∈ document, ∀ value ∈ e.literals, value.isFinite = true) :
    RawJson.values? 126 (Json.rawAll (document.map Expression.toJson)) =
      if ∀ e ∈ document, e.depth ≤ 42 then
        document.reread?.map fun found => found.map Expression.toJson
      else none := by
  rw [Json.rawAll_eq, RawJson.values?_eq, List.mapM_map, List.mapM_map]
  exact mapM_guarded fun e he => Expression.value?_toJson (h e he)

def unreadable : Except DocumentError Document :=
  .error (.json "not a readable JSON text")

/-- What is read from the text of a document: the document with its numbers reread, if none of its
expressions is deeper than 42 operations. -/
theorem parse_pretty {document : Document} (h : document.Writable) :
    Document.parse (Json.array (document.map Expression.toJson)).pretty =
      if ∀ e ∈ document, e.depth ≤ 42 then
        match document.reread? with
        | some found => .ok found
        | none => unreadable
      else unreadable := by
  have hfinite : (Json.array (document.map Expression.toJson)).Finite := by
    apply Json.Finite.array
    intro item hitem
    obtain ⟨e, he, rfl⟩ := List.mem_map.mp hitem
    exact Expression.finite_toJson (h.finite e he)
  have hvalue : Json.parse? (Json.array (document.map Expression.toJson)).pretty =
      (RawJson.values? 126 (Json.rawAll (document.map Expression.toJson))).map .array := by
    rw [Json.parse?, hfinite.parse?_pretty]
    rfl
  rw [Document.parse, hvalue, values?_toJson h.finite]
  by_cases hdepth : ∀ e ∈ document, e.depth ≤ 42
  · rw [if_pos hdepth, if_pos hdepth]
    cases hread : document.reread? with
    | none => rfl
    | some found => exact ofJson_written (names_of_reread? h.named hread)
  · rw [if_neg hdepth, if_neg hdepth]
    rfl

/-- Rereading leaves a document as it is exactly if it leaves all its numbers so. -/
theorem reread?_eq_self_of_finite {document : Document}
    (h : ∀ e ∈ document, ∀ value ∈ e.literals, value.isFinite = true) :
    document.reread? = some document ↔
      ∀ e ∈ document, ∀ x, .number x ∈ e.literals →
        (Number.real x).reread? = some (.real x) := by
  rw [reread?, mapM_eq_self]
  simp only [Expression.reread?_eq_self]
  constructor
  · intro hself e he x hx
    exact (Literal.reread?_eq_self (h e he _ hx)).mp (hself e he _ hx) x rfl
  · intro hnumbers e he value hvalue
    apply (Literal.reread?_eq_self (h e he value hvalue)).mpr
    rintro x rfl
    exact hnumbers e he x hvalue

theorem toText_of_finite {document : Document}
    (h : ∀ e ∈ document, ∀ value ∈ e.literals, value.isFinite = true) :
    document.toText = .ok (Json.array (document.map Expression.toJson)).pretty := by
  rw [toText, toJson_of_finite h]
  rfl

/-- A document with names and finite numbers throughout has a text. If one of its expressions is
deeper than 42 operations, the text cannot be read; otherwise it is read back as the document
exactly if each number is read back from its own text, and all numbers with short texts are. -/
theorem parse_toText {document : Document} (h : document.Writable) :
    ∃ text, document.toText = .ok text ∧
      ((∃ e ∈ document, 42 < e.depth) →
        Document.parse text = .error (.json "not a readable JSON text")) ∧
      ((∀ e ∈ document, e.depth ≤ 42) →
        (Document.parse text = .ok document ↔
          ∀ e ∈ document, ∀ x, .number x ∈ e.literals →
            (Number.real x).reread? = some (.real x)) ∧
        ((∀ e ∈ document, ∀ x, .number x ∈ e.literals → (Number.real x).IsShort) →
          Document.parse text = .ok document)) := by
  refine ⟨_, toText_of_finite h.finite, ?_, ?_⟩
  · rintro ⟨e, he, hdeep⟩
    have hdepth : ¬∀ e ∈ document, e.depth ≤ 42 := by
      intro hall
      have hshallow := hall e he
      omega
    rw [parse_pretty h, if_neg hdepth]
    rfl
  · intro hdepth
    have hread : Document.parse (Json.array (document.map Expression.toJson)).pretty =
        .ok document ↔ ∀ e ∈ document, ∀ x, .number x ∈ e.literals →
          (Number.real x).reread? = some (.real x) := by
      rw [parse_pretty h, if_pos hdepth, ← reread?_eq_self_of_finite h.finite]
      cases document.reread? with
      | none => simp [unreadable]
      | some found => simp
    refine ⟨hread, fun hshort => hread.mpr fun e he x hx => ?_⟩
    exact Number.reread?_of_isShort (h.finite e he _ hx) (hshort e he x hx)

/-- Two operations, a text and a number that is not a whole one. -/
theorem parse_toText_tenth :
    let document : Document :=
      [⟨"NOT", [.literal (.number 0.1), .literal (.text "a"), .nested "NOW" []]⟩, ⟨"NOW", []⟩]
    document.Writable ∧ (Number.real 0.1).IsShort ∧
      ∃ text, document.toText = .ok text ∧ Document.parse text = .ok document := by
  intro document
  have hfinite : (0.1 : Float).isFinite = true := by decide +kernel
  have hshort : (Number.real 0.1).IsShort := by decide +kernel
  have hwritable : document.Writable := by
    constructor
    · simp [document, Expression.names, Argument.namesAll, Argument.names]
    · simp [document, Expression.literals, Argument.literalsAll, Argument.literals,
        Literal.isFinite, hfinite]
  obtain ⟨text, htext, _, hread⟩ := parse_toText hwritable
  refine ⟨hwritable, hshort, text, htext, (hread (by decide)).2 ?_⟩
  simp [document, Expression.literals, Argument.literalsAll, Argument.literals, hshort]

/-- Forty-three nested operations are written, but not read back; nor is a number whose shortest
decimal has sixteen digits. -/
theorem written_but_lost :
    let tower : Document :=
      [⟨"NOT", [Nat.repeat (fun a => .nested "NOT" [a]) 41 (.nested "NOT" [])]⟩]
    let large : Document := [⟨"NOT", [.literal (.number 9223372036854774784)]⟩]
    (tower.Writable ∧ ∃ text, tower.toText = .ok text ∧
      Document.parse text = .error (.json "not a readable JSON text")) ∧
    (large.Writable ∧ ∃ text, large.toText = .ok text ∧
      Document.parse text = .ok [⟨"NOT", [.literal (.number 9223372036854775808)]⟩]) := by
  intro tower large
  have hlarge : (9223372036854774784 : Float).isFinite = true := by decide +kernel
  have hrounded : (Number.real 9223372036854774784).reread? =
      some (.real 9223372036854775808) := by
    rw [Number.reread?_eq_real hlarge]
    decide +kernel
  have htower : tower.Writable := by
    constructor
    · decide +kernel
    · have hnone : ∀ e ∈ tower, e.literals = [] := by simp [tower]; rfl
      intro e he value hvalue
      rw [hnone e he] at hvalue
      cases hvalue
  have hwritable : large.Writable := by
    constructor
    · simp [large, Expression.names, Argument.namesAll, Argument.names]
    · simp [large, Expression.literals, Argument.literalsAll, Argument.literals,
        Literal.isFinite, hlarge]
  constructor
  · refine ⟨htower, _, toText_of_finite htower.finite, ?_⟩
    rw [parse_pretty htower, if_neg (by decide +kernel)]
    rfl
  · refine ⟨hwritable, _, toText_of_finite hwritable.finite, ?_⟩
    rw [parse_pretty hwritable, if_pos (by decide +kernel)]
    simp [large, reread?, Expression.reread?, Argument.rereadAll?, Argument.reread?,
      Literal.reread?, hrounded, Number.toFloat]

end Document

end RuleGraph
