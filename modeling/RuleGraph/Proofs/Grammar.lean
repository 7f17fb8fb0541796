import Mathlib.Data.List.Forall2
import RuleGraph.Document.Policy
import RuleGraph.Proofs.Computations
import RuleGraph.Proofs.Outline

/-!
# The grammar of documents

What a value denotes, said without reading it: `Json.DenotesExpression` and `Json.DenotesArgument`
go down the value together, and `Json.DenotesDocument` lists the top-level expressions. Reading
follows one member after another and stops at the first defect; it succeeds exactly on the values
that denote something, with what they denote. `Carries` collects what it takes for a property of
values to become a property of all that is read from them.
-/

namespace RuleGraph

/-! ## Denotation -/

/-- What the member `data` of an expression lists: nothing if it is absent or null. -/
inductive ListsData : Option Json → List Json → Prop
  | absent : ListsData none []
  | null : ListsData (some .null) []
  | array (items : List Json) : ListsData (some (.array items)) items

@[simp] theorem listsData_none {items : List Json} : ListsData none items ↔ items = [] :=
  ⟨fun h => by cases h; rfl, fun h => h ▸ .absent⟩

@[simp] theorem listsData_null {items : List Json} : ListsData (some .null) items ↔ items = [] :=
  ⟨fun h => by cases h; rfl, fun h => h ▸ .null⟩

@[simp] theorem listsData_array {listed items : List Json} :
    ListsData (some (.array listed)) items ↔ items = listed :=
  ⟨fun h => by cases h; rfl, fun h => h ▸ .array items⟩

mutual

/-- The value is an object with a nonempty `name`, and its `data` lists the arguments in order. -/
inductive Json.DenotesExpression : Json → Expression → Prop
  | object {members : List (String × Json)} {name : String} {items : List Json}
      {arguments : List Argument} (hname : members.lookup "name" = some (.string name))
      (hnonempty : name ≠ "") (hdata : ListsData (members.lookup "data") items)
      (harguments : List.Forall₂ Json.DenotesArgument items arguments) :
      DenotesExpression (.object members) ⟨name, arguments⟩

/-- The value is an object whose `dtype` names the member that holds the argument. -/
inductive Json.DenotesArgument : Json → Argument → Prop
  | number {members : List (String × Json)} {n : Number}
      (htype : members.lookup "dtype" = some (.string "num"))
      (hvalue : members.lookup "num" = some (.number n)) :
      DenotesArgument (.object members) (.literal (.number n.toFloat))
  | text {members : List (String × Json)} {s : String}
      (htype : members.lookup "dtype" = some (.string "str"))
      (hvalue : members.lookup "str" = some (.string s)) :
      DenotesArgument (.object members) (.literal (.text s))
  | nested {members : List (String × Json)} {v : Json} {e : Expression}
      (htype : members.lookup "dtype" = some (.string "exp"))
      (hvalue : members.lookup "exp" = some v) (h : Json.DenotesExpression v e) :
      DenotesArgument (.object members) (.ofExpression e)

end

inductive Json.DenotesDocument : Json → Document → Prop
  | array {items : List Json} {document : Document}
      (h : List.Forall₂ Json.DenotesExpression items document) :
      DenotesDocument (.array items) document

/-- Induction over the items of arrays and the members of objects, all of them at once. -/
@[elab_as_elim]
theorem Json.induct {motive : Json → Prop} (null : motive .null)
    (bool : ∀ value, motive (.bool value)) (number : ∀ value, motive (.number value))
    (string : ∀ value, motive (.string value))
    (array : ∀ items, (∀ item ∈ items, motive item) → motive (.array items))
    (object : ∀ members, (∀ member ∈ members, motive member.2) → motive (.object members))
    (v : Json) : motive v :=
  match v with
  | .null => null
  | .bool value => bool value
  | .number value => number value
  | .string value => string value
  | .array items => array items fun item _ => induct null bool number string array object item
  | .object members =>
    object members fun (name, item) hmember =>
      have : sizeOf item < sizeOf members := by
        have hlt := List.sizeOf_lt_of_mem hmember
        simp only [Prod.mk.sizeOf_spec] at hlt
        omega
      induct null bool number string array object item

/-! ## Members -/

theorem Json.string?_eq_some_iff {v : Json} {s : String} :
    v.string? = some s ↔ v = .string s := by
  cases v <;> simp [string?]

theorem mem_of_lookup {members : List (String × Json)} {name : String} {v : Json}
    (h : members.lookup name = some v) : (name, v) ∈ members := by
  obtain ⟨before, after, rfl, _⟩ := List.lookup_eq_some_iff.mp h
  exact List.mem_append_right _ List.mem_cons_self

theorem readData_eq (path : List Nat) (members : List (String × Json)) :
    readData path members =
      match members.lookup "data" with
      | none => .ok []
      | some v => readArguments path v := by
  induction members with
  | nil => rfl
  | cons member rest ih =>
      obtain ⟨name, v⟩ := member
      rw [readData, List.lookup_cons]
      by_cases hname : name = "data"
      · simp [hname]
      · have hother : ("data" == name) = false := beq_false_of_ne (Ne.symm hname)
        rw [if_neg hname, hother, ih]

theorem readNested_eq (path : List Nat) (members : List (String × Json)) :
    readNested path members =
      match members.lookup "exp" with
      | none => .error (.invalidExpression path .noExpression)
      | some v => (readExpression path v).map .ofExpression := by
  induction members with
  | nil => rfl
  | cons member rest ih =>
      obtain ⟨name, v⟩ := member
      rw [readNested, List.lookup_cons]
      by_cases hname : name = "exp"
      · rw [if_pos hname, hname, beq_self_eq_true]
        dsimp only
        cases readExpression path v <;> rfl
      · have hother : ("exp" == name) = false := beq_false_of_ne (Ne.symm hname)
        rw [if_neg hname, hother, ih]

theorem readName_eq_ok {path : List Nat} {members : List (String × Json)} {name : String} :
    readName path members = .ok name ↔
      members.lookup "name" = some (.string name) ∧ name ≠ "" := by
  unfold readName
  cases members.lookup "name" with
  | none => simp
  | some v =>
      cases v with
      | string found =>
          by_cases hempty : found = ""
          · simp [hempty]
          · simp only [if_neg hempty, Except.ok.injEq, Option.some.injEq, Json.string.injEq]
            exact ⟨fun h => ⟨h, h ▸ hempty⟩, fun h => h.1⟩
      | null => simp
      | bool value => simp
      | number value => simp
      | array items => simp
      | object members => simp

theorem readNumber_eq_ok {path : List Nat} {members : List (String × Json)} {a : Argument} :
    readNumber path members = .ok a ↔
      ∃ n : Number, members.lookup "num" = some (.number n) ∧ a = .literal (.number n.toFloat) := by
  unfold readNumber
  cases members.lookup "num" with
  | none => simp
  | some v => cases v <;> simp [Json.float?, eq_comm]

theorem readText_eq_ok {path : List Nat} {members : List (String × Json)} {a : Argument} :
    readText path members = .ok a ↔
      ∃ s, members.lookup "str" = some (.string s) ∧ a = .literal (.text s) := by
  unfold readText
  cases members.lookup "str" with
  | none => simp
  | some v => cases v <;> simp [Json.string?, eq_comm]

/-! ## Values -/

def readEach {α β : Type} (read : Nat → α → Except DocumentError β) (position : Nat) :
    List α → Except DocumentError (List β)
  | [] => .ok []
  | item :: rest =>
    match read position item with
    | .error e => .error e
    | .ok first =>
      match readEach read (position + 1) rest with
      | .error e => .error e
      | .ok others => .ok (first :: others)

theorem readItems_eq (path : List Nat) (position : Nat) (items : List Json) :
    readItems path position items =
      readEach (fun i => readArgument (path ++ [i])) position items := by
  induction items generalizing position with
  | nil => rfl
  | cons item rest ih =>
      rw [readItems, readEach, ih]
      cases readArgument (path ++ [position]) item with
      | error e => rfl
      | ok a => cases readEach _ (position + 1) rest <;> rfl

theorem readExpressions_eq (index : Nat) (items : List Json) :
    readExpressions index items = readEach (fun i => readExpression [i]) index items := by
  induction items generalizing index with
  | nil => rfl
  | cons item rest ih =>
      rw [readExpressions, readEach, ih]
      cases readExpression [index] item with
      | error e => rfl
      | ok e => cases readEach _ (index + 1) rest <;> rfl

theorem readEach_eq_ok {α β : Type} {read : Nat → α → Except DocumentError β}
    {Denotes : α → β → Prop} {items : List α} {found : List β} {position : Nat}
    (hread : ∀ item ∈ items, ∀ i b, read i item = .ok b ↔ Denotes item b) :
    readEach read position items = .ok found ↔ List.Forall₂ Denotes items found := by
  induction items generalizing position found with
  | nil => simp [readEach, eq_comm]
  | cons item rest ih =>
      have hrest : ∀ found, readEach read (position + 1) rest = .ok found ↔
          List.Forall₂ Denotes rest found := fun _ =>
        ih fun other hother => hread other (List.mem_cons_of_mem _ hother)
      have hfirst := hread item List.mem_cons_self position
      rw [readEach, List.forall₂_cons_left_iff]
      constructor
      · intro h
        split at h
        · cases h
        · rename_i b hb
          split at h
          · cases h
          · rename_i others hothers
            cases h
            exact ⟨b, others, (hfirst b).mp hb, (hrest others).mp hothers, rfl⟩
      · intro h
        obtain ⟨b, others, hb, hothers, rfl⟩ := h
        rw [(hfirst b).mpr hb, (hrest others).mpr hothers]

/-- Whichever part of a document a value is read as, it is read as what it denotes. -/
structure Json.ReadsDenoted (v : Json) : Prop where
  expression : ∀ path e, readExpression path v = .ok e ↔ v.DenotesExpression e
  arguments : ∀ path found, readArguments path v = .ok found ↔
    ∃ items, ListsData (some v) items ∧ List.Forall₂ Json.DenotesArgument items found
  argument : ∀ path a, readArgument path v = .ok a ↔ v.DenotesArgument a

namespace Json

/-- A value that is no object is neither an expression nor an argument. -/
theorem readsDenoted_of_members? {v : Json} (hv : v.members? = none)
    (harguments : ∀ path found, readArguments path v = .ok found ↔
      ∃ items, ListsData (some v) items ∧ List.Forall₂ Json.DenotesArgument items found) :
    v.ReadsDenoted := by
  refine ⟨?_, harguments, ?_⟩
  · intro path e
    constructor
    · intro h
      cases v <;> first | cases h | cases hv
    · intro h
      cases h
      cases hv
  · intro path a
    constructor
    · intro h
      cases v <;> first | cases h | cases hv
    · intro h
      cases h <;> cases hv

theorem readExpression_object {members : List (String × Json)}
    (hmembers : ∀ member ∈ members, member.2.ReadsDenoted) (path : List Nat) (e : Expression) :
    readExpression path (.object members) = .ok e ↔ (object members).DenotesExpression e := by
  have hdata : ∀ arguments, readData path members = .ok arguments ↔
      ∃ items, ListsData (members.lookup "data") items ∧
        List.Forall₂ Json.DenotesArgument items arguments := by
    intro arguments
    rw [readData_eq]
    cases hfound : members.lookup "data" with
    | none => simp [eq_comm]
    | some v => exact (hmembers _ (mem_of_lookup hfound)).arguments path arguments
  rw [readExpression]
  constructor
  · intro h
    split at h
    · cases h
    · rename_i name hname
      split at h
      · cases h
      · rename_i arguments harguments
        cases h
        obtain ⟨hlookup, hnonempty⟩ := readName_eq_ok.mp hname
        obtain ⟨items, hitems, hall⟩ := (hdata arguments).mp harguments
        exact .object hlookup hnonempty hitems hall
  · intro h
    cases h with
    | object hname hnonempty hitems hall =>
        rw [readName_eq_ok.mpr ⟨hname, hnonempty⟩, (hdata _).mpr ⟨_, hitems, hall⟩]

theorem readArgument_object {members : List (String × Json)}
    (hmembers : ∀ member ∈ members, member.2.ReadsDenoted) (path : List Nat) (a : Argument) :
    readArgument path (.object members) = .ok a ↔ (object members).DenotesArgument a := by
  have hnested : readNested path members = .ok a ↔
      ∃ v e, members.lookup "exp" = some v ∧ v.DenotesExpression e ∧ a = .ofExpression e := by
    rw [readNested_eq]
    cases hfound : members.lookup "exp" with
    | none => simp
    | some v =>
        have hv := (hmembers _ (mem_of_lookup hfound)).expression path
        cases hread : readExpression path v with
        | error e =>
            simp only [hread] at hv
            simp [Except.map, hread, ← hv]
        | ok e =>
            simp only [hread, Except.ok.injEq] at hv
            simp [Except.map, hread, ← hv, eq_comm]
  rw [readArgument]
  constructor
  · intro h
    split at h
    · cases h
    · rename_i dtype hdtype
      obtain ⟨found, htype, hstring⟩ := Option.bind_eq_some_iff.mp hdtype
      rw [string?_eq_some_iff.mp hstring] at htype
      split at h
      · rename_i hnum
        rw [hnum] at htype
        obtain ⟨n, hvalue, rfl⟩ := readNumber_eq_ok.mp h
        exact .number htype hvalue
      · split at h
        · rename_i hstr
          rw [hstr] at htype
          obtain ⟨s, hvalue, rfl⟩ := readText_eq_ok.mp h
          exact .text htype hvalue
        · split at h
          · rename_i hexp
            rw [hexp] at htype
            obtain ⟨v, e, hvalue, hv, rfl⟩ := hnested.mp h
            exact .nested htype hvalue hv
          · cases h
  · intro h
    cases h with
    | number htype hvalue =>
        rw [htype]
        exact readNumber_eq_ok.mpr ⟨_, hvalue, rfl⟩
    | text htype hvalue =>
        rw [htype]
        exact readText_eq_ok.mpr ⟨_, hvalue, rfl⟩
    | nested htype hvalue hv =>
        rw [htype]
        exact hnested.mpr ⟨_, _, hvalue, hv, rfl⟩

theorem readsDenoted (v : Json) : v.ReadsDenoted := by
  induction v using Json.induct with
  | null =>
      refine readsDenoted_of_members? rfl ?_
      intro path found
      simp [readArguments, eq_comm]
  | bool value =>
      exact readsDenoted_of_members? rfl fun _ _ => ⟨fun h => (nomatch h), fun h => (nomatch h)⟩
  | number value =>
      exact readsDenoted_of_members? rfl fun _ _ => ⟨fun h => (nomatch h), fun h => (nomatch h)⟩
  | string value =>
      exact readsDenoted_of_members? rfl fun _ _ => ⟨fun h => (nomatch h), fun h => (nomatch h)⟩
  | array items ih =>
      refine readsDenoted_of_members? rfl ?_
      intro path found
      have hitems : readItems path 0 items = .ok found ↔
          List.Forall₂ Json.DenotesArgument items found := by
        rw [readItems_eq]
        exact readEach_eq_ok fun item hitem _ a => (ih item hitem).argument _ a
      rw [readArguments, hitems]
      simp
  | object members ih =>
      refine ⟨readExpression_object ih, ?_, readArgument_object ih⟩
      intro path found
      exact ⟨fun h => (nomatch h), fun h => (nomatch h)⟩

theorem isExpression_iff {v : Json} : v.isExpression = true ↔ ∃ e, v.DenotesExpression e := by
  have hread := v.readsDenoted.expression []
  unfold isExpression
  split
  · rename_i e he
    simp only [true_iff]
    exact ⟨e, (hread e).mp he⟩
  · rename_i error herror
    simp only [Bool.false_eq_true, false_iff]
    rintro ⟨e, he⟩
    rw [(hread e).mpr he] at herror
    cases herror

end Json

/-! ## What holds of everything denoted -/

theorem ListsData.eq_array {data : Option Json} {items : List Json} {item : Json}
    (h : ListsData data items) (hitem : item ∈ items) : data = some (.array items) := by
  cases h with
  | absent => cases hitem
  | null => cases hitem
  | array items => rfl

/-- What passes from values to their parts, and from what the parts denote to the whole. -/
structure Carries (P : Json → Prop) (Q : Argument → Prop) : Prop where
  item : ∀ items, P (.array items) → ∀ item ∈ items, P item
  member : ∀ members, P (.object members) → ∀ member ∈ members, P member.2
  number : ∀ n, P (.number n) → Q (.literal (.number n.toFloat))
  text : ∀ s, Q (.literal (.text s))
  nested : ∀ name arguments, name ≠ "" → (∀ a ∈ arguments, Q a) → Q (.nested name arguments)

namespace Carries

variable {P : Json → Prop} {Q : Argument → Prop} {v : Json}

theorem lookup (hcarries : Carries P Q) {members : List (String × Json)} {name : String}
    (h : P (.object members)) (hfound : members.lookup name = some v) : P v :=
  hcarries.member _ h _ (mem_of_lookup hfound)

theorem expression_of_arguments (hcarries : Carries P Q) {e : Expression}
    (h : v.DenotesExpression e) (hv : P v)
    (harguments : ∀ a ∈ e.arguments, ∀ v : Json, v.DenotesArgument a → P v → Q a) :
    Q (.ofExpression e) := by
  cases h with
  | object _ hnonempty hdata hall =>
      refine hcarries.nested _ _ hnonempty ?_
      intro a ha
      obtain ⟨item, hmem, hdenotes⟩ := exists_of_forall₂ hall a ha
      have harray := hcarries.lookup hv (hdata.eq_array hmem)
      exact harguments a ha item hdenotes (hcarries.item _ harray item hmem)

theorem argument (hcarries : Carries P Q) {a : Argument} (h : v.DenotesArgument a) (hv : P v) :
    Q a := by
  induction a generalizing v with
  | literal value =>
      cases h with
      | number _ hvalue => exact hcarries.number _ (hcarries.lookup hv hvalue)
      | text _ _ => exact hcarries.text _
  | nested name arguments ih =>
      cases h with
      | nested _ hvalue hexpression =>
          exact hcarries.expression_of_arguments hexpression (hcarries.lookup hv hvalue)
            fun a ha v hdenotes hv => ih a ha hdenotes hv

theorem document (hcarries : Carries P Q) {document : Document} (h : v.DenotesDocument document)
    (hv : P v) : ∀ e ∈ document, Q (.ofExpression e) := by
  cases h with
  | array hall =>
      intro e he
      obtain ⟨item, hmem, hdenotes⟩ := exists_of_forall₂ hall e he
      exact hcarries.expression_of_arguments hdenotes (hcarries.item _ hv item hmem)
        fun a _ v hargument hv => hcarries.argument hargument hv

end Carries

theorem Document.ofJson_eq_ok {v : Json} {document : Document} :
    Document.ofJson v = .ok document ↔ v.DenotesDocument document := by
  constructor
  · intro h
    cases v with
    | array items =>
        rw [Document.ofJson, readExpressions_eq] at h
        exact .array ((readEach_eq_ok fun item _ _ e => item.readsDenoted.expression _ e).mp h)
    | null => cases h
    | bool value => cases h
    | number value => cases h
    | string value => cases h
    | object members => cases h
  · intro h
    cases h with
    | array hall =>
        rw [Document.ofJson, readExpressions_eq]
        exact (readEach_eq_ok fun item _ _ e => item.readsDenoted.expression _ e).mpr hall

theorem Document.ofJsonUnder_eq_ok {policy : Policy} {v : Json} {document : Document} :
    Document.ofJsonUnder policy v = .ok document ↔
      Document.ofJson v = .ok document ∧ policy.checkDocument 0 document = .ok () := by
  rw [ofJsonUnder]
  cases Document.ofJson v with
  | error e => simp
  | ok found =>
      dsimp only
      constructor
      · intro h
        split at h
        · cases h
        · rename_i hchecked
          cases h
          exact ⟨rfl, hchecked⟩
      · rintro ⟨hsame, hchecked⟩
        cases hsame
        rw [hchecked]

/-- A value is read as a document exactly if it denotes one, and then as the one that it denotes.
A value is an expression in good order exactly if it is the whole of a document. -/
theorem Document.ofJson_denotes :
    (∀ (v : Json) (document : Document),
      Document.ofJson v = .ok document ↔ v.DenotesDocument document) ∧
    (∀ v : Json, v.isExpression = true ↔
      ∃ document, Document.ofJson (.array [v]) = .ok document) := by
  refine ⟨fun _ _ => ofJson_eq_ok, ?_⟩
  intro v
  rw [Json.isExpression_iff]
  constructor
  · intro h
    obtain ⟨e, he⟩ := h
    exact ⟨[e], ofJson_eq_ok.mpr (.array (.cons he .nil))⟩
  · intro h
    obtain ⟨document, hdocument⟩ := h
    cases ofJson_eq_ok.mp hdocument with
    | array hall =>
        cases hall with
        | cons he _ => exact ⟨_, he⟩

end RuleGraph
