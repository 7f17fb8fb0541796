import RuleGraph.Document.Writing
import RuleGraph.Proofs.Doubles
import RuleGraph.Proofs.Grammar
import RuleGraph.Proofs.Names

/-!
# Writing inverts reading

A document can be written if all its numbers are finite. If its operations have names too, what is
written denotes it; the documents that finite values denote are of this kind, and what is written of
them is a normal form.
-/

namespace RuleGraph

/-! ## Literals -/

namespace Argument

mutual

/-- The literals in an argument, left to right. -/
def literals : Argument → List Literal
  | .literal value => [value]
  | .nested _ arguments => literalsAll arguments

def literalsAll : List Argument → List Literal
  | [] => []
  | a :: rest => a.literals ++ literalsAll rest

end

theorem mem_literalsAll {arguments : List Argument} {value : Literal} :
    value ∈ literalsAll arguments ↔ ∃ a ∈ arguments, value ∈ a.literals := by
  induction arguments with
  | nil => simp [literalsAll]
  | cons first rest ih => simp [literalsAll, ih]

end Argument

def Expression.literals (e : Expression) : List Literal :=
  Argument.literalsAll e.arguments

/-- All operations have names, and all numbers are finite. -/
structure Argument.Writable (a : Argument) : Prop where
  named : "" ∉ a.names
  finite : ∀ value ∈ a.literals, value.isFinite = true

structure Document.Writable (document : Document) : Prop where
  named : ∀ e ∈ document, "" ∉ e.names
  finite : ∀ e ∈ document, ∀ value ∈ e.literals, value.isFinite = true

theorem Document.writable_iff {document : Document} :
    document.Writable ↔ ∀ e ∈ document, (Argument.ofExpression e).Writable :=
  ⟨fun h e he => ⟨h.named e he, h.finite e he⟩,
    fun h => ⟨fun e he => (h e he).named, fun e he => (h e he).finite⟩⟩

namespace Argument

theorem writable_literal {value : Literal} :
    (literal value).Writable ↔ value.isFinite = true := by
  constructor
  · intro h
    exact h.finite value (by simp [literals])
  · intro h
    exact ⟨by simp [names], by simpa [literals] using h⟩

theorem writable_nested {name : String} {arguments : List Argument} :
    (nested name arguments).Writable ↔ name ≠ "" ∧ ∀ a ∈ arguments, a.Writable := by
  constructor
  · intro h
    have hnamed := h.named
    have hfinite := h.finite
    simp only [names, List.mem_cons, not_or, mem_namesAll, not_exists, not_and] at hnamed
    simp only [literals, mem_literalsAll] at hfinite
    exact ⟨Ne.symm hnamed.1, fun a ha => ⟨hnamed.2 a ha, fun value hvalue =>
      hfinite value ⟨a, ha, hvalue⟩⟩⟩
  · intro h
    obtain ⟨hname, harguments⟩ := h
    constructor
    · simp only [names, List.mem_cons, not_or, mem_namesAll, not_exists, not_and]
      exact ⟨Ne.symm hname, fun a ha => (harguments a ha).named⟩
    · simp only [literals, mem_literalsAll]
      rintro value ⟨a, ha, hvalue⟩
      exact (harguments a ha).finite value hvalue

/-! ## Writing -/

theorem unwritableIn?_eq_none_iff {arguments : List Argument} {path : List Nat} {position : Nat}
    (harguments : ∀ a ∈ arguments, ∀ path, a.unwritable? path = none ↔
      ∀ value ∈ a.literals, value.isFinite = true) :
    unwritableIn? path position arguments = none ↔
      ∀ value ∈ literalsAll arguments, value.isFinite = true := by
  induction arguments generalizing position with
  | nil => simp [unwritableIn?, literalsAll]
  | cons first rest ih =>
      have hfirst := harguments first List.mem_cons_self (path ++ [position])
      have hrest : unwritableIn? path (position + 1) rest = none ↔ _ :=
        ih fun a ha => harguments a (List.mem_cons_of_mem _ ha)
      simp only [literalsAll, List.forall_mem_append, ← hfirst, ← hrest, unwritableIn?]
      cases first.unwritable? (path ++ [position]) <;> simp

theorem unwritable?_eq_none_iff {a : Argument} {path : List Nat} :
    a.unwritable? path = none ↔ ∀ value ∈ a.literals, value.isFinite = true := by
  induction a generalizing path with
  | literal value =>
      cases value <;> simp [unwritable?, literals, Literal.isFinite]
  | nested name arguments ih =>
      exact unwritableIn?_eq_none_iff fun a ha _ => ih a ha

theorem toJsonAll_eq (arguments : List Argument) :
    toJsonAll arguments = arguments.map toJson := by
  induction arguments with
  | nil => rfl
  | cons first rest ih => rw [toJsonAll, ih, List.map_cons]

theorem denotes_expressionObject {name : String} {arguments : List Argument} (hname : name ≠ "")
    (harguments : ∀ a ∈ arguments, a.toJson.DenotesArgument a) :
    (expressionObject name (toJsonAll arguments)).DenotesExpression ⟨name, arguments⟩ := by
  have hall : List.Forall₂ Json.DenotesArgument (toJsonAll arguments) arguments := by
    rw [toJsonAll_eq, List.forall₂_map_left_iff, List.forall₂_same]
    exact harguments
  refine .object rfl hname ?_ hall
  cases toJsonAll arguments with
  | nil => exact .absent
  | cons first rest => exact .array (first :: rest)

theorem denotes_toJson {a : Argument} (h : "" ∉ a.names) : a.toJson.DenotesArgument a := by
  induction a with
  | literal value =>
      cases value with
      | number x => exact .number (n := .real x) rfl rfl
      | text s => exact .text rfl rfl
  | nested name arguments ih =>
      simp only [names, List.mem_cons, not_or, mem_namesAll, not_exists, not_and] at h
      have hexpression := denotes_expressionObject (Ne.symm h.1) fun a ha => ih a ha (h.2 a ha)
      exact .nested rfl rfl hexpression

end Argument

theorem Expression.denotes_toJson {e : Expression} (h : "" ∉ e.names) :
    e.toJson.DenotesExpression e := by
  simp only [Expression.names, List.mem_cons, not_or, Argument.mem_namesAll, not_exists,
    not_and] at h
  exact Argument.denotes_expressionObject (Ne.symm h.1) fun a ha =>
    Argument.denotes_toJson (h.2 a ha)

namespace Document

theorem unwritable?_eq_none_iff {document : Document} {index : Nat} :
    unwritable? index document = none ↔
      ∀ e ∈ document, ∀ value ∈ e.literals, value.isFinite = true := by
  induction document generalizing index with
  | nil => simp [unwritable?]
  | cons e rest ih =>
      have hfirst : Argument.unwritableIn? [index] 0 e.arguments = none ↔
          ∀ value ∈ e.literals, value.isFinite = true :=
        Argument.unwritableIn?_eq_none_iff fun _ _ _ => Argument.unwritable?_eq_none_iff
      have hrest : unwritable? (index + 1) rest = none ↔ _ := ih
      rw [List.forall_mem_cons, ← hfirst, ← hrest, unwritable?]
      cases Argument.unwritableIn? [index] 0 e.arguments <;> simp

theorem toJson_of_finite {document : Document}
    (h : ∀ e ∈ document, ∀ value ∈ e.literals, value.isFinite = true) :
    document.toJson = .ok (.array (document.map Expression.toJson)) := by
  rw [toJson, unwritable?_eq_none_iff.mpr h]

theorem ofJson_written {document : Document} (h : ∀ e ∈ document, "" ∉ e.names) :
    ofJson (.array (document.map Expression.toJson)) = .ok document := by
  rw [ofJson_eq_ok]
  refine .array ?_
  rw [List.forall₂_map_left_iff, List.forall₂_same]
  exact fun e he => Expression.denotes_toJson (h e he)

theorem Writable.exists_written {document : Document} (h : document.Writable) :
    ∃ v, document.toJson = .ok v ∧ ofJson v = .ok document :=
  ⟨_, toJson_of_finite h.finite, ofJson_written h.named⟩

end Document

/-! ## Finite values -/

/-- Each number of the value is finite. -/
inductive Json.Finite : Json → Prop
  | null : Finite .null
  | bool (value : Bool) : Finite (.bool value)
  | natural (value : UInt64) : Finite (.number (.natural value))
  | real {value : Float} (h : value.isFinite = true) : Finite (.number (.real value))
  | string (value : String) : Finite (.string value)
  | array {items : List Json} (h : ∀ item ∈ items, Finite item) : Finite (.array items)
  | object {members : List (String × Json)} (h : ∀ member ∈ members, Finite member.2) :
      Finite (.object members)

theorem carries_writable : Carries Json.Finite Argument.Writable where
  item := by
    intro items h
    cases h with
    | array hitems => exact hitems
  member := by
    intro members h
    cases h with
    | object hmembers => exact hmembers
  number := by
    intro n h
    rw [Argument.writable_literal]
    cases h with
    | natural value => exact isFinite_toFloat value
    | real hvalue => exact hvalue
  text s := Argument.writable_literal.mpr rfl
  nested _ _ hname harguments := Argument.writable_nested.mpr ⟨hname, harguments⟩

theorem Json.Finite.writable {v : Json} (hv : v.Finite) {document : Document}
    (h : Document.ofJson v = .ok document) : document.Writable :=
  Document.writable_iff.mpr (carries_writable.document (Document.ofJson_eq_ok.mp h) hv)

/-- A document with names and finite numbers throughout is written as a value that is read as the
document, each number as it was. What is read from a finite value is such a document, and the value
that is written for it is read and written again without a change. -/
theorem Document.toJson_normal :
    (∀ document : Document, (∀ e ∈ document, "" ∉ e.names) →
      (∀ e ∈ document, ∀ value ∈ e.literals, value.isFinite = true) →
      ∃ v, document.toJson = .ok v ∧ Document.ofJson v = .ok document) ∧
    (∀ (v : Json) (document : Document), v.Finite → Document.ofJson v = .ok document →
      ∃ w, document.toJson = .ok w ∧ Document.ofJson w = .ok document ∧
        (Document.ofJson w).bind Document.toJson = .ok w) := by
  constructor
  · intro document hnamed hfinite
    exact Writable.exists_written ⟨hnamed, hfinite⟩
  · intro v document hv h
    obtain ⟨w, hwritten, hread⟩ := (hv.writable h).exists_written
    refine ⟨w, hwritten, hread, ?_⟩
    rw [hread]
    exact hwritten

/-- Minus zero beside an operation without arguments, and a value with a member of no effect. -/
theorem Document.toJson_normal_minus_zero :
    let document : Document := [⟨"NOT", [.literal (.number (-0.0)), .nested "NOW" []]⟩]
    let v : Json := .array [.object [("data", .null), ("name", .string "NOW")]]
    (∃ v, document.toJson = .ok v ∧ Document.ofJson v = .ok document) ∧ v.Finite ∧
      ∃ w, Document.toJson [⟨"NOW", []⟩] = .ok w ∧ Document.ofJson w = .ok [⟨"NOW", []⟩] ∧
        (Document.ofJson w).bind Document.toJson = .ok w := by
  intro document v
  obtain ⟨hwritten, hnormal⟩ := toJson_normal
  have hfinite : v.Finite := by
    refine .array (List.forall_mem_singleton.mpr (.object ?_))
    exact List.forall_mem_cons.mpr ⟨.null, List.forall_mem_singleton.mpr (.string "NOW")⟩
  have hzero : (-0.0 : Float).isFinite = true := by decide +kernel
  refine ⟨hwritten document ?_ ?_, hfinite, hnormal v _ hfinite rfl⟩
  · simp [document, Expression.names, Argument.namesAll, Argument.names]
  · simp [document, Expression.literals, Argument.literalsAll, Argument.literals,
      Literal.isFinite, hzero]

end RuleGraph
