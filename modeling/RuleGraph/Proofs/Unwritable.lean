import RuleGraph.Proofs.FirstFaults
import RuleGraph.Proofs.Writing

/-!
# Numbers that cannot be written

A document cannot be written exactly if one of its numbers is not-a-number or infinite. The report
leads to the first such number, depth first and left to right, whether the document is written as a
value or as a text.
-/

namespace RuleGraph

theorem not_isFinite_iff {x : Float} :
    x.isFinite = false ↔ x.isNaN = true ∨ x.isInf = true := by
  change x.toModel.unpack.isFinite = false ↔
    x.toModel.unpack.isNaN = true ∨ x.toModel.unpack.isInf = true
  generalize x.toModel.unpack = f
  cases f <;> simp [Float.Model.UnpackedFloat.isFinite, Float.Model.UnpackedFloat.isNaN,
    Float.Model.UnpackedFloat.isInf]

namespace Argument

/-- The argument is a number that cannot be written. -/
def NonFinite (a : Argument) (defect : Defect) : Prop :=
  ∃ x : Float, a = .literal (.number x) ∧ (x.isNaN = true ∨ x.isInf = true) ∧
    defect = .unwritableNumber x

theorem NonFinite.unique (a : Argument) (d d' : Defect) (h : a.NonFinite d) (h' : a.NonFinite d') :
    d = d' := by
  obtain ⟨x, rfl, _, rfl⟩ := h
  obtain ⟨y, hsame, _, rfl⟩ := h'
  cases hsame
  rfl

/-- The error of the first number that cannot be written, if there is one. -/
def refusal : Option (List Nat × Float) → Except DocumentError Unit
  | some (path, x) => .error (.invalidExpression path (.unwritableNumber x))
  | none => .ok ()

theorem refusal_unwritableIn? (path : List Nat) (position : Nat) (arguments : List Argument) :
    refusal (unwritableIn? path position arguments) =
      checkEach (fun i a => refusal (a.unwritable? (path ++ [i]))) position arguments := by
  induction arguments generalizing position with
  | nil => rfl
  | cons first rest ih =>
      rw [unwritableIn?, checkEach, ← ih]
      cases first.unwritable? (path ++ [position]) <;> rfl

theorem reports_unwritable (a : Argument) (base : List Nat) :
    Reports (BadAt NonFinite a.at?) base (refusal (a.unwritable? base)) := by
  induction a generalizing base with
  | literal value =>
      cases value with
      | text s => exact .sound fun path defect h => by simp [badAt_literal, NonFinite] at h
      | number x =>
          rw [unwritable?]
          by_cases hx : x.isFinite = true
          · rw [if_pos hx]
            refine .sound fun path defect h => ?_
            obtain ⟨_, y, hy, hbad, _⟩ := badAt_literal.mp h
            cases hy
            simp [not_isFinite_iff.mpr hbad] at hx
          · rw [if_neg hx]
            have hbad := not_isFinite_iff.mp (Bool.not_eq_true _ ▸ hx)
            exact .here (badAt_literal.mpr ⟨rfl, x, rfl, hbad, rfl⟩)
  | nested name arguments ih =>
      have hbelow : Reports (FaultFrom (fun a => BadAt NonFinite a.at?) 0 arguments) base
          (refusal (unwritableIn? base 0 arguments)) := by
        rw [refusal_unwritableIn?]
        exact Reports.check (fun a ha i => ih a ha (base ++ [i])) 0
      exact hbelow.congr fun path defect => by simp [badAt_nested, NonFinite]

end Argument

namespace Document

open Argument (refusal NonFinite)

theorem refusal_unwritable? (index : Nat) (document : Document) :
    refusal (unwritable? index document) =
      checkEach (fun i e => refusal ((Argument.ofExpression e).unwritable? [i])) index
        document := by
  induction document generalizing index with
  | nil => rfl
  | cons e rest ih =>
      have hsame : Argument.unwritableIn? [index] 0 e.arguments =
          (Argument.ofExpression e).unwritable? [index] := rfl
      rw [checkEach, ← ih]
      cases hfirst : (Argument.ofExpression e).unwritable? [index] <;>
        simp [unwritable?, hsame, hfirst, refusal]

theorem reports_toJson (document : Document) :
    Reports (BadAt NonFinite document.at?) [] document.toJson := by
  have hcheck : Reports (BadAt NonFinite document.at?) [] (refusal (unwritable? 0 document)) := by
    rw [refusal_unwritable?]
    exact (Reports.check (fun e _ i => Argument.reports_unwritable _ [i]) 0).congr
      fun path defect => badAt_iff
  have hwritten : document.toJson = (refusal (unwritable? 0 document)).map fun _ =>
      .array (document.map Expression.toJson) := by
    rw [toJson]
    cases unwritable? 0 document <;> rfl
  exact hwritten ▸ hcheck.map _

theorem toText_eq_error {document : Document} {error : DocumentError} :
    document.toText = .error error ↔ document.toJson = .error error := by
  rw [toText]
  cases document.toJson <;> simp [Except.map]

theorem exists_toJson_eq_error {document : Document} :
    (∃ error, document.toJson = .error error) ↔
      ∃ e ∈ document, ∃ x : Float, Literal.number x ∈ e.literals ∧
        (x.isNaN = true ∨ x.isInf = true) := by
  have hsome : (∃ error, document.toJson = .error error) ↔ ¬unwritable? 0 document = none := by
    rw [toJson]
    cases unwritable? 0 document <;> simp
  rw [hsome, unwritable?_eq_none_iff]
  constructor
  · intro h
    push Not at h
    obtain ⟨e, he, value, hvalue, hfinite⟩ := h
    cases value with
    | text s => exact absurd rfl hfinite
    | number x =>
        exact ⟨e, he, x, hvalue, not_isFinite_iff.mp (Bool.not_eq_true _ ▸ hfinite)⟩
  · rintro ⟨e, he, x, hx, hbad⟩ h
    have hfinite : x.isFinite = true := h e he _ hx
    simp [not_isFinite_iff.mpr hbad] at hfinite

/-- The path leads to a number that is not-a-number or infinite, and every other such number stands
later in the document, depth first and left to right. -/
structure FirstNonFinite (document : Document) (path : List Nat) (x : Float) : Prop where
  leads : document.at? path = some (.literal (.number x))
  nonFinite : x.isNaN = true ∨ x.isInf = true
  first : ∀ other y, document.at? other = some (.literal (.number y)) →
    y.isNaN = true ∨ y.isInf = true → path ≤ other

theorem firstFault_nonFinite_iff {document : Document} {path : List Nat} {defect : Defect} :
    FirstFault (BadAt NonFinite document.at?) path defect ↔
      ∃ x, defect = .unwritableNumber x ∧ document.FirstNonFinite path x := by
  constructor
  · intro h
    obtain ⟨_, hat, x, rfl, hx, rfl⟩ := h.fault
    refine ⟨x, rfl, hat, hx, ?_⟩
    exact fun other y hat hy => h.first other _ ⟨_, hat, y, rfl, hy, rfl⟩
  · rintro ⟨x, rfl, h⟩
    refine ⟨⟨_, h.leads, x, rfl, h.nonFinite, rfl⟩, ?_⟩
    rintro other d ⟨_, hat, y, rfl, hy, _⟩
    exact h.first other y hat hy

/-- A document is refused exactly if one of its numbers is not-a-number or infinite, as a value and
as a text with the same error: it names the first such number and leads to it. -/
theorem toJson_refuses_first (document : Document) :
    ((∃ error, document.toJson = .error error) ↔
      ∃ e ∈ document, ∃ x : Float, Literal.number x ∈ e.literals ∧
        (x.isNaN = true ∨ x.isInf = true)) ∧
    (∀ error, document.toJson = .error error ↔
      ∃ path x, error = .invalidExpression path (.unwritableNumber x) ∧
        document.FirstNonFinite path x) ∧
    (∀ error, document.toText = .error error ↔ document.toJson = .error error) := by
  refine ⟨exists_toJson_eq_error, fun error => ?_, fun error => toText_eq_error⟩
  rw [document.reports_toJson.eq_error_iff (BadAt.unique NonFinite.unique)]
  constructor
  · rintro ⟨path, defect, herror, hfirst⟩
    obtain ⟨x, rfl, hx⟩ := firstFault_nonFinite_iff.mp hfirst
    exact ⟨path, x, herror, hx⟩
  · rintro ⟨path, x, herror, hx⟩
    exact ⟨path, _, herror, firstFault_nonFinite_iff.mpr ⟨x, rfl, hx⟩⟩

end Document

end RuleGraph
