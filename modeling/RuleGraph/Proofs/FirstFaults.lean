import Mathlib.Data.List.Lex
import RuleGraph.Proofs.Grammar

/-!
# The first of several faults

Documents are read, checked and written depth first, and what is wrong at one place ends it. The
report names the place by its path, and the places come in the lexical order of their paths, a path
before its extensions: `Reports` says of a result that it is the first fault in this order, or that
there is none. A list of parts reports the first fault of its parts, and an operation one of its own
before those of its arguments.
-/

namespace RuleGraph

/-! ## The first error of a list -/

section

variable {α β : Type} {position : Nat} {items : List α} {e : DocumentError}

theorem exists_of_readEach_eq_ok {read : Nat → α → Except DocumentError β} {found : List β}
    (h : readEach read position items = .ok found) {i : Nat} {x : α} (hx : items[i]? = some x) :
    ∃ b, read (position + i) x = .ok b := by
  induction items generalizing position found i with
  | nil => simp at hx
  | cons first rest ih =>
      rw [readEach] at h
      cases hfirst : read position first with
      | error e => simp [hfirst] at h
      | ok b =>
          cases hrest : readEach read (position + 1) rest with
          | error e => simp [hfirst, hrest] at h
          | ok others =>
              cases i with
              | zero =>
                  have hsame : first = x := by simpa using hx
                  exact ⟨b, hsame ▸ hfirst⟩
              | succ i =>
                  have hlater := ih hrest (by simpa using hx)
                  rwa [show position + 1 + i = position + (i + 1) by omega] at hlater

theorem exists_of_readEach_eq_error {read : Nat → α → Except DocumentError β}
    (h : readEach read position items = .error e) :
    ∃ i x, items[i]? = some x ∧ read (position + i) x = .error e ∧
      ∀ j < i, ∀ y, items[j]? = some y → ∃ b, read (position + j) y = .ok b := by
  induction items generalizing position with
  | nil => simp [readEach] at h
  | cons first rest ih =>
      rw [readEach] at h
      cases hfirst : read position first with
      | error e' =>
          have hsame : e' = e := by simpa [hfirst] using h
          exact ⟨0, first, rfl, hsame ▸ hfirst, fun j hj => by omega⟩
      | ok b =>
          cases hrest : readEach read (position + 1) rest with
          | ok others => simp [hfirst, hrest] at h
          | error e' =>
              have hsame : e' = e := by simpa [hfirst, hrest] using h
              obtain ⟨i, x, hx, hfails, hbefore⟩ := ih (hsame ▸ hrest)
              have hshift : ∀ j, position + 1 + j = position + (j + 1) := fun j => by omega
              refine ⟨i + 1, x, by simpa using hx, hshift i ▸ hfails, ?_⟩
              intro j hj y hy
              cases j with
              | zero =>
                  have hsame : first = y := by simpa using hy
                  exact ⟨b, hsame ▸ hfirst⟩
              | succ j => exact hshift j ▸ hbefore j (by omega) y (by simpa using hy)

theorem readEach_eq_error_of {read : Nat → α → Except DocumentError β} {i : Nat} {x : α}
    (hx : items[i]? = some x) (hfails : read (position + i) x = .error e)
    (hbefore : ∀ j < i, ∀ y, items[j]? = some y → ∃ b, read (position + j) y = .ok b) :
    readEach read position items = .error e := by
  induction items generalizing position i with
  | nil => simp at hx
  | cons first rest ih =>
      cases i with
      | zero =>
          have hsame : first = x := by simpa using hx
          have hfirst : read position first = .error e := hsame ▸ hfails
          simp [readEach, hfirst]
      | succ i =>
          have hshift : ∀ j, position + 1 + j = position + (j + 1) := fun j => by omega
          obtain ⟨b, hfirst⟩ := hbefore 0 (by omega) first rfl
          have hrest : readEach read (position + 1) rest = .error e := by
            refine ih (by simpa using hx) ((hshift i).symm ▸ hfails) ?_
            intro j hj y hy
            exact (hshift j).symm ▸ hbefore (j + 1) (by omega) y (by simpa using hy)
          rw [Nat.add_zero] at hfirst
          simp [readEach, hfirst, hrest]

def checkEach (check : Nat → α → Except DocumentError Unit) (position : Nat) :
    List α → Except DocumentError Unit
  | [] => .ok ()
  | item :: rest =>
    match check position item with
    | .error e => .error e
    | .ok () => checkEach check (position + 1) rest

theorem checkEach_eq (check : Nat → α → Except DocumentError Unit) (position : Nat)
    (items : List α) :
    checkEach check position items = (readEach check position items).map fun _ => () := by
  induction items generalizing position with
  | nil => rfl
  | cons first rest ih =>
      rw [checkEach, readEach, ih]
      cases check position first with
      | error e => rfl
      | ok b => cases readEach check (position + 1) rest <;> rfl

theorem checkEach_eq_error {check : Nat → α → Except DocumentError Unit} :
    checkEach check position items = .error e ↔
      ∃ i x, items[i]? = some x ∧ check (position + i) x = .error e ∧
        ∀ j < i, ∀ y, items[j]? = some y → check (position + j) y = .ok () := by
  have hread : checkEach check position items = .error e ↔
      readEach check position items = .error e := by
    rw [checkEach_eq]
    cases readEach check position items <;> simp [Except.map]
  rw [hread]
  constructor
  · intro h
    obtain ⟨i, x, hx, hfails, hbefore⟩ := exists_of_readEach_eq_error h
    exact ⟨i, x, hx, hfails, fun j hj y hy => (hbefore j hj y hy).choose_spec⟩
  · rintro ⟨i, x, hx, hfails, hbefore⟩
    exact readEach_eq_error_of hx hfails fun j hj y hy => ⟨(), hbefore j hj y hy⟩

theorem checkEach_eq_ok {check : Nat → α → Except DocumentError Unit} :
    checkEach check position items = .ok () ↔
      ∀ i x, items[i]? = some x → check (position + i) x = .ok () := by
  constructor
  · intro h i x hx
    rw [checkEach_eq] at h
    cases hread : readEach check position items with
    | error e => simp [hread, Except.map] at h
    | ok found => exact (exists_of_readEach_eq_ok hread hx).choose_spec
  · intro h
    cases hcheck : checkEach check position items with
    | ok b => rfl
    | error e =>
        obtain ⟨i, x, hx, hfails, _⟩ := checkEach_eq_error.mp hcheck
        simp [h i x hx] at hfails

end

/-! ## Reports -/

/-- A fault at a path, such that every fault has a path that is lexically no smaller. -/
structure FirstFault (Fault : List Nat → Defect → Prop) (path : List Nat) (defect : Defect) :
    Prop where
  fault : Fault path defect
  first : ∀ other d, Fault other d → path ≤ other

/-- What comes of a part of a document: all is well if there is no fault in it, and else its first
fault is the error. Paths of faults start from the part, and reports from the document. -/
inductive Reports {β : Type} (Fault : List Nat → Defect → Prop) (base : List Nat) :
    Except DocumentError β → Prop
  | sound {b : β} (h : ∀ path defect, ¬Fault path defect) : Reports Fault base (.ok b)
  | faulty {path : List Nat} {defect : Defect} (h : FirstFault Fault path defect) :
      Reports Fault base (.error (.invalidExpression (base ++ path) defect))

/-- A fault of one of several parts, at a path that starts with the position of the part. -/
def FaultFrom {α : Type} (Fault : α → List Nat → Defect → Prop) (position : Nat) (items : List α)
    (path : List Nat) (defect : Defect) : Prop :=
  ∃ i x below, items[i]? = some x ∧ Fault x below defect ∧ path = (position + i) :: below

namespace Reports

variable {α β γ : Type} {Fault Fault' : List Nat → Defect → Prop} {base : List Nat}
  {result : Except DocumentError β}

theorem congr (h : Reports Fault base result)
    (hsame : ∀ path defect, Fault' path defect ↔ Fault path defect) :
    Reports Fault' base result := by
  have heq : Fault' = Fault := funext fun path => funext fun defect => propext (hsame path defect)
  rwa [heq]

theorem map (h : Reports Fault base result) (f : β → γ) : Reports Fault base (result.map f) := by
  cases h with
  | sound h => exact .sound h
  | faulty h => exact .faulty h

/-- A fault of the part itself comes before the faults of its parts. -/
theorem here {defect : Defect} (h : Fault [] defect) :
    Reports Fault base (.error (.invalidExpression base defect) : Except DocumentError β) := by
  have hfirst : FirstFault Fault [] defect :=
    ⟨h, fun other _ _ => not_lt.mp (List.not_lt_nil other)⟩
  have hreport : Reports Fault base (.error (.invalidExpression (base ++ []) defect) :
      Except DocumentError β) := .faulty hfirst
  rwa [List.append_nil] at hreport

theorem not_fault {b : β} (h : Reports Fault base (.ok b : Except DocumentError β))
    (path : List Nat) (defect : Defect) : ¬Fault path defect := by
  cases h with
  | sound h => exact h path defect

/-- Parts that are taken one after the other report the first fault among them. -/
theorem each {Fault : α → List Nat → Defect → Prop} {read : Nat → α → Except DocumentError β}
    {items : List α} (hread : ∀ x ∈ items, ∀ i, Reports (Fault x) (base ++ [i]) (read i x))
    (position : Nat) : Reports (FaultFrom Fault position items) base
      (readEach read position items) := by
  cases hresult : readEach read position items with
  | ok found =>
      refine .sound ?_
      rintro path defect ⟨i, x, below, hx, hfault, _⟩
      obtain ⟨b, hb⟩ := exists_of_readEach_eq_ok hresult hx
      have hreport := hread x (List.mem_of_getElem? hx) (position + i)
      rw [hb] at hreport
      exact hreport.not_fault below defect hfault
  | error e =>
      obtain ⟨i, x, hx, hfails, hbefore⟩ := exists_of_readEach_eq_error hresult
      have hreport := hread x (List.mem_of_getElem? hx) (position + i)
      rw [hfails] at hreport
      cases hreport with
      | faulty hfirst =>
          rw [List.append_assoc]
          refine .faulty ⟨⟨i, x, _, hx, hfirst.fault, rfl⟩, ?_⟩
          rintro other d ⟨j, y, below, hy, hfault, rfl⟩
          rcases Nat.lt_trichotomy j i with hlt | rfl | hgt
          · obtain ⟨b, hb⟩ := hbefore j hlt y hy
            have hsound := hread y (List.mem_of_getElem? hy) (position + j)
            rw [hb] at hsound
            exact absurd hfault (hsound.not_fault below d)
          · have hsame : x = y := by simpa [hx] using hy
            exact List.cons_le_cons _ (hfirst.first below d (hsame ▸ hfault))
          · exact le_of_lt (List.Lex.rel (by omega))

theorem check {Fault : α → List Nat → Defect → Prop} {check : Nat → α → Except DocumentError Unit}
    {items : List α} (hcheck : ∀ x ∈ items, ∀ i, Reports (Fault x) (base ++ [i]) (check i x))
    (position : Nat) : Reports (FaultFrom Fault position items) base
      (checkEach check position items) := by
  rw [checkEach_eq]
  exact (each hcheck position).map _

theorem exists_ok_iff (h : Reports Fault base result) :
    (∃ b, result = .ok b) ↔ ∀ path defect, ¬Fault path defect := by
  cases h with
  | sound h => simpa using h
  | faulty h => simpa using ⟨_, _, h.fault⟩

/-- The error is the first fault, if a path has at most one. -/
theorem eq_error_iff (h : Reports Fault base result)
    (hunique : ∀ path d d', Fault path d → Fault path d' → d = d') {e : DocumentError} :
    result = .error e ↔
      ∃ path defect, e = .invalidExpression (base ++ path) defect ∧
        FirstFault Fault path defect := by
  cases h with
  | sound h =>
      constructor
      · intro herror
        cases herror
      · rintro ⟨path, defect, _, hfirst⟩
        exact absurd hfirst.fault (h path defect)
  | @faulty path defect h =>
      constructor
      · intro herror
        cases herror
        exact ⟨path, defect, rfl, h⟩
      · rintro ⟨other, d, rfl, hfirst⟩
        have hpath : path = other :=
          le_antisymm (h.first other d hfirst.fault) (hfirst.first path defect h.fault)
        subst hpath
        rw [hunique path d defect hfirst.fault h.fault]

end Reports

/-! ## Bad arguments -/

section

variable {Bad : Argument → Defect → Prop} {path : List Nat} {defect : Defect}

def BadAt (Bad : Argument → Defect → Prop) (find : List Nat → Option Argument) (path : List Nat)
    (defect : Defect) : Prop :=
  ∃ a, find path = some a ∧ Bad a defect

theorem BadAt.unique (hbad : ∀ a d d', Bad a d → Bad a d' → d = d')
    {find : List Nat → Option Argument} (path : List Nat) (d d' : Defect)
    (h : BadAt Bad find path d) (h' : BadAt Bad find path d') : d = d' := by
  obtain ⟨a, ha, hd⟩ := h
  obtain ⟨b, hb, hd'⟩ := h'
  have hsame : a = b := by simpa [ha] using hb
  exact hbad a d d' hd (hsame ▸ hd')

theorem Argument.badAt_literal {value : Literal} :
    BadAt Bad (literal value).at? path defect ↔ path = [] ∧ Bad (literal value) defect := by
  cases path <;> simp [BadAt]

/-- An operation is bad itself, or one of its arguments is. -/
theorem Argument.badAt_nested {name : String} {arguments : List Argument} :
    BadAt Bad (nested name arguments).at? path defect ↔
      path = [] ∧ Bad (nested name arguments) defect ∨
        FaultFrom (fun a => BadAt Bad a.at?) 0 arguments path defect := by
  cases path with
  | nil => simp [BadAt, FaultFrom]
  | cons position path =>
      simp only [BadAt, FaultFrom, at?_nested_cons, Option.bind_eq_some_iff, Nat.zero_add]
      constructor
      · rintro ⟨b, ⟨a, ha, hat⟩, hbad⟩
        exact Or.inr ⟨position, a, path, ha, ⟨b, hat, hbad⟩, rfl⟩
      · rintro (⟨hnil, _⟩ | ⟨i, a, below, ha, ⟨b, hat, hbad⟩, hpath⟩)
        · cases hnil
        · obtain ⟨rfl, rfl⟩ := List.cons.inj hpath
          exact ⟨b, ⟨a, ha, hat⟩, hbad⟩

theorem Document.badAt_iff {document : Document} :
    BadAt Bad document.at? path defect ↔
      FaultFrom (fun e => BadAt Bad (Argument.ofExpression e).at?) 0 document path defect := by
  cases path with
  | nil => simp [BadAt, FaultFrom, at?]
  | cons index path =>
      simp only [BadAt, FaultFrom, at?, Option.bind_eq_some_iff, Nat.zero_add]
      constructor
      · rintro ⟨b, ⟨e, he, hat⟩, hbad⟩
        exact ⟨index, e, path, he, ⟨b, hat, hbad⟩, rfl⟩
      · rintro ⟨i, e, below, he, ⟨b, hat, hbad⟩, hpath⟩
        obtain ⟨rfl, rfl⟩ := List.cons.inj hpath
        exact ⟨b, ⟨e, he, hat⟩, hbad⟩

end

end RuleGraph
