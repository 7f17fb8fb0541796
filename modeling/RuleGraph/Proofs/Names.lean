import RuleGraph.Proofs.Outline

/-!
# Operations without a name

The first operation without a name, depth first and left to right, is what a rebuilt drawing
reports.
-/

namespace RuleGraph

namespace Argument

/-- The path of the first operation without a name. -/
def firstUnnamed? (a : Argument) : Option (List Nat) :=
  (a.operations.find? fun entry => entry.2.name == "").map Prod.fst

def firstUnnamedFrom? (position : Nat) (arguments : List Argument) : Option (List Nat) :=
  ((operationsFrom position arguments).find? fun entry => entry.2.name == "").map Prod.fst

theorem firstUnnamed?_unnamed (arguments : List Argument) :
    (nested "" arguments).firstUnnamed? = some [] :=
  rfl

theorem firstUnnamed?_named {name : String} (h : name ≠ "") (arguments : List Argument) :
    (nested name arguments).firstUnnamed? = firstUnnamedFrom? 0 arguments := by
  rw [firstUnnamed?, operations, List.find?_cons_of_neg (by simpa using h)]
  rfl

theorem firstUnnamedFrom?_cons (position : Nat) (a : Argument) (rest : List Argument) :
    firstUnnamedFrom? position (a :: rest) =
      (a.firstUnnamed?.map (position :: ·)).or (firstUnnamedFrom? (position + 1) rest) := by
  rw [firstUnnamedFrom?, operationsFrom, List.find?_append, List.find?_map, Option.map_or]
  congr 1
  rw [firstUnnamed?, Option.map_map, Option.map_map]
  rfl

theorem namesAll_eq_of_sameAll {xs ys : List Argument}
    (hnames : ∀ x ∈ xs, ∀ y, x.same y = true → x.names = y.names) (h : sameAll xs ys = true) :
    namesAll xs = namesAll ys := by
  induction xs generalizing ys with
  | nil =>
      cases ys with
      | nil => rfl
      | cons y ys => cases h
  | cons x xs ih =>
      cases ys with
      | nil => cases h
      | cons y ys =>
          rw [sameAll, Bool.and_eq_true] at h
          rw [namesAll, namesAll, hnames x List.mem_cons_self y h.1,
            ih (fun z hz => hnames z (List.mem_cons_of_mem _ hz)) h.2]

/-- Equal arguments have the same operations, whatever their numbers are. -/
theorem names_eq_of_same {a b : Argument} (h : a.same b = true) : a.names = b.names := by
  induction a using induct generalizing b with
  | literal value =>
      cases b with
      | literal other => rfl
      | nested name arguments => cases h
  | nested name arguments ih =>
      cases b with
      | literal value => cases h
      | nested other operands =>
          rw [same, Bool.and_eq_true, beq_iff_eq] at h
          rw [names, names, h.1, namesAll_eq_of_sameAll (fun x hx _ hsame => ih x hx hsame) h.2]

/-- Either all arguments are named throughout, or one of them is the first that is not. -/
theorem firstUnnamedFrom?_cases (position : Nat) (arguments : List Argument) :
    (firstUnnamedFrom? position arguments = none ∧ ∀ a ∈ arguments, a.firstUnnamed? = none) ∨
      ∃ i a path, arguments[i]? = some a ∧ a.firstUnnamed? = some path ∧
        (∀ j b, j < i → arguments[j]? = some b → b.firstUnnamed? = none) ∧
        firstUnnamedFrom? position arguments = some ((position + i) :: path) := by
  induction arguments generalizing position with
  | nil => exact Or.inl ⟨rfl, fun _ ha => absurd ha List.not_mem_nil⟩
  | cons first rest ih =>
      rw [firstUnnamedFrom?_cons]
      cases hfirst : first.firstUnnamed? with
      | some path =>
          refine Or.inr ⟨0, first, path, rfl, hfirst, ?_, rfl⟩
          intro j b hj
          omega
      | none =>
          rw [Option.map_none, Option.none_or]
          rcases ih (position + 1) with ⟨hnone, hall⟩ | ⟨i, a, path, ha, hpath, hbefore, hfound⟩
          · exact Or.inl ⟨hnone, List.forall_mem_cons.mpr ⟨hfirst, hall⟩⟩
          · refine Or.inr ⟨i + 1, a, path, ha, hpath, ?_, ?_⟩
            · intro j b hj hb
              cases j with
              | zero =>
                  rw [List.getElem?_cons_zero, Option.some.injEq] at hb
                  rw [← hb]
                  exact hfirst
              | succ j => exact hbefore j b (by omega) hb
            · rw [hfound]
              congr 2
              omega

theorem firstUnnamed?_of_firstUnnamedFrom? {position : Nat} {arguments : List Argument}
    (h : firstUnnamedFrom? position arguments = none) :
    ∀ a ∈ arguments, a.firstUnnamed? = none := by
  rcases firstUnnamedFrom?_cases position arguments with ⟨_, hall⟩ | ⟨_, _, _, _, _, _, hfound⟩
  · exact hall
  · cases h.symm.trans hfound

theorem mem_namesAll {arguments : List Argument} {name : String} :
    name ∈ namesAll arguments ↔ ∃ a ∈ arguments, name ∈ a.names := by
  induction arguments with
  | nil => simp [namesAll]
  | cons first rest ih => simp [namesAll, ih]

theorem namesAll_eq {arguments : List Argument} (position : Nat)
    (h : ∀ a ∈ arguments, a.names = a.operations.map fun entry => entry.2.name) :
    namesAll arguments = (operationsFrom position arguments).map fun entry => entry.2.name := by
  induction arguments generalizing position with
  | nil => rfl
  | cons first rest ih =>
      rw [namesAll, operationsFrom, List.map_append, List.map_map, h first List.mem_cons_self,
        ih (position + 1) fun a ha => h a (List.mem_cons_of_mem _ ha)]
      rfl

theorem names_eq (a : Argument) : a.names = a.operations.map fun entry => entry.2.name := by
  induction a with
  | literal value => rfl
  | nested name arguments ih =>
      rw [names, operations, List.map_cons, namesAll_eq 0 ih]

end Argument

def Document.firstUnnamed? (document : Document) : Option (List Nat) :=
  (document.operations.find? fun entry => entry.2.name == "").map Prod.fst

/-- There is none exactly if every name in the document is nonempty. -/
theorem Document.firstUnnamed?_eq_none_iff {document : Document} :
    document.firstUnnamed? = none ↔ ∀ e ∈ document, "" ∉ e.names := by
  have hnames : Argument.namesAll (document.map Argument.ofExpression) =
      document.operations.map fun entry => entry.2.name :=
    Argument.namesAll_eq 0 fun a _ => a.names_eq
  have hmem : "" ∉ Argument.namesAll (document.map Argument.ofExpression) ↔
      ∀ e ∈ document, "" ∉ e.names := by
    clear hnames
    induction document with
    | nil => simp [Argument.namesAll]
    | cons e rest ih =>
        rw [List.map_cons, Argument.namesAll, List.mem_append, not_or, ih, List.forall_mem_cons]
        rfl
  rw [← hmem, hnames, firstUnnamed?, Option.map_eq_none_iff, List.find?_eq_none]
  simp

theorem Document.names_eq_of_same {es fs : Document} (h : Document.same es fs = true) :
    es.map Expression.names = fs.map Expression.names := by
  induction es generalizing fs with
  | nil =>
      cases fs with
      | nil => rfl
      | cons f fs => cases h
  | cons e es ih =>
      cases fs with
      | nil => cases h
      | cons f fs =>
          rw [Document.same, Bool.and_eq_true] at h
          have hfirst : (Argument.ofExpression e).names = (Argument.ofExpression f).names :=
            Argument.names_eq_of_same h.1
          exact List.cons_eq_cons.mpr ⟨hfirst, ih h.2⟩

end RuleGraph
