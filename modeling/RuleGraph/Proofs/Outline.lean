import Mathlib.Data.List.Nodup
import RuleGraph.Expression

/-!
# Outlines

An operation inside an argument or a document is found again by its path: the positions that lead to
it. `Argument.at?` follows a path; `operations` lists the operations with their paths, depth first
and left to right, and `wires` lists the nested ones by the path of their parent and their position
there. The two lists show the same operations: each path occurs once, and the wires end in all
operations but the outermost.
-/

namespace RuleGraph

namespace Argument

/-- Induction over the arguments of operations, all of them at once. -/
@[elab_as_elim, induction_eliminator]
theorem induct {motive : Argument → Prop} (literal : ∀ value, motive (.literal value))
    (nested : ∀ name arguments, (∀ a ∈ arguments, motive a) → motive (.nested name arguments))
    (a : Argument) : motive a :=
  match a with
  | .literal value => literal value
  | .nested name arguments => nested name arguments fun a _ => induct literal nested a

/-- The argument at the end of a path. -/
def at? : Argument → List Nat → Option Argument
  | a, [] => some a
  | .literal _, _ :: _ => none
  | .nested _ arguments, position :: path =>
    match arguments[position]? with
    | none => none
    | some a => a.at? path

@[simp] theorem at?_nil (a : Argument) : a.at? [] = some a := by
  cases a <;> rfl

@[simp] theorem at?_literal_cons (value : Literal) (position : Nat) (path : List Nat) :
    (literal value).at? (position :: path) = none :=
  rfl

theorem at?_nested_cons (name : String) (arguments : List Argument) (position : Nat)
    (path : List Nat) :
    (nested name arguments).at? (position :: path) =
      arguments[position]?.bind fun a => a.at? path := by
  rw [at?]
  cases arguments[position]? <;> rfl

theorem at?_append (a : Argument) (path rest : List Nat) :
    a.at? (path ++ rest) = (a.at? path).bind fun b => b.at? rest := by
  induction path generalizing a with
  | nil => simp
  | cons position path ih =>
      cases a with
      | literal value => rfl
      | nested name arguments =>
          rw [List.cons_append, at?_nested_cons, at?_nested_cons, Option.bind_assoc]
          cases arguments[position]? with
          | none => rfl
          | some a => exact ih a

/-- One step further down is the argument at a position of an operation. -/
theorem at?_concat_eq_some {a b : Argument} {path : List Nat} {position : Nat}
    (h : a.at? (path ++ [position]) = some b) :
    ∃ e : Expression, a.at? path = some (ofExpression e) ∧ e.arguments[position]? = some b := by
  rw [at?_append] at h
  obtain ⟨parent, hparent, hb⟩ := Option.bind_eq_some_iff.mp h
  cases parent with
  | literal value => cases hb
  | nested name arguments =>
      rw [at?_nested_cons] at hb
      exact ⟨⟨name, arguments⟩, hparent, by simpa using hb⟩

/-! ## The operations of an argument -/

mutual

/-- The operations in an argument with their paths, outermost first and left to right. -/
def operations : Argument → List (List Nat × Expression)
  | .literal _ => []
  | .nested name arguments => ([], ⟨name, arguments⟩) :: operationsFrom 0 arguments

def operationsFrom (position : Nat) : List Argument → List (List Nat × Expression)
  | [] => []
  | a :: rest =>
    a.operations.map (fun entry => (position :: entry.1, entry.2)) ++
      operationsFrom (position + 1) rest

end

mutual

/-- The nested operations in an argument, each as the path of its parent and its position there. -/
def wires : Argument → List (List Nat × Nat)
  | .literal _ => []
  | .nested _ arguments => wiresFrom 0 arguments

def wiresFrom (position : Nat) : List Argument → List (List Nat × Nat)
  | [] => []
  | .literal _ :: rest => wiresFrom (position + 1) rest
  | a :: rest =>
    a.wires.map (fun wire => (position :: wire.1, wire.2)) ++
      ([], position) :: wiresFrom (position + 1) rest

end

theorem mem_operationsFrom {position : Nat} {arguments : List Argument}
    {entry : List Nat × Expression} :
    entry ∈ operationsFrom position arguments ↔
      ∃ i a path, arguments[i]? = some a ∧ (path, entry.2) ∈ a.operations ∧
        entry.1 = (position + i) :: path := by
  induction arguments generalizing position with
  | nil => simp [operationsFrom]
  | cons first rest ih =>
      rw [operationsFrom, List.mem_append, List.mem_map, ih]
      constructor
      · rintro (⟨found, hfound, rfl⟩ | ⟨i, a, path, ha, hmem, hentry⟩)
        · exact ⟨0, first, found.1, rfl, hfound, rfl⟩
        · exact ⟨i + 1, a, path, by simpa using ha, hmem, by rw [hentry]; congr 1; omega⟩
      · rintro ⟨i, a, path, ha, hmem, hentry⟩
        cases i with
        | zero =>
            rw [List.getElem?_cons_zero, Option.some.injEq] at ha
            exact Or.inl ⟨(path, entry.2), ha ▸ hmem, Prod.ext hentry.symm rfl⟩
        | succ i =>
            refine Or.inr ⟨i, a, path, by simpa using ha, hmem, ?_⟩
            rw [hentry]
            congr 1
            omega

theorem mem_operations {a : Argument} {path : List Nat} {e : Expression} :
    (path, e) ∈ a.operations ↔ a.at? path = some (ofExpression e) := by
  induction a generalizing path e with
  | literal value => cases path <;> simp [operations, ofExpression]
  | nested name arguments ih =>
      rw [operations, List.mem_cons, mem_operationsFrom]
      cases path with
      | nil =>
          obtain ⟨name', arguments'⟩ := e
          simp [ofExpression, eq_comm]
      | cons position path =>
          rw [at?_nested_cons, Option.bind_eq_some_iff]
          constructor
          · rintro (h | ⟨i, a, below, ha, hmem, hpath⟩)
            · cases (Prod.mk.inj h).1
            · rw [Nat.zero_add] at hpath
              obtain ⟨rfl, rfl⟩ := List.cons.inj hpath
              exact ⟨a, ha, (ih a (List.mem_of_getElem? ha)).mp hmem⟩
          · rintro ⟨a, ha, hat⟩
            refine Or.inr ⟨position, a, path, ha, (ih a (List.mem_of_getElem? ha)).mpr hat, ?_⟩
            rw [Nat.zero_add]

theorem nodup_operationsFrom {arguments : List Argument} (position : Nat)
    (h : ∀ a ∈ arguments, (a.operations.map Prod.fst).Nodup) :
    ((operationsFrom position arguments).map Prod.fst).Nodup := by
  induction arguments generalizing position with
  | nil => exact List.nodup_nil
  | cons first rest ih =>
      rw [operationsFrom, List.map_append, List.map_map]
      refine List.Nodup.append ?_ (ih _ fun a ha => h a (List.mem_cons_of_mem _ ha)) ?_
      · have hfirst := (h first List.mem_cons_self).map (List.cons_injective (a := position))
        rwa [List.map_map] at hfirst
      · intro path hleft hright
        obtain ⟨entry, _, rfl⟩ := List.mem_map.mp hleft
        obtain ⟨other, hother, hpath⟩ := List.mem_map.mp hright
        obtain ⟨i, _, _, _, _, hfst⟩ := mem_operationsFrom.mp hother
        rw [hfst] at hpath
        have hposition := (List.cons.inj hpath).1
        omega

theorem nodup_operations (a : Argument) : (a.operations.map Prod.fst).Nodup := by
  induction a with
  | literal value => exact List.nodup_nil
  | nested name arguments ih =>
      rw [operations, List.map_cons, List.nodup_cons]
      refine ⟨?_, nodup_operationsFrom 0 ih⟩
      intro hmem
      obtain ⟨entry, hentry, hnil⟩ := List.mem_map.mp hmem
      obtain ⟨_, _, _, _, _, hfst⟩ := mem_operationsFrom.mp hentry
      rw [hfst] at hnil
      cases hnil

/-! ## The wires of an argument -/

/-- The path of the operation that a wire ends in. -/
def wireEnd (wire : List Nat × Nat) : List Nat :=
  wire.1 ++ [wire.2]

theorem wireEnd_injective : Function.Injective wireEnd := by
  intro wire other h
  obtain ⟨hpath, hposition⟩ := List.append_inj' h rfl
  exact Prod.ext hpath (List.cons.inj hposition).1

theorem map_wireEnd_cons (position : Nat) (wires : List (List Nat × Nat)) :
    (wires.map fun wire => (position :: wire.1, wire.2)).map wireEnd =
      (wires.map wireEnd).map (position :: ·) := by
  rw [List.map_map, List.map_map]
  rfl

theorem map_fst_cons (position : Nat) (operations : List (List Nat × Expression)) :
    (operations.map fun entry => (position :: entry.1, entry.2)).map Prod.fst =
      (operations.map Prod.fst).map (position :: ·) := by
  rw [List.map_map, List.map_map]
  rfl

/-- The operations that the wires below an argument end in, with the argument itself if it is an
operation, are all its operations. -/
def WiresComplete (a : Argument) : Prop :=
  match a with
  | .literal _ => a.operations = [] ∧ a.wires = []
  | .nested _ _ => (a.operations.map Prod.fst).Perm ([] :: a.wires.map wireEnd)

theorem wiresFrom_nested (position : Nat) (name : String) (arguments rest : List Argument) :
    wiresFrom position (nested name arguments :: rest) =
      (nested name arguments).wires.map (fun wire => (position :: wire.1, wire.2)) ++
        ([], position) :: wiresFrom (position + 1) rest :=
  rfl

theorem wiresFrom_perm {arguments : List Argument} (position : Nat)
    (h : ∀ a ∈ arguments, a.WiresComplete) :
    ((operationsFrom position arguments).map Prod.fst).Perm
      ((wiresFrom position arguments).map wireEnd) := by
  induction arguments generalizing position with
  | nil => exact List.Perm.refl _
  | cons first rest ih =>
      have hrest := ih (position + 1) fun a ha => h a (List.mem_cons_of_mem _ ha)
      have hfirst := h first List.mem_cons_self
      cases first with
      | literal value =>
          rw [operationsFrom, hfirst.1]
          exact hrest
      | nested name arguments =>
          rw [operationsFrom, wiresFrom_nested, List.map_append, List.map_append, map_fst_cons,
            map_wireEnd_cons, List.map_cons]
          have hmoved := hfirst.map (position :: ·)
          rw [List.map_cons] at hmoved
          exact ((hmoved.append hrest).trans List.perm_middle.symm)

theorem wiresComplete (a : Argument) : a.WiresComplete := by
  induction a with
  | literal value => exact ⟨rfl, rfl⟩
  | nested name arguments ih =>
      rw [WiresComplete, operations, wires, List.map_cons]
      exact (wiresFrom_perm 0 ih).cons _

theorem mem_wires {a : Argument} {path : List Nat} {position : Nat} :
    (path, position) ∈ a.wires ↔
      ∃ e, a.at? (path ++ [position]) = some (ofExpression e) := by
  cases a with
  | literal value =>
      constructor
      · intro h
        cases h
      · rintro ⟨e, he⟩
        cases path <;> cases he
  | nested name arguments =>
      have hperm := wiresComplete (.nested name arguments)
      have hmem := hperm.mem_iff (a := path ++ [position])
      rw [List.mem_cons, show path ++ [position] = wireEnd (path, position) from rfl,
        List.mem_map_of_injective wireEnd_injective] at hmem
      constructor
      · intro hwire
        obtain ⟨entry, hentry, hpath⟩ := List.mem_map.mp (hmem.mpr (Or.inr hwire))
        refine ⟨entry.2, mem_operations.mp ?_⟩
        have hends : entry.1 = path ++ [position] := hpath
        rw [← hends]
        exact hentry
      · rintro ⟨e, he⟩
        rcases hmem.mp (List.mem_map.mpr ⟨_, mem_operations.mpr he, rfl⟩) with hnil | hwire
        · simp [wireEnd] at hnil
        · exact hwire

/-! ## Depth -/

theorem depth_le_depthAll {arguments : List Argument} {a : Argument} (h : a ∈ arguments) :
    a.depth ≤ depthAll arguments := by
  induction arguments with
  | nil => cases h
  | cons first rest ih =>
      rw [depthAll]
      rcases List.mem_cons.mp h with rfl | hrest
      · exact Nat.le_max_left _ _
      · exact Nat.le_trans (ih hrest) (Nat.le_max_right _ _)

theorem depth_lt_of_getElem? {name : String} {arguments : List Argument} {i : Nat} {a : Argument}
    (h : arguments[i]? = some a) : a.depth < (nested name arguments).depth := by
  have hle := depth_le_depthAll (List.mem_of_getElem? h)
  rw [depth]
  omega

theorem depth_le_operationsFrom {arguments : List Argument} (position : Nat)
    (h : ∀ a ∈ arguments, a.depth ≤ a.operations.length) :
    depthAll arguments ≤ (operationsFrom position arguments).length := by
  induction arguments generalizing position with
  | nil => exact Nat.le_refl _
  | cons first rest ih =>
      have hfirst := h first List.mem_cons_self
      have hrest := ih (position + 1) fun a ha => h a (List.mem_cons_of_mem _ ha)
      rw [depthAll, operationsFrom, List.length_append, List.length_map]
      omega

/-- A chain of operations is no longer than the list of all operations. -/
theorem depth_le_operations (a : Argument) : a.depth ≤ a.operations.length := by
  induction a with
  | literal value => exact Nat.le_refl _
  | nested name arguments ih =>
      have hbelow := depth_le_operationsFrom 0 ih
      rw [depth, operations, List.length_cons]
      omega

end Argument

/-! ## Documents -/

namespace Document

open Argument

/-- The argument at the end of a path: the index of a top-level expression, then positions. -/
def at? (document : Document) : List Nat → Option Argument
  | [] => none
  | index :: path => document[index]?.bind fun e => (ofExpression e).at? path

def operations (document : Document) : List (List Nat × Expression) :=
  operationsFrom 0 (document.map ofExpression)

def wiresFrom (index : Nat) : Document → List (List Nat × Nat)
  | [] => []
  | e :: rest =>
    (ofExpression e).wires.map (fun wire => (index :: wire.1, wire.2)) ++
      wiresFrom (index + 1) rest

def wires (document : Document) : List (List Nat × Nat) :=
  wiresFrom 0 document

theorem mem_operations {document : Document} {path : List Nat} {e : Expression} :
    (path, e) ∈ document.operations ↔ document.at? path = some (ofExpression e) := by
  rw [operations, mem_operationsFrom]
  cases path with
  | nil => simp [at?]
  | cons index path =>
      rw [at?, Option.bind_eq_some_iff]
      constructor
      · rintro ⟨i, a, below, ha, hmem, hpath⟩
        rw [Nat.zero_add] at hpath
        obtain ⟨rfl, rfl⟩ := List.cons.inj hpath
        rw [List.getElem?_map, Option.map_eq_some_iff] at ha
        obtain ⟨top, htop, rfl⟩ := ha
        exact ⟨top, htop, Argument.mem_operations.mp hmem⟩
      · rintro ⟨top, htop, hat⟩
        refine ⟨index, ofExpression top, path, ?_, Argument.mem_operations.mpr hat, ?_⟩
        · rw [List.getElem?_map, htop]
          rfl
        · rw [Nat.zero_add]

theorem nodup_operations (document : Document) : (document.operations.map Prod.fst).Nodup :=
  nodup_operationsFrom 0 fun a _ => Argument.nodup_operations a

theorem wiresFrom_sublist (index : Nat) (document : Document) :
    (wiresFrom index document).Sublist
      (Argument.wiresFrom index (document.map ofExpression)) := by
  induction document generalizing index with
  | nil => exact List.Sublist.slnil
  | cons e rest ih =>
      rw [wiresFrom, List.map_cons, ofExpression, wiresFrom_nested]
      exact (List.Sublist.refl _).append ((ih _).cons _)

theorem nodup_map_wireEnd (document : Document) : (document.wires.map wireEnd).Nodup := by
  have hperm : (document.operations.map Prod.fst).Perm
      ((Argument.wiresFrom 0 (document.map ofExpression)).map wireEnd) :=
    wiresFrom_perm 0 fun a _ => wiresComplete a
  exact (hperm.nodup document.nodup_operations).sublist ((wiresFrom_sublist 0 document).map _)

theorem mem_wiresFrom {index : Nat} {document : Document} {path : List Nat} {position : Nat} :
    (path, position) ∈ wiresFrom index document ↔
      ∃ i e below, document[i]? = some e ∧ (below, position) ∈ (ofExpression e).wires ∧
        path = (index + i) :: below := by
  induction document generalizing index with
  | nil => simp [wiresFrom]
  | cons first rest ih =>
      rw [wiresFrom, List.mem_append, List.mem_map, ih]
      constructor
      · rintro (⟨wire, hwire, hpath⟩ | ⟨i, e, below, he, hmem, rfl⟩)
        · obtain ⟨rfl, rfl⟩ := Prod.mk.inj hpath
          exact ⟨0, first, wire.1, rfl, hwire, rfl⟩
        · exact ⟨i + 1, e, below, he, hmem, by congr 1; omega⟩
      · rintro ⟨i, e, below, he, hmem, rfl⟩
        cases i with
        | zero =>
            rw [List.getElem?_cons_zero, Option.some.injEq] at he
            exact Or.inl ⟨(below, position), he ▸ hmem, rfl⟩
        | succ i => exact Or.inr ⟨i, e, below, he, hmem, by congr 1; omega⟩

theorem mem_wires {document : Document} {path : List Nat} {position : Nat} :
    (path, position) ∈ document.wires ↔
      path ≠ [] ∧ ∃ e, document.at? (path ++ [position]) = some (ofExpression e) := by
  rw [wires, mem_wiresFrom]
  cases path with
  | nil => simp
  | cons index path =>
      rw [List.cons_append, at?]
      constructor
      · rintro ⟨i, top, below, htop, hmem, hpath⟩
        rw [Nat.zero_add] at hpath
        obtain ⟨rfl, rfl⟩ := List.cons.inj hpath
        obtain ⟨e, he⟩ := Argument.mem_wires.mp hmem
        exact ⟨List.cons_ne_nil _ _, e, Option.bind_eq_some_iff.mpr ⟨top, htop, he⟩⟩
      · rintro ⟨_, e, he⟩
        obtain ⟨top, htop, hat⟩ := Option.bind_eq_some_iff.mp he
        refine ⟨index, top, path, htop, Argument.mem_wires.mpr ⟨e, hat⟩, ?_⟩
        rw [Nat.zero_add]

theorem ne_nil_of_at? {document : Document} {path : List Nat} {a : Argument}
    (h : document.at? path = some a) : document ≠ [] := by
  rintro rfl
  cases path <;> cases h

/-- A path that leads on from an argument is one of that argument. -/
theorem at?_append {document : Document} {path : List Nat} {a : Argument}
    (h : document.at? path = some a) (below : List Nat) :
    document.at? (path ++ below) = a.at? below := by
  cases path with
  | nil => cases h
  | cons index path =>
      obtain ⟨top, htop, hat⟩ := Option.bind_eq_some_iff.mp h
      rw [List.cons_append, at?, htop, Option.bind_some, Argument.at?_append, hat,
        Option.bind_some]

/-- One step further down is the argument at a position of an operation. -/
theorem at?_concat_eq_some {document : Document} {path : List Nat} {position : Nat} {b : Argument}
    (hpath : path ≠ []) (h : document.at? (path ++ [position]) = some b) :
    ∃ e : Expression, document.at? path = some (ofExpression e) ∧
      e.arguments[position]? = some b := by
  cases path with
  | nil => exact absurd rfl hpath
  | cons index path =>
      rw [List.cons_append, at?] at h
      obtain ⟨top, htop, hb⟩ := Option.bind_eq_some_iff.mp h
      obtain ⟨e, he, hargument⟩ := Argument.at?_concat_eq_some hb
      refine ⟨e, ?_, hargument⟩
      rw [at?, htop]
      exact he

theorem at?_concat {document : Document} {path : List Nat} {e : Expression}
    (h : document.at? path = some (ofExpression e)) (position : Nat) :
    document.at? (path ++ [position]) = e.arguments[position]? := by
  rw [at?_append h, ofExpression, at?_nested_cons]
  simp

end Document

end RuleGraph
