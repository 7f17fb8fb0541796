import RuleGraph.Proofs.Positions

/-!
# Why nodes are not rebuilt

Where the unfolding of a node comes from when it is an error: from the node itself, from the node of
an edge, from a position that is empty and must not be, or from a gap.
-/

namespace RuleGraph

namespace Graph

variable {α : Type} {graph : Graph α}

/-- A gap is reported: an empty position before a filled one. -/
theorem settlePositions_eq_error {node : Node α} {positions : List (Option Unfolding)}
    {e : RebuildError} (h : GraphIndex.settlePositions node positions = .error e) :
    ∃ gap later u, gap < later ∧ positions[gap]? = some none ∧
      positions[later]? = some (some u) ∧ e = node.missingSlot gap := by
  unfold GraphIndex.settlePositions at h
  dsimp only at h
  split at h
  · rename_i gap hgap
    cases h
    obtain ⟨hlength, hempty, _⟩ := List.findIdx?_eq_some_iff_getElem.mp hgap
    have hnone : (dropTrailingEmpty positions)[gap]? = some none := by
      rw [List.getElem?_eq_getElem hlength, Option.isNone_iff_eq_none.mp hempty]
    obtain ⟨later, u, hlater, hfilled⟩ := exists_filled_of_dropTrailingEmpty hnone
    obtain ⟨count, hpositions⟩ := dropTrailingEmpty_append positions
    have hkept : ∀ (i : Nat) (entry : Option Unfolding),
        (dropTrailingEmpty positions)[i]? = some entry → positions[i]? = some entry := by
      intro i entry hentry
      rw [hpositions, List.getElem?_append_left (List.getElem?_eq_some_iff.mp hentry).1]
      exact hentry
    exact ⟨gap, later, u, hlater, hkept gap none hnone, hkept later (some u) hfilled, rfl⟩
  · cases h

theorem fillPosition_eq_error {unfold : Node α → Except RebuildError Unfolding} {node : Node α}
    {inline : List (Option Literal)} {position : Nat} {e : RebuildError} :
    graph.index.fillPosition unfold node inline position = .error e ↔
      (∃ edge, graph.lastEdgeFrom? node.id position = some edge ∧
        (graph.lastNode? edge.target = none ∧ e = .nodeNotFound edge.target node.id ∨
          ∃ target, graph.lastNode? edge.target = some target ∧ unfold target = .error e)) ∨
      (graph.lastEdgeFrom? node.id position = none ∧
        (∀ value, inline[position]? ≠ some (some value)) ∧
        (∃ slot, node.slot? position = some slot ∧ slot.required = true) ∧
        e = node.missingSlot position) := by
  unfold GraphIndex.fillPosition
  rw [index_edgeFrom?]
  cases hedge : graph.lastEdgeFrom? node.id position with
  | some edge =>
      dsimp only
      rw [index_node?]
      cases htarget : graph.lastNode? edge.target with
      | none => simp [htarget, @eq_comm _ e]
      | some target =>
          cases hunfold : unfold target with
          | error e' => simp [htarget, hunfold, Except.map]
          | ok v => simp [htarget, hunfold, Except.map]
  | none =>
      dsimp only
      split
      · rename_i value hvalue
        simp [hvalue]
      · rename_i hunwritten
        cases hslot : node.slot? position with
        | none => simp
        | some slot =>
            cases hrequired : slot.required with
            | false => simp [hrequired]
            | true =>
                have hempty : ∀ value, inline[position]? ≠ some (some value) := hunwritten
                simp [hrequired, hempty, @eq_comm _ e]

theorem unfold_operation_eq_error {fuel : Nat} {above : List String} {path : List Nat}
    {node : Node α} {name : String} {inline : List (Option Literal)} {e : RebuildError}
    (hcontent : node.content = .operation name inline)
    (h : graph.index.unfold (fuel + 1) above path node = .error e) :
    (node.id ∈ above ∧ e = .cyclicGraph node.id (node.id :: above).reverse) ∨
      node.id ∉ above ∧ (name = "" ∧ e = .unnamedOperation node.id ∨
        overflows node.slots inline = true ∧ e = .overflow node.id ∨
        (∃ i < argumentCount node.slots inline, graph.index.fillPosition
          (graph.index.unfold fuel (node.id :: above) (path ++ [i])) node inline i = .error e) ∨
        ∃ gap later u, gap < later ∧ later < argumentCount node.slots inline ∧
          graph.Vacant node inline gap ∧
          graph.index.fillPosition (graph.index.unfold fuel (node.id :: above) (path ++ [later]))
            node inline later = .ok (some u) ∧
          e = node.missingSlot gap) := by
  rw [GraphIndex.unfold, hcontent] at h
  dsimp only at h
  split at h
  · rename_i habove
    cases h
    exact Or.inl ⟨habove, rfl⟩
  · rename_i habove
    refine Or.inr ⟨habove, ?_⟩
    split at h
    · rename_i hname
      cases h
      exact Or.inl ⟨hname, rfl⟩
    · split at h
      · rename_i hoverflows
        cases h
        exact Or.inr (Or.inl ⟨hoverflows, rfl⟩)
      · rcases bind_eq_error.mp h with hpositions | ⟨positions, hpositions, hrest⟩
        · obtain ⟨i, hi, _, hfails⟩ := mapM_range_eq_error_iff.mp hpositions
          exact Or.inr (Or.inr (Or.inl ⟨i, hi, hfails⟩))
        · rcases bind_eq_error.mp hrest with hsettle | ⟨_, _, hpure⟩
          · obtain ⟨gap, later, u, hlater, hempty, hfilled, hreport⟩ :=
              settlePositions_eq_error hsettle
            obtain ⟨hlength, hall⟩ := mapM_range_eq_ok.mp hpositions
            have hcount := (List.getElem?_eq_some_iff.mp hfilled).1
            rw [hlength] at hcount
            exact Or.inr (Or.inr (Or.inr ⟨gap, later, u, hlater, hcount,
              fillPosition_eq_none.mp (hall gap none hempty), hall later (some u) hfilled,
              hreport⟩))
          · cases hpure

theorem isConstant_of_expression?_eq_none {fuel : Nat} {above : List String} {path : List Nat}
    {node : Node α} {u : Unfolding} (h : graph.index.unfold fuel above path node = .ok u)
    (hliteral : u.argument.expression? = none) : node.content.isConstant = true := by
  cases hcontent : node.content with
  | constant value => rfl
  | operation name inline =>
      cases fuel with
      | zero => cases h
      | succ fuel =>
          obtain ⟨_, _, _, filled, _, _, _, rfl⟩ := (unfold_operation_eq_ok hcontent).mp h
          cases hliteral

theorem unfoldRoot_eq_error {fuel : Nat} {id : String} {path : List Nat} {e : RebuildError} :
    graph.index.unfoldRoot fuel id path = .error e ↔
      (graph.lastNode? id = none ∧ e = .nodeNotFound id "<root>") ∨
      ∃ node, graph.lastNode? id = some node ∧
        (node.content.isConstant = true ∧ e = .constantRoot id ∨
          node.content.isConstant = false ∧ graph.index.unfold fuel [] path node = .error e) := by
  rw [GraphIndex.unfoldRoot, index_node?]
  cases hnode : graph.lastNode? id with
  | none => simp [@eq_comm _ e]
  | some node =>
      cases hconstant : node.content.isConstant with
      | true => simp [hconstant, @eq_comm _ e]
      | false =>
          have hrest : ∀ u, graph.index.unfold fuel [] path node = .ok u →
              u.argument.expression? ≠ none := by
            intro u hunfold hliteral
            have hcontent := isConstant_of_expression?_eq_none hunfold hliteral
            rw [hconstant] at hcontent
            cases hcontent
          cases hunfold : graph.index.unfold fuel [] path node with
          | error e' => simp [hconstant, hunfold, bind, Except.bind]
          | ok u =>
              obtain ⟨expression, hexpression⟩ :=
                Option.ne_none_iff_exists'.mp (hrest u hunfold)
              simp [hconstant, hunfold, bind, Except.bind, hexpression]

theorem rebuild_eq_error_iff {id : String} {e : RebuildError} :
    graph.rebuild id = .error e ↔ graph.index.unfoldRoot graph.nestingBound id [] = .error e := by
  rw [rebuild]
  cases graph.index.unfoldRoot graph.nestingBound id [] <;> simp [Except.map]

end Graph

end RuleGraph
