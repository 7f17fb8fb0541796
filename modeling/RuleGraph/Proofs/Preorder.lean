import Mathlib.Algebra.GroupWithZero.Nat
import RuleGraph.Proofs.Computations
import RuleGraph.Proofs.Names
import RuleGraph.Proofs.Wiring
import RuleGraph.Registry.Standard

/-!
# Drawings in preorder

A drawing lists the operations of its document depth first and left to right: the paths of its nodes
increase lexically, and they are the paths of all operations. Its edges are the nested operations,
and its roots the top-level ones. This holds for all measures, doubles included: where the boxes
stand plays no part in it.
-/

namespace RuleGraph

namespace Argument

/-! ## The order of the outline -/

theorem pairwise_operationsFrom {arguments : List Argument} (position : Nat)
    (h : ∀ a ∈ arguments, (a.operations.map Prod.fst).Pairwise (· < ·)) :
    ((operationsFrom position arguments).map Prod.fst).Pairwise (· < ·) := by
  induction arguments generalizing position with
  | nil => exact List.Pairwise.nil
  | cons first rest ih =>
      rw [operationsFrom, List.map_append, map_fst_cons, List.pairwise_append]
      refine ⟨?_, ih _ fun a ha => h a (List.mem_cons_of_mem _ ha), ?_⟩
      · exact List.pairwise_map.mpr ((h first List.mem_cons_self).imp List.Lex.cons)
      · intro path hpath other hother
        obtain ⟨below, _, rfl⟩ := List.mem_map.mp hpath
        obtain ⟨entry, hentry, rfl⟩ := List.mem_map.mp hother
        obtain ⟨i, _, _, _, _, hlater⟩ := mem_operationsFrom.mp hentry
        rw [hlater]
        exact List.Lex.rel (by omega)

theorem pairwise_operations (a : Argument) : (a.operations.map Prod.fst).Pairwise (· < ·) := by
  induction a with
  | literal value => exact List.Pairwise.nil
  | nested name arguments ih =>
      rw [operations, List.map_cons, List.pairwise_cons]
      refine ⟨?_, pairwise_operationsFrom 0 ih⟩
      intro path hpath
      obtain ⟨entry, hentry, rfl⟩ := List.mem_map.mp hpath
      obtain ⟨_, _, _, _, _, hbelow⟩ := mem_operationsFrom.mp hentry
      rw [hbelow]
      exact List.Lex.nil

/-! ## The number of operations -/

theorem nodeCountAll_eq {arguments : List Argument} (position : Nat)
    (h : ∀ a ∈ arguments, a.nodeCount = a.operations.length) :
    nodeCountAll arguments = (operationsFrom position arguments).length := by
  induction arguments generalizing position with
  | nil => rfl
  | cons first rest ih =>
      rw [nodeCountAll, operationsFrom, List.length_append, List.length_map,
        h first List.mem_cons_self, ih (position + 1) fun a ha => h a (List.mem_cons_of_mem _ ha)]

theorem nodeCount_eq (a : Argument) : a.nodeCount = a.operations.length := by
  induction a with
  | literal value => rfl
  | nested name arguments ih =>
      rw [nodeCount, operations, List.length_cons, nodeCountAll_eq 0 ih, Nat.add_comm]

end Argument

namespace Document

theorem pairwise_operations (document : Document) :
    (document.operations.map Prod.fst).Pairwise (· < ·) :=
  Argument.pairwise_operationsFrom 0 fun a _ => a.pairwise_operations

theorem namesAll_ofExpression (document : Document) :
    Argument.namesAll (document.map Argument.ofExpression) = document.flatMap Expression.names := by
  induction document with
  | nil => rfl
  | cons e rest ih =>
      rw [List.map_cons, Argument.namesAll, List.flatMap_cons, ih]
      rfl

theorem map_name_operations (document : Document) :
    document.operations.map (fun entry => entry.2.name) = document.flatMap Expression.names := by
  rw [← namesAll_ofExpression, operations]
  exact (Argument.namesAll_eq 0 fun a _ => a.names_eq).symm

theorem nodeCountAll_ofExpression (document : Document) :
    Argument.nodeCountAll (document.map Argument.ofExpression) =
      (document.map Expression.nodeCount).sum := by
  induction document with
  | nil => rfl
  | cons e rest ih =>
      rw [List.map_cons, Argument.nodeCountAll, List.map_cons, List.sum_cons, ih]
      rfl

theorem length_operations (document : Document) :
    document.operations.length = (document.map Expression.nodeCount).sum := by
  rw [← nodeCountAll_ofExpression, operations]
  exact (Argument.nodeCountAll_eq 0 fun a _ => a.nodeCount_eq).symm

end Document

/-! ## Drawings -/

section

variable {α : Type}

/-- The node shows the operation at a path: under the id of the path, with the name of the operation
and, at each position, the literal that is the argument there. -/
structure Node.ShowsAt (node : Node α) (path : List Nat) (e : Expression) : Prop where
  id_eq : node.id = idOfPath path
  content_eq : node.content = .operation e.name (e.arguments.map Argument.literal?)

/-- The graph lists the operations of a document, outermost first and left to right, and its edges
are the nested operations. -/
structure Graph.IsPreorderOf (graph : Graph α) (document : Document) : Prop where
  /-- The nodes stand in the lexical order of their paths. -/
  depth_first : graph.nodes.Pairwise fun a b =>
    ∃ path other, a.id = idOfPath path ∧ b.id = idOfPath other ∧ path < other
  shown : ∀ path e, document.at? path = some (.ofExpression e) →
    ∃ node ∈ graph.nodes, node.ShowsAt path e
  shows_only : ∀ node ∈ graph.nodes, ∃ path e, document.at? path = some (.ofExpression e) ∧
    node.ShowsAt path e
  nodup_ids : (graph.nodes.map Node.id).Nodup
  names : graph.nodes.map Node.name? = (document.flatMap Expression.names).map some
  count : graph.nodes.length = (document.map Expression.nodeCount).sum
  nodup_edges : graph.edges.Nodup
  /-- There is an edge for each nested operation, and there are no others. -/
  mem_edges : ∀ edge, edge ∈ graph.edges ↔ ∃ path parent position child,
    document.at? path = some (.ofExpression parent) ∧ (position, child) ∈ parent.nested ∧
      edge = Edge.link (idOfPath path) position (childId (idOfPath path) position)
  /-- Every edge leaves a node through a slot that the node has. -/
  slots : ∀ edge ∈ graph.edges, ∃ node ∈ graph.nodes, node.id = edge.source ∧
    (node.slot? edge.slot).isSome = true
  roots : graph.roots = (List.range document.length).map fun index => idOfPath [index]

end

namespace Layout

variable {α : Type} [Scalar α]

/-- The nodes of a drawing show the operations of the outline, one after another. -/
theorem forall₂_nodes_document (layout : Layout α) (keys : Nat → Key) {document : Document}
    (h : document ≠ []) :
    List.Forall₂ (fun entry node => Node.ShowsAt node entry.1 entry.2) document.operations
      (layout.document keys document).nodes := by
  have hspots := layout.spots_placeAll document layout.config.origin.y
  rw [← List.forall₂_eq_eq_eq, List.forall₂_map_left_iff, List.forall₂_map_right_iff,
    ← List.zipIdx_map_fst 0 (layout.placeAll _ 0 document).placements,
    List.forall₂_map_left_iff] at hspots
  rw [document_of_ne_nil h, nodes, List.forall₂_map_right_iff]
  refine hspots.flip.imp ?_
  intro entry placed hspot
  obtain ⟨hid, hexpression⟩ := Prod.mk.inj hspot
  refine ⟨hid, ?_⟩
  rw [← hexpression]
  rfl

theorem mem_edges_document_iff {layout : Layout α} {keys : Nat → Key} {document : Document}
    {edge : Edge} :
    edge ∈ (layout.document keys document).edges ↔ ∃ path parent position child,
      document.at? path = some (.ofExpression parent) ∧ (position, child) ∈ parent.nested ∧
        edge = Edge.link (idOfPath path) position (childId (idOfPath path) position) := by
  rw [edges_document, List.mem_map]
  constructor
  · rintro ⟨⟨path, position⟩, hwire, rfl⟩
    obtain ⟨parent, child, hparent, hchild, _⟩ := Graph.ends_of_mem_wires hwire
    refine ⟨path, parent, position, child, hparent, Expression.mem_nested.mpr hchild, ?_⟩
    rw [← idOfPath_concat]
    rfl
  · rintro ⟨path, parent, position, child, hparent, hchild, rfl⟩
    have hne : path ≠ [] := by
      rintro rfl
      cases hparent
    have hat := (Document.at?_concat hparent position).trans (Expression.mem_nested.mp hchild)
    refine ⟨(path, position), Document.mem_wires.mpr ⟨hne, child, hat⟩, ?_⟩
    rw [← idOfPath_concat]
    rfl

/-- A drawing is its document in preorder. -/
theorem document_preorder (layout : Layout α) (keys : Nat → Key) {document : Document}
    (h : document ≠ []) : (layout.document keys document).IsPreorderOf document := by
  have hnodes := layout.forall₂_nodes_document keys h
  have hwired := Graph.wellWired_document layout keys document
  constructor
  · have hids := layout.map_id_document keys h
    have hsorted : ((layout.document keys document).nodes.map Node.id).Pairwise fun a b =>
        ∃ path other, a = idOfPath path ∧ b = idOfPath other ∧ path < other := by
      rw [hids, List.pairwise_map]
      exact (List.pairwise_map.mp document.pairwise_operations).imp
        fun hlt => ⟨_, _, rfl, rfl, hlt⟩
    exact List.pairwise_map.mp hsorted
  · intro path e hat
    exact exists_of_forall₂ hnodes.flip _ (Document.mem_operations.mpr hat)
  · intro node hnode
    obtain ⟨entry, hentry, hshows⟩ := exists_of_forall₂ hnodes node hnode
    exact ⟨entry.1, entry.2, Document.mem_operations.mp hentry, hshows⟩
  · exact hwired.nodup_nodes
  · rw [← document.map_name_operations, List.map_map, ← List.forall₂_eq_eq_eq,
      List.forall₂_map_left_iff, List.forall₂_map_right_iff]
    refine hnodes.flip.imp ?_
    intro node entry hshows
    rw [Node.name?, hshows.content_eq]
    rfl
  · rw [← hnodes.length_eq, document.length_operations]
  · exact hwired.nodup_outlets.of_map
  · exact fun _ => mem_edges_document_iff
  · intro edge hedge
    obtain ⟨node, hnode, hid, _, hslot⟩ := hwired.source_mem edge hedge
    exact ⟨node, hnode, hid, hslot⟩
  · exact roots_document layout keys document

/-- An operation that no registry knows, with a nested one behind a literal, and one more behind it.
-/
def branching : Document :=
  [⟨"IF", [.nested "custom" [.literal (.text "key"), .nested "not" []], .literal (.text "yes"),
    .nested "and" []]⟩, ⟨"or", []⟩]

/-- The nested operations of the first expression come before the second one. -/
theorem preorder_branching :
    let graph := (⟨Registry.standard, LayoutConfig.standard⟩ : Layout Float).document Key.ofNat
      branching
    branching ≠ [] ∧ graph.IsPreorderOf branching ∧
      graph.nodes.map Node.id = ["root.0", "root.0.0", "root.0.0.1", "root.0.2", "root.1"] ∧
      graph.edges.map Edge.id = ["root.0.0-1", "root.0-0", "root.0-2"] :=
  ⟨List.cons_ne_nil _ _, document_preorder _ Key.ofNat (List.cons_ne_nil _ _), rfl, rfl⟩

end Layout

end RuleGraph
