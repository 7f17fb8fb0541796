import RuleGraph.Layout
import RuleGraph.Proofs.Ids
import RuleGraph.Proofs.Outline

/-!
# Drawings

What a layout draws, measures aside: a node for each operation, in the order of the outline, under
the id of its path, and an edge for each nested operation, from the node of its parent at its
position there. Where the boxes stand plays no part in this.
-/

namespace RuleGraph

def Placement.spot {α : Type} (placement : Placement α) : String × Expression :=
  (placement.id, placement.expression)

def spotBelow (base : String) (entry : List Nat × Expression) : String × Expression :=
  (idBelow base entry.1, entry.2)

/-- The edge of a nested operation that is drawn below a node. -/
def wireBelow (base : String) (wire : List Nat × Nat) : Edge :=
  Edge.link (idBelow base wire.1) wire.2 (idBelow base (Argument.wireEnd wire))

theorem map_spotBelow_cons (base : String) (position : Nat)
    (operations : List (List Nat × Expression)) :
    (operations.map fun entry => (position :: entry.1, entry.2)).map (spotBelow base) =
      operations.map (spotBelow (childId base position)) := by
  rw [List.map_map]
  rfl

theorem map_wireBelow_cons (base : String) (position : Nat) (wires : List (List Nat × Nat)) :
    (wires.map fun wire => (position :: wire.1, wire.2)).map (wireBelow base) =
      wires.map (wireBelow (childId base position)) := by
  rw [List.map_map]
  rfl

/-- A subtree shows operations and the edges between them. -/
structure Subtree.Shows {α : Type} (subtree : Subtree α) (spots : List (String × Expression))
    (edges : List Edge) : Prop where
  spots_eq : subtree.placements.map Placement.spot = spots
  edges_eq : subtree.edges = edges

namespace Layout

variable {α : Type} [Scalar α] (layout : Layout α)

/-! ## Arguments -/

theorem placeArguments_shows {arguments : List Argument}
    (h : ∀ a ∈ arguments, ∀ id anchor,
      (layout.placeArgument id anchor a).Shows (a.operations.map (spotBelow id))
        (a.wires.map (wireBelow id)))
    (parent : String) (column y : α) (position : Nat) :
    (layout.placeArguments parent column y position arguments).Shows
      ((Argument.operationsFrom position arguments).map (spotBelow parent))
      ((Argument.wiresFrom position arguments).map (wireBelow parent)) := by
  induction arguments generalizing y position with
  | nil => exact ⟨rfl, rfl⟩
  | cons first rest ih =>
      have hrest := ih fun a ha => h a (List.mem_cons_of_mem _ ha)
      cases first with
      | literal value => exact hrest y (position + 1)
      | nested name arguments =>
          have hfirst := h _ List.mem_cons_self (childId parent position) ⟨column, y⟩
          have htail := hrest (layout.bottom (layout.placeArgument (childId parent position)
            ⟨column, y⟩ (.nested name arguments)).placements + layout.config.verticalPadding)
            (position + 1)
          constructor
          · rw [Argument.operationsFrom, List.map_append, map_spotBelow_cons, ← hfirst.spots_eq,
              ← htail.spots_eq, ← List.map_append]
            rfl
          · rw [Argument.wiresFrom_nested, List.map_append, map_wireBelow_cons, List.map_cons,
              ← hfirst.edges_eq, ← htail.edges_eq]
            rfl

/-- An argument is drawn as its outline says, wherever it is anchored. -/
theorem placeArgument_shows (a : Argument) (id : String) (anchor : Position α) :
    (layout.placeArgument id anchor a).Shows (a.operations.map (spotBelow id))
      (a.wires.map (wireBelow id)) := by
  induction a generalizing id anchor with
  | literal value => exact ⟨rfl, rfl⟩
  | nested name arguments ih =>
      have hbelow := layout.placeArguments_shows ih id
        (anchor.x + (layout.size ⟨name, arguments⟩).width + layout.config.horizontalPadding)
        anchor.y 0
      constructor
      · rw [Argument.operations, List.map_cons, ← hbelow.spots_eq]
        rfl
      · rw [Argument.wires, ← hbelow.edges_eq]
        rfl

/-! ## Documents -/

theorem placeAll_shows (document : Document) (y : α) (index : Nat) :
    (layout.placeAll y index document).Shows
      ((Argument.operationsFrom index (document.map Argument.ofExpression)).map (spotBelow rootId))
      ((Document.wiresFrom index document).map (wireBelow rootId)) := by
  induction document generalizing y index with
  | nil => exact ⟨rfl, rfl⟩
  | cons e rest ih =>
      have hfirst := layout.placeArgument_shows (.ofExpression e) (childId rootId index)
        ⟨layout.config.origin.x, y⟩
      have htail := ih (layout.bottom (layout.place (childId rootId index)
        ⟨layout.config.origin.x, y⟩ e).placements + layout.config.verticalPadding) (index + 1)
      constructor
      · rw [List.map_cons, Argument.operationsFrom, List.map_append, map_spotBelow_cons,
          ← hfirst.spots_eq, ← htail.spots_eq, ← List.map_append]
        rfl
      · rw [Document.wiresFrom, List.map_append, map_wireBelow_cons, ← hfirst.edges_eq,
          ← htail.edges_eq]
        rfl

/-- The node of an operation, at some place and under some key. -/
def Draws (spot : String × Expression) (node : Node α) : Prop :=
  ∃ key position, node = Node.ofExpression layout.registry layout.config spot.1 key spot.2 position

theorem mem_nodes {keys : Nat → Key} {placements : List (Placement α)} {node : Node α}
    (h : node ∈ layout.nodes keys placements) :
    ∃ spot ∈ placements.map Placement.spot, layout.Draws spot node := by
  obtain ⟨entry, hentry, rfl⟩ := List.mem_map.mp h
  have hplacement := List.mem_zipIdx hentry
  refine ⟨entry.1.spot, List.mem_map_of_mem ?_, keys entry.2, entry.1.position, rfl⟩
  rw [hplacement.2.2]
  exact List.getElem_mem _

theorem exists_node_of_mem {placement : Placement α} {placements : List (Placement α)}
    (h : placement ∈ placements) (keys : Nat → Key) :
    ∃ key, layout.node placement key ∈ layout.nodes keys placements := by
  obtain ⟨i, hi⟩ := List.mem_iff_getElem?.mp h
  have hentry : (placement, i) ∈ placements.zipIdx := List.mem_zipIdx_iff_getElem?.mpr hi
  exact ⟨keys i, List.mem_map_of_mem hentry⟩

theorem exists_mem_nodes (keys : Nat → Key) {placements : List (Placement α)}
    {spot : String × Expression} (h : spot ∈ placements.map Placement.spot) :
    ∃ node ∈ layout.nodes keys placements, layout.Draws spot node := by
  obtain ⟨placement, hmem, rfl⟩ := List.mem_map.mp h
  obtain ⟨key, hnode⟩ := layout.exists_node_of_mem hmem keys
  exact ⟨_, hnode, key, placement.position, rfl⟩

theorem map_id_nodes (keys : Nat → Key) (placements : List (Placement α)) :
    (layout.nodes keys placements).map Node.id =
      (placements.map Placement.spot).map Prod.fst := by
  rw [nodes, List.map_map, List.map_map]
  calc placements.zipIdx.map (Node.id ∘ fun entry => layout.node entry.1 (keys entry.2))
      = (placements.zipIdx.map Prod.fst).map Placement.id := by rw [List.map_map]; rfl
    _ = placements.map (Prod.fst ∘ Placement.spot) := by rw [List.zipIdx_map_fst]; rfl

variable {layout}

theorem document_of_ne_nil {document : Document} (h : document ≠ []) (keys : Nat → Key) :
    layout.document keys document =
      ⟨layout.nodes keys (layout.placeAll layout.config.origin.y 0 document).placements,
        (layout.placeAll layout.config.origin.y 0 document).edges,
        (List.range document.length).map (childId rootId)⟩ := by
  cases document with
  | nil => exact absurd rfl h
  | cons e rest => rfl

theorem edges_document (layout : Layout α) (keys : Nat → Key) (document : Document) :
    (layout.document keys document).edges = document.wires.map (wireBelow rootId) := by
  by_cases hempty : document = []
  · subst hempty
    rfl
  · rw [document_of_ne_nil hempty]
    exact (layout.placeAll_shows document _ 0).edges_eq

theorem roots_document (layout : Layout α) (keys : Nat → Key) (document : Document) :
    (layout.document keys document).roots =
      (List.range document.length).map (childId rootId) := by
  cases document <;> rfl

theorem mem_roots_document {keys : Nat → Key} {document : Document} {root : String} :
    root ∈ (layout.document keys document).roots ↔
      ∃ index < document.length, root = idOfPath [index] := by
  rw [roots_document, List.mem_map]
  constructor
  · intro h
    obtain ⟨index, hindex, hroot⟩ := h
    exact ⟨index, List.mem_range.mp hindex, hroot.symm⟩
  · intro h
    obtain ⟨index, hindex, hroot⟩ := h
    exact ⟨index, List.mem_range.mpr hindex, hroot.symm⟩

theorem spots_placeAll (layout : Layout α) (document : Document) (y : α) :
    (layout.placeAll y 0 document).placements.map Placement.spot =
      document.operations.map (spotBelow rootId) :=
  (layout.placeAll_shows document y 0).spots_eq

theorem mem_nodes_document {keys : Nat → Key} {document : Document} (h : document ≠ [])
    {node : Node α} (hnode : node ∈ (layout.document keys document).nodes) :
    ∃ path e, document.at? path = some (.ofExpression e) ∧
      layout.Draws (idOfPath path, e) node := by
  rw [document_of_ne_nil h] at hnode
  obtain ⟨spot, hspot, hdraws⟩ := layout.mem_nodes hnode
  rw [spots_placeAll] at hspot
  obtain ⟨entry, hentry, rfl⟩ := List.mem_map.mp hspot
  exact ⟨entry.1, entry.2, Document.mem_operations.mp hentry, hdraws⟩

theorem exists_mem_nodes_document (layout : Layout α) (keys : Nat → Key) {document : Document}
    {path : List Nat} {e : Expression} (h : document.at? path = some (.ofExpression e)) :
    ∃ node ∈ (layout.document keys document).nodes, layout.Draws (idOfPath path, e) node := by
  rw [document_of_ne_nil (Document.ne_nil_of_at? h)]
  apply layout.exists_mem_nodes
  rw [spots_placeAll]
  exact List.mem_map.mpr ⟨(path, e), Document.mem_operations.mpr h, rfl⟩

theorem length_nodes_document (layout : Layout α) (keys : Nat → Key) {document : Document}
    (h : document ≠ []) :
    (layout.document keys document).nodes.length = document.operations.length := by
  have hspots := congrArg List.length (layout.spots_placeAll document layout.config.origin.y)
  rw [List.length_map, List.length_map] at hspots
  rw [document_of_ne_nil h, length_nodes, hspots]

theorem exists_path_of_mem_nodes_document {keys : Nat → Key} {document : Document} {node : Node α}
    (hnode : node ∈ (layout.document keys document).nodes) : ∃ path, node.id = idOfPath path := by
  by_cases hempty : document = []
  · subst hempty
    refine ⟨[], ?_⟩
    rw [List.mem_singleton.mp hnode]
    rfl
  · obtain ⟨path, e, _, key, position, rfl⟩ := mem_nodes_document hempty hnode
    exact ⟨path, rfl⟩

theorem map_id_document (layout : Layout α) (keys : Nat → Key) {document : Document}
    (h : document ≠ []) :
    (layout.document keys document).nodes.map Node.id =
      document.operations.map fun entry => idOfPath entry.1 := by
  rw [document_of_ne_nil h, map_id_nodes, spots_placeAll, List.map_map]
  rfl

theorem nodup_ids_document (layout : Layout α) (keys : Nat → Key) (document : Document) :
    ((layout.document keys document).nodes.map Node.id).Nodup := by
  by_cases hempty : document = []
  · subst hempty
    exact List.nodup_singleton _
  · rw [map_id_document layout keys hempty]
    have hpaths := document.nodup_operations.map fun _ _ h => idOfPath_inj.mp h
    rwa [List.map_map] at hpaths

/-- A single expression is drawn as the document that holds nothing else. -/
theorem single_eq_document (layout : Layout α) (keys : Nat → Key) (e : Expression) :
    layout.single keys e = layout.document keys [e] := by
  simp [single, document, placeAll]

end Layout

end RuleGraph
