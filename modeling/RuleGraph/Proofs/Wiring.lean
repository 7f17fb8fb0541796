import RuleGraph.Proofs.Nodes

/-!
# Well-wired graphs

`Graph.WellWired` is what a session keeps true of every graph it shows or can go back to. Drawings
are well wired because ids tell paths apart. Each edit checks a part of it and relies on the rest.
-/

namespace RuleGraph

namespace Graph

variable {α : Type} {graph next : Graph α}

/-- Nodes have one id each, slots and nodes take part in one edge each, edges are named by their
slot and lead from a slot of an operation to a node, and the roots are different operations. -/
structure WellWired (graph : Graph α) : Prop where
  nodup_nodes : (graph.nodes.map Node.id).Nodup
  edge_id : ∀ edge ∈ graph.edges, edge.id = edgeId edge.source edge.slot
  nodup_edges : (graph.edges.map Edge.id).Nodup
  nodup_outlets : (graph.edges.map outlet).Nodup
  nodup_targets : (graph.edges.map Edge.target).Nodup
  source_mem : ∀ edge ∈ graph.edges, ∃ node ∈ graph.nodes, node.id = edge.source ∧
    node.content.isConstant = false ∧ (node.slot? edge.slot).isSome = true
  target_mem : ∀ edge ∈ graph.edges, ∃ node ∈ graph.nodes, node.id = edge.target
  nodup_roots : graph.roots.Nodup
  root_mem : ∀ root ∈ graph.roots, ∃ node ∈ graph.nodes, node.id = root ∧
    node.content.isConstant = false

/-- Values that tell apart what other values tell apart are not repeated either. -/
theorem nodup_map_of_refines {β γ δ : Type} {f : β → γ} {g : β → δ} {entries : List β}
    (h : (entries.map f).Nodup)
    (hg : ∀ x ∈ entries, ∀ y ∈ entries, g x = g y → f x = f y) : (entries.map g).Nodup := by
  rw [List.Nodup, List.pairwise_map] at h ⊢
  refine h.imp_of_mem ?_
  intro x y hx hy hne heq
  exact hne (hg x hx y hy heq)

theorem nodup_map_id {edges : List Edge}
    (hid : ∀ edge ∈ edges, edge.id = edgeId edge.source edge.slot)
    (h : (edges.map outlet).Nodup) : (edges.map Edge.id).Nodup := by
  have hnames : edges.map Edge.id = (edges.map outlet).map fun o => edgeId o.1 o.2 := by
    rw [List.map_map]
    exact List.map_congr_left hid
  rw [hnames]
  apply h.map
  intro o p heq
  obtain ⟨hsource, hslot⟩ := edgeId_inj.mp heq
  exact Prod.ext hsource hslot

/-! ## Edits -/

/-- The other node can take the place of the node in every edge, and as a root. -/
structure Serves (node other : Node α) : Prop where
  id_eq : other.id = node.id
  slots_eq : other.slots = node.slots
  isConstant_eq : other.content.isConstant = node.content.isConstant

theorem Serves.refl (node : Node α) : Serves node node :=
  ⟨rfl, rfl, rfl⟩

/-- The graph mentions the id: as the end of an edge or as a root. -/
def Mentions (graph : Graph α) (id : String) : Prop :=
  (∃ edge ∈ graph.edges, edge.source = id ∨ edge.target = id) ∨ id ∈ graph.roots

/-- A graph stays well wired when edges and roots are taken away, and each node that is mentioned
still has a node in its place. -/
theorem WellWired.of_sublist (h : graph.WellWired) (hnodes : (next.nodes.map Node.id).Nodup)
    (hedges : next.edges.Sublist graph.edges) (hroots : next.roots.Sublist graph.roots)
    (hserved : ∀ node ∈ graph.nodes, next.Mentions node.id →
      ∃ other ∈ next.nodes, Serves node other) :
    next.WellWired where
  nodup_nodes := hnodes
  edge_id := fun edge hedge => h.edge_id edge (hedges.subset hedge)
  nodup_edges := h.nodup_edges.sublist (hedges.map _)
  nodup_outlets := h.nodup_outlets.sublist (hedges.map _)
  nodup_targets := h.nodup_targets.sublist (hedges.map _)
  source_mem := by
    intro edge hedge
    obtain ⟨node, hnode, hid, hoperation, hslot⟩ := h.source_mem edge (hedges.subset hedge)
    obtain ⟨other, hother, hserves⟩ := hserved node hnode (Or.inl ⟨edge, hedge, Or.inl hid.symm⟩)
    refine ⟨other, hother, hserves.id_eq.trans hid, hserves.isConstant_eq.trans hoperation, ?_⟩
    rw [Node.slot?, hserves.slots_eq]
    exact hslot
  target_mem := by
    intro edge hedge
    obtain ⟨node, hnode, hid⟩ := h.target_mem edge (hedges.subset hedge)
    obtain ⟨other, hother, hserves⟩ := hserved node hnode (Or.inl ⟨edge, hedge, Or.inr hid.symm⟩)
    exact ⟨other, hother, hserves.id_eq.trans hid⟩
  nodup_roots := h.nodup_roots.sublist hroots
  root_mem := by
    intro root hroot
    obtain ⟨node, hnode, hid, hoperation⟩ := h.root_mem root (hroots.subset hroot)
    obtain ⟨other, hother, hserves⟩ := hserved node hnode (Or.inr (hid.symm ▸ hroot))
    exact ⟨other, hother, hserves.id_eq.trans hid, hserves.isConstant_eq.trans hoperation⟩

theorem WellWired.disconnect (h : graph.WellWired) (id : String) :
    (graph.disconnect id).WellWired :=
  h.of_sublist h.nodup_nodes List.filter_sublist (List.Sublist.refl _)
    fun node hnode _ => ⟨node, hnode, .refl node⟩

theorem WellWired.removeRoot (h : graph.WellWired) (id : String) :
    (graph.removeRoot id).WellWired :=
  h.of_sublist h.nodup_nodes (List.Sublist.refl _) List.filter_sublist
    fun node hnode _ => ⟨node, hnode, .refl node⟩

/-- Whatever ids are kept, only edges between them and roots among them may be left. -/
theorem WellWired.restrict (h : graph.WellWired) (keep : String → Bool) {roots : List String}
    (hroots : roots.Sublist graph.roots) (hkept : ∀ root ∈ roots, keep root = true) :
    WellWired (α := α) ⟨graph.nodes.filter fun node => keep node.id,
      graph.edges.filter fun edge => keep edge.source && keep edge.target, roots⟩ := by
  refine h.of_sublist (h.nodup_nodes.sublist (List.filter_sublist.map _)) List.filter_sublist
    hroots ?_
  intro node hnode hmentions
  refine ⟨node, List.mem_filter.mpr ⟨hnode, ?_⟩, .refl node⟩
  rcases hmentions with ⟨edge, hedge, hend⟩ | hroot
  · have hboth := (List.mem_filter.mp hedge).2
    rw [Bool.and_eq_true] at hboth
    rcases hend with hsource | htarget
    · exact hsource ▸ hboth.1
    · exact htarget ▸ hboth.2
  · exact hkept node.id hroot

theorem WellWired.without (h : graph.WellWired) (removed : List String) :
    (graph.without removed).WellWired :=
  h.restrict (fun id => !removed.contains id) List.filter_sublist
    fun _ hroot => (List.mem_filter.mp hroot).2

theorem WellWired.replaceNode (h : graph.WellWired) {id : String} {node changed : Node α}
    (hnode : graph.node? id = some node) (hserves : Serves node changed) :
    (graph.replaceNode id changed).WellWired := by
  have hid : node.id = id := (mem_of_node? hnode).2
  refine h.of_sublist ?_ (List.Sublist.refl _) (List.Sublist.refl _) ?_
  · rw [Graph.replaceNode, map_replaceFirst]
    · exact h.nodup_nodes
    · intro entry hentry
      rw [hserves.id_eq, hid]
      exact (mem_of_node? hentry).2
  · intro other hother _
    rcases mem_replaceFirst_of_mem hother with hkept | ⟨hfound, hmem⟩
    · exact ⟨other, hkept, .refl other⟩
    · have hsame : other = node := Option.some.inj (hfound.symm.trans hnode)
      exact ⟨changed, hmem, hsame ▸ hserves⟩

theorem WellWired.addNode (h : graph.WellWired) {node : Node α}
    (hadd : graph.addNode node = .ok next) : next.WellWired := by
  obtain ⟨hfree, _, rfl⟩ := addNode_eq_ok hadd
  refine h.of_sublist ?_ (List.Sublist.refl _) (List.Sublist.refl _) ?_
  · rw [List.map_append, List.map_singleton]
    refine List.Nodup.append h.nodup_nodes (List.nodup_singleton _) ?_
    intro id hid hnew
    obtain ⟨other, hother, rfl⟩ := List.mem_map.mp hid
    exact node?_eq_none_iff.mp hfree other hother (List.mem_singleton.mp hnew)
  · intro other hother _
    exact ⟨other, List.mem_append_left _ hother, .refl other⟩

theorem roots_plug_sublist (graph : Graph α) (source : String) (slot : Nat) (target : String) :
    (graph.plug source slot target).roots.Sublist graph.roots := by
  unfold plug
  dsimp only
  split
  · exact List.Sublist.refl _
  · exact List.filter_sublist

/-- A plug needs a free slot, and a node that is not plugged in. That the node with the slot is an
operation is not checked: it has a slot. -/
theorem WellWired.connect (h : graph.WellWired)
    (hbare : ∀ node ∈ graph.nodes, node.content.isConstant = true → node.slots = [])
    {source target : String} {slot : Nat} (hconnect : graph.connect source slot target = .ok next) :
    next.WellWired := by
  obtain ⟨node, hnode, htarget, hslot, hfree, hunplugged, rfl⟩ := connect_eq_ok hconnect
  obtain ⟨hmem, hid⟩ := mem_of_node? hnode
  have hedgeId : ∀ edge ∈ (graph.plug source slot target).edges,
      edge.id = edgeId edge.source edge.slot := by
    intro edge hedge
    rcases List.mem_append.mp hedge with hold | hnew
    · exact h.edge_id edge hold
    · rw [List.mem_singleton.mp hnew]
      rfl
  have houtlets : ((graph.plug source slot target).edges.map outlet).Nodup := by
    rw [plug, List.map_append, List.map_singleton]
    refine List.Nodup.append h.nodup_outlets (List.nodup_singleton _) ?_
    intro o hold hnew
    obtain ⟨edge, hedge, rfl⟩ := List.mem_map.mp hold
    obtain ⟨hsource, hsame⟩ := Prod.mk.inj (List.mem_singleton.mp hnew)
    exact edgeFrom?_eq_none_iff.mp hfree edge hedge hsource hsame
  refine ⟨h.nodup_nodes, hedgeId, nodup_map_id hedgeId houtlets, houtlets, ?_, ?_, ?_, ?_, ?_⟩
  · rw [plug, List.map_append, List.map_singleton]
    refine List.Nodup.append h.nodup_targets (List.nodup_singleton _) ?_
    intro id hold hnew
    obtain ⟨edge, hedge, rfl⟩ := List.mem_map.mp hold
    exact incoming?_eq_none_iff.mp hunplugged edge hedge (List.mem_singleton.mp hnew)
  · intro edge hedge
    rcases List.mem_append.mp hedge with hold | hnew
    · exact h.source_mem edge hold
    · rw [List.mem_singleton.mp hnew]
      refine ⟨node, hmem, hid, ?_, hslot⟩
      by_contra hconstant
      have hslots := hbare node hmem (by simpa using hconstant)
      rw [Node.slot?, hslots] at hslot
      cases hslot
  · intro edge hedge
    rcases List.mem_append.mp hedge with hold | hnew
    · exact h.target_mem edge hold
    · rw [List.mem_singleton.mp hnew]
      obtain ⟨other, hother⟩ := Option.isSome_iff_exists.mp htarget
      exact ⟨other, mem_of_node? hother⟩
  · exact h.nodup_roots.sublist (roots_plug_sublist graph source slot target)
  · intro root hroot
    exact h.root_mem root ((roots_plug_sublist graph source slot target).subset hroot)

theorem WellWired.addRoot (h : graph.WellWired) {id : String}
    (hadd : graph.addRoot id = .ok next) : next.WellWired := by
  obtain ⟨node, hnode, hoperation, _, rfl⟩ := addRoot_eq_ok hadd
  split
  · exact h
  · rename_i hnew
    refine ⟨h.nodup_nodes, h.edge_id, h.nodup_edges, h.nodup_outlets, h.nodup_targets,
      h.source_mem, h.target_mem, ?_, ?_⟩
    · refine List.Nodup.append h.nodup_roots (List.nodup_singleton _) ?_
      intro root hroot hid
      rw [List.mem_singleton.mp hid] at hroot
      exact hnew (isRoot_iff.mpr hroot)
    · intro root hroot
      rcases List.mem_append.mp hroot with hold | hid
      · exact h.root_mem root hold
      · rw [List.mem_singleton.mp hid]
        obtain ⟨hmem, hsame⟩ := mem_of_node? hnode
        exact ⟨node, hmem, hsame, hoperation⟩

/-- Every granted edit keeps a graph well wired. -/
theorem WellWired.run {graph next : Graph Float} (h : graph.WellWired) {layout : Layout Float}
    (hmade : graph.AllMade layout) {freshId : String} {freshKey : Key} {op : EditOp}
    (hrun : op.run layout freshId freshKey graph = .ok next) : next.WellWired := by
  cases op with
  | connect source slot target =>
      exact h.connect (fun node hnode => (hmade node hnode).slots_of_constant) hrun
  | disconnect edge =>
      cases hrun
      exact h.disconnect edge
  | deleteNode id =>
      obtain ⟨_, _, rfl⟩ := deleteNode_eq_ok hrun
      exact h.without _
  | addNode kind position id => exact h.addNode hrun
  | addOperationNode name position id => exact h.addNode hrun
  | addConstantNode value position id => exact h.addNode hrun
  | moveNode id position =>
      obtain ⟨node, hnode, rfl⟩ := moveNode_eq_ok hrun
      exact h.replaceNode hnode ⟨rfl, rfl, rfl⟩
  | setInlineValue id index value =>
      obtain ⟨node, changed, hnode, _, hchanged, rfl⟩ := setInline_eq_ok hrun
      obtain ⟨kind, content, rfl, hconstant⟩ := Node.setInline?_eq_some hchanged
      exact h.replaceNode hnode ⟨rfl, rfl, hconstant⟩
  | addRoot id => exact h.addRoot hrun
  | removeRoot id =>
      cases hrun
      exact h.removeRoot id

/-! ## Drawings -/

theorem nodup_wires (document : Document) : document.wires.Nodup :=
  document.nodup_map_wireEnd.of_map

theorem ends_of_mem_wires {document : Document} {wire : List Nat × Nat}
    (h : wire ∈ document.wires) :
    ∃ parent child : Expression, document.at? wire.1 = some (.ofExpression parent) ∧
      parent.arguments[wire.2]? = some (.ofExpression child) ∧
      document.at? (Argument.wireEnd wire) = some (.ofExpression child) := by
  obtain ⟨hpath, child, hchild⟩ := Document.mem_wires.mp h
  obtain ⟨parent, hparent, hargument⟩ := Document.at?_concat_eq_some hpath hchild
  exact ⟨parent, child, hparent, hargument, hchild⟩

theorem wellWired_document [Scalar α] (layout : Layout α) (keys : Nat → Key) (document : Document) :
    (layout.document keys document).WellWired := by
  have hedgeId : ∀ edge ∈ (layout.document keys document).edges,
      edge.id = edgeId edge.source edge.slot := by
    intro edge hedge
    rw [Layout.edges_document] at hedge
    obtain ⟨wire, _, rfl⟩ := List.mem_map.mp hedge
    rfl
  have houtlets : ((layout.document keys document).edges.map outlet).Nodup := by
    rw [Layout.edges_document, List.map_map]
    apply (nodup_wires document).map
    intro wire other heq
    obtain ⟨hsource, hslot⟩ := Prod.mk.inj heq
    exact Prod.ext (idOfPath_inj.mp hsource) hslot
  refine ⟨layout.nodup_ids_document keys document, hedgeId, nodup_map_id hedgeId houtlets, houtlets,
    ?_, ?_, ?_, ?_, ?_⟩
  · rw [Layout.edges_document, List.map_map]
    have hends := document.nodup_map_wireEnd.map fun _ _ heq => idOfPath_inj.mp heq
    rwa [List.map_map] at hends
  · intro edge hedge
    rw [Layout.edges_document] at hedge
    obtain ⟨wire, hwire, rfl⟩ := List.mem_map.mp hedge
    obtain ⟨parent, child, hparent, hargument, _⟩ := ends_of_mem_wires hwire
    obtain ⟨node, hnode, key, position, rfl⟩ := layout.exists_mem_nodes_document keys hparent
    obtain ⟨slot, hslot, hindex⟩ := Expression.exists_slot layout.registry hargument
    refine ⟨_, hnode, rfl, rfl, ?_⟩
    have hfound : ((Node.ofExpression layout.registry layout.config (idOfPath wire.1) key parent
        position).slot? slot.index).isSome = true := Node.slot?_isSome hslot
    rwa [hindex] at hfound
  · intro edge hedge
    rw [Layout.edges_document] at hedge
    obtain ⟨wire, hwire, rfl⟩ := List.mem_map.mp hedge
    obtain ⟨_, child, _, _, hchild⟩ := ends_of_mem_wires hwire
    obtain ⟨node, hnode, key, position, rfl⟩ := layout.exists_mem_nodes_document keys hchild
    exact ⟨_, hnode, rfl⟩
  · rw [Layout.roots_document]
    exact List.nodup_range.map fun _ _ heq => (childId_inj.mp heq).2
  · intro root hroot
    obtain ⟨index, hindex, rfl⟩ := Layout.mem_roots_document.mp hroot
    have hat : document.at? [index] = some (.ofExpression document[index]) := by
      rw [Document.at?, List.getElem?_eq_getElem hindex]
      exact Argument.at?_nil _
    obtain ⟨node, hnode, key, position, rfl⟩ := layout.exists_mem_nodes_document keys hat
    exact ⟨_, hnode, rfl, rfl⟩

end Graph

end RuleGraph
