import RuleGraph.Proofs.Drawing
import RuleGraph.Proofs.Edits
import RuleGraph.Proofs.Positions
import RuleGraph.Proofs.Runs

/-!
# The nodes of a session

Every node that a run shows was drawn or made by an edit, and later at most had literals written
into it, was moved, or took another id or key. `Node.Made` says so, and what holds of nodes as such
is proved by induction over it. What edits and relayouts do to single nodes is said once, in
`Graph.forall_nodes_run` and `Graph.forall_nodes_relaid`.
-/

namespace RuleGraph

namespace Expression

theorem mem_nested {e child : Expression} {position : Nat} :
    (position, child) ∈ e.nested ↔ e.arguments[position]? = some (.ofExpression child) := by
  rw [nested, List.mem_filterMap]
  constructor
  · intro h
    obtain ⟨entry, hentry, hchild⟩ := h
    obtain ⟨found, hfound, hpair⟩ := Option.map_eq_some_iff.mp hchild
    obtain ⟨rfl, rfl⟩ := Prod.mk.inj hpair
    rw [List.mem_zipIdx_iff_getElem?] at hentry
    rw [hentry]
    cases hargument : entry.1 with
    | literal value =>
        rw [hargument] at hfound
        cases hfound
    | nested name arguments =>
        rw [hargument] at hfound
        cases hfound
        rfl
  · intro h
    exact ⟨(.ofExpression child, position), List.mem_zipIdx_iff_getElem?.mpr h, rfl⟩

theorem exists_slot (registry : Registry) {e child : Expression} {position : Nat}
    (h : e.arguments[position]? = some (.ofExpression child)) :
    ∃ slot ∈ e.slots registry, slot.index = position := by
  unfold slots
  split
  · rename_i schema _
    have hposition : position < schema.slotCount e.arguments.length :=
      Nat.lt_of_lt_of_le (List.getElem?_eq_some_iff.mp h).1 (Nat.le_max_right _ _)
    exact ⟨_, List.mem_map_of_mem (List.mem_range.mpr hposition), rfl⟩
  · exact ⟨_, List.mem_map_of_mem (mem_nested.mpr h), rfl⟩

/-- Every slot is at an argument, or at a position that the registry shows anyway. -/
theorem index_lt_of_mem_slots {registry : Registry} {e : Expression} {slot : Slot}
    (h : slot ∈ e.slots registry) :
    slot.index < e.arguments.length ∨
      ∃ schema, registry.get? e.name = some schema ∧ slot.index < schema.arity.positions := by
  unfold slots at h
  split at h
  · rename_i schema hschema
    obtain ⟨index, hindex, rfl⟩ := List.mem_map.mp h
    have hcount : index < max schema.arity.positions e.arguments.length := List.mem_range.mp hindex
    rcases Nat.lt_or_ge index e.arguments.length with harguments | hbeyond
    · exact Or.inl harguments
    · have hpositions : index < schema.arity.positions := by omega
      exact Or.inr ⟨schema, hschema, hpositions⟩
  · obtain ⟨child, hchild, rfl⟩ := List.mem_map.mp h
    exact Or.inl (List.getElem?_eq_some_iff.mp (mem_nested.mp hchild)).1

theorem index_lt_of_required {registry : Registry} {e : Expression} {slot : Slot}
    (h : slot ∈ e.slots registry) (hrequired : slot.required = true) :
    slot.index < e.arguments.length := by
  unfold slots at h
  split at h
  · obtain ⟨index, _, rfl⟩ := List.mem_map.mp h
    rw [Bool.and_eq_true] at hrequired
    exact of_decide_eq_true hrequired.2
  · obtain ⟨child, hchild, rfl⟩ := List.mem_map.mp h
    exact (List.getElem?_eq_some_iff.mp (mem_nested.mp hchild)).1

end Expression

theorem Node.mem_of_slot? {α : Type} {node : Node α} {index : Nat} {slot : Slot}
    (h : node.slot? index = some slot) : slot ∈ node.slots ∧ slot.index = index :=
  ⟨List.mem_of_find?_eq_some h, by simpa using List.find?_some h⟩

theorem Node.exists_slot {α : Type} {node : Node α} {index : Nat}
    (h : (node.slot? index).isSome = true) : ∃ slot ∈ node.slots, slot.index = index := by
  obtain ⟨slot, hslot⟩ := Option.isSome_iff_exists.mp h
  exact ⟨slot, Node.mem_of_slot? hslot⟩

theorem Node.slot?_isSome {α : Type} {node : Node α} {slot : Slot} (h : slot ∈ node.slots) :
    (node.slot? slot.index).isSome = true := by
  rw [slot?, List.find?_isSome]
  exact ⟨slot, h, beq_self_eq_true _⟩

/-- The nodes that the edits and drawings of a layout make. -/
inductive Node.Made (layout : Layout Float) : Node Float → Prop
  | drawn {spot : String × Expression} {node : Node Float} (h : layout.Draws spot node) :
      Made layout node
  | placeholder (key : Key) (position : Position Float) :
      Made layout (Node.placeholder layout.config key position)
  | ofKind (id : String) (key : Key) (kind : NodeKind) (position : Position Float) :
      Made layout (Node.ofKind layout.registry layout.config id key kind position)
  | operation (id : String) (key : Key) (name : String) (position : Position Float) :
      Made layout (Node.operation layout.registry layout.config id key name position)
  | constant (id : String) (key : Key) (value : Literal) (position : Position Float) :
      Made layout (Node.constant layout.config id key value position)
  | inline {node changed : Node Float} {index : Nat} {value : Option Literal}
      (h : Made layout node) (hchanged : node.setInline? index value = some changed) :
      Made layout changed
  | restated {node : Node Float} (h : Made layout node) (id : String) (key : Key)
      (position : Position Float) : Made layout { node with id, key, position }

theorem Node.Made.slots_of_constant {layout : Layout Float} {node : Node Float}
    (h : node.Made layout) (hconstant : node.content.isConstant = true) : node.slots = [] := by
  induction h with
  | drawn hdraws =>
      obtain ⟨key, position, rfl⟩ := hdraws
      cases hconstant
  | placeholder key position => rfl
  | ofKind id key kind position =>
      cases kind <;> first | rfl | cases hconstant
  | operation id key name position => cases hconstant
  | constant id key value position => rfl
  | inline hmade hchanged ih =>
      obtain ⟨kind, content, rfl, hsame⟩ := Node.setInline?_eq_some hchanged
      exact ih (hsame.symm.trans hconstant)
  | restated hmade id key position ih => exact ih hconstant

/-- Arities are words, so that no slot behind the arguments is at the last one. -/
theorem Expression.counted_of_mem_slots {registry : Registry} {e : Expression} {slot : Slot}
    (h : slot ∈ e.slots registry) :
    slot.index < e.arguments.length ∨ slot.index + 1 < UInt64.size := by
  rcases index_lt_of_mem_slots h with harguments | ⟨schema, _, hpositions⟩
  · exact Or.inl harguments
  · have hbound := schema.arity.positions_lt
    exact Or.inr (by omega)

theorem Node.counted_operation (layout : Layout Float) (id : String) (key : Key) (name : String)
    (position : Position Float) :
    (Node.operation layout.registry layout.config id key name position).Counted := by
  intro _ inline _ slot hslot
  have hindex : ∃ other ∈ (⟨name, []⟩ : Expression).slots layout.registry,
      other.index = slot.index := by
    unfold operation at hslot
    dsimp only at hslot
    split at hslot
    · obtain ⟨other, hother, rfl⟩ := List.mem_map.mp hslot
      exact ⟨other, hother, rfl⟩
    · exact ⟨slot, hslot, rfl⟩
  obtain ⟨other, hother, hsame⟩ := hindex
  rcases Expression.counted_of_mem_slots hother with hnone | hword
  · cases hnone
  · exact Or.inr (hsame ▸ hword)

theorem Node.Counted.setInline? {α : Type} {node changed : Node α} (h : node.Counted) {index : Nat}
    {value : Option Literal} (hchanged : node.setInline? index value = some changed) :
    changed.Counted := by
  cases hcontent : node.content with
  | constant old =>
      obtain ⟨new, _, _, rfl⟩ := Node.setInline?_constant hcontent hchanged
      exact fun _ _ hwritten => nomatch hwritten
  | operation name inline =>
      obtain ⟨written, rfl, hlength⟩ := Node.setInline?_operation hcontent hchanged
      intro _ _ hwritten slot hslot
      cases hwritten
      have hold := h name inline hcontent slot hslot
      rcases hlength with ⟨_, rfl⟩ | ⟨hbeyond, _, _, rfl⟩
      · rw [List.length_set]
        exact hold
      · rw [List.length_set, length_resized]
        omega

theorem Node.Made.counted {layout : Layout Float} {node : Node Float} (h : node.Made layout) :
    node.Counted := by
  induction h with
  | drawn hdraws =>
      obtain ⟨key, position, rfl⟩ := hdraws
      intro _ inline hcontent slot hslot
      cases hcontent
      rw [List.length_map]
      exact Expression.counted_of_mem_slots hslot
  | placeholder key position => exact fun _ _ _ slot hslot => absurd hslot List.not_mem_nil
  | ofKind id key kind position =>
      unfold Node.ofKind
      split
      · exact fun _ _ _ slot hslot => absurd hslot List.not_mem_nil
      · exact fun _ _ _ slot hslot => absurd hslot List.not_mem_nil
      · exact Node.counted_operation layout id key _ position
  | operation id key name position => exact Node.counted_operation layout id key name position
  | constant id key value position => exact fun _ _ _ slot hslot => absurd hslot List.not_mem_nil
  | inline _ hchanged ih => exact ih.setInline? hchanged
  | restated _ id key position ih => exact ih

def EditOp.newNode? (layout : Layout Float) (freshId : String) (freshKey : Key) :
    EditOp → Option (Node Float)
  | .addNode kind position id =>
    some (.ofKind layout.registry layout.config (id.getD freshId) freshKey kind position)
  | .addOperationNode name position id =>
    some (.operation layout.registry layout.config (id.getD freshId) freshKey name position)
  | .addConstantNode value position id =>
    some (.constant layout.config (id.getD freshId) freshKey value position)
  | _ => none

namespace Graph

variable {layout : Layout Float} {graph next : Graph Float}

def AllMade (layout : Layout Float) (graph : Graph Float) : Prop :=
  ∀ node ∈ graph.nodes, node.Made layout

theorem allMade_document (layout : Layout Float) (keys : Nat → Key) (document : Document) :
    (layout.document keys document).AllMade layout := by
  intro node hnode
  by_cases hempty : document = []
  · subst hempty
    rw [List.mem_singleton.mp hnode]
    exact .placeholder _ _
  · obtain ⟨path, e, _, hdraws⟩ := Layout.mem_nodes_document hempty hnode
    exact .drawn hdraws

/-! ## What edits and relayouts keep of single nodes -/

section Nodewise

variable {P : Node Float → Prop} (hnodes : ∀ node ∈ graph.nodes, P node)

include hnodes

theorem forall_nodes_replaceNode {id : String} {node : Node Float} (hnode : P node) :
    ∀ other ∈ (graph.replaceNode id node).nodes, P other := by
  intro other hother
  rcases mem_replaceFirst hother with rfl | hmem
  · exact hnode
  · exact hnodes other hmem

theorem forall_nodes_addNode {node : Node Float}
    (hnode : node.content.nonFinite? = none → P node) (hadd : graph.addNode node = .ok next) :
    ∀ other ∈ next.nodes, P other := by
  obtain ⟨_, hfinite, rfl⟩ := addNode_eq_ok hadd
  intro other hother
  rcases List.mem_append.mp hother with hmem | hmem
  · exact hnodes other hmem
  · rw [List.mem_singleton.mp hmem]
    exact hnode hfinite

/-- An edit brings in its new node, moves a node or writes a literal into one; all other nodes stay
or go. -/
theorem forall_nodes_run {freshId : String} {freshKey : Key} {op : EditOp}
    (hnew : ∀ node, op.newNode? layout freshId freshKey = some node →
      node.content.nonFinite? = none → P node)
    (hmoved : ∀ node position, P node → P { node with position })
    (hwritten : ∀ node index value changed, P node → (value.any fun v => !v.isFinite) = false →
      node.setInline? index value = some changed → P changed)
    (hrun : op.run layout freshId freshKey graph = .ok next) : ∀ node ∈ next.nodes, P node := by
  cases op with
  | connect source slot target =>
      obtain ⟨_, _, _, _, _, _, rfl⟩ := connect_eq_ok hrun
      exact hnodes
  | disconnect edge =>
      cases hrun
      exact hnodes
  | deleteNode id =>
      obtain ⟨_, _, rfl⟩ := deleteNode_eq_ok hrun
      intro node hnode
      exact hnodes node (List.mem_filter.mp hnode).1
  | addNode kind position id => exact forall_nodes_addNode hnodes (hnew _ rfl) hrun
  | addOperationNode name position id => exact forall_nodes_addNode hnodes (hnew _ rfl) hrun
  | addConstantNode value position id => exact forall_nodes_addNode hnodes (hnew _ rfl) hrun
  | moveNode id position =>
      obtain ⟨node, hnode, rfl⟩ := moveNode_eq_ok hrun
      exact forall_nodes_replaceNode hnodes (hmoved _ _ (hnodes node (mem_of_node? hnode).1))
  | setInlineValue id index value =>
      obtain ⟨node, changed, hnode, hfinite, hchanged, rfl⟩ := setInline_eq_ok hrun
      exact forall_nodes_replaceNode hnodes
        (hwritten node index value changed (hnodes node (mem_of_node? hnode).1) hfinite hchanged)
  | addRoot id =>
      obtain ⟨_, _, _, _, rfl⟩ := addRoot_eq_ok hrun
      split
      · exact hnodes
      · exact hnodes
  | removeRoot id =>
      cases hrun
      exact hnodes

/-- A relayout draws nodes under other keys, and keeps nodes other than the placeholder under other
ids. -/
theorem forall_nodes_relaid {keys : Nat → Key} {ids : Nat → String} {trace : Trace}
    (hdrawn : ∀ node ∈ (layout.document keys trace.expressions).nodes, P node)
    (hkeyed : ∀ node key, P node → P { node with key })
    (hrenamed : ∀ node id, node.id ≠ rootId → P node → P { node with id }) :
    ∀ node ∈ (graph.relaid layout keys ids trace).nodes, P node := by
  intro node hnode
  rcases List.mem_append.mp hnode with hredrawn | hkept
  · obtain ⟨drawn, hmem, rfl⟩ := List.mem_map.mp hredrawn
    unfold carryKey
    split
    · exact hdrawn drawn hmem
    · split
      · exact hkeyed _ _ (hdrawn drawn hmem)
      · exact hdrawn drawn hmem
  · obtain ⟨entry, hentry, rfl⟩ := List.mem_map.mp hkept
    have hdetached : entry.1 ∈ graph.detached trace.visited := List.fst_mem_of_mem_zipIdx hentry
    obtain ⟨hmem, hapart⟩ := List.mem_filter.mp hdetached
    split
    · refine hrenamed _ _ ?_ (hnodes entry.1 hmem)
      simp only [isDetached, Bool.and_eq_true, bne_iff_ne] at hapart
      exact hapart.2
    · exact hnodes entry.1 hmem

end Nodewise

theorem AllMade.run (h : graph.AllMade layout) {freshId : String} {freshKey : Key} {op : EditOp}
    (hrun : op.run layout freshId freshKey graph = .ok next) : next.AllMade layout := by
  refine forall_nodes_run h ?_ (fun _ _ hnode => hnode.restated _ _ _)
    (fun _ _ _ _ hnode _ hchanged => hnode.inline hchanged) hrun
  intro node hnew _
  cases op <;> cases hnew
  · exact .ofKind _ _ _ _
  · exact .operation _ _ _ _
  · exact .constant _ _ _ _

theorem AllMade.relaid (h : graph.AllMade layout) (keys : Nat → Key) (ids : Nat → String)
    (trace : Trace) : (graph.relaid layout keys ids trace).AllMade layout :=
  forall_nodes_relaid h (allMade_document layout keys _) (fun _ _ hnode => hnode.restated _ _ _)
    fun _ _ _ hnode => hnode.restated _ _ _

end Graph

theorem Session.Reached.allMade {layout : Layout Float} {allowed : Session → Request → Prop}
    {session : Session}
    (hadmits : ∀ session request, allowed session request → session.Admits request)
    (h : session.Reached layout allowed) : ∀ graph ∈ session.graphs, graph.AllMade layout :=
  h.forall_graphs hadmits (Graph.allMade_document layout)
    (fun _ _ _ _ _ hgraph hrun => hgraph.run hrun)
    (fun _ trace _ _ hgraph _ => hgraph.relaid _ _ trace)

end RuleGraph
