import RuleGraph.Proofs.Nodes
import RuleGraph.Proofs.Relayouts

/-!
# The form of a node

The slots of a node go with its content. A known operation has its slots at the first positions, as
many as it takes or has literals written at; an operation that is not known has them among its
inline positions; a constant has none. To write a literal may lengthen the inline positions, but
never beyond the slots, so that every edit and relayout keeps the form. Rebuilding therefore reads
every position that an edge can leave from or a literal can be written at.
-/

namespace RuleGraph

namespace Expression

theorem pairwise_nested (e : Expression) :
    (e.nested.map Prod.fst).Pairwise fun first second => first < second := by
  have hplaces : e.arguments.zipIdx.Pairwise fun first second => first.2 < second.2 := by
    rw [← List.pairwise_map, List.zipIdx_map_snd]
    exact List.pairwise_lt_range'
  rw [List.pairwise_map, nested]
  refine hplaces.filterMap _ ?_
  intro first second hlt child hchild other hother
  obtain ⟨_, _, rfl⟩ := Option.map_eq_some_iff.mp hchild
  obtain ⟨_, _, rfl⟩ := Option.map_eq_some_iff.mp hother
  exact hlt

theorem map_index_slots_of_known {registry : Registry} {e : Expression} {schema : Schema}
    (h : registry.get? e.name = some schema) :
    (e.slots registry).map Slot.index = List.range (schema.slotCount e.arguments.length) := by
  rw [slots, h, List.map_map]
  exact List.map_id _

theorem map_index_slots_of_unknown {registry : Registry} {e : Expression}
    (h : registry.get? e.name = none) :
    (e.slots registry).map Slot.index = e.nested.map Prod.fst := by
  rw [slots, h, List.map_map]
  rfl

theorem pairwise_slots (registry : Registry) (e : Expression) :
    ((e.slots registry).map Slot.index).Pairwise fun first second => first < second := by
  cases h : registry.get? e.name with
  | some schema =>
      rw [map_index_slots_of_known h]
      exact List.pairwise_lt_range
  | none =>
      rw [map_index_slots_of_unknown h]
      exact e.pairwise_nested

end Expression

namespace Node

variable {layout : Layout Float} {node changed : Node Float}

def IsPlaceholder (config : LayoutConfig Float) (node : Node Float) : Prop :=
  ∃ key position, node = placeholder config key position

/-- The slots, the size, the kind and the content of a node go together. -/
structure WellFormed (layout : Layout Float) (node : Node Float) : Prop where
  increasing : (node.slots.map Slot.index).Pairwise fun first second => first < second
  size_eq : node.size = layout.config.nodeSize node.slots.length
  constant : ∀ value, node.content = .constant value → node.slots = [] ∧ node.kind = value.kind
  /-- A known operation has slots at all positions that it takes or has literals written at. -/
  known : ∀ name inline schema, node.content = .operation name inline →
    layout.registry.get? name = some schema → node.IsPlaceholder layout.config ∨
      node.slots.map Slot.index = List.range (schema.slotCount inline.length)
  unknown : ∀ name inline, node.content = .operation name inline →
    layout.registry.get? name = none → ∀ slot ∈ node.slots, slot.index < inline.length

/-! ## New nodes -/

/-- An operation with slots at the positions of an expression, and with inline positions at least
for its arguments and at most for its arguments and slots. -/
theorem wellFormed_of_indices {e : Expression} {inline : List (Option Literal)}
    (hcontent : node.content = .operation e.name inline)
    (hindices : node.slots.map Slot.index = (e.slots layout.registry).map Slot.index)
    (hsize : node.size = layout.config.nodeSize node.slots.length)
    (hleast : e.arguments.length ≤ inline.length)
    (hmost : inline.length ≤ max e.arguments.length node.slots.length) :
    node.WellFormed layout := by
  constructor
  case increasing =>
    rw [hindices]
    exact e.pairwise_slots layout.registry
  case size_eq => exact hsize
  case constant =>
    intro value hconstant
    rw [hcontent] at hconstant
    cases hconstant
  case known =>
    intro name written schema hoperation hschema
    cases hcontent.symm.trans hoperation
    right
    rw [Expression.map_index_slots_of_known hschema] at hindices
    have hlength := congrArg List.length hindices
    rw [List.length_map, List.length_range, Schema.slotCount] at hlength
    rw [hindices, Schema.slotCount, Schema.slotCount]
    congr 1
    omega
  case unknown =>
    intro name written hoperation hschema slot hslot
    cases hcontent.symm.trans hoperation
    have hindex : slot.index ∈ (e.slots layout.registry).map Slot.index :=
      hindices ▸ List.mem_map_of_mem hslot
    obtain ⟨drawn, hdrawn, hsame⟩ := List.mem_map.mp hindex
    rcases Expression.index_lt_of_mem_slots hdrawn with harguments | ⟨schema, hknown, _⟩
    · omega
    · rw [hschema] at hknown
      cases hknown

theorem wellFormed_ofExpression (layout : Layout Float) (id : String) (key : Key) (e : Expression)
    (position : Position Float) :
    (ofExpression layout.registry layout.config id key e position).WellFormed layout := by
  apply wellFormed_of_indices (e := e) rfl rfl rfl
  · exact Nat.le_of_eq (List.length_map _).symm
  · exact Nat.le_trans (Nat.le_of_eq (List.length_map _)) (Nat.le_max_left _ _)

theorem map_index_operation (registry : Registry) (config : LayoutConfig Float) (id : String)
    (key : Key) (name : String) (position : Position Float) :
    (operation registry config id key name position).slots.map Slot.index =
      ((⟨name, []⟩ : Expression).slots registry).map Slot.index := by
  unfold operation
  dsimp only
  split
  · exact List.map_map
  · rfl

theorem wellFormed_operation (layout : Layout Float) (id : String) (key : Key) (name : String)
    (position : Position Float) (kind : NodeKind) :
    ({ operation layout.registry layout.config id key name position with kind } :
      Node Float).WellFormed layout := by
  have hindices := map_index_operation layout.registry layout.config id key name position
  refine wellFormed_of_indices (e := ⟨name, []⟩) rfl hindices ?_ ?_ ?_
  · have hlength := congrArg List.length hindices
    rw [List.length_map, List.length_map] at hlength
    exact congrArg layout.config.nodeSize hlength.symm
  · exact Nat.zero_le _
  · exact Nat.le_trans (Nat.le_of_eq List.length_replicate) (Nat.le_max_right _ _)

theorem wellFormed_constant (layout : Layout Float) (id : String) (key : Key) (value : Literal)
    (position : Position Float) :
    (constant layout.config id key value position).WellFormed layout where
  increasing := .nil
  size_eq := rfl
  constant _ hcontent := by
    cases hcontent
    exact ⟨rfl, rfl⟩
  known _ _ _ hcontent := nomatch hcontent
  unknown _ _ hcontent := nomatch hcontent

theorem wellFormed_placeholder (layout : Layout Float) (key : Key) (position : Position Float) :
    (placeholder layout.config key position).WellFormed layout where
  increasing := .nil
  size_eq := rfl
  constant _ hcontent := nomatch hcontent
  known _ _ _ _ _ := Or.inl ⟨key, position, rfl⟩
  unknown _ _ _ _ _ hslot := nomatch hslot

theorem wellFormed_ofKind (layout : Layout Float) (id : String) (key : Key) (kind : NodeKind)
    (position : Position Float) :
    (ofKind layout.registry layout.config id key kind position).WellFormed layout := by
  unfold ofKind
  split
  · exact wellFormed_constant layout id key _ position
  · exact wellFormed_constant layout id key _ position
  · exact wellFormed_operation layout id key _ position kind

theorem wellFormed_newNode {freshId : String} {freshKey : Key} {op : EditOp}
    (h : op.newNode? layout freshId freshKey = some node) : node.WellFormed layout := by
  cases op <;> cases h
  · exact wellFormed_ofKind layout _ _ _ _
  · exact wellFormed_operation layout _ _ _ _ _
  · exact wellFormed_constant layout _ _ _ _

theorem wellFormed_of_mem_document {keys : Nat → Key} {document : Document}
    (h : node ∈ (layout.document keys document).nodes) : node.WellFormed layout := by
  by_cases hempty : document = []
  · subst hempty
    rw [List.mem_singleton.mp h]
    exact wellFormed_placeholder layout _ _
  · obtain ⟨path, e, _, key, position, rfl⟩ := Layout.mem_nodes_document hempty h
    exact wellFormed_ofExpression layout _ _ _ _

/-! ## Nodes that are kept -/

/-- A node may be moved and take another key, and another id unless it is the placeholder. -/
theorem WellFormed.restated (h : node.WellFormed layout) {id : String}
    (hid : node.id = rootId → id = rootId) (key : Key) (position : Position Float) :
    ({ node with id, key, position } : Node Float).WellFormed layout := by
  refine ⟨h.increasing, h.size_eq, h.constant, ?_, h.unknown⟩
  intro name inline schema hcontent hschema
  rcases h.known name inline schema hcontent hschema with ⟨oldKey, oldPosition, rfl⟩ | hrange
  · rw [hid rfl]
    exact Or.inl ⟨key, position, rfl⟩
  · exact Or.inr hrange

theorem WellFormed.index_lt_slotCount (h : node.WellFormed layout) {name : String}
    {inline : List (Option Literal)} {schema : Schema}
    (hcontent : node.content = .operation name inline)
    (hschema : layout.registry.get? name = some schema) {slot : Slot} (hslot : slot ∈ node.slots) :
    slot.index < schema.slotCount inline.length := by
  rcases h.known name inline schema hcontent hschema with ⟨key, position, rfl⟩ | hrange
  · cases hslot
  · have hmem : slot.index ∈ List.range (schema.slotCount inline.length) :=
      hrange ▸ List.mem_map_of_mem hslot
    exact List.mem_range.mp hmem

/-- Other literals keep the form if a known operation shows as many positions with them, and one
that is not known has as many inline positions at least. -/
theorem WellFormed.withInline (h : node.WellFormed layout) {name : String}
    {inline written : List (Option Literal)} (hcontent : node.content = .operation name inline)
    (hplaceholder : ¬ node.IsPlaceholder layout.config)
    (hknown : ∀ schema, layout.registry.get? name = some schema →
      schema.slotCount written.length = schema.slotCount inline.length)
    (hunknown : layout.registry.get? name = none → inline.length ≤ written.length) :
    ({ node with content := .operation name written } : Node Float).WellFormed layout := by
  refine ⟨h.increasing, h.size_eq, fun _ hconstant => (nomatch hconstant), ?_, ?_⟩
  · intro _ _ schema hoperation hschema
    cases hoperation
    rcases h.known name inline schema hcontent hschema with hempty | hrange
    · exact absurd hempty hplaceholder
    · rw [hknown schema hschema]
      exact Or.inr hrange
  · intro _ _ hoperation hschema slot hslot
    cases hoperation
    exact Nat.lt_of_lt_of_le (h.unknown name inline hcontent hschema slot hslot) (hunknown hschema)

theorem WellFormed.setInline? (h : node.WellFormed layout) {index : Nat} {value : Option Literal}
    (hchanged : node.setInline? index value = some changed) : changed.WellFormed layout := by
  cases hcontent : node.content with
  | constant old =>
      obtain ⟨new, _, _, rfl⟩ := Node.setInline?_constant hcontent hchanged
      refine ⟨h.increasing, h.size_eq, ?_, fun _ _ _ hoperation => (nomatch hoperation),
        fun _ _ hoperation => nomatch hoperation⟩
      intro value hvalue
      cases hvalue
      exact ⟨(h.constant old hcontent).1, rfl⟩
  | operation name inline =>
      have hplaceholder : ¬ node.IsPlaceholder layout.config := by
        rintro ⟨key, position, rfl⟩
        cases hchanged
      obtain ⟨written, rfl, ⟨_, hwritten⟩ | ⟨hbeyond, hsome, _, hwritten⟩⟩ :=
        Node.setInline?_operation hcontent hchanged
      · have hlength : written.length = inline.length := by
          rw [hwritten, List.length_set]
        exact h.withInline hcontent hplaceholder (fun _ _ => by rw [hlength])
          fun _ => Nat.le_of_eq hlength.symm
      · obtain ⟨slot, hmem, rfl⟩ := Node.exists_slot hsome
        refine h.withInline hcontent hplaceholder ?_ ?_
        · intro schema hschema
          -- the slot is at a position that the operation takes, since no literal is written there
          have hslots := h.index_lt_slotCount hcontent hschema hmem
          rw [hwritten, List.length_set, length_resized]
          unfold Schema.slotCount at hslots ⊢
          omega
        · intro hschema
          have hinline := h.unknown name inline hcontent hschema slot hmem
          omega

/-! ## Positions that are read -/

/-- Rebuilding the operation reads the position: the positions can be counted, and it is one. -/
def Reads {α : Type} (node : Node α) (index : Nat) : Prop :=
  ∃ name inline, node.content = .operation name inline ∧
    overflows node.slots inline = false ∧ index < argumentCount node.slots inline

/-- The literal, or none, stands at an inline position of the operation. -/
def HoldsAt {α : Type} (node : Node α) (index : Nat) (value : Option Literal) : Prop :=
  ∃ name inline, node.content = .operation name inline ∧ inline[index]? = some value

theorem WellFormed.counted (h : node.WellFormed layout) : node.Counted := by
  intro name inline hcontent slot hslot
  cases hschema : layout.registry.get? name with
  | some schema =>
      have hslots := h.index_lt_slotCount hcontent hschema hslot
      have hpositions := schema.arity.positions_lt
      unfold Schema.slotCount at hslots
      omega
  | none => exact Or.inl (h.unknown name inline hcontent hschema slot hslot)

theorem WellFormed.reads_slot (h : node.WellFormed layout) {slot : Slot}
    (hslot : slot ∈ node.slots) : node.Reads slot.index := by
  cases hcontent : node.content with
  | constant value =>
      rw [(h.constant value hcontent).1] at hslot
      cases hslot
  | operation name inline =>
      exact ⟨name, inline, hcontent, h.counted.overflows_eq_false hcontent,
        index_lt_argumentCount hslot inline⟩

/-- What is written at a position of an operation is found there. -/
theorem holdsAt_setInline? {α : Type} {node changed : Node α} {name : String}
    {inline : List (Option Literal)} (hcontent : node.content = .operation name inline)
    {index : Nat} {value : Option Literal} (hchanged : node.setInline? index value = some changed) :
    changed.HoldsAt index value := by
  obtain ⟨written, rfl, hwritten⟩ := Node.setInline?_operation hcontent hchanged
  refine ⟨name, written, rfl, ?_⟩
  rcases hwritten with ⟨hinline, rfl⟩ | ⟨_, _, _, rfl⟩
  · exact List.getElem?_set_self hinline
  · exact List.getElem?_set_self (by simp)

/-- A position of an operation that a literal can be written at is read before, and holds what was
written after. -/
theorem WellFormed.reads_setInline? (h : node.WellFormed layout)
    (hoperation : node.content.isConstant = false) {index : Nat} {value : Option Literal}
    (hchanged : node.setInline? index value = some changed) :
    node.Reads index ∧ changed.HoldsAt index value := by
  obtain ⟨name, inline, hcontent⟩ := exists_operation hoperation
  refine ⟨?_, holdsAt_setInline? hcontent hchanged⟩
  obtain ⟨_, _, ⟨hinline, _⟩ | ⟨_, hsome, _⟩⟩ := Node.setInline?_operation hcontent hchanged
  · exact ⟨name, inline, hcontent, h.counted.overflows_eq_false hcontent,
      Nat.lt_of_lt_of_le hinline (length_le_argumentCount node.slots inline)⟩
  · obtain ⟨slot, hmem, rfl⟩ := Node.exists_slot hsome
    exact h.reads_slot hmem

end Node

namespace Session

def WithoutRestore (_ : Session) (request : Request) : Prop :=
  ∀ bytes, request ≠ .restore bytes

/-- In the graphs of a session that is never restored all nodes are well formed. Rebuilding reads
the positions of all slots, and all positions of an operation that a literal can be written at,
where it finds the literal afterwards. -/
theorem Reached.wellFormed {layout : Layout Float} {session : Session}
    (h : session.Reached layout WithoutRestore) :
    ∀ graph ∈ session.graphs, ∀ node ∈ graph.nodes, node.WellFormed layout ∧
      (∀ slot ∈ node.slots, node.Reads slot.index) ∧
      ∀ index value changed, node.content.isConstant = false →
        node.setInline? index value = some changed →
          node.Reads index ∧ changed.HoldsAt index value := by
  have hformed : ∀ graph ∈ session.graphs, ∀ node ∈ graph.nodes, node.WellFormed layout := by
    refine h.forall_drawn (P := fun _ _ graph => ∀ node ∈ graph.nodes, node.WellFormed layout)
      (fun _ _ _ _ _ hgraph => hgraph) (fun _ bytes hother => hother bytes rfl) ?_ ?_ ?_
    · rintro supply spent document graph rfl node hnode
      exact Node.wellFormed_of_mem_document hnode
    · intro session op graph _ _ hgraph hrun
      exact Graph.forall_nodes_run hgraph (fun _ hnew _ => Node.wellFormed_newNode hnew)
        (fun node position hnode => hnode.restated (fun hid => hid) node.key position)
        (fun _ _ _ _ hnode _ hchanged => hnode.setInline? hchanged) hrun
    · rintro session trace graph _ _ hgraph _ rfl
      exact Graph.forall_nodes_relaid hgraph (fun _ => Node.wellFormed_of_mem_document)
        (fun node key hnode => hnode.restated (fun hid => hid) key node.position)
        (fun node _ hapart hnode =>
          hnode.restated (fun hid => absurd hid hapart) node.key node.position)
  intro graph hgraph node hnode
  have hnodeFormed := hformed graph hgraph node hnode
  exact ⟨hnodeFormed, fun _ => hnodeFormed.reads_slot,
    fun _ _ _ hoperation hchanged => hnodeFormed.reads_setInline? hoperation hchanged⟩

/-- A session that shows two known operations and one that is not known, with a literal written at
the last slot of the first. -/
def dressed : Session :=
  ((start numberedSupply ⟨Registry.standard, LayoutConfig.standard⟩).perform
    (.loadDocument [⟨"IF", [.nested "speak" [.literal (.text "hi"), .nested "and" []]]⟩])).perform
      (.apply (.setInlineValue "root.0" 2 (some (.text "no"))))

/-- At the only slot of the operation that is not known a literal can be written and read. -/
theorem dressed_wellFormed :
    dressed.Reached ⟨Registry.standard, LayoutConfig.standard⟩ WithoutRestore ∧
      dressed.graph.nodes.map (fun node => (node.id, node.slots.map Slot.index)) =
        [("root.0", [0, 1, 2]), ("root.0.0", [1]), ("root.0.0.1", [0, 1])] ∧
      (∀ node ∈ dressed.graph.nodes,
        node.WellFormed ⟨Registry.standard, LayoutConfig.standard⟩) ∧
      ∃ node changed, dressed.graph.node? "root.0.0" = some node ∧
        node.setInline? 1 (some (.text "you")) = some changed ∧
        node.Reads 1 ∧ changed.HoldsAt 1 (some (.text "you")) := by
  have hreached : dressed.Reached ⟨Registry.standard, LayoutConfig.standard⟩ WithoutRestore :=
    .perform _ (.perform _ (.start numberedSupply) fun _ hrequest => nomatch hrequest)
      fun _ hrequest => nomatch hrequest
  have hnodes := Reached.wellFormed hreached dressed.graph List.mem_cons_self
  refine ⟨hreached, rfl, fun node hnode => (hnodes node hnode).1, _, _, rfl, rfl, ?_⟩
  have hnode : dressed.graph.node? "root.0.0" = some _ := rfl
  exact (hnodes _ (Graph.mem_of_node? hnode).1).2.2 1 _ _ rfl rfl

end Session

end RuleGraph
