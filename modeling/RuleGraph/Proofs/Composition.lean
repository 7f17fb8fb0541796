import RuleGraph.Proofs.Preorder

/-!
# Drawings of parts

An operation is drawn in a document as it would be drawn alone where it stands: its subtree is one
run of the nodes and one run of the edges. This rests on one fact, that no operation leaves its
anchor. It is put at the height of its first nested operation, but that one is anchored at the
height of the operation itself. Nothing is computed twice or in another order, so that the
arithmetic plays no part.
-/

namespace RuleGraph

/-- The nested operations among the arguments from a position on, with their positions. -/
def Argument.nestedFrom (position : Nat) (arguments : List Argument) : List (Nat × Expression) :=
  (arguments.zipIdx position).filterMap fun entry =>
    entry.1.expression?.map fun child => (entry.2, child)

/-- A part of a drawing: its placements follow one another in the whole, and so do its edges. -/
structure Subtree.Within {α : Type} (part whole : Subtree α) : Prop where
  placements : part.placements <:+: whole.placements
  edges : part.edges <:+: whole.edges

/-- The nodes differ in nothing but their keys. -/
def Node.AlikeButKey {α : Type} (node other : Node α) : Prop :=
  node = { other with key := node.key }

theorem Subtree.Within.trans {α : Type} {part middle whole : Subtree α} (h : part.Within middle)
    (hmiddle : middle.Within whole) : part.Within whole :=
  ⟨h.placements.trans hmiddle.placements, h.edges.trans hmiddle.edges⟩

namespace Layout

variable {α : Type} [Scalar α] (layout : Layout α)

/-! ## Anchors -/

theorem head?_placeArguments {arguments : List Argument}
    (h : ∀ a ∈ arguments, ∀ id anchor, (layout.placeArgument id anchor a).placements.head? =
      a.expression?.map fun e => ⟨id, e, anchor⟩)
    (parent : String) (column y : α) (position : Nat) :
    (layout.placeArguments parent column y position arguments).placements.head? =
      (Argument.nestedFrom position arguments).head?.map fun child =>
        ⟨childId parent child.1, child.2, ⟨column, y⟩⟩ := by
  induction arguments generalizing position with
  | nil => rfl
  | cons first rest ih =>
      cases first with
      | literal value => exact ih (fun a ha => h a (List.mem_cons_of_mem _ ha)) (position + 1)
      | nested name arguments =>
          exact h (.nested name arguments) List.mem_cons_self (childId parent position) ⟨column, y⟩

/-- An operation stands where it is anchored. -/
theorem head?_placeArgument (a : Argument) (id : String) (anchor : Position α) :
    (layout.placeArgument id anchor a).placements.head? =
      a.expression?.map fun e => ⟨id, e, anchor⟩ := by
  induction a generalizing id anchor with
  | literal value => rfl
  | nested name arguments ih =>
      -- the height that is taken over from below is the one that was handed down
      have hfirst := layout.head?_placeArguments ih id
        (anchor.x + (layout.size ⟨name, arguments⟩).width + layout.config.horizontalPadding)
        anchor.y 0
      rw [placeArgument]
      dsimp only
      generalize (layout.placeArguments id _ anchor.y 0 arguments).placements = below at hfirst
      cases below with
      | nil => rfl
      | cons first rest =>
          obtain ⟨child, _, hchild⟩ := Option.map_eq_some_iff.mp hfirst.symm
          rw [← hchild]
          rfl

/-- The first nested operation stands beside its operation, at the same height. -/
theorem placements_nested (name : String) (arguments : List Argument) (id : String)
    (anchor : Position α) :
    (layout.placeArgument id anchor (.nested name arguments)).placements =
      ⟨id, ⟨name, arguments⟩, anchor⟩ :: (layout.placeArguments id
        (anchor.x + (layout.size ⟨name, arguments⟩).width + layout.config.horizontalPadding)
        anchor.y 0 arguments).placements := by
  have hhead := layout.head?_placeArgument (.nested name arguments) id anchor
  rw [placeArgument] at hhead ⊢
  exact congrArg (· :: _) (Option.some.inj hhead)

/-! ## Parts -/

theorem placeArguments_nested (parent : String) (column y : α) (position : Nat) (name : String)
    (arguments rest : List Argument) :
    layout.placeArguments parent column y position (.nested name arguments :: rest) =
      let child := layout.placeArgument (childId parent position) ⟨column, y⟩
        (.nested name arguments)
      let others := layout.placeArguments parent column
        (layout.bottom child.placements + layout.config.verticalPadding) (position + 1) rest
      ⟨child.placements ++ others.placements,
        child.edges ++ Edge.link parent position (childId parent position) :: others.edges⟩ :=
  rfl

theorem within_placeArguments {arguments : List Argument} {i : Nat} {name : String}
    {nested : List Argument} (h : arguments[i]? = some (.nested name nested)) (parent : String)
    (column y : α) (position : Nat) :
    ∃ height, (layout.placeArgument (childId parent (position + i)) ⟨column, height⟩
      (.nested name nested)).Within (layout.placeArguments parent column y position arguments) := by
  induction arguments generalizing i y position with
  | nil => cases h
  | cons first rest ih =>
      cases i with
      | zero =>
          cases h
          refine ⟨y, ?_⟩
          rw [placeArguments_nested]
          exact ⟨(List.prefix_append _ _).isInfix, (List.prefix_append _ _).isInfix⟩
      | succ i =>
          rw [show position + (i + 1) = position + 1 + i by omega]
          cases first with
          | literal value => exact ih h y (position + 1)
          | nested other others =>
              rw [placeArguments_nested]
              obtain ⟨height, hwithin⟩ := ih h _ (position + 1)
              exact ⟨height, hwithin.trans ⟨(List.suffix_append _ _).isInfix,
                ((List.suffix_cons _ _).trans (List.suffix_append _ _)).isInfix⟩⟩

/-- Every operation inside an argument is drawn as a part of the argument, at some anchor. -/
theorem within_placeArgument {a : Argument} {path : List Nat} {name : String}
    {arguments : List Argument} (h : a.at? path = some (.nested name arguments)) (id : String)
    (anchor : Position α) :
    ∃ place, (layout.placeArgument (idBelow id path) place (.nested name arguments)).Within
      (layout.placeArgument id anchor a) := by
  induction path generalizing a id anchor with
  | nil =>
      rw [Argument.at?_nil, Option.some.injEq] at h
      subst h
      exact ⟨anchor, List.infix_rfl, List.infix_rfl⟩
  | cons position path ih =>
      cases a with
      | literal value => cases h
      | nested outer others =>
          rw [Argument.at?_nested_cons] at h
          obtain ⟨child, hchild, hat⟩ := Option.bind_eq_some_iff.mp h
          cases child with
          | literal value => cases path <;> cases hat
          | nested inner below =>
              obtain ⟨height, hcolumn⟩ := layout.within_placeArguments hchild id
                (anchor.x + (layout.size ⟨outer, others⟩).width + layout.config.horizontalPadding)
                anchor.y 0
              rw [Nat.zero_add] at hcolumn
              -- the operation itself stands before all parts of its column
              obtain ⟨place, hplace⟩ := ih hat (childId id position) ⟨_, height⟩
              refine ⟨place, (hplace.trans hcolumn).trans ⟨?_, List.infix_rfl⟩⟩
              rw [placements_nested]
              exact (List.suffix_cons _ _).isInfix

theorem within_placeAll {document : Document} {i : Nat} {e : Expression}
    (h : document[i]? = some e) (y : α) (index : Nat) :
    ∃ place, (layout.place (childId rootId (index + i)) place e).Within
      (layout.placeAll y index document) := by
  induction document generalizing i y index with
  | nil => cases h
  | cons first rest ih =>
      rw [placeAll]
      cases i with
      | zero =>
          cases h
          exact ⟨_, (List.prefix_append _ _).isInfix, (List.prefix_append _ _).isInfix⟩
      | succ i =>
          rw [show index + (i + 1) = index + 1 + i by omega]
          obtain ⟨place, hwithin⟩ := ih h _ (index + 1)
          exact ⟨place, hwithin.trans
            ⟨(List.suffix_append _ _).isInfix, (List.suffix_append _ _).isInfix⟩⟩

/-- Every operation of a document is drawn as a part of the document, at some anchor. -/
theorem within_document {document : Document} {path : List Nat} {e : Expression}
    (h : document.at? path = some (.ofExpression e)) (y : α) :
    ∃ place, (layout.place (idOfPath path) place e).Within (layout.placeAll y 0 document) := by
  cases path with
  | nil => cases h
  | cons index path =>
      obtain ⟨top, htop, hat⟩ := Option.bind_eq_some_iff.mp h
      obtain ⟨outer, houter⟩ := layout.within_placeAll htop y 0
      rw [Nat.zero_add] at houter
      obtain ⟨place, hplace⟩ := layout.within_placeArgument hat (childId rootId index) outer
      exact ⟨place, hplace.trans houter⟩

/-! ## Runs of nodes and edges -/

/-- A part is drawn as it is alone, with the keys that are handed out from some number on. -/
theorem nodes_infix {part whole : List (Placement α)} (h : part <:+: whole) (keys : Nat → Key) :
    ∃ start, layout.nodes (fun i => keys (start + i)) part <:+: layout.nodes keys whole := by
  obtain ⟨before, after, rfl⟩ := h
  refine ⟨before.length, layout.nodes keys before,
    layout.nodes (fun i => keys ((before ++ part).length + i)) after, ?_⟩
  have hshift (start : Nat) (placements : List (Placement α)) :
      layout.nodes (fun i => keys (start + i)) placements =
        (placements.zipIdx start).map fun entry => layout.node entry.1 (keys entry.2) := by
    rw [nodes, List.zipIdx_eq_map_add (i := start), List.map_map]
    rfl
  rw [hshift, hshift, nodes, nodes, List.zipIdx_append, List.zipIdx_append, List.map_append,
    List.map_append, Nat.zero_add, Nat.zero_add]

theorem head?_nodes (keys : Nat → Key) (placements : List (Placement α)) :
    (layout.nodes keys placements).head? =
      placements.head?.map fun placement => layout.node placement (keys 0) := by
  cases placements <;> rfl

/-- The keys are all that a supply of keys decides. -/
theorem nodes_alike (keys other : Nat → Key) (placements : List (Placement α)) :
    List.Forall₂ Node.AlikeButKey (layout.nodes keys placements)
      (layout.nodes other placements) := by
  rw [nodes, nodes, List.forall₂_map_left_iff, List.forall₂_map_right_iff, List.forall₂_same]
  exact fun _ _ => rfl

end Layout

/-! ## Drawings of parts -/

/-- In the graph, the expression at a position of the operation at a path is drawn as it is drawn
alone: with the node `top` for the expression, all that is below its id is what the layout makes of
the expression as an argument that is anchored where `top` stands. At the empty path, the positions
are those of the top-level expressions. -/
structure Graph.DrawsAlone {α : Type} [Scalar α] (graph : Graph α) (layout : Layout α)
    (path : List Nat) (position : Nat) (e : Expression) (top : Node α) : Prop where
  mem : top ∈ graph.nodes
  id_eq : top.id = childId (idOfPath path) position
  nodes : ∃ run, run <:+: graph.nodes ∧
    (∀ node ∈ graph.nodes, node ∈ run ↔
      ∃ below, node.id = idOfPath (path ++ position :: below)) ∧
    ∀ keys, List.Forall₂ Node.AlikeButKey run
      (layout.argument keys (.ofExpression e) (idOfPath path) position top.position).nodes
  edges : ∃ run, run <:+: graph.edges ∧
    (∀ edge ∈ graph.edges, edge ∈ run ↔
      ∃ below, edge.source = idOfPath (path ++ position :: below)) ∧
    ∀ keys, run =
      (layout.argument keys (.ofExpression e) (idOfPath path) position top.position).edges
  /-- Wherever the expression is anchored, its node stands there. -/
  anchored : ∀ keys parent anchor,
    (layout.argument keys (.ofExpression e) parent position anchor).nodes.head? =
      some (layout.node ⟨childId parent position, e, anchor⟩ (keys 0))
  /-- The first nested operation stands at the height of its operation. -/
  level : ∀ i child, e.nested.head? = some (i, child) →
    ∃ below ∈ graph.nodes, below.id = childId top.id i ∧ below.position.y = top.position.y

namespace Layout

variable {α : Type} [Scalar α] (layout : Layout α)

theorem argument_ofExpression (keys : Nat → Key) (e : Expression) (parent : String)
    (position : Nat) (anchor : Position α) :
    layout.argument keys (.ofExpression e) parent position anchor =
      ⟨layout.nodes keys (layout.place (childId parent position) anchor e).placements,
        (layout.place (childId parent position) anchor e).edges, []⟩ :=
  rfl

theorem exists_mem_place {e child : Expression} {i : Nat} (h : e.nested.head? = some (i, child))
    (id : String) (anchor : Position α) :
    ∃ x, (⟨childId id i, child, ⟨x, anchor.y⟩⟩ : Placement α) ∈
      (layout.place id anchor e).placements := by
  have hbelow := layout.head?_placeArguments
    (fun a (_ : a ∈ e.arguments) => layout.head?_placeArgument a) id
    (anchor.x + (layout.size e).width + layout.config.horizontalPadding) anchor.y 0
  rw [show Argument.nestedFrom 0 e.arguments = e.nested from rfl, h] at hbelow
  refine ⟨anchor.x + (layout.size e).width + layout.config.horizontalPadding, ?_⟩
  rw [place, Argument.ofExpression, placements_nested]
  exact List.mem_cons_of_mem _ (List.mem_of_head? hbelow)

variable {layout} {document : Document} {path : List Nat} {e : Expression} {keys later : Nat → Key}
  {anchor : Position α}

/-- The nodes of a part are the nodes at and below its path. -/
theorem mem_nodes_place_iff (hat : document.at? path = some (.ofExpression e))
    (hrun : layout.nodes later (layout.place (idOfPath path) anchor e).placements <:+:
      (layout.document keys document).nodes)
    {node : Node α} (hnode : node ∈ (layout.document keys document).nodes) :
    node ∈ layout.nodes later (layout.place (idOfPath path) anchor e).placements ↔
      ∃ below, node.id = idOfPath (path ++ below) := by
  have hshows := layout.placeArgument_shows (.ofExpression e) (idOfPath path) anchor
  constructor
  · intro hmem
    obtain ⟨spot, hspot, key, position, rfl⟩ := layout.mem_nodes hmem
    rw [place, hshows.spots_eq] at hspot
    obtain ⟨entry, _, rfl⟩ := List.mem_map.mp hspot
    exact ⟨entry.1, (idBelow_append rootId path entry.1).symm⟩
  · rintro ⟨below, hid⟩
    obtain ⟨other, inner, hinner, key, position, hdraws⟩ :=
      mem_nodes_document (Document.ne_nil_of_at? hat) hnode
    have hother : other = path ++ below := by
      rw [hdraws] at hid
      exact idOfPath_inj.mp hid
    rw [hother, Document.at?_append hat] at hinner
    have hspot : spotBelow (idOfPath path) (below, inner) ∈
        (layout.place (idOfPath path) anchor e).placements.map Placement.spot := by
      rw [place, hshows.spots_eq]
      exact List.mem_map_of_mem (Argument.mem_operations.mpr hinner)
    obtain ⟨twin, htwin, _, _, hsame⟩ := layout.exists_mem_nodes later hspot
    have hids : twin.id = node.id := by
      rw [hsame, hid]
      exact (idBelow_append rootId path below).symm
    rw [← List.inj_on_of_nodup_map (layout.nodup_ids_document keys document)
      (hrun.subset htwin) hnode hids]
    exact htwin

/-- The edges of a part are the edges that leave the nodes at and below its path. -/
theorem mem_edges_place_iff (hat : document.at? path = some (.ofExpression e)) {edge : Edge}
    (hedge : edge ∈ (layout.document keys document).edges) :
    edge ∈ (layout.place (idOfPath path) anchor e).edges ↔
      ∃ below, edge.source = idOfPath (path ++ below) := by
  have hshows := layout.placeArgument_shows (.ofExpression e) (idOfPath path) anchor
  rw [place, hshows.edges_eq, List.mem_map]
  constructor
  · rintro ⟨wire, _, rfl⟩
    exact ⟨wire.1, (idBelow_append rootId path wire.1).symm⟩
  · rintro ⟨below, hsource⟩
    rw [edges_document, List.mem_map] at hedge
    obtain ⟨⟨source, position⟩, hwire, rfl⟩ := hedge
    have hpath : source = path ++ below := idOfPath_inj.mp hsource
    subst hpath
    obtain ⟨_, child, hchild⟩ := Document.mem_wires.mp hwire
    rw [List.append_assoc, Document.at?_append hat] at hchild
    refine ⟨(below, position), Argument.mem_wires.mpr ⟨child, hchild⟩, ?_⟩
    rw [wireBelow, wireBelow, Argument.wireEnd, Argument.wireEnd]
    simp only [List.append_assoc, idBelow_append, idBelow_rootId]

/-- The nodes of a part take their keys from the supply of the whole, from some number on. -/
theorem exists_part (layout : Layout α) (keys : Nat → Key)
    (hat : document.at? path = some (.ofExpression e)) :
    ∃ anchor start, layout.nodes (fun i => keys (start + i))
        (layout.place (idOfPath path) anchor e).placements <:+:
          (layout.document keys document).nodes ∧
      (layout.place (idOfPath path) anchor e).edges <:+: (layout.document keys document).edges := by
  obtain ⟨anchor, hwithin⟩ := layout.within_document hat layout.config.origin.y
  obtain ⟨start, hnodes⟩ := layout.nodes_infix hwithin.placements keys
  rw [document_of_ne_nil (Document.ne_nil_of_at? hat)]
  exact ⟨anchor, start, hnodes, hwithin.edges⟩

/-- Every operation of a document is drawn in it as it is drawn alone. -/
theorem document_drawsAlone (layout : Layout α) (keys : Nat → Key) {position : Nat}
    (hat : document.at? (path ++ [position]) = some (.ofExpression e)) :
    ∃ top, (layout.document keys document).DrawsAlone layout path position e top := by
  obtain ⟨anchor, start, hrun, hedges⟩ := layout.exists_part keys hat
  have hhead : (layout.place (idOfPath (path ++ [position])) anchor e).placements.head? =
      some ⟨idOfPath (path ++ [position]), e, anchor⟩ :=
    layout.head?_placeArgument (.ofExpression e) _ anchor
  have hbelow (below : List Nat) : path ++ [position] ++ below = path ++ position :: below := by
    rw [List.append_assoc, List.singleton_append]
  refine ⟨layout.node ⟨idOfPath (path ++ [position]), e, anchor⟩ (keys (start + 0)), ?_, ?_, ?_, ?_,
    ?_, ?_⟩
  · refine hrun.subset (List.mem_of_head? ?_)
    rw [layout.head?_nodes, hhead]
    rfl
  · exact idOfPath_concat path position
  · refine ⟨_, hrun, ?_, ?_⟩
    · intro node hnode
      rw [mem_nodes_place_iff hat hrun hnode]
      simp only [hbelow]
    · intro later
      rw [argument_ofExpression, ← idOfPath_concat]
      exact layout.nodes_alike _ later _
  · refine ⟨_, hedges, ?_, ?_⟩
    · intro edge hedge
      rw [mem_edges_place_iff hat hedge]
      simp only [hbelow]
    · intro later
      rw [argument_ofExpression, ← idOfPath_concat]
      rfl
  · intro later parent other
    rw [argument_ofExpression, layout.head?_nodes]
    exact congrArg _ (layout.head?_placeArgument (.ofExpression e) _ other)
  · intro i child hfirst
    obtain ⟨x, hplacement⟩ := layout.exists_mem_place hfirst (idOfPath (path ++ [position])) anchor
    obtain ⟨key, hmem⟩ := layout.exists_node_of_mem hplacement fun i => keys (start + i)
    exact ⟨_, hrun.subset hmem, rfl, rfl⟩

/-- A part of a document that has a part of its own, and others beside it. -/
theorem drawsAlone_branching :
    let layout : Layout Float := ⟨Registry.standard, LayoutConfig.standard⟩
    let inner : Expression := ⟨"custom", [.literal (.text "key"), .nested "not" []]⟩
    branching.at? ([0] ++ [0]) = some (.ofExpression inner) ∧
      ∃ top, (layout.document Key.ofNat branching).DrawsAlone layout [0] 0 inner top :=
  ⟨rfl, document_drawsAlone _ Key.ofNat rfl⟩

end Layout

end RuleGraph
