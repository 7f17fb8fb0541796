import RuleGraph.Proofs.Occurrences
import RuleGraph.Proofs.RoundTrip

/-!
# What a relayout keeps

A relayout is granted exactly if there is a document to draw, and it shows that document again,
whatever stands beside the drawing: what is drawn never leads out of the drawing. Beside it are the
nodes that no root leads to, with the edges among them, each node once and under its own id unless
the drawing takes the id. Nodes with the id of the placeholder are lost, although any node can be
given that id.
-/

namespace RuleGraph

namespace Graph

variable {α : Type} {graph : Graph α}

/-! ## Graphs side by side -/

theorem agrees_beside {left right : Graph α} (hleft : left.WellWired)
    (hboth : (left.beside right).WellWired)
    (happart : ∀ node ∈ left.nodes, ∀ edge ∈ right.edges, edge.source ≠ node.id) :
    left.Agrees (left.beside right) fun id => ∃ node ∈ left.nodes, node.id = id where
  node := by
    intro id node _ hnode
    obtain ⟨hmem, hid⟩ := mem_of_lastNode? hnode
    have hfound : (left.beside right).lastNode? id = some node :=
      (lastNode?_eq_some_iff hboth.nodup_nodes).mpr ⟨List.mem_append_left _ hmem, hid⟩
    exact ⟨node, hfound, rfl, rfl⟩
  edge := by
    intro id position hid
    obtain ⟨node, hnode, rfl⟩ := hid
    apply Option.ext
    intro edge
    rw [lastEdgeFrom?_eq_some_iff hboth.nodup_outlets,
      lastEdgeFrom?_eq_some_iff hleft.nodup_outlets]
    constructor
    · rintro ⟨hmem, hsource, hslot⟩
      rcases List.mem_append.mp hmem with hin | hbeside
      · exact ⟨hin, hsource, hslot⟩
      · exact absurd hsource (happart node hnode edge hbeside)
    · rintro ⟨hmem, hends⟩
      exact ⟨List.mem_append_left _ hmem, hends⟩
  closed := by
    intro id position edge _ hedge
    exact hleft.target_mem edge (mem_of_lastEdgeFrom? hedge).1

/-- What stands beside a graph and adds no root plays no part in its document. -/
theorem document_beside {left right : Graph α} (hleft : left.WellWired)
    (hboth : (left.beside right).WellWired) (hcounts : (left.beside right).CountsPlaces)
    (happart : ∀ node ∈ left.nodes, ∀ edge ∈ right.edges, edge.source ≠ node.id)
    (hroots : right.roots = []) {document : Document} (hdocument : left.document = .ok document) :
    (left.beside right).document = .ok document := by
  have hagrees := agrees_beside hleft hboth happart
  obtain ⟨hlength, hunfolds⟩ := unfolds_of_document hdocument
  have hsame : (left.beside right).roots = left.roots := by
    rw [beside, hroots, List.append_nil]
  rw [hcounts.document_eq_ok_iff, hsame]
  refine ⟨hlength, ?_⟩
  intro i root e hroot he
  obtain ⟨node, hnode, hid, _⟩ := hleft.root_mem root (List.mem_of_getElem? hroot)
  exact (hunfolds i root e hroot he).transfer hagrees ⟨node, hnode, hid⟩

/-! ## Keys of a drawing -/

theorem carryKey_eq (keys : List (List Nat × Key)) (node : Node α) :
    carryKey keys node = { node with key := (carryKey keys node).key } := by
  unfold carryKey
  split
  · rfl
  · split
    · rfl
    · rfl

theorem exists_map_nodes [Scalar α] {f : Node α → Node α}
    (hf : ∀ node, f node = { node with key := (f node).key }) (layout : Layout α) (keys : Nat → Key)
    (placements : List (Placement α)) :
    ∃ other, (layout.nodes keys placements).map f = layout.nodes other placements := by
  refine ⟨fun i => ((placements[i]?.map fun placement =>
    (f (layout.node placement (keys i))).key).getD (keys i)), ?_⟩
  rw [Layout.nodes, Layout.nodes, List.map_map]
  apply List.map_congr_left
  intro entry hentry
  rw [List.mem_zipIdx_iff_getElem?] at hentry
  rw [Function.comp_apply, hf, hentry]
  rfl

/-- To carry keys over to a drawing is to draw with other keys. -/
theorem exists_carryKeys_document [Scalar α] (layout : Layout α) (keys : Nat → Key)
    (noted : List (List Nat × Key)) (document : Document) :
    ∃ other, (layout.document keys document).carryKeys noted = layout.document other document := by
  by_cases hempty : document = []
  · subst hempty
    have hnode := carryKey_eq noted (Node.placeholder layout.config (keys 0) layout.config.origin)
    refine ⟨fun _ =>
      (carryKey noted (Node.placeholder layout.config (keys 0) layout.config.origin)).key, ?_⟩
    rw [carryKeys, Layout.document, List.map_singleton, hnode]
    rfl
  · obtain ⟨other, hother⟩ := exists_map_nodes (carryKey_eq noted) layout keys
      (layout.placeAll layout.config.origin.y 0 document).placements
    refine ⟨other, ?_⟩
    rw [Layout.document_of_ne_nil hempty, Layout.document_of_ne_nil hempty, carryKeys, hother]

/-! ## What is drawn again -/

/-- The relaid graph shows the document that it was drawn from. -/
theorem document_relaid {layout : Layout Float} {graph : Graph Float} (h : graph.WellWired)
    (hmade : graph.AllMade layout) (keys : Nat → Key) {ids : Nat → String}
    (hfresh : graph.Fresh ids) {trace : Trace} (htrace : graph.trace = .ok trace) :
    (graph.relaid layout keys ids trace).document = .ok trace.expressions := by
  have hdocument : graph.document = .ok trace.expressions :=
    document_eq_ok_iff_trace.mpr ⟨trace, htrace, rfl⟩
  have hnamed : trace.expressions.firstUnnamed? = none :=
    Document.firstUnnamed?_eq_none_iff.mpr (named_of_document hdocument)
  have hdrawn : (redrawn layout keys trace).document = .ok trace.expressions := by
    obtain ⟨other, hother⟩ := exists_carryKeys_document layout keys trace.keys trace.expressions
    rw [redrawn, hother, Layout.document_document, hnamed]
  have hwired := h.relaid layout keys hfresh trace
  have hcounts := (hmade.relaid keys ids trace).countsPlaces
  rw [relaid_eq h] at hwired hcounts ⊢
  refine document_beside (wellWired_redrawn layout keys trace) hwired hcounts ?_ rfl hdrawn
  intro node hnode edge hedge hsource
  obtain ⟨kept, hkept, hid, _⟩ := (h.moved layout keys hfresh trace).source_mem edge hedge
  exact redrawn_apart_moved h layout keys hfresh trace node hnode kept hkept
    (hid.trans hsource).symm

/-! ## What is kept -/

/-- No root leads to the id, and it is not the id of the placeholder. -/
def isLoose (graph : Graph α) (id : String) : Bool :=
  !(graph.roots.any fun root => graph.reaches root id) && id != rootId

/-- The nodes of loose ids, with the edges among them. -/
def loose (graph : Graph α) : Graph α :=
  ⟨graph.nodes.filter fun node => graph.isLoose node.id,
    graph.edges.filter fun edge => graph.isLoose edge.source && graph.isLoose edge.target, []⟩

theorem any_reaches_iff {id : String} :
    (graph.roots.any fun root => graph.reaches root id) = true ↔ graph.Rooted id := by
  rw [List.any_eq_true, Rooted]
  exact exists_congr fun root => and_congr_right fun _ => reaches_iff

theorem WellWired.outside_eq (h : graph.WellWired) {trace : Trace}
    (htrace : graph.trace = .ok trace) :
    graph.outside trace.visited = graph.loose := by
  have hsame : isDetached trace.visited = graph.isLoose := by
    funext id
    have hvisited : trace.visited.contains id =
        graph.roots.any fun root => graph.reaches root id := by
      rw [Bool.eq_iff_iff, List.contains_iff_mem, h.visited_iff htrace, any_reaches_iff]
    rw [isDetached, isLoose, hvisited]
  rw [Graph.outside, detached, hsame, loose]

/-- A relaid graph is a drawing of the document beside what is loose, under new ids where the
drawing takes the old ones. -/
theorem WellWired.exists_relaid_eq [Scalar α] (h : graph.WellWired) (layout : Layout α)
    (keys : Nat → Key) (ids : Nat → String) {trace : Trace} (htrace : graph.trace = .ok trace) :
    ∃ drawnKeys newId,
      graph.relaid layout keys ids trace =
        (layout.document drawnKeys trace.expressions).beside (graph.loose.renameIds newId) ∧
      ∀ node ∈ graph.loose.nodes,
        if node.id ∈ (layout.document drawnKeys trace.expressions).nodes.map Node.id then
          ∃ n, newId node.id = ids n
        else newId node.id = node.id := by
  obtain ⟨drawnKeys, hdrawn⟩ :=
    exists_carryKeys_document layout keys trace.keys trace.expressions
  have hloose := h.outside_eq htrace
  have htaken : (layout.document drawnKeys trace.expressions).nodes.map Node.id =
      (layout.document keys trace.expressions).nodes.map Node.id := by
    rw [← hdrawn, map_id_carryKeys]
  refine ⟨drawnKeys, rehomed (renamings
    ((layout.document drawnKeys trace.expressions).nodes.map Node.id) ids
    (graph.detached trace.visited)), ?_, ?_⟩
  · rw [relaid_eq h, redrawn, hdrawn, Graph.moved, hloose, htaken]
  · intro node hnode
    rw [← hloose] at hnode
    exact rehomed_cases (nodup_detached h trace.visited) hnode

end Graph

namespace Session

variable {layout : Layout Float} {session next : Session}

theorem relayout_graph (h : session.relayout = (next, .ok ())) :
    ∃ trace, session.graph.trace = .ok trace ∧ next.graph =
      session.graph.relaid session.layout session.freshKeys session.freshIds trace := by
  obtain ⟨trace, htrace, _, hgraphs⟩ := relayout_eq_ok h
  exact ⟨trace, htrace, (List.cons.inj hgraphs).1⟩

theorem exists_relayout_iff :
    (∃ next, session.relayout = (next, .ok ())) ↔ ∃ document, session.document = .ok document := by
  rw [Session.relayout, Session.document, Graph.document]
  cases session.graph.trace with
  | error e =>
      constructor
      · rintro ⟨next, hnext⟩
        cases hnext
      · rintro ⟨document, hdocument⟩
        cases hdocument
  | ok trace => exact ⟨fun _ => ⟨_, rfl⟩, fun _ => ⟨_, rfl⟩⟩

/-- A relayout is granted exactly if there is a document, and shows the same document after it. -/
theorem Reached.relayout_document (h : session.Reached layout Admits)
    (hfresh : session.graph.Fresh session.freshIds) :
    (∀ next, session.relayout = (next, .ok ()) →
      ∃ document, session.document = .ok document ∧ next.document = .ok document) ∧
    ((∃ next, session.relayout = (next, .ok ())) ↔
      ∃ document, session.document = .ok document) := by
  refine ⟨?_, exists_relayout_iff⟩
  intro next hnext
  obtain ⟨hwired, hmade⟩ := h.graph_wired_made
  obtain ⟨trace, htrace, hgraph⟩ := relayout_graph hnext
  refine ⟨trace.expressions, ?_, ?_⟩
  · rw [document_eq_ok]
    exact Graph.document_eq_ok_iff_trace.mpr ⟨trace, htrace, rfl⟩
  · rw [document_eq_ok, hgraph, h.layout_eq]
    exact Graph.document_relaid hwired hmade _ hfresh htrace

/-- A session with a node outside its document under an id that the next drawing takes. -/
def displaced : Session :=
  ((start numberedSupply ⟨Registry.standard, LayoutConfig.standard⟩).perform
    (.loadDocument [⟨"IF", []⟩, ⟨"and", []⟩])).perform
      (.apply (.removeRoot "root.0"))

theorem reached_displaced :
    displaced.Reached ⟨Registry.standard, LayoutConfig.standard⟩ Admits :=
  .perform _ (.perform _ (.start numberedSupply) trivial) trivial

theorem fresh_displaced : displaced.graph.Fresh displaced.freshIds := by
  refine fresh_numbered displaced rfl ?_
  intro node hnode
  have hdrawn : node ∈ ((⟨Registry.standard, LayoutConfig.standard⟩ : Layout Float).document
      (fun n => Key.ofNat (1 + n)) [⟨"IF", []⟩, ⟨"and", []⟩]).nodes := hnode
  exact Layout.exists_path_of_mem_nodes_document hdrawn

/-- The document stays although its drawing takes the id of the node outside it. -/
theorem displaced_document :
    displaced.Reached ⟨Registry.standard, LayoutConfig.standard⟩ Admits ∧
      displaced.graph.Fresh displaced.freshIds ∧
      ∃ next, displaced.relayout = (next, .ok ()) ∧ next.document = .ok [⟨"and", []⟩] := by
  have hdocument : displaced.document = .ok [⟨"and", []⟩] := rfl
  obtain ⟨hkept, hgranted⟩ := Reached.relayout_document reached_displaced fresh_displaced
  obtain ⟨next, hnext⟩ := hgranted.mpr ⟨_, hdocument⟩
  obtain ⟨document, hbefore, hafter⟩ := hkept next hnext
  rw [hdocument] at hbefore
  cases hbefore
  exact ⟨reached_displaced, fresh_displaced, next, hnext, hafter⟩

/-- A relayout shows a drawing of the document and, beside it, the loose nodes and the edges among
them as they were: under their old ids, except that a node whose id is drawn takes a fresh one. -/
theorem Reached.relayout_keeps (h : session.Reached layout Admits)
    (hfresh : session.graph.Fresh session.freshIds) (hnext : session.relayout = (next, .ok ())) :
    ∃ document keys newId, session.document = .ok document ∧
      next.graph =
        (layout.document keys document).beside (session.graph.loose.renameIds newId) ∧
      (next.graph.nodes.map Node.id).Nodup ∧
      ∀ node ∈ session.graph.loose.nodes,
        if node.id ∈ (layout.document keys document).nodes.map Node.id then
          ∃ n, newId node.id = session.freshIds n
        else newId node.id = node.id := by
  have hwired := h.graph_wired
  obtain ⟨trace, htrace, hgraph⟩ := relayout_graph hnext
  rw [h.layout_eq] at hgraph
  have hrelaid := hwired.relaid layout session.freshKeys hfresh trace
  obtain ⟨keys, newId, hsame, hids⟩ := hwired.exists_relaid_eq layout session.freshKeys
    session.freshIds htrace
  refine ⟨trace.expressions, keys, newId, ?_, hgraph.trans hsame, ?_, hids⟩
  · rw [document_eq_ok]
    exact Graph.document_eq_ok_iff_trace.mpr ⟨trace, htrace, rfl⟩
  · rw [hgraph]
    exact hrelaid.nodup_nodes

/-- The node outside the document is kept beside the drawing that takes its id. -/
theorem displaced_kept :
    displaced.Reached ⟨Registry.standard, LayoutConfig.standard⟩ Admits ∧
      displaced.graph.Fresh displaced.freshIds ∧
      ∃ next, displaced.relayout = (next, .ok ()) ∧ ∃ document keys newId,
        displaced.document = .ok document ∧
        next.graph = ((⟨Registry.standard, LayoutConfig.standard⟩ : Layout Float).document keys
          document).beside (displaced.graph.loose.renameIds newId) ∧
        displaced.graph.loose.nodes.map Node.id = ["root.0"] ∧
        ∃ n, newId "root.0" = displaced.freshIds n := by
  have hdocument : displaced.document = .ok [⟨"and", []⟩] := rfl
  have hloose : displaced.graph.loose.nodes.map Node.id = ["root.0"] := by rfl
  obtain ⟨next, hnext⟩ := exists_relayout_iff.mpr ⟨_, hdocument⟩
  obtain ⟨document, keys, newId, hbefore, hgraph, _, hids⟩ :=
    Reached.relayout_keeps reached_displaced
    fresh_displaced hnext
  refine ⟨reached_displaced, fresh_displaced, next, hnext, document, keys, newId, hbefore, hgraph,
    hloose, ?_⟩
  rw [hdocument] at hbefore
  cases hbefore
  obtain ⟨node, hnode, hid⟩ : ∃ node ∈ displaced.graph.loose.nodes, node.id = "root.0" := by
    rw [← List.mem_map, hloose]
    exact List.mem_singleton.mpr rfl
  have hdrawn : node.id ∈ ((⟨Registry.standard, LayoutConfig.standard⟩ : Layout Float).document keys
      [⟨"and", []⟩]).nodes.map Node.id := by
    rw [hid]
    exact List.mem_singleton.mpr rfl
  have hfound := hids node hnode
  rwa [if_pos hdrawn, hid] at hfound

/-- A session with an operation outside its document that was named like the placeholder. -/
def misnamed : Session :=
  ((start numberedSupply ⟨Registry.standard, LayoutConfig.standard⟩).perform
    (.loadDocument [⟨"IF", []⟩])).perform
      (.apply (.addOperationNode "not" ⟨0.0, 200.0⟩ (some "root")))

/-- The operation is lost, although it is no placeholder and no root leads to it. -/
theorem misnamed_lost :
    misnamed.Reached ⟨Registry.standard, LayoutConfig.standard⟩ Admits ∧
      misnamed.graph.Fresh misnamed.freshIds ∧
      (∃ node ∈ misnamed.graph.nodes, node.name? = some "not" ∧ node.id = "root" ∧
        node.key = Key.ofNat 2 ∧ ¬ misnamed.graph.Rooted node.id) ∧
      ∃ next, misnamed.relayout = (next, .ok ()) ∧ next.graph.nodes.map Node.id = ["root.0"] ∧
        Key.ofNat 2 ∉ next.graph.nodes.map Node.key := by
  have hreached : misnamed.Reached ⟨Registry.standard, LayoutConfig.standard⟩ Admits :=
    .perform _ (.perform _ (.start numberedSupply) trivial) trivial
  have hids : misnamed.graph.nodes.map Node.id = ["root.0", "root"] := rfl
  have hfresh : misnamed.graph.Fresh misnamed.freshIds := by
    refine fresh_numbered misnamed rfl ?_
    intro node hnode
    have hid := List.mem_map_of_mem (f := Node.id) hnode
    rw [hids, List.mem_cons, List.mem_singleton] at hid
    rcases hid with hfirst | hsecond
    · exact ⟨[0], hfirst⟩
    · exact ⟨[], hsecond⟩
  have hunrooted : ¬ misnamed.graph.Rooted "root" := by
    have hunreached :
        (misnamed.graph.roots.any fun root => misnamed.graph.reaches root "root") = false := rfl
    rw [← Graph.any_reaches_iff, hunreached]
    exact Bool.false_ne_true
  refine ⟨hreached, hfresh, ?_, _, rfl, rfl, ?_⟩
  · have hnode : misnamed.graph.nodes[1]? = some (Node.operation Registry.standard
        LayoutConfig.standard "root" (Key.ofNat 2) "not" ⟨0.0, 200.0⟩) := rfl
    exact ⟨_, List.mem_of_getElem? hnode, rfl, rfl, rfl, hunrooted⟩
  · decide

end Session

end RuleGraph
