import RuleGraph.Proofs.Carrying

/-!
# Relayouts after relayouts

A relaid graph is laid out again as it is. Its document is drawn under the same ids, and each
operation finds its key under the path that its id spells. What stands beside the drawing is what no
root leads to, so that it is set aside once more, and as the drawing takes none of its ids, nothing
is renamed: no fresh id is used. Only the placeholder is under no path, and takes a new key each
time.
-/

namespace RuleGraph

namespace Graph

variable {α : Type} {graph drawn kept : Graph α}

/-! ## What is set aside -/

/-- The graph can stand beside a drawing: it has no root, and no id of the drawing or of the
placeholder. -/
structure Aside (kept drawn : Graph α) : Prop where
  wired : kept.WellWired
  roots_eq : kept.roots = []
  apart : ∀ node ∈ drawn.nodes, ∀ other ∈ kept.nodes, node.id ≠ other.id
  ne_root : ∀ node ∈ kept.nodes, node.id ≠ rootId

/-- Roots do not lead out of a drawing. -/
theorem Aside.drawn_of_rooted (h : kept.Aside drawn) (hdrawn : drawn.WellWired) {id : String}
    (hrooted : (drawn.beside kept).Rooted id) : ∃ node ∈ drawn.nodes, node.id = id := by
  obtain ⟨root, hroot, hleads⟩ := hrooted
  induction hleads with
  | refl =>
      rw [beside, h.roots_eq, List.append_nil] at hroot
      obtain ⟨node, hnode, hid, _⟩ := hdrawn.root_mem root hroot
      exact ⟨node, hnode, hid⟩
  | tail _ hstep ih =>
      obtain ⟨edge, hedge, hsource, rfl⟩ := hstep
      obtain ⟨node, hnode, hid⟩ := ih
      rcases List.mem_append.mp hedge with hin | hbeside
      · exact hdrawn.target_mem edge hin
      · obtain ⟨other, hother, hotherId, _⟩ := h.wired.source_mem edge hbeside
        exact absurd (hid.trans (hsource.symm.trans hotherId.symm))
          (h.apart node hnode other hother)

theorem Aside.isLoose (h : kept.Aside drawn) (hdrawn : drawn.WellWired) {node : Node α}
    (hnode : node ∈ kept.nodes) : (drawn.beside kept).isLoose node.id = true := by
  rw [Graph.isLoose, Bool.and_eq_true, Bool.not_eq_true', bne_iff_ne, ← Bool.not_eq_true,
    any_reaches_iff]
  refine ⟨?_, h.ne_root node hnode⟩
  intro hrooted
  obtain ⟨other, hother, hid⟩ := h.drawn_of_rooted hdrawn hrooted
  exact h.apart other hother node hnode hid

theorem filter_append_eq_right {β : Type} {p : β → Bool} {ls rs : List β}
    (hls : ∀ x ∈ ls, p x = false) (hrs : ∀ x ∈ rs, p x = true) : (ls ++ rs).filter p = rs := by
  have hdrop : ls.filter p = [] :=
    List.filter_eq_nil_iff.mpr fun x hx => (hls x hx).symm ▸ Bool.false_ne_true
  rw [List.filter_append, hdrop, List.nil_append, List.filter_eq_self.mpr hrs]

/-- What stands beside a drawing is what is loose. -/
theorem Aside.loose_eq (h : kept.Aside drawn) (hdrawn : drawn.WellWired)
    (hbound : ∀ node ∈ drawn.nodes, (drawn.beside kept).isLoose node.id = false) :
    (drawn.beside kept).loose = kept := by
  have hnodes : (drawn.beside kept).loose.nodes = kept.nodes :=
    filter_append_eq_right hbound fun node hnode => h.isLoose hdrawn hnode
  have hedges : (drawn.beside kept).loose.edges = kept.edges := by
    refine filter_append_eq_right ?_ ?_
    · intro edge hedge
      obtain ⟨node, hnode, hsource, _⟩ := hdrawn.source_mem edge hedge
      rw [← hsource, hbound node hnode, Bool.false_and]
    · intro edge hedge
      obtain ⟨node, hnode, hsource, _⟩ := h.wired.source_mem edge hedge
      obtain ⟨other, hother, htarget⟩ := h.wired.target_mem edge hedge
      rw [← hsource, ← htarget, h.isLoose hdrawn hnode, h.isLoose hdrawn hother, Bool.and_self]
  calc (drawn.beside kept).loose
      = ⟨kept.nodes, kept.edges, []⟩ := congrArg₂ (Graph.mk · · []) hnodes hedges
    _ = kept := by rw [← h.roots_eq]

theorem renameIds_eq_self (h : graph.WellWired) (hroots : graph.roots = []) {ρ : String → String}
    (hρ : ∀ node ∈ graph.nodes, ρ node.id = node.id) : graph.renameIds ρ = graph := by
  have hnodes : graph.nodes.map (fun node => { node with id := ρ node.id }) = graph.nodes := by
    refine (List.map_congr_left ?_).trans (List.map_id _)
    intro node hnode
    rw [hρ node hnode]
    rfl
  have hedges : (graph.edges.map fun edge => Edge.link (ρ edge.source) edge.slot (ρ edge.target)) =
      graph.edges := by
    refine (List.map_congr_left ?_).trans (List.map_id _)
    intro edge hedge
    obtain ⟨node, hnode, hsource, _⟩ := h.source_mem edge hedge
    obtain ⟨other, hother, htarget⟩ := h.target_mem edge hedge
    rw [← hsource, ← htarget, hρ node hnode, hρ other hother, hsource, htarget, Edge.link,
      ← h.edge_id edge hedge]
    rfl
  rw [renameIds, hnodes, hedges, ← hroots]

theorem carryKey_nil (node : Node α) : carryKey [] node = node := by
  unfold carryKey
  split <;> rfl

/-! ## Drawings beside other graphs -/

section

variable [Scalar α] {layout : Layout α} {keys : Nat → Key} {document : Document}

theorem map_id_document_eq (layout : Layout α) (keys other : Nat → Key) (document : Document) :
    (layout.document keys document).nodes.map Node.id =
      (layout.document other document).nodes.map Node.id := by
  by_cases hempty : document = []
  · subst hempty
    rfl
  · rw [Layout.map_id_document layout keys hempty, Layout.map_id_document layout other hempty]

/-- The path of an operation leads to the node that is drawn for it. -/
theorem nodeAt?_beside_document (h : ((layout.document keys document).beside kept).WellWired)
    {path : List Nat} {e : Expression} (hat : document.at? path = some (.ofExpression e)) :
    ((layout.document keys document).beside kept).nodeAt? path = some (idOfPath path) := by
  induction path using List.reverseRecOn generalizing e with
  | nil => cases hat
  | append_singleton path position ih =>
      by_cases hpath : path = []
      · subst hpath
        obtain ⟨top, htop, _⟩ := Option.bind_eq_some_iff.mp hat
        have hindex : position < document.length := (List.getElem?_eq_some_iff.mp htop).1
        have hroot : (layout.document keys document).roots[position]? =
            some (childId rootId position) := by
          rw [Layout.roots_document, List.getElem?_map, List.getElem?_range hindex, Option.map_some]
        rw [List.nil_append, nodeAt?_singleton, beside]
        dsimp only
        rw [List.getElem?_append_left (List.getElem?_eq_some_iff.mp hroot).1, hroot]
        rfl
      · obtain ⟨parent, hparent, _⟩ := Document.at?_concat_eq_some hpath hat
        have hwire : wireBelow rootId (path, position) ∈
            ((layout.document keys document).beside kept).edges := by
          refine List.mem_append_left _ ?_
          rw [Layout.edges_document]
          exact List.mem_map_of_mem (Document.mem_wires.mpr ⟨hpath, e, hat⟩)
        exact h.nodeAt?_target hwire (ih hparent)

theorem isLoose_document (h : ((layout.document keys document).beside kept).WellWired)
    {node : Node α} (hnode : node ∈ (layout.document keys document).nodes) :
    ((layout.document keys document).beside kept).isLoose node.id = false := by
  by_cases hempty : document = []
  · subst hempty
    rw [List.mem_singleton.mp hnode, isLoose, show (Node.placeholder _ _ _).id = rootId from rfl,
      bne_self_eq_false, Bool.and_false]
  · obtain ⟨path, e, hat, _, _, hdraws⟩ := Layout.mem_nodes_document hempty hnode
    have hid : node.id = idOfPath path := by rw [hdraws]; rfl
    rw [isLoose, hid, any_reaches_iff.mpr (rooted_of_nodeAt? (nodeAt?_beside_document h hat)),
      Bool.not_true, Bool.false_and]

/-! ## Relayouts of relaid graphs -/

/-- What has been set aside is set aside again, under the same ids. -/
theorem Aside.relaid_eq (h : kept.Aside (layout.document keys document)) {trace : Trace}
    (htrace : ((layout.document keys document).beside kept).trace = .ok trace)
    (hsame : trace.expressions = document) (other : Nat → Key) (ids : Nat → String) :
    ((layout.document keys document).beside kept).relaid layout other ids trace =
      (redrawn layout other trace).beside kept := by
  have hdrawn := wellWired_document layout keys document
  have hwired := hdrawn.beside h.wired h.apart
  have houtside : ((layout.document keys document).beside kept).outside trace.visited = kept :=
    (hwired.outside_eq htrace).trans
      (h.loose_eq hdrawn fun node hnode => isLoose_document hwired hnode)
  have hmoved : ((layout.document keys document).beside kept).moved layout other ids trace =
      kept := by
    rw [moved, houtside]
    refine renameIds_eq_self h.wired h.roots_eq ?_
    intro node hnode
    have hfree : node.id ∉ (layout.document other trace.expressions).nodes.map Node.id := by
      rw [hsame, map_id_document_eq layout other keys]
      intro hmem
      obtain ⟨drawn, hdrawn, hid⟩ := List.mem_map.mp hmem
      exact h.apart drawn hdrawn node hnode hid
    rw [← houtside] at hnode
    exact rehomed_of_free (nodup_detached hwired trace.visited) hnode hfree
  rw [Graph.relaid_eq hwired, hmoved]

/-- An operation finds its key under the path that its id spells. -/
theorem redrawn_eq_document (h : ((layout.document keys document).beside kept).WellWired)
    {trace : Trace} (htrace : ((layout.document keys document).beside kept).trace = .ok trace)
    (hsame : trace.expressions = document) (hdocument : document ≠ [])
    (hwords : document.PathsInWords) (other : Nat → Key) :
    redrawn layout other trace = layout.document keys document := by
  rw [redrawn, hsame, carryKeys, Layout.document_of_ne_nil hdocument,
    Layout.document_of_ne_nil hdocument]
  dsimp only
  congr 1
  rw [Layout.nodes, Layout.nodes, List.map_map]
  apply List.map_congr_left
  intro entry hentry
  have hplacement : entry.1 ∈ (layout.placeAll layout.config.origin.y 0 document).placements :=
    List.mem_of_getElem? (List.mem_zipIdx_iff_getElem?.mp hentry)
  obtain ⟨operation, hoperation, hspot⟩ := List.mem_map.mp
    (layout.spots_placeAll document _ ▸ List.mem_map_of_mem (f := Placement.spot) hplacement)
  have hid : entry.1.id = idOfPath operation.1 := (Prod.mk.inj hspot).1.symm
  have hnode : layout.node entry.1 (keys entry.2) ∈
      ((layout.document keys document).beside kept).nodes := by
    refine List.mem_append_left _ ?_
    rw [Layout.document_of_ne_nil hdocument]
    exact List.mem_map_of_mem hentry
  have hpath := nodeAt?_beside_document h (Document.mem_operations.mp hoperation)
  rw [← hid] at hpath
  have hlookup := h.lookup_keys htrace hnode rfl hpath
  exact carryKey_of_lookup hid (hwords operation hoperation) hlookup

/-- No key is noted for an empty document. -/
theorem redrawn_nil {trace : Trace} (htrace : graph.trace = .ok trace)
    (hempty : trace.expressions = []) (layout : Layout α) (other : Nat → Key) :
    redrawn layout other trace = layout.document other [] := by
  have hkeys : trace.keys = [] := by
    rw [← List.map_eq_nil_iff (f := Prod.fst), map_fst_trace_keys htrace, hempty]
    rfl
  rw [redrawn, hempty, hkeys, carryKeys, Layout.document, List.map_singleton, carryKey_nil]

/-- What a relayout keeps can stand beside what it draws. -/
theorem WellWired.moved_aside (h : graph.WellWired) (layout : Layout α) (keys : Nat → Key)
    {ids : Nat → String} (hfresh : graph.Fresh ids) (trace : Trace) :
    (graph.moved layout keys ids trace).Aside (redrawn layout keys trace) where
  wired := h.moved layout keys hfresh trace
  roots_eq := rfl
  apart := redrawn_apart_moved h layout keys hfresh trace
  ne_root := by
    intro node hnode
    obtain ⟨old, hold, rfl⟩ := List.mem_map.mp hnode
    have hdetached := (List.mem_filter.mp hold).2
    rw [isDetached, Bool.and_eq_true, bne_iff_ne] at hdetached
    exact rehomed_ne (nodup_detached h trace.visited) hold (fun n => hfresh.ne_path n [])
      hdetached.2

end

end Graph

namespace Session

variable {layout : Layout Float} {session next : Session}

/-- After a relayout another one is granted and shows the same graph; where there is no expression,
it shows the placeholder under a new key, and all else as it was. -/
theorem Reached.relayout_relayout (h : session.Reached layout Admits)
    (hfresh : session.graph.Fresh session.freshIds) (hnext : session.relayout = (next, .ok ())) :
    ∃ document last, session.document = .ok document ∧ next.relayout = (last, .ok ()) ∧
      (document ≠ [] → document.PathsInWords → last.graph = next.graph) ∧
      (document = [] → ∃ kept : Graph Float,
        next.graph = (layout.document session.freshKeys []).beside kept ∧
        last.graph = (layout.document next.freshKeys []).beside kept) := by
  obtain ⟨hwired, hmade⟩ := h.graph_wired_made
  obtain ⟨trace, htrace, hgraph⟩ := relayout_graph hnext
  obtain ⟨_, _, hsucceeds, _⟩ := relayout_eq_ok hnext
  have hlayout : next.layout = layout := hsucceeds.layout_eq.trans h.layout_eq
  rw [h.layout_eq] at hgraph
  have hdocument : next.graph.document = .ok trace.expressions :=
    hgraph ▸ Graph.document_relaid hwired hmade session.freshKeys hfresh htrace
  have haside := hwired.moved_aside layout session.freshKeys hfresh trace
  rw [Graph.relaid_eq hwired] at hgraph
  -- how the kept nodes have come by their ids plays no part in the second relayout
  generalize session.graph.moved layout session.freshKeys session.freshIds trace = kept
    at hgraph haside
  obtain ⟨last, hlast⟩ := exists_relayout_iff.mpr ⟨_, document_eq_ok.mpr hdocument⟩
  obtain ⟨again, hagain, hlastGraph⟩ := relayout_graph hlast
  obtain ⟨_, hagain', hsame⟩ := Graph.document_eq_ok_iff_trace.mp hdocument
  cases hagain.symm.trans hagain'
  rw [hlayout] at hlastGraph
  refine ⟨trace.expressions, last, document_eq_ok.mpr
    (Graph.document_eq_ok_iff_trace.mpr ⟨trace, htrace, rfl⟩), hlast, ?_, ?_⟩
  · intro hne hpaths
    obtain ⟨keys, hkeys⟩ := Graph.exists_carryKeys_document layout session.freshKeys trace.keys
      trace.expressions
    rw [Graph.redrawn, hkeys] at hgraph haside
    rw [hgraph] at hagain hlastGraph ⊢
    rw [hlastGraph, haside.relaid_eq hagain hsame, Graph.redrawn_eq_document
      ((Graph.wellWired_document _ _ _).beside haside.wired haside.apart) hagain hsame hne hpaths]
  · intro hempty
    rw [Graph.redrawn_nil htrace hempty] at hgraph haside
    rw [hempty] at hsame
    refine ⟨kept, hgraph, ?_⟩
    rw [hgraph] at hagain hlastGraph
    rw [hlastGraph, haside.relaid_eq hagain hsame, Graph.redrawn_nil hagain hsame]

/-- The node that the first relayout has given a fresh id keeps it in the second one. -/
theorem displaced_settled :
    displaced.Reached ⟨Registry.standard, LayoutConfig.standard⟩ Admits ∧
      displaced.graph.Fresh displaced.freshIds ∧
      ∃ next last, displaced.relayout = (next, .ok ()) ∧ next.relayout = (last, .ok ()) ∧
        next.graph.nodes.map Node.id = ["root.0", "#1"] ∧ last.graph = next.graph := by
  have hdocument : displaced.document = .ok [⟨"and", []⟩] := rfl
  have hpaths : Document.PathsInWords [⟨"and", []⟩] := by
    simp [Document.PathsInWords, Document.operations, Argument.ofExpression,
      Argument.operationsFrom, Argument.operations, UInt64.size]
  obtain ⟨next, hnext⟩ := exists_relayout_iff.mpr ⟨_, hdocument⟩
  obtain ⟨_, last, hbefore, hlast, hsame, _⟩ := Reached.relayout_relayout reached_displaced
    fresh_displaced hnext
  rw [hdocument] at hbefore
  cases hbefore
  have hids : next.graph.nodes.map Node.id = ["root.0", "#1"] := by
    cases hnext
    rfl
  exact ⟨reached_displaced, fresh_displaced, next, last, hnext, hlast, hids,
    hsame (List.cons_ne_nil _ _) hpaths⟩

end Session

end RuleGraph
