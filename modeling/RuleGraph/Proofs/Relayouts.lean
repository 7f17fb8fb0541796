import RuleGraph.Proofs.Wiring
import RuleGraph.Registry.Standard

/-!
# Relayouts

A graph that is laid out again is a drawing beside the nodes outside the document, some of them
under new ids. Nothing is checked: that it is well wired rests on the ids of paths for what is
drawn, and on fresh ids for what is moved out of the way. With this, every graph of a session is
well wired.
-/

namespace RuleGraph

namespace Graph

variable {α : Type} {graph : Graph α}

/-! ## New ids for taken ones -/

/-- The id under which a kept node is found again. -/
def rehomed (table : Table String String) (id : String) : String :=
  (table.get? id).getD id

section Rehoming

variable {taken : List String} {freshIds : Nat → String} {nodes : List (Node α)}

/-- One step of noting the new ids. -/
def rename (taken : List String) (freshIds : Nat → String) (table : Table String String)
    (entry : Node α × Nat) : Table String String :=
  if taken.contains entry.1.id then table.put entry.1.id (freshIds entry.2) else table

theorem renamings_eq (taken : List String) (freshIds : Nat → String) (nodes : List (Node α)) :
    renamings taken freshIds nodes = nodes.zipIdx.foldl (rename taken freshIds) [] :=
  rfl

theorem get?_foldl_rename_of_not_mem {entries : List (Node α × Nat)} {id : String}
    (h : ∀ entry ∈ entries, entry.1.id ≠ id) (table : Table String String) :
    Table.get? (entries.foldl (rename taken freshIds) table) id = Table.get? table id := by
  induction entries generalizing table with
  | nil => rfl
  | cons first rest ih =>
      rw [List.foldl_cons, ih fun entry hentry => h entry (List.mem_cons_of_mem _ hentry), rename]
      split
      · rw [Table.get?_put, if_neg (h first List.mem_cons_self)]
      · rfl

theorem get?_foldl_rename {entries : List (Node α × Nat)}
    (hnodup : (entries.map fun entry => entry.1.id).Nodup) {entry : Node α × Nat}
    (hentry : entry ∈ entries) {table : Table String String}
    (hnew : Table.get? table entry.1.id = none) :
    Table.get? (entries.foldl (rename taken freshIds) table) entry.1.id =
      if taken.contains entry.1.id then some (freshIds entry.2) else none := by
  induction entries generalizing table with
  | nil => cases hentry
  | cons first rest ih =>
      rw [List.map_cons, List.nodup_cons] at hnodup
      rw [List.foldl_cons]
      rcases List.mem_cons.mp hentry with rfl | hrest
      · have hothers : ∀ other ∈ rest, other.1.id ≠ entry.1.id := by
          intro other hother heq
          exact hnodup.1 (heq ▸ List.mem_map_of_mem hother)
        rw [get?_foldl_rename_of_not_mem hothers, rename]
        split
        · rw [Table.get?_put_self]
        · exact hnew
      · have hne : first.1.id ≠ entry.1.id := by
          intro heq
          exact hnodup.1 (heq ▸ List.mem_map_of_mem hrest)
        refine ih hnodup.2 hrest ?_
        rw [rename]
        split
        · rw [Table.get?_put, if_neg hne]
          exact hnew
        · exact hnew

/-- A node whose id is taken is found under the fresh id of its place, any other under its own. -/
theorem rehomed_renamings (hnodup : (nodes.map Node.id).Nodup) {entry : Node α × Nat}
    (hentry : entry ∈ nodes.zipIdx) :
    rehomed (renamings taken freshIds nodes) entry.1.id =
      if taken.contains entry.1.id then freshIds entry.2 else entry.1.id := by
  have hids : (nodes.zipIdx.map fun entry => entry.1.id).Nodup := by
    rw [← List.zipIdx_map_fst 0 nodes, List.map_map] at hnodup
    exact hnodup
  rw [rehomed, renamings_eq, get?_foldl_rename hids hentry rfl]
  split <;> rfl

theorem rehoused_eq (hnodup : (nodes.map Node.id).Nodup) :
    rehoused taken freshIds nodes =
      nodes.map fun node =>
        { node with id := rehomed (renamings taken freshIds nodes) node.id } := by
  have hentries : ∀ entry ∈ nodes.zipIdx,
      (if taken.contains entry.1.id then { entry.1 with id := freshIds entry.2 } else entry.1) =
        { entry.1 with id := rehomed (renamings taken freshIds nodes) entry.1.id } := by
    intro entry hentry
    rw [rehomed_renamings hnodup hentry]
    split <;> rfl
  rw [rehoused, List.map_congr_left hentries]
  calc nodes.zipIdx.map (fun entry =>
        { entry.1 with id := rehomed (renamings taken freshIds nodes) entry.1.id })
      = (nodes.zipIdx.map Prod.fst).map fun node =>
          { node with id := rehomed (renamings taken freshIds nodes) node.id } := by
        rw [List.map_map]
        rfl
    _ = _ := by rw [List.zipIdx_map_fst]

theorem exists_mem_zipIdx {node : Node α} (h : node ∈ nodes) : ∃ i, (node, i) ∈ nodes.zipIdx := by
  obtain ⟨i, hi⟩ := List.mem_iff_getElem?.mp h
  exact ⟨i, List.mem_zipIdx_iff_getElem?.mpr hi⟩

theorem rehomed_cases (hnodup : (nodes.map Node.id).Nodup) {node : Node α} (hnode : node ∈ nodes) :
    if node.id ∈ taken then ∃ n, rehomed (renamings taken freshIds nodes) node.id = freshIds n
    else rehomed (renamings taken freshIds nodes) node.id = node.id := by
  obtain ⟨i, hi⟩ := exists_mem_zipIdx hnode
  have hid : rehomed (renamings taken freshIds nodes) node.id = _ := rehomed_renamings hnodup hi
  split
  · rename_i htaken
    exact ⟨i, hid.trans (if_pos (List.contains_iff_mem.mpr htaken))⟩
  · rename_i hfree
    exact hid.trans (if_neg fun hmem => hfree (List.contains_iff_mem.mp hmem))

theorem rehomed_of_free (hnodup : (nodes.map Node.id).Nodup) {node : Node α} (hnode : node ∈ nodes)
    (hfree : node.id ∉ taken) : rehomed (renamings taken freshIds nodes) node.id = node.id := by
  obtain ⟨i, hi⟩ := exists_mem_zipIdx hnode
  rw [rehomed_renamings hnodup hi, if_neg fun hmem => hfree (List.contains_iff_mem.mp hmem)]

theorem rehomed_ne (hnodup : (nodes.map Node.id).Nodup) {node : Node α} (hnode : node ∈ nodes)
    {id : String} (hfresh : ∀ n, freshIds n ≠ id) (hne : node.id ≠ id) :
    rehomed (renamings taken freshIds nodes) node.id ≠ id := by
  obtain ⟨i, hi⟩ := exists_mem_zipIdx hnode
  rw [rehomed_renamings hnodup hi]
  split
  · exact hfresh i
  · exact hne

theorem rehomed_not_mem (hnodup : (nodes.map Node.id).Nodup)
    (hfresh : ∀ n, freshIds n ∉ taken) {node : Node α} (hnode : node ∈ nodes) :
    rehomed (renamings taken freshIds nodes) node.id ∉ taken := by
  obtain ⟨i, hi⟩ := exists_mem_zipIdx hnode
  rw [rehomed_renamings hnodup hi]
  split
  · exact hfresh i
  · rename_i htaken
    simpa using htaken

theorem rehomed_inj (hnodup : (nodes.map Node.id).Nodup) (hinj : Function.Injective freshIds)
    (hunused : ∀ n, ∀ node ∈ nodes, node.id ≠ freshIds n) {node other : Node α}
    (hnode : node ∈ nodes) (hother : other ∈ nodes)
    (h : rehomed (renamings taken freshIds nodes) node.id =
      rehomed (renamings taken freshIds nodes) other.id) : node.id = other.id := by
  obtain ⟨i, hi⟩ := exists_mem_zipIdx hnode
  obtain ⟨j, hj⟩ := exists_mem_zipIdx hother
  rw [rehomed_renamings hnodup hi, rehomed_renamings hnodup hj] at h
  split at h
  · split at h
    · have hsame : i = j := hinj h
      subst hsame
      rw [List.mem_zipIdx_iff_getElem?] at hi hj
      have heq : node = other := Option.some.inj (hi.symm.trans hj)
      rw [heq]
    · exact absurd h.symm (hunused i other hother)
  · split at h
    · exact absurd h (hunused j node hnode)
    · exact h

end Rehoming

/-! ## The parts of a relayout -/

def beside (left right : Graph α) : Graph α :=
  ⟨left.nodes ++ right.nodes, left.edges ++ right.edges, left.roots ++ right.roots⟩

/-- What is told apart by nodes of different graphs is not repeated in both. -/
theorem nodup_append_of_apart {left right : Graph α}
    (happart : ∀ node ∈ left.nodes, ∀ other ∈ right.nodes, node.id ≠ other.id) {β : Type}
    {ls rs : List β} (home : β → String) (hls : ls.Nodup) (hrs : rs.Nodup)
    (hleft : ∀ x ∈ ls, ∃ node ∈ left.nodes, node.id = home x)
    (hright : ∀ x ∈ rs, ∃ node ∈ right.nodes, node.id = home x) : (ls ++ rs).Nodup := by
  refine List.Nodup.append hls hrs ?_
  intro x hl hr
  obtain ⟨node, hnode, hid⟩ := hleft x hl
  obtain ⟨other, hother, hid'⟩ := hright x hr
  exact happart node hnode other hother (hid.trans hid'.symm)

theorem WellWired.exists_home (h : graph.WellWired) {o : String × Nat}
    (ho : o ∈ graph.edges.map outlet) : ∃ node ∈ graph.nodes, node.id = o.1 := by
  obtain ⟨edge, hedge, rfl⟩ := List.mem_map.mp ho
  obtain ⟨node, hnode, hid, _⟩ := h.source_mem edge hedge
  exact ⟨node, hnode, hid⟩

theorem WellWired.exists_end (h : graph.WellWired) {id : String}
    (hid : id ∈ graph.edges.map Edge.target) : ∃ node ∈ graph.nodes, node.id = id := by
  obtain ⟨edge, hedge, rfl⟩ := List.mem_map.mp hid
  exact h.target_mem edge hedge

theorem WellWired.beside {left right : Graph α} (hleft : left.WellWired) (hright : right.WellWired)
    (happart : ∀ node ∈ left.nodes, ∀ other ∈ right.nodes, node.id ≠ other.id) :
    (left.beside right).WellWired := by
  have hedgeId : ∀ edge ∈ left.edges ++ right.edges, edge.id = edgeId edge.source edge.slot := by
    intro edge hedge
    rcases List.mem_append.mp hedge with hmem | hmem
    · exact hleft.edge_id edge hmem
    · exact hright.edge_id edge hmem
  have houtlets : ((left.edges ++ right.edges).map outlet).Nodup := by
    rw [List.map_append]
    exact nodup_append_of_apart happart Prod.fst hleft.nodup_outlets hright.nodup_outlets
      (fun _ ho => hleft.exists_home ho) (fun _ ho => hright.exists_home ho)
  refine ⟨?_, hedgeId, nodup_map_id hedgeId houtlets, houtlets, ?_, ?_, ?_, ?_, ?_⟩
  · rw [Graph.beside, List.map_append]
    exact nodup_append_of_apart happart id hleft.nodup_nodes hright.nodup_nodes
      (fun _ hid => List.mem_map.mp hid) (fun _ hid => List.mem_map.mp hid)
  · rw [Graph.beside, List.map_append]
    exact nodup_append_of_apart happart id hleft.nodup_targets hright.nodup_targets
      (fun _ hid => hleft.exists_end hid) (fun _ hid => hright.exists_end hid)
  · intro edge hedge
    rcases List.mem_append.mp hedge with hmem | hmem
    · obtain ⟨node, hnode, hsource⟩ := hleft.source_mem edge hmem
      exact ⟨node, List.mem_append_left _ hnode, hsource⟩
    · obtain ⟨node, hnode, hsource⟩ := hright.source_mem edge hmem
      exact ⟨node, List.mem_append_right _ hnode, hsource⟩
  · intro edge hedge
    rcases List.mem_append.mp hedge with hmem | hmem
    · obtain ⟨node, hnode, htarget⟩ := hleft.target_mem edge hmem
      exact ⟨node, List.mem_append_left _ hnode, htarget⟩
    · obtain ⟨node, hnode, htarget⟩ := hright.target_mem edge hmem
      exact ⟨node, List.mem_append_right _ hnode, htarget⟩
  · refine nodup_append_of_apart happart id hleft.nodup_roots hright.nodup_roots ?_ ?_
    · intro root hroot
      obtain ⟨node, hnode, hid, _⟩ := hleft.root_mem root hroot
      exact ⟨node, hnode, hid⟩
    · intro root hroot
      obtain ⟨node, hnode, hid, _⟩ := hright.root_mem root hroot
      exact ⟨node, hnode, hid⟩
  · intro root hroot
    rcases List.mem_append.mp hroot with hmem | hmem
    · obtain ⟨node, hnode, hoperation⟩ := hleft.root_mem root hmem
      exact ⟨node, List.mem_append_left _ hnode, hoperation⟩
    · obtain ⟨node, hnode, hoperation⟩ := hright.root_mem root hmem
      exact ⟨node, List.mem_append_right _ hnode, hoperation⟩

/-- The graph under new ids, no root kept. -/
def renameIds (ρ : String → String) (graph : Graph α) : Graph α :=
  ⟨graph.nodes.map fun node => { node with id := ρ node.id },
    graph.edges.map fun edge => Edge.link (ρ edge.source) edge.slot (ρ edge.target), []⟩

theorem WellWired.renameIds (h : graph.WellWired) {ρ : String → String}
    (hρ : ∀ node ∈ graph.nodes, ∀ other ∈ graph.nodes, ρ node.id = ρ other.id →
      node.id = other.id) : (graph.renameIds ρ).WellWired := by
  have hedgeId : ∀ edge ∈ (graph.renameIds ρ).edges, edge.id = edgeId edge.source edge.slot := by
    intro edge hedge
    obtain ⟨old, _, rfl⟩ := List.mem_map.mp hedge
    rfl
  have houtlets : ((graph.renameIds ρ).edges.map outlet).Nodup := by
    rw [Graph.renameIds, List.map_map]
    refine nodup_map_of_refines h.nodup_outlets ?_
    intro edge hedge other hother heq
    obtain ⟨node, hnode, hid, _⟩ := h.source_mem edge hedge
    obtain ⟨node', hnode', hid', _⟩ := h.source_mem other hother
    obtain ⟨hsource, hslot⟩ := Prod.mk.inj heq
    have hsame := hρ node hnode node' hnode' (by rw [hid, hid']; exact hsource)
    rw [outlet, outlet, ← hid, ← hid', hsame]
    exact Prod.ext rfl hslot
  refine ⟨?_, hedgeId, nodup_map_id hedgeId houtlets, houtlets, ?_, ?_, ?_, List.nodup_nil, ?_⟩
  · rw [Graph.renameIds, List.map_map]
    exact nodup_map_of_refines h.nodup_nodes hρ
  · rw [Graph.renameIds, List.map_map]
    refine nodup_map_of_refines h.nodup_targets ?_
    intro edge hedge other hother heq
    obtain ⟨node, hnode, hid⟩ := h.target_mem edge hedge
    obtain ⟨node', hnode', hid'⟩ := h.target_mem other hother
    rw [← hid, ← hid']
    exact hρ node hnode node' hnode' (by rw [hid, hid']; exact heq)
  · intro edge hedge
    obtain ⟨old, hold, rfl⟩ := List.mem_map.mp hedge
    obtain ⟨node, hnode, hid, hoperation, hslot⟩ := h.source_mem old hold
    exact ⟨_, List.mem_map_of_mem hnode, congrArg ρ hid, hoperation, hslot⟩
  · intro edge hedge
    obtain ⟨old, hold, rfl⟩ := List.mem_map.mp hedge
    obtain ⟨node, hnode, hid⟩ := h.target_mem old hold
    exact ⟨_, List.mem_map_of_mem hnode, congrArg ρ hid⟩
  · intro root hroot
    cases hroot

/-- The part of a graph outside the document. -/
def outside (graph : Graph α) (visited : List String) : Graph α :=
  ⟨graph.detached visited,
    graph.edges.filter fun edge => isDetached visited edge.source && isDetached visited edge.target,
    []⟩

theorem WellWired.outside (h : graph.WellWired) (visited : List String) :
    (graph.outside visited).WellWired :=
  h.restrict (isDetached visited) (List.nil_sublist _)
    fun _ hroot => absurd hroot List.not_mem_nil

/-- The graph with the keys that are noted for paths. -/
def carryKeys (keys : List (List Nat × Key)) (graph : Graph α) : Graph α :=
  ⟨graph.nodes.map (carryKey keys), graph.edges, graph.roots⟩

theorem serves_carryKey (keys : List (List Nat × Key)) (node : Node α) :
    Serves node (carryKey keys node) := by
  unfold carryKey
  split
  · exact .refl node
  · split
    · exact ⟨rfl, rfl, rfl⟩
    · exact .refl node

theorem map_id_carryKeys (keys : List (List Nat × Key)) (graph : Graph α) :
    (graph.carryKeys keys).nodes.map Node.id = graph.nodes.map Node.id := by
  rw [carryKeys, List.map_map]
  exact List.map_congr_left fun node _ => (serves_carryKey keys node).id_eq

theorem WellWired.carryKeys (h : graph.WellWired) (keys : List (List Nat × Key)) :
    (graph.carryKeys keys).WellWired := by
  refine h.of_sublist ?_ (List.Sublist.refl _) (List.Sublist.refl _) ?_
  · rw [map_id_carryKeys]
    exact h.nodup_nodes
  · intro node hnode _
    exact ⟨_, List.mem_map_of_mem hnode, serves_carryKey keys node⟩

theorem nodup_detached (h : graph.WellWired) (visited : List String) :
    ((graph.detached visited).map Node.id).Nodup :=
  h.nodup_nodes.sublist (List.filter_sublist.map _)

section Relaid

variable [Scalar α]

/-- The drawing of a rebuilt document, with the keys of the nodes that it was rebuilt from. -/
def redrawn (layout : Layout α) (keys : Nat → Key) (trace : Trace) : Graph α :=
  (layout.document keys trace.expressions).carryKeys trace.keys

/-- What is outside the document, under fresh ids where the drawing takes the old ones. -/
def moved (graph : Graph α) (layout : Layout α) (keys : Nat → Key) (ids : Nat → String)
    (trace : Trace) : Graph α :=
  (graph.outside trace.visited).renameIds (rehomed (renamings
    ((layout.document keys trace.expressions).nodes.map Node.id) ids
    (graph.detached trace.visited)))

theorem relaid_eq (h : graph.WellWired) (layout : Layout α) (keys : Nat → Key)
    (ids : Nat → String) (trace : Trace) :
    graph.relaid layout keys ids trace =
      (redrawn layout keys trace).beside (graph.moved layout keys ids trace) := by
  have hroots : (redrawn layout keys trace).roots ++ (graph.moved layout keys ids trace).roots =
      (redrawn layout keys trace).roots := List.append_nil _
  rw [beside, hroots, relaid, rehoused_eq (nodup_detached h trace.visited)]
  rfl

theorem wellWired_redrawn (layout : Layout α) (keys : Nat → Key) (trace : Trace) :
    (redrawn layout keys trace).WellWired :=
  (wellWired_document layout keys trace.expressions).carryKeys trace.keys

theorem WellWired.moved (h : graph.WellWired) (layout : Layout α) (keys : Nat → Key)
    {ids : Nat → String} (hfresh : graph.Fresh ids) (trace : Trace) :
    (graph.moved layout keys ids trace).WellWired := by
  apply (h.outside trace.visited).renameIds
  intro node hnode other hother
  refine rehomed_inj (nodup_detached h trace.visited) hfresh.injective ?_ hnode hother
  intro n kept hkept
  exact hfresh.ne_node n kept (List.mem_filter.mp hkept).1

/-- The drawing and what is kept beside it have no id in common. -/
theorem redrawn_apart_moved (h : graph.WellWired) (layout : Layout α) (keys : Nat → Key)
    {ids : Nat → String} (hfresh : graph.Fresh ids) (trace : Trace) :
    ∀ node ∈ (redrawn layout keys trace).nodes,
      ∀ other ∈ (graph.moved layout keys ids trace).nodes, node.id ≠ other.id := by
  intro node hnode other hother heq
  obtain ⟨drawn, hdrawn, rfl⟩ := List.mem_map.mp hnode
  obtain ⟨kept, hkept, rfl⟩ := List.mem_map.mp hother
  have hnew : ∀ n, ids n ∉ (layout.document keys trace.expressions).nodes.map Node.id := by
    intro n hmem
    obtain ⟨first, hfirst, hid⟩ := List.mem_map.mp hmem
    obtain ⟨path, hpath⟩ := Layout.exists_path_of_mem_nodes_document hfirst
    exact hfresh.ne_path n path (hid.symm.trans hpath)
  apply rehomed_not_mem (nodup_detached h trace.visited) hnew hkept
  rw [(serves_carryKey trace.keys drawn).id_eq] at heq
  change drawn.id = rehomed _ kept.id at heq
  rw [← heq]
  exact List.mem_map_of_mem hdrawn

theorem WellWired.relaid (h : graph.WellWired) (layout : Layout α) (keys : Nat → Key)
    {ids : Nat → String} (hfresh : graph.Fresh ids) (trace : Trace) :
    (graph.relaid layout keys ids trace).WellWired := by
  rw [relaid_eq h]
  exact (wellWired_redrawn layout keys trace).beside (h.moved layout keys hfresh trace)
    (redrawn_apart_moved h layout keys hfresh trace)

end Relaid

end Graph

namespace Session

theorem Reached.wired_made {layout : Layout Float} {allowed : Session → Request → Prop}
    {session : Session}
    (hadmits : ∀ session request, allowed session request → session.Admits request)
    (h : session.Reached layout allowed) :
    ∀ graph ∈ session.graphs, graph.WellWired ∧ graph.AllMade layout := by
  apply h.forall_graphs (P := fun graph => graph.WellWired ∧ graph.AllMade layout) hadmits
  · intro keys document
    exact ⟨Graph.wellWired_document layout keys document,
      Graph.allMade_document layout keys document⟩
  · intro session op graph _ _ hgraph hrun
    exact ⟨hgraph.1.run hgraph.2 hrun, hgraph.2.run hrun⟩
  · intro session trace _ hfresh hgraph _
    exact ⟨hgraph.1.relaid layout _ hfresh trace, hgraph.2.relaid _ _ trace⟩

theorem Reached.graph_wired_made {layout : Layout Float} {session : Session}
    (h : session.Reached layout Admits) :
    session.graph.WellWired ∧ session.graph.AllMade layout :=
  h.wired_made (fun _ _ hadmits => hadmits) session.graph List.mem_cons_self

theorem Reached.graph_wired {layout : Layout Float} {session : Session}
    (h : session.Reached layout Admits) : session.graph.WellWired :=
  h.graph_wired_made.1

/-- Every graph that a run shows, or can go back to, is well wired. -/
theorem Reached.wellWired {layout : Layout Float} {session : Session}
    (h : session.Reached layout Admits) : ∀ graph ∈ session.graphs, graph.WellWired :=
  fun graph hgraph => (h.wired_made (fun _ _ hadmits => hadmits) graph hgraph).1

/-- Keys and ids by number, the ids behind a character that no id of a path starts with. -/
def numberedSupply : Supply where
  keys := Key.ofNat
  ids n := "#" ++ toString n

/-- While all nodes have the ids of paths, numbered ids are fresh. -/
theorem fresh_numbered (session : Session) (hsupply : session.supply = numberedSupply)
    (hpaths : ∀ node ∈ session.graph.nodes, ∃ path, node.id = idOfPath path) :
    session.graph.Fresh session.freshIds := by
  have hchars : ∀ n, (session.freshIds n).toList =
      "".toList ++ '#' :: (toString (session.idsDrawn + n)).toList := by
    intro n
    simp [freshIds, hsupply, numberedSupply]
  have hpath : ∀ n path, session.freshIds n ≠ idOfPath path := by
    intro n path heq
    have hroot := prefix_idBelow rootId path
    rw [idBelow_rootId, ← heq, hchars] at hroot
    obtain ⟨rest, hrest⟩ := hroot
    cases hrest
  refine ⟨?_, hpath, ?_⟩
  · intro m n heq
    have hcharsEq := congrArg String.toList heq
    rw [hchars, hchars] at hcharsEq
    have hplaces := (numbered_inj (by decide) hcharsEq).2
    omega
  · intro n node hnode heq
    obtain ⟨path, hid⟩ := hpaths node hnode
    exact hpath n path (heq.symm.trans hid)

/-- Two expressions with an operand each, the first of which is no longer top level. -/
def unrooted : Session :=
  ((start numberedSupply ⟨Registry.standard, LayoutConfig.standard⟩).perform
    (.loadDocument [⟨"IF", [.nested "and" []]⟩, ⟨"and", [.nested "or" []]⟩])).perform
      (.apply (.removeRoot "root.0"))

/-- The other expression is drawn under the ids of the first, which is moved to fresh ids and then
plugged in. -/
def rearranged : Session :=
  (unrooted.perform .relayout).perform (.apply (.connect "root.0" 1 "#1"))

theorem reached_rearranged :
    rearranged.Reached ⟨Registry.standard, LayoutConfig.standard⟩ Admits := by
  have hfresh : unrooted.graph.Fresh unrooted.freshIds := by
    refine fresh_numbered unrooted rfl ?_
    intro node hnode
    have hdrawn : node ∈ ((⟨Registry.standard, LayoutConfig.standard⟩ : Layout Float).document
        (fun n => Key.ofNat (1 + n))
        [⟨"IF", [.nested "and" []]⟩, ⟨"and", [.nested "or" []]⟩]).nodes := hnode
    exact Layout.exists_path_of_mem_nodes_document hdrawn
  exact .perform _ (.perform _ (.perform _ (.perform _ (.start numberedSupply) trivial) trivial)
    hfresh) trivial

/-- What is detached keeps its edge under the fresh ids, beside the edge that is drawn. -/
theorem rearranged_wellWired :
    rearranged.Reached ⟨Registry.standard, LayoutConfig.standard⟩ Admits ∧
      rearranged.graphs.map (fun graph =>
        (graph.nodes.map Node.id, graph.edges.map Edge.id, graph.roots)) =
        [(["root.0", "root.0.0", "#1", "#2"], ["root.0-0", "#1-0", "root.0-1"], ["root.0"]),
          (["root.0", "root.0.0", "#1", "#2"], ["root.0-0", "#1-0"], ["root.0"]),
          (["root.0", "root.0.0", "root.1", "root.1.0"], ["root.0-0", "root.1-0"], ["root.1"]),
          (["root.0", "root.0.0", "root.1", "root.1.0"], ["root.0-0", "root.1-0"],
            ["root.0", "root.1"])] ∧
      ∀ graph ∈ rearranged.graphs, graph.WellWired :=
  ⟨reached_rearranged, rfl, Reached.wellWired reached_rearranged⟩

end Session

end RuleGraph
