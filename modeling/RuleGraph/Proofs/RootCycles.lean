import RuleGraph.Proofs.Paths
import RuleGraph.Proofs.Positions
import RuleGraph.Proofs.Relayouts

/-!
# Roots on cycles

A root has an incoming edge only while that edge closes a cycle through it, and no document can be
rebuilt then. Every edit and relayout keeps this, with one exception: to disconnect an edge
elsewhere on such a cycle opens the cycle, and leaves a root that is an argument of another
operation.
-/

namespace RuleGraph

open Relation

namespace Graph

section

variable {α : Type} {graph next : Graph α}

/-- Every edge into a root closes a cycle through it. -/
def RootsClosed (graph : Graph α) : Prop :=
  ∀ root ∈ graph.roots, ∀ edge ∈ graph.edges, edge.target = root → graph.Leads root edge.source

/-- An edge with the id lies on a cycle through a root, but does not end in the root. -/
def Uncoils (graph : Graph α) (id : String) : Prop :=
  ∃ root ∈ graph.roots, ∃ last ∈ graph.edges, last.target = root ∧ last.id ≠ id ∧
    ∃ cut ∈ graph.edges, cut.id = id ∧ graph.Leads root cut.source ∧
      graph.Leads cut.target last.source

theorem wired_of_mem {edge : Edge} (h : edge ∈ graph.edges) :
    graph.Wired edge.source edge.target :=
  ⟨edge, h, rfl, rfl⟩

/-! ## Edits and relayouts -/

theorem rootsClosed_of_unplugged
    (h : ∀ root ∈ graph.roots, ∀ edge ∈ graph.edges, edge.target ≠ root) : graph.RootsClosed :=
  fun root hroot edge hedge htarget => absurd htarget (h root hroot edge hedge)

theorem RootsClosed.removeRoot (h : graph.RootsClosed) (id : String) :
    (graph.removeRoot id).RootsClosed :=
  fun root hroot => h root (List.mem_filter.mp hroot).1

theorem RootsClosed.connect (h : graph.RootsClosed) {source target : String} {slot : Nat}
    (hconnect : graph.connect source slot target = .ok next) : next.RootsClosed := by
  obtain ⟨_, _, _, _, _, _, rfl⟩ := connect_eq_ok hconnect
  have hmore : ∀ edge ∈ graph.edges, edge ∈ (graph.plug source slot target).edges :=
    fun edge hedge => List.mem_append_left _ hedge
  intro root hroot edge hedge htarget
  have hold : root ∈ graph.roots := (roots_plug_sublist graph source slot target).subset hroot
  rcases List.mem_append.mp hedge with hmem | hnew
  · exact (h root hold edge hmem htarget).mono hmore
  · rw [List.mem_singleton.mp hnew] at htarget ⊢
    change target = root at htarget
    subst htarget
    by_cases hcloses : graph.reaches target source = true
    · exact (reaches_iff.mp hcloses).mono hmore
    · -- an edge that closes no cycle takes its target from the roots
      unfold plug at hroot
      dsimp only at hroot
      rw [if_neg hcloses] at hroot
      have hother := (List.mem_filter.mp hroot).2
      rw [bne_self_eq_false] at hother
      cases hother

/-- A path that leads out of what is below a node never was below it. -/
theorem leads_without_below {id x y : String} (h : graph.Leads x y) (hy : y ∉ graph.below id) :
    (graph.without (graph.below id)).Leads x y := by
  induction h using ReflTransGen.head_induction_on with
  | refl => exact ReflTransGen.refl
  | head hstep hrest ih =>
      obtain ⟨edge, hedge, rfl, rfl⟩ := hstep
      have htarget : edge.target ∉ graph.below id :=
        fun hmem => hy (mem_below.mpr ((mem_below.mp hmem).trans hrest))
      have hsource : edge.source ∉ graph.below id :=
        fun hmem => htarget (target_mem_below hedge hmem)
      have hkept : edge ∈ (graph.without (graph.below id)).edges :=
        List.mem_filter.mpr ⟨hedge, by simp [hsource, htarget]⟩
      exact ih.head (wired_of_mem hkept)

/-- A node is deleted with all that is below it, so that a cycle is deleted as a whole. -/
theorem RootsClosed.without_below (h : graph.RootsClosed) (id : String) :
    (graph.without (graph.below id)).RootsClosed := by
  intro root hroot edge hedge htarget
  obtain ⟨hrootMem, _⟩ := List.mem_filter.mp hroot
  obtain ⟨hedgeMem, hedgeKept⟩ := List.mem_filter.mp hedge
  rw [Bool.and_eq_true] at hedgeKept
  exact leads_without_below (h root hrootMem edge hedgeMem htarget) (by simpa using hedgeKept.1)

theorem RootsClosed.addRoot (h : graph.RootsClosed) {id : String}
    (hadd : graph.addRoot id = .ok next) : next.RootsClosed := by
  obtain ⟨_, _, _, hunplugged, rfl⟩ := addRoot_eq_ok hadd
  split
  · exact h
  · intro root hroot edge hedge htarget
    rcases List.mem_append.mp hroot with hold | hnew
    · exact h root hold edge hedge htarget
    · rw [List.mem_singleton.mp hnew] at htarget
      exact absurd htarget (incoming?_eq_none_iff.mp hunplugged edge hedge)

/-- While a node is plugged in once at most, a path to it that loses edges keeps the last one. -/
theorem leads_source_of_leads_target (hnodup : (graph.edges.map Edge.target).Nodup)
    (hedges : ∀ edge ∈ next.edges, edge ∈ graph.edges) {start : String} {edge : Edge}
    (hedge : edge ∈ graph.edges) (h : next.Leads start edge.target) :
    start = edge.target ∨ edge ∈ next.edges ∧ next.Leads start edge.source := by
  rcases ReflTransGen.cases_tail h with hsame | ⟨_, hbefore, last, hlast, rfl, htarget⟩
  · exact Or.inl hsame.symm
  · have hsame : last = edge :=
      List.inj_on_of_nodup_map hnodup (hedges last hlast) hedge htarget
    subst hsame
    exact Or.inr ⟨hlast, hbefore⟩

/-- Where a cycle stays closed although edges are lost, the path from its start leads to every node
on it. -/
theorem leads_of_leads_back (hnodup : (graph.edges.map Edge.target).Nodup)
    (hedges : ∀ edge ∈ next.edges, edge ∈ graph.edges) {last : Edge} (hlast : last ∈ graph.edges)
    (hround : next.Leads last.target last.source) {v : String} (h : graph.Leads v last.source) :
    next.Leads last.target v := by
  induction h using ReflTransGen.head_induction_on with
  | refl => exact hround
  | head hstep _ ih =>
      obtain ⟨edge, hedge, rfl, rfl⟩ := hstep
      rcases leads_source_of_leads_target hnodup hedges hedge ih with hstart | hmore
      · have hsame : last = edge := List.inj_on_of_nodup_map hnodup hlast hedge hstart
        exact hsame ▸ hround
      · exact hmore.2

/-- To disconnect an edge keeps the cycles closed exactly if it is on none of them, or the last of
one. -/
theorem RootsClosed.disconnect_iff (h : graph.RootsClosed)
    (hnodup : (graph.edges.map Edge.target).Nodup) {id : String} :
    (graph.disconnect id).RootsClosed ↔ ¬ graph.Uncoils id := by
  have hfewer : ∀ edge ∈ (graph.disconnect id).edges, edge ∈ graph.edges :=
    fun edge hedge => (mem_edges_disconnect.mp hedge).1
  constructor
  · intro hclosed huncoils
    obtain ⟨_, hroot, last, hlast, rfl, hother, cut, hcut, hid, _, hrest⟩ := huncoils
    have hround : (graph.disconnect id).Leads last.target last.source :=
      hclosed _ hroot last (mem_edges_disconnect.mpr ⟨hlast, hother⟩) rfl
    have hback : (graph.disconnect id).Leads last.target cut.target :=
      leads_of_leads_back hnodup hfewer hlast hround hrest
    rcases leads_source_of_leads_target hnodup hfewer hcut hback with hstart | hmore
    · have hsame : last = cut := List.inj_on_of_nodup_map hnodup hlast hcut hstart
      exact hother (hsame ▸ hid)
    · exact (mem_edges_disconnect.mp hmore.1).2 hid
  · intro huncoiled root hroot last hlast htarget
    obtain ⟨hmem, hother⟩ := mem_edges_disconnect.mp hlast
    have hpath : ∀ v, graph.Leads root v → graph.Leads v last.source →
        (graph.disconnect id).Leads root v := by
      intro v hv
      induction hv with
      | refl => exact fun _ => ReflTransGen.refl
      | tail hbefore hstep ih =>
          obtain ⟨edge, hedge, rfl, rfl⟩ := hstep
          intro hafter
          have hkept : edge.id ≠ id := by
            intro hid
            exact huncoiled
              ⟨root, hroot, last, hmem, htarget, hother, edge, hedge, hid, hbefore, hafter⟩
          exact (ih (hafter.head (wired_of_mem hedge))).tail
            (wired_of_mem (mem_edges_disconnect.mpr ⟨hedge, hkept⟩))
    exact hpath last.source (h root hroot last hmem htarget) ReflTransGen.refl

/-- A granted edit keeps the cycles closed, unless it disconnects an edge that uncoils one. -/
theorem RootsClosed.run {graph next : Graph Float} (h : graph.RootsClosed)
    (hnodup : (graph.edges.map Edge.target).Nodup) {layout : Layout Float} {freshId : String}
    {freshKey : Key} {op : EditOp} (hkeeps : ∀ id, op = .disconnect id → ¬ graph.Uncoils id)
    (hrun : op.run layout freshId freshKey graph = .ok next) : next.RootsClosed := by
  cases op with
  | connect source slot target => exact h.connect hrun
  | disconnect edge =>
      cases hrun
      exact (h.disconnect_iff hnodup).mpr (hkeeps edge rfl)
  | deleteNode id =>
      obtain ⟨_, _, rfl⟩ := deleteNode_eq_ok hrun
      exact h.without_below id
  | addNode kind position id =>
      obtain ⟨_, _, rfl⟩ := addNode_eq_ok hrun
      exact h
  | addOperationNode name position id =>
      obtain ⟨_, _, rfl⟩ := addNode_eq_ok hrun
      exact h
  | addConstantNode value position id =>
      obtain ⟨_, _, rfl⟩ := addNode_eq_ok hrun
      exact h
  | moveNode id position =>
      obtain ⟨_, _, rfl⟩ := moveNode_eq_ok hrun
      exact h
  | setInlineValue id index value =>
      obtain ⟨_, _, _, _, _, rfl⟩ := setInline_eq_ok hrun
      exact h
  | addRoot id => exact h.addRoot hrun
  | removeRoot id =>
      cases hrun
      exact h.removeRoot id

/-- In a drawing no edge leads to a top-level expression. -/
theorem target_ne_root_document [Scalar α] {layout : Layout α} {keys : Nat → Key}
    {document : Document} {root : String} (hroot : root ∈ (layout.document keys document).roots)
    {edge : Edge} (hedge : edge ∈ (layout.document keys document).edges) : edge.target ≠ root := by
  obtain ⟨index, _, rfl⟩ := Layout.mem_roots_document.mp hroot
  rw [Layout.edges_document] at hedge
  obtain ⟨wire, hwire, rfl⟩ := List.mem_map.mp hedge
  intro heq
  have hsame : Argument.wireEnd wire = [index] := idOfPath_inj.mp heq
  have hlength := congrArg List.length hsame
  have hpath : wire.1.length ≠ 0 :=
    fun hzero => (Document.mem_wires.mp hwire).1 (List.length_eq_zero_iff.mp hzero)
  rw [Argument.wireEnd, List.length_append, List.length_singleton, List.length_singleton] at hlength
  omega

theorem rootsClosed_document [Scalar α] (layout : Layout α) (keys : Nat → Key)
    (document : Document) : (layout.document keys document).RootsClosed :=
  rootsClosed_of_unplugged fun _ hroot _ hedge => target_ne_root_document hroot hedge

/-- No edge that is kept beside a drawing leads to one of its roots. -/
theorem rootsClosed_relaid [Scalar α] (h : graph.WellWired) (layout : Layout α) (keys : Nat → Key)
    {ids : Nat → String} (hfresh : graph.Fresh ids) (trace : Trace) :
    (graph.relaid layout keys ids trace).RootsClosed := by
  rw [relaid_eq h]
  apply rootsClosed_of_unplugged
  intro root hroot edge hedge heq
  rw [beside, List.mem_append] at hroot
  have hdrawn : root ∈ (redrawn layout keys trace).roots := hroot.resolve_right List.not_mem_nil
  rcases List.mem_append.mp hedge with hmem | hkept
  · exact target_ne_root_document hdrawn hmem heq
  · obtain ⟨node, hnode, hid, _⟩ := (wellWired_redrawn layout keys trace).root_mem root hdrawn
    obtain ⟨other, hother, hid'⟩ := (h.moved layout keys hfresh trace).target_mem edge hkept
    exact redrawn_apart_moved h layout keys hfresh trace node hnode other hother
      (hid.trans (hid'.trans heq).symm)

/-! ## Cycles are no documents -/

theorem exists_unfoldRoot_of_document {document : Document} (h : graph.document = .ok document)
    {root : String} (hroot : root ∈ graph.roots) :
    ∃ path e u, graph.index.unfoldRoot graph.nestingBound root path = .ok (e, u) := by
  rw [Graph.document] at h
  cases htrace : graph.trace with
  | error error =>
      rw [htrace] at h
      cases h
  | ok trace =>
      obtain ⟨found, hfound, _⟩ := bind_eq_ok.mp htrace
      obtain ⟨index, hindex⟩ := List.mem_iff_getElem?.mp hroot
      have hentry : (root, index) ∈ graph.roots.zipIdx := List.mem_zipIdx_iff_getElem?.mpr hindex
      obtain ⟨unfolded, hunfolded⟩ := exists_ok_of_mapM_eq_ok hfound hentry
      exact ⟨[index], unfolded.1, unfolded.2, hunfolded⟩

/-- A node with an unfolding is not below itself, and what is plugged into it is unfolded below it,
at its slot; what is visited and noted there is visited and noted with the node. -/
theorem unfold_plugged (h : graph.WellWired) {fuel : Nat} {above : List String} {path : List Nat}
    {node : Node α} {u : Unfolding} (hnode : node ∈ graph.nodes)
    (hunfold : graph.index.unfold fuel above path node = .ok u) {edge : Edge}
    (hedge : edge ∈ graph.edges) (hsource : edge.source = node.id) :
    node.id ∉ above ∧ ∃ shorter target v, fuel = shorter + 1 ∧ target ∈ graph.nodes ∧
      target.id = edge.target ∧
      graph.index.unfold shorter (node.id :: above) (path ++ [edge.slot]) target = .ok v ∧
      v.visited ⊆ u.visited ∧ v.keys ⊆ u.keys := by
  obtain ⟨parent, hparent, hid, hoperation, hslot⟩ := h.source_mem edge hedge
  have hsame : parent = node :=
    List.inj_on_of_nodup_map h.nodup_nodes hparent hnode (hid.trans hsource)
  subst hsame
  cases fuel with
  | zero => cases hunfold
  | succ fuel =>
      obtain ⟨name, inline, hcontent⟩ := Node.exists_operation hoperation
      obtain ⟨hnew, _, _, filled, _, hfilled, hvacant, rfl⟩ :=
        (unfold_operation_eq_ok hcontent).mp hunfold
      have hlast : graph.lastEdgeFrom? parent.id edge.slot = some edge :=
        (lastEdgeFrom?_eq_some_iff h.nodup_outlets).mpr ⟨hedge, hsource, rfl⟩
      obtain ⟨slot, hslotMem, hindex⟩ := Node.exists_slot hslot
      have hcount := index_lt_argumentCount hslotMem inline
      rw [hindex] at hcount
      refine ⟨hnew, fuel, ?_⟩
      rcases Nat.lt_or_ge edge.slot filled.length with hin | hbeyond
      · rcases fillPosition_eq_some.mp (hfilled _ _ (List.getElem?_eq_getElem hin)) with
          ⟨found, target, hedgeFound, htarget, hbelow⟩ | ⟨hnone, _⟩
        · cases Option.some.inj (hlast.symm.trans hedgeFound)
          obtain ⟨htargetMem, htargetId⟩ := mem_of_lastNode? htarget
          refine ⟨target, _, rfl, htargetMem, htargetId, hbelow, ?_, ?_⟩
          · intro id hid
            exact List.mem_cons_of_mem _ (List.mem_flatMap.mpr ⟨_, List.getElem_mem hin, hid⟩)
          · intro entry hentry
            exact List.mem_cons_of_mem _
              (List.mem_flatMap.mpr ⟨_, List.getElem_mem hin, hentry⟩)
        · cases hlast.symm.trans hnone
      · cases hlast.symm.trans (hvacant edge.slot hbeyond hcount).unplugged

/-- The nodes that a node with an unfolding leads to are not above it, unless nothing is plugged
into them. -/
theorem not_mem_of_unfold (h : graph.WellWired) (fuel : Nat) {above : List String} {path : List Nat}
    {node : Node α} {u : Unfolding} (hnode : node ∈ graph.nodes)
    (hunfold : graph.index.unfold fuel above path node = .ok u) {edge : Edge}
    (hedge : edge ∈ graph.edges) (hleads : graph.Leads node.id edge.source) :
    edge.source ∉ above := by
  induction fuel generalizing above path node u with
  | zero => cases hunfold
  | succ fuel ih =>
      rcases ReflTransGen.cases_head hleads with hsame | ⟨_, ⟨first, hfirst, hsource, rfl⟩, hrest⟩
      · exact hsame ▸ (unfold_plugged h hnode hunfold hedge hsame.symm).1
      · obtain ⟨_, shorter, target, v, hfuel, htarget, hid, hbelow, _⟩ :=
          unfold_plugged h hnode hunfold hfirst hsource
        cases hfuel
        have hnot := ih htarget hbelow (hid ▸ hrest)
        exact fun hmem => hnot (List.mem_cons_of_mem _ hmem)

theorem unfold_ne_ok_of_cycle (h : graph.WellWired) {fuel : Nat} {above : List String}
    {path : List Nat} {node : Node α} (hnode : node ∈ graph.nodes) {edge : Edge}
    (hedge : edge ∈ graph.edges) (htarget : edge.target = node.id)
    (hleads : graph.Leads node.id edge.source) (u : Unfolding) :
    graph.index.unfold fuel above path node ≠ .ok u := by
  intro hunfold
  -- the first edge of the cycle leads back to its own source
  have hfirst : ∃ first ∈ graph.edges, first.source = node.id ∧
      graph.Leads first.target node.id := by
    rcases ReflTransGen.cases_head hleads with hsame | ⟨_, ⟨first, hfirst, hsource, rfl⟩, hrest⟩
    · exact ⟨edge, hedge, hsame.symm, htarget ▸ ReflTransGen.refl⟩
    · exact ⟨first, hfirst, hsource, htarget ▸ hrest.tail (wired_of_mem hedge)⟩
  obtain ⟨first, hfirst, hsource, hback⟩ := hfirst
  obtain ⟨_, shorter, target, v, _, hmem, hid, hbelow, _⟩ :=
    unfold_plugged h hnode hunfold hfirst hsource
  rw [← hid, ← hsource] at hback
  have hnot := not_mem_of_unfold h shorter hmem hbelow hfirst hback
  exact hnot (hsource ▸ List.mem_cons_self)

theorem document_error_of_cycle (h : graph.WellWired) {root : String} (hroot : root ∈ graph.roots)
    {edge : Edge} (hedge : edge ∈ graph.edges) (htarget : edge.target = root)
    (hleads : graph.Leads root edge.source) : ∃ error, graph.document = .error error := by
  cases hdocument : graph.document with
  | error error => exact ⟨error, rfl⟩
  | ok document =>
      exfalso
      obtain ⟨path, e, u, hunfoldRoot⟩ := exists_unfoldRoot_of_document hdocument hroot
      obtain ⟨node, hnode, hunfold, _⟩ := unfoldRoot_eq_ok.mp hunfoldRoot
      obtain ⟨hmem, rfl⟩ := mem_of_lastNode? hnode
      exact unfold_ne_ok_of_cycle h hmem hedge htarget hleads u hunfold

end

end Graph

namespace Session

/-- The request disconnects an edge that uncoils a cycle through a root. -/
def Uncoils (session : Session) : Request → Prop
  | .apply (.disconnect id) => session.graph.Uncoils id
  | _ => False

/-- Admitted requests that uncoil no cycle. -/
def KeepsCycles (session : Session) (request : Request) : Prop :=
  session.Admits request ∧ ¬ session.Uncoils request

variable {layout : Layout Float} {session : Session}

theorem Reached.wired_closed (h : session.Reached layout KeepsCycles) :
    ∀ graph ∈ session.graphs, graph.WellWired ∧ graph.RootsClosed := by
  have hadmits : ∀ session request, KeepsCycles session request → session.Admits request :=
    fun _ _ hkeeps => hkeeps.1
  apply h.forall_graphs (P := fun graph => graph.WellWired ∧ graph.RootsClosed) hadmits
  · intro keys document
    exact ⟨Graph.wellWired_document layout keys document,
      Graph.rootsClosed_document layout keys document⟩
  · intro session op graph hreached hkeeps hgraph hrun
    have hmade := (hreached.wired_made hadmits session.graph List.mem_cons_self).2
    refine ⟨hgraph.1.run hmade hrun, hgraph.2.run hgraph.1.nodup_targets ?_ hrun⟩
    intro id hid
    subst hid
    exact hkeeps.2
  · intro session trace _ hfresh hgraph _
    exact ⟨hgraph.1.relaid layout _ hfresh trace,
      Graph.rootsClosed_relaid hgraph.1 layout _ hfresh trace⟩

theorem rootsClosed_perform_iff (h : session.Reached layout KeepsCycles) {request : Request}
    (hadmits : session.Admits request) :
    (∀ graph ∈ (session.perform request).graphs, graph.RootsClosed) ↔
      ¬ session.Uncoils request := by
  constructor
  · intro hclosed huncoils
    have hgraph := h.wired_closed session.graph List.mem_cons_self
    unfold Uncoils at huncoils
    split at huncoils
    · rename_i id
      have hopened : (session.graph.disconnect id).RootsClosed := hclosed _ List.mem_cons_self
      exact (hgraph.2.disconnect_iff hgraph.1.nodup_targets).mp hopened huncoils
    · exact huncoils
  · intro hkeeps graph hgraph
    exact ((h.perform request ⟨hadmits, hkeeps⟩).wired_closed graph hgraph).2

/-- As long as no request uncoils a cycle, every edge into a root closes a cycle through it, and no
document can be rebuilt while there is one. The first request after which this fails is one that
uncoils a cycle, and each such request makes it fail. -/
theorem Reached.rootsClosed (h : session.Reached layout KeepsCycles) :
    (∀ graph ∈ session.graphs, ∀ root ∈ graph.roots, ∀ edge ∈ graph.edges, edge.target = root →
      graph.Leads root edge.source ∧ ∃ error, graph.document = .error error) ∧
    ∀ request, session.Admits request →
      ((∀ graph ∈ (session.perform request).graphs, graph.RootsClosed) ↔
        ¬ session.Uncoils request) := by
  refine ⟨?_, fun request hadmits => rootsClosed_perform_iff h hadmits⟩
  intro graph hgraph root hroot edge hedge htarget
  obtain ⟨hwired, hclosed⟩ := h.wired_closed graph hgraph
  have hleads := hclosed root hroot edge hedge htarget
  exact ⟨hleads, Graph.document_error_of_cycle hwired hroot hedge htarget hleads⟩

/-- A session with two operations, each plugged into the other. -/
def coiled : Session :=
  (((start numberedSupply ⟨Registry.standard, LayoutConfig.standard⟩).perform
    (.loadDocument [⟨"IF", []⟩, ⟨"IF", []⟩])).perform
      (.apply (.connect "root.0" 0 "root.1"))).perform
        (.apply (.connect "root.1" 0 "root.0"))

theorem reached_coiled : coiled.Reached ⟨Registry.standard, LayoutConfig.standard⟩ KeepsCycles := by
  have hkeeps : ∀ (session : Session) (source target : String),
      session.KeepsCycles (.apply (.connect source 0 target)) :=
    fun _ _ _ => ⟨trivial, fun huncoils => huncoils⟩
  refine .perform _ (.perform _ (.perform _ (.start numberedSupply) ?_) ?_) ?_
  · exact ⟨trivial, fun huncoils => huncoils⟩
  · exact hkeeps _ "root.0" "root.1"
  · exact hkeeps _ "root.1" "root.0"

theorem edges_coiled : coiled.graph.edges =
    [Edge.link "root.0" 0 "root.1", Edge.link "root.1" 0 "root.0"] :=
  rfl

/-- The root on the cycle is refused as a document. -/
theorem coiled_refused : coiled.Reached ⟨Registry.standard, LayoutConfig.standard⟩ KeepsCycles ∧
    coiled.graph.Leads "root.0" "root.1" ∧ ∃ error, coiled.graph.document = .error error := by
  have hroot : "root.0" ∈ coiled.graph.roots := List.mem_singleton.mpr rfl
  have hedge : Edge.link "root.1" 0 "root.0" ∈ coiled.graph.edges := by
    rw [edges_coiled]
    exact List.mem_cons_of_mem _ List.mem_cons_self
  have hclosed := (Reached.rootsClosed reached_coiled).1
  exact ⟨reached_coiled,
    hclosed coiled.graph List.mem_cons_self "root.0" hroot _ hedge rfl⟩

/-- Once the cycle is uncoiled, the root is an argument of another operation, and the document can
be rebuilt without that operation. -/
theorem uncoiled_document :
    let uncoiled := coiled.perform (.apply (.disconnect "root.0-0"))
    uncoiled.Reached ⟨Registry.standard, LayoutConfig.standard⟩ Admits ∧
      "root.0" ∈ uncoiled.graph.roots ∧
      Edge.link "root.1" 0 "root.0" ∈ uncoiled.graph.edges ∧
      ¬ uncoiled.graph.Leads "root.0" "root.1" ∧
      uncoiled.graph.document = .ok [⟨"IF", []⟩] := by
  intro uncoiled
  have hreached : uncoiled.Reached ⟨Registry.standard, LayoutConfig.standard⟩ Admits :=
    .perform _ (reached_coiled.mono fun _ _ hkeeps => hkeeps.1) trivial
  have hunreached : uncoiled.graph.reaches "root.0" "root.1" = false := rfl
  refine ⟨hreached, List.mem_singleton.mpr rfl, List.mem_singleton.mpr rfl, ?_, rfl⟩
  rw [← Graph.reaches_iff, hunreached]
  exact Bool.false_ne_true

end Session

end RuleGraph
