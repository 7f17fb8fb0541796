import Mathlib.Logic.Function.Iterate
import RuleGraph.Proofs.Documents
import RuleGraph.Proofs.RootCycles

/-!
# Deletions

A deletion takes away a node with everything below it, however the graph is wired, and no edge is
left without an end that was there before. In a session a node that is taken away was within reach
of the remaining roots only through the deleted node. It may have been within reach of a root that
is taken away itself: the deleted node then leads to that root, which happens where both are on a
cycle, or where a cycle was uncoiled.
-/

namespace RuleGraph

open Relation

namespace Graph

section

variable {α : Type} {graph : Graph α} {id : String}

/-- All ids with the targets of the edges that one scan in order comes upon. -/
def scan (graph : Graph α) (found : List String) : List String :=
  graph.edges.foldl follow found

def EndsPresent (graph : Graph α) : Prop :=
  ∀ edge ∈ graph.edges, (∃ node ∈ graph.nodes, node.id = edge.source) ∧
    ∃ node ∈ graph.nodes, node.id = edge.target

/-! ## What is taken away -/

theorem foldl_follow_eq_self {edges : List Edge} {found : List String}
    (h : ∀ edge ∈ edges, edge.source ∈ found → edge.target ∈ found) :
    edges.foldl follow found = found := by
  induction edges with
  | nil => rfl
  | cons edge rest ih =>
      have hedge := h edge List.mem_cons_self
      have hsame : follow found edge = found := by
        rw [follow, if_neg]
        exact fun hleaves => hleaves.2 (hedge hleaves.1)
      rw [List.foldl_cons, hsame]
      exact ih fun other hother => h other (List.mem_cons_of_mem _ hother)

/-- Until it is over, every scan finds more. -/
theorem exists_scans (graph : Graph α) (fuel : Nat) (found : List String) :
    ∃ rounds ≤ fuel, spread graph.edges fuel found = graph.scan^[rounds] found ∧
      ∀ n < rounds, (graph.scan^[n] found).length < (graph.scan^[n + 1] found).length := by
  induction fuel generalizing found with
  | zero => exact ⟨0, Nat.le_refl _, rfl, fun n hn => absurd hn (Nat.not_lt_zero n)⟩
  | succ fuel ih =>
      rw [spread]
      split
      · exact ⟨0, Nat.zero_le _, rfl, fun n hn => absurd hn (Nat.not_lt_zero n)⟩
      · rename_i hmore
        obtain ⟨rounds, hle, hspread, hgrows⟩ := ih (graph.scan found)
        refine ⟨rounds + 1, by omega, hspread, ?_⟩
        intro n hn
        cases n with
        | zero =>
            have hlonger : found.length ≤ (graph.scan found).length :=
              (scan_suffix graph.edges found).length_le
            exact Nat.lt_of_le_of_ne hlonger fun hsame => hmore hsame.symm
        | succ n => exact hgrows n (by omega)

theorem scan_below (graph : Graph α) (id : String) : graph.scan (graph.below id) = graph.below id :=
  foldl_follow_eq_self fun _ hedge hsource => target_mem_below hedge hsource

/-- All is kept but what the id leads to. -/
theorem without_below (graph : Graph α) (id : String) : graph.without (graph.below id) =
    ⟨graph.nodes.filter fun node => ¬ graph.Leads id node.id,
      graph.edges.filter fun edge => ¬ graph.Leads id edge.source ∧ ¬ graph.Leads id edge.target,
      graph.roots.filter fun root => ¬ graph.Leads id root⟩ := by
  simp [without, mem_below]

theorem EndsPresent.without (h : graph.EndsPresent) (removed : List String) :
    (graph.without removed).EndsPresent := by
  intro edge hedge
  obtain ⟨hmem, hkept⟩ := List.mem_filter.mp hedge
  rw [Bool.and_eq_true] at hkept
  obtain ⟨⟨source, hsource, hsourceId⟩, target, htarget, htargetId⟩ := h edge hmem
  exact ⟨⟨source, List.mem_filter.mpr ⟨hsource, hsourceId ▸ hkept.1⟩, hsourceId⟩,
    target, List.mem_filter.mpr ⟨htarget, htargetId ▸ hkept.2⟩, htargetId⟩

theorem deleteNode_of_mem (h : ∃ node ∈ graph.nodes, node.id = id) :
    graph.deleteNode id = .ok (graph.without (graph.below id)) := by
  obtain ⟨node, hnode, hid⟩ := h
  cases hfound : graph.node? id with
  | none => exact absurd hid (node?_eq_none_iff.mp hfound node hnode)
  | some found => rw [deleteNode, hfound]

/-- The scans come to an end, each before the last finding something new, and what they have found
is deleted: exactly the nodes below the given one, with the edges that touch them. -/
theorem deleteNode_exact (h : ∃ node ∈ graph.nodes, node.id = id) :
    ∃ rounds next, rounds ≤ graph.edges.length ∧
      (∀ n < rounds, (graph.scan^[n] [id]).length < (graph.scan^[n + 1] [id]).length) ∧
      graph.scan^[rounds + 1] [id] = graph.scan^[rounds] [id] ∧
      next = graph.without (graph.scan^[rounds] [id]) ∧
      graph.deleteNode id = .ok next ∧
      next.nodes = (graph.nodes.filter fun node => ¬ graph.Leads id node.id) ∧
      next.edges = (graph.edges.filter fun edge =>
        ¬ graph.Leads id edge.source ∧ ¬ graph.Leads id edge.target) ∧
      next.roots = (graph.roots.filter fun root => ¬ graph.Leads id root) ∧
      (graph.EndsPresent → next.EndsPresent) := by
  obtain ⟨rounds, hle, hbelow, hgrows⟩ := exists_scans graph graph.edges.length [id]
  change graph.below id = _ at hbelow
  refine ⟨rounds, graph.without (graph.below id), hle, hgrows, ?_, by rw [hbelow],
    deleteNode_of_mem h, ?_, ?_, ?_, fun hends => hends.without _⟩
  · rw [Function.iterate_succ_apply', ← hbelow, scan_below]
  · rw [without_below]
  · rw [without_below]
  · rw [without_below]

/-- A graph with a cycle, with a node that two others are wired to, and with an edge between ids of
no nodes. -/
def tangled : Graph Float where
  nodes := ["a", "b", "c", "d"].map fun id =>
    ⟨id, Key.ofNat 0, .other, ⟨0.0, 0.0⟩, ⟨0.0, 0.0⟩, [], .operation "NOT" []⟩
  edges := [.link "b" 1 "c", .link "d" 0 "c", .link "a" 0 "b", .link "b" 0 "a", .link "x" 0 "y"]
  roots := ["a", "d"]

/-- The cycle is deleted as a whole, with the shared node and every edge that touches them. -/
theorem tangled_deleteNode : (∃ node ∈ tangled.nodes, node.id = "b") ∧
    ∃ next, tangled.deleteNode "b" = .ok next ∧ next.nodes.map Node.id = ["d"] ∧
      next.edges = [.link "x" 0 "y"] ∧ next.roots = ["d"] := by
  have hmem : ∃ node ∈ tangled.nodes, node.id = "b" := by simp [tangled]
  obtain ⟨_, next, _, _, _, _, hnext, hnodes, hedges, hroots, _⟩ := deleteNode_exact hmem
  refine ⟨hmem, next, hnext, ?_, ?_, ?_⟩
  · rw [hnodes]
    rfl
  · rw [hedges]
    rfl
  · rw [hroots]
    rfl

/-! ## What else leads to it -/

/-- Every path from a root to the target passes through the id. -/
def OnlyThrough (graph : Graph α) (id target : String) : Prop :=
  ∀ root ∈ graph.roots, ∀ ids, Route graph.Wired ids root target → id ∈ ids

/-- The nodes of a graph that are not in another one, but for the one with the id, are within reach
of the roots only through it. -/
def LosesOnlyThrough (graph next : Graph α) (id : String) : Prop :=
  ∀ node ∈ graph.nodes, node ∉ next.nodes → node.id ≠ id → graph.OnlyThrough id node.id

/-- Where a node is plugged in once at most, what leads to the end of a route either is on it or
leads to its start. -/
theorem leads_source_of_route (hnodup : (graph.edges.map Edge.target).Nodup) {ids : List String}
    {root target : String} (hroute : Route graph.Wired ids root target) (havoids : id ∉ ids)
    (h : graph.Leads id target) : graph.Leads id root := by
  induction hroute with
  | single target => exact h
  | cons hstep hrest ih =>
      have hnext := ih (fun hmem => havoids (List.mem_cons_of_mem _ hmem)) h
      obtain ⟨edge, hedge, rfl, rfl⟩ := hstep
      rcases leads_source_of_leads_target hnodup (fun _ hmem => hmem) hedge hnext with hsame | hmore
      · exact absurd (List.mem_cons_of_mem _ (hsame ▸ hrest.source_mem)) havoids
      · exact hmore.2

theorem not_mem_nodes_without {node : Node α} (hnode : node ∈ graph.nodes) :
    node ∉ (graph.without (graph.below id)).nodes ↔ graph.Leads id node.id := by
  simp [without_below, hnode]

theorem not_mem_roots_without {root : String} (hroot : root ∈ graph.roots) :
    root ∉ (graph.without (graph.below id)).roots ↔ graph.Leads id root := by
  simp [without_below, hroot]

/-- No root that is kept leads to a deleted node past the one with the id. -/
theorem WellWired.through_of_kept (h : graph.WellWired) {node : Node α} (hnode : node ∈ graph.nodes)
    (hgone : node ∉ (graph.without (graph.below id)).nodes) {root : String}
    (hroot : root ∈ (graph.without (graph.below id)).roots) {ids : List String}
    (hroute : Route graph.Wired ids root node.id) : id ∈ ids := by
  by_contra havoids
  have hleads := (not_mem_nodes_without hnode).mp hgone
  have hmem : root ∈ graph.roots := (List.mem_filter.mp hroot).1
  exact (not_mem_roots_without hmem).mpr
    (leads_source_of_route h.nodup_targets hroute havoids hleads) hroot

/-- Only what is reachable through the node is deleted with it, exactly if no other root is. -/
theorem WellWired.losesOnlyThrough_iff (h : graph.WellWired) :
    graph.LosesOnlyThrough (graph.without (graph.below id)) id ↔
      ∀ root ∈ graph.roots, root ≠ id → root ∈ (graph.without (graph.below id)).roots := by
  constructor
  · intro honly root hroot hother
    by_contra hgone
    obtain ⟨node, hnode, rfl, _⟩ := h.root_mem root hroot
    have hleads := (not_mem_roots_without hroot).mp hgone
    have hmem := honly node hnode ((not_mem_nodes_without hnode).mpr hleads) hother node.id hroot
      [node.id] (.single _)
    exact hother (List.mem_singleton.mp hmem).symm
  · intro hkept node hnode hgone _ root hroot ids hroute
    by_cases hother : root = id
    · exact hother ▸ hroute.source_mem
    · exact h.through_of_kept hnode hgone (hkept root hroot hother) hroute

/-- While cycles through roots are closed, a root below a node is on a cycle with it. -/
theorem RootsClosed.leads_back (h : graph.RootsClosed)
    (hnodup : (graph.edges.map Edge.target).Nodup)
    {root : String} (hroot : root ∈ graph.roots) (hleads : graph.Leads id root) :
    graph.Leads root id := by
  rcases ReflTransGen.cases_tail hleads with hsame | ⟨_, hbefore, last, hlast, rfl, rfl⟩
  · exact hsame ▸ ReflTransGen.refl
  · exact leads_of_leads_back hnodup (fun _ hmem => hmem) hlast (h _ hroot last hlast rfl) hbefore

/-- No root of a document that can be rebuilt is below another node. -/
theorem RootsClosed.eq_of_leads (hclosed : graph.RootsClosed) (h : graph.WellWired)
    {document : Document} (hdocument : graph.document = .ok document) {root : String}
    (hroot : root ∈ graph.roots) (hleads : graph.Leads id root) : root = id := by
  rcases ReflTransGen.cases_tail hleads with hsame | ⟨_, _, last, hlast, _, htarget⟩
  · exact hsame
  · obtain ⟨error, herror⟩ := document_error_of_cycle h hroot hlast htarget
      (hclosed root hroot last hlast htarget)
    cases hdocument.symm.trans herror

end

end Graph

namespace Session

variable {layout : Layout Float} {session : Session}

/-- What is deleted with a node was within reach of the roots that are kept only through the node.
This holds of all roots exactly if no other root is deleted, and a root is deleted exactly if the
node leads to it. As long as no request uncoils a cycle, such a root is on a cycle with the node, so
that there is none while the document can be rebuilt. -/
theorem Reached.deleteNode_onlyThrough (h : session.Reached layout Admits) {id : String}
    (hid : ∃ node ∈ session.graph.nodes, node.id = id) :
    ∃ next, session.graph.deleteNode id = .ok next ∧
      (∀ node ∈ session.graph.nodes, node ∉ next.nodes → ∀ root ∈ next.roots, ∀ ids,
        Graph.Route session.graph.Wired ids root node.id → id ∈ ids) ∧
      (session.graph.LosesOnlyThrough next id ↔
        ∀ root ∈ session.graph.roots, root ≠ id → root ∈ next.roots) ∧
      (∀ root ∈ session.graph.roots, root ∉ next.roots ↔ session.graph.Leads id root) ∧
      (session.Reached layout KeepsCycles →
        (∀ root ∈ session.graph.roots, root ∉ next.roots → session.graph.Leads root id) ∧
        ∀ document, session.graph.document = .ok document →
          session.graph.LosesOnlyThrough next id) := by
  have hwired := h.graph_wired
  refine ⟨session.graph.without (session.graph.below id), Graph.deleteNode_of_mem hid,
    fun node hnode hgone root hroot ids hroute => hwired.through_of_kept hnode hgone hroot hroute,
    hwired.losesOnlyThrough_iff, fun root hroot => Graph.not_mem_roots_without hroot, ?_⟩
  intro hkeeps
  have hclosed := (hkeeps.wired_closed session.graph List.mem_cons_self).2
  constructor
  · intro root hroot hgone
    exact hclosed.leads_back hwired.nodup_targets hroot
      ((Graph.not_mem_roots_without hroot).mp hgone)
  · intro document hdocument
    rw [hwired.losesOnlyThrough_iff]
    intro root hroot hother
    by_contra hgone
    exact hother (hclosed.eq_of_leads hwired hdocument hroot
      ((Graph.not_mem_roots_without hroot).mp hgone))

/-- A session with two expressions, one of them with an operation inside another. -/
def branched : Session :=
  (start numberedSupply ⟨Registry.standard, LayoutConfig.standard⟩).perform
    (.loadDocument [⟨"IF", [.nested "and" [.nested "not" []]]⟩, ⟨"IF", []⟩])

theorem reached_branched :
    branched.Reached ⟨Registry.standard, LayoutConfig.standard⟩ KeepsCycles :=
  .perform _ (.start numberedSupply) ⟨trivial, fun huncoils => huncoils⟩

/-- The operation inside goes with the one around it, and both roots stay. -/
theorem branched_deleteNode :
    branched.Reached ⟨Registry.standard, LayoutConfig.standard⟩ Admits ∧
      (∃ node ∈ branched.graph.nodes, node.id = "root.0.0") ∧
      ∃ next, branched.graph.deleteNode "root.0.0" = .ok next ∧
        next.nodes.map Node.id = ["root.0", "root.1"] ∧ next.roots = ["root.0", "root.1"] ∧
        branched.graph.LosesOnlyThrough next "root.0.0" := by
  have hreached := reached_branched.mono fun _ _ hkeeps => hkeeps.1
  have hmem : "root.0.0" ∈ branched.graph.nodes.map Node.id := by decide
  obtain ⟨next, hnext, _, _, _, hclosed⟩ := Reached.deleteNode_onlyThrough hreached
    (List.mem_map.mp hmem)
  have honly := (hclosed reached_branched).2 _ rfl
  cases hnext
  exact ⟨hreached, List.mem_map.mp hmem, _, rfl, rfl, rfl, honly⟩

/-- Of two operations that are plugged into each other, the one that is deleted takes the other with
it, although that is a root; the graph, which showed no document, then shows the empty one. -/
theorem coiled_loses_root :
    coiled.Reached ⟨Registry.standard, LayoutConfig.standard⟩ Admits ∧
      (∃ node ∈ coiled.graph.nodes, node.id = "root.1") ∧
      ∃ next, coiled.graph.deleteNode "root.1" = .ok next ∧
        "root.0" ∈ coiled.graph.roots ∧ "root.0" ∉ next.roots ∧ next.document = .ok [] ∧
        ¬ coiled.graph.LosesOnlyThrough next "root.1" := by
  have hreached := reached_coiled.mono fun _ _ hkeeps => hkeeps.1
  have hmem : "root.1" ∈ coiled.graph.nodes.map Node.id := by decide
  have hroot : "root.0" ∈ coiled.graph.roots := List.mem_singleton.mpr rfl
  have hgone : "root.0" ∉ (coiled.graph.without (coiled.graph.below "root.1")).roots := by decide
  refine ⟨hreached, List.mem_map.mp hmem, _, Graph.deleteNode_of_mem (List.mem_map.mp hmem), hroot,
    hgone, rfl, ?_⟩
  have hwired := (reached_coiled.wired_closed coiled.graph List.mem_cons_self).1
  rw [hwired.losesOnlyThrough_iff]
  intro hkept
  exact hgone (hkept "root.0" hroot (by decide))

end Session

end RuleGraph
