import RuleGraph.Proofs.Connections
import RuleGraph.Proofs.Relayouts

/-!
# Disconnecting

To disconnect is to drop the edges with an id, and ids of edges are texts that are put together from
ids which may be any texts. In the graphs of a session it nevertheless takes out one edge at most:
an edge is named by its slot, the name of a slot belongs to no other, and no slot has two edges.
Therefore a connection can be taken back, up to the target that was a root.
-/

namespace RuleGraph

namespace Graph

variable {α : Type} {graph next : Graph α} {source target : String} {slot : Nat}

/-- The slot is freed: the edge that leaves through it is taken out from among the others. Nothing
else changes, and nothing at all if the slot is free. -/
inductive Frees (graph : Graph α) (source : String) (slot : Nat) : Graph α → Prop
  | nothing (hfree : graph.edgeFrom? source slot = none) : Frees graph source slot graph
  | taken {edge : Edge} {before after : List Edge}
      (hedge : graph.edgeFrom? source slot = some edge)
      (hedges : graph.edges = before ++ edge :: after) :
      Frees graph source slot ⟨graph.nodes, before ++ after, graph.roots⟩

theorem Frees.length_le (h : graph.Frees source slot next) :
    graph.edges.length ≤ next.edges.length + 1 := by
  cases h with
  | nothing _ => omega
  | taken _ hedges =>
      simp [hedges]
      omega

theorem disconnect_eq_self {id : String} (h : ∀ edge ∈ graph.edges, edge.id ≠ id) :
    graph.disconnect id = graph := by
  have hedges : (graph.edges.filter fun edge => edge.id != id) = graph.edges := by
    simpa using h
  rw [disconnect, hedges]

/-- Ids of edges are not repeated, so that the edges before and after one of them stay. -/
theorem disconnect_eq {edge : Edge} {before after : List Edge}
    (hnodup : (graph.edges.map Edge.id).Nodup) (hedges : graph.edges = before ++ edge :: after) :
    graph.disconnect edge.id = ⟨graph.nodes, before ++ after, graph.roots⟩ := by
  rw [hedges, List.map_append, List.map_cons, List.nodup_middle, List.nodup_cons] at hnodup
  have hothers : ((before ++ after).filter fun other => other.id != edge.id) = before ++ after := by
    rw [List.filter_eq_self]
    intro other hother
    have hne : other.id ≠ edge.id := by
      intro heq
      apply hnodup.1
      rw [← heq, ← List.map_append]
      exact List.mem_map_of_mem hother
    simpa using hne
  rw [List.filter_append] at hothers
  simp [disconnect, hedges, hothers]

namespace WellWired

/-- The name of a slot belongs to no other slot. -/
theorem id_ne_of_free (h : graph.WellWired) (hfree : graph.edgeFrom? source slot = none) :
    ∀ edge ∈ graph.edges, edge.id ≠ edgeId source slot := by
  intro edge hmem hid
  rw [h.edge_id edge hmem, edgeId_inj] at hid
  exact edgeFrom?_eq_none_iff.mp hfree edge hmem hid.1 hid.2

/-- The edge with the name of a slot is the one that leaves through the slot. -/
theorem disconnect_edgeId (h : graph.WellWired) (source : String) (slot : Nat) :
    graph.Frees source slot (graph.disconnect (edgeId source slot)) := by
  cases hedge : graph.edgeFrom? source slot with
  | none =>
      rw [disconnect_eq_self (h.id_ne_of_free hedge)]
      exact .nothing hedge
  | some edge =>
      obtain ⟨hmem, hsource, hslot⟩ := mem_of_edgeFrom? hedge
      obtain ⟨before, after, hedges⟩ := List.append_of_mem hmem
      have hid : edgeId source slot = edge.id := by
        rw [h.edge_id edge hmem, hsource, hslot]
      rw [hid, disconnect_eq h.nodup_edges hedges]
      exact .taken hedge hedges

theorem disconnect_of_not_edgeId (h : graph.WellWired) {id : String}
    (hid : ∀ source slot, id ≠ edgeId source slot) : graph.disconnect id = graph := by
  apply disconnect_eq_self
  intro edge hmem heq
  rw [h.edge_id edge hmem] at heq
  exact hid _ _ heq.symm

theorem length_le_disconnect (h : graph.WellWired) (id : String) :
    graph.edges.length ≤ (graph.disconnect id).edges.length + 1 := by
  by_cases hid : ∃ source slot, id = edgeId source slot
  · obtain ⟨source, slot, rfl⟩ := hid
    exact (h.disconnect_edgeId source slot).length_le
  · simp only [not_exists] at hid
    rw [h.disconnect_of_not_edgeId hid]
    omega

/-- The slot was free, so that the new edge is the only one with its name. -/
theorem disconnect_connect (h : graph.WellWired)
    (hconnect : graph.connect source slot target = .ok next) :
    next.disconnect (edgeId source slot) = ⟨graph.nodes, graph.edges, next.roots⟩ := by
  obtain ⟨_, _, _, _, hfree, _, rfl⟩ := connect_eq_ok hconnect
  have hold : (graph.edges.filter fun edge => edge.id != edgeId source slot) = graph.edges :=
    congrArg Graph.edges (disconnect_eq_self (h.id_ne_of_free hfree))
  simp [Graph.disconnect, plug, Edge.link, hold]

end WellWired

end Graph

namespace Session

/-- In the graphs of a session to disconnect takes out one edge at most: the one that leaves through
a slot if the id is the name of the slot, and none if it is no name of a slot. What is connected and
then disconnected again leaves the nodes and the edges as they were, and the roots but for the
target, which is no root any longer unless it leads to the slot. -/
theorem Reached.disconnect_exact {layout : Layout Float} {session : Session}
    (h : session.Reached layout Admits) : ∀ graph ∈ session.graphs,
      (∀ id, graph.edges.length ≤ (graph.disconnect id).edges.length + 1) ∧
      (∀ source slot, graph.Frees source slot (graph.disconnect (edgeId source slot))) ∧
      (∀ id, (∀ source slot, id ≠ edgeId source slot) → graph.disconnect id = graph) ∧
      ∀ source slot target next, graph.connect source slot target = .ok next →
        next.disconnect (edgeId source slot) = ⟨graph.nodes, graph.edges, next.roots⟩ ∧
        (graph.Leads target source → next.roots = graph.roots) ∧
        (¬ graph.Leads target source →
          next.roots = graph.roots.filter fun root => root != target) := by
  intro graph hgraph
  have hwired := (h.wired_made (fun _ _ hadmits => hadmits) graph hgraph).1
  refine ⟨hwired.length_le_disconnect, hwired.disconnect_edgeId,
    fun _ => hwired.disconnect_of_not_edgeId, ?_⟩
  intro source slot target next hconnect
  have hback := hwired.disconnect_connect hconnect
  obtain ⟨_, _, _, _, _, _, rfl⟩ := Graph.connect_eq_ok hconnect
  exact ⟨hback, Graph.roots_plug_of_leads, Graph.roots_plug_of_not_leads⟩

/-- A session with an operation beside the document whose id is the name of an edge. -/
def dashed : Session :=
  ((start numberedSupply ⟨Registry.standard, LayoutConfig.standard⟩).perform
    (.loadDocument [⟨"not", [.nested "and" []]⟩, ⟨"or", []⟩])).perform
      (.apply (.addOperationNode "not" ⟨0.0, 0.0⟩ (some "root.0-0")))

/-- The edge is told from the operation, and a connection from the operation to a root is taken
back. -/
theorem dashed_disconnect :
    dashed.Reached ⟨Registry.standard, LayoutConfig.standard⟩ Admits ∧
      dashed.graph.Frees "root.0" 0 (dashed.graph.disconnect "root.0-0") ∧
      (dashed.graph.disconnect "root.0-0").edges = [] ∧
      ∃ next, dashed.graph.connect "root.0-0" 0 "root.1" = .ok next ∧
        (next.disconnect "root.0-0-0").edges = [Edge.link "root.0" 0 "root.0.0"] ∧
        dashed.graph.roots = ["root.0", "root.1"] ∧ next.roots = ["root.0"] := by
  have hreached : dashed.Reached ⟨Registry.standard, LayoutConfig.standard⟩ Admits :=
    .perform _ (.perform _ (.start numberedSupply) trivial) trivial
  obtain ⟨_, hfrees, _, hback⟩ :=
    Reached.disconnect_exact hreached dashed.graph List.mem_cons_self
  have hconnect : dashed.graph.connect "root.0-0" 0 "root.1" =
      .ok (dashed.graph.plug "root.0-0" 0 "root.1") := rfl
  have hedges := congrArg Graph.edges (hback _ _ _ _ hconnect).1
  exact ⟨hreached, hfrees "root.0" 0, rfl, _, hconnect, hedges, rfl, rfl⟩

end Session

end RuleGraph
