import RuleGraph.Proofs.Computations
import RuleGraph.Proofs.Connections

/-!
# Connections commute

A connection asks for a free slot and for a node that is plugged in nowhere. Of two connections each
is granted after the other exactly if both are granted at first, and they share neither the slot nor
the target; so the order does not matter. The graphs after both have the same nodes, and the same
edges in another order. Their roots are those of the old graph without the targets, unless one of
the edges closes a cycle: then it depends on the order whose target stays a root.
-/

namespace RuleGraph

open Relation

/-- What is to be plugged into which slot. -/
structure Connection where
  source : String
  slot : Nat
  target : String

def Connection.run {α : Type} (connection : Connection) (graph : Graph α) :
    Except EditError (Graph α) :=
  graph.connect connection.source connection.slot connection.target

namespace Graph

variable {α : Type} {graph : Graph α} {a b : Connection}

def join (graph : Graph α) (connection : Connection) : Graph α :=
  graph.plug connection.source connection.slot connection.target

/-! ## Both are granted, in either order -/

/-- What a connection asks of a graph. -/
structure Offers (graph : Graph α) (connection : Connection) : Prop where
  slot : ∃ node, graph.node? connection.source = some node ∧
    (node.slot? connection.slot).isSome = true
  target : (graph.node? connection.target).isSome = true
  free : graph.edgeFrom? connection.source connection.slot = none
  unplugged : graph.incoming? connection.target = none

theorem run_eq_ok_iff {next : Graph α} :
    a.run graph = .ok next ↔ graph.Offers a ∧ next = graph.join a := by
  constructor
  · intro h
    obtain ⟨node, hnode, htarget, hslot, hfree, hunplugged, hnext⟩ := connect_eq_ok h
    exact ⟨⟨⟨node, hnode, hslot⟩, htarget, hfree, hunplugged⟩, hnext⟩
  · intro h
    obtain ⟨hoffers, hnext⟩ := h
    obtain ⟨node, hnode, hslot⟩ := hoffers.slot
    rw [hnext]
    exact connect_eq_plug hnode hoffers.target hslot hoffers.free hoffers.unplugged

/-- The connections differ in what a slot and a node take part in only once. -/
structure Separate (a b : Connection) : Prop where
  outlet_ne : ¬ (a.source = b.source ∧ a.slot = b.slot)
  target_ne : a.target ≠ b.target

theorem Separate.symm (h : Separate a b) : Separate b a :=
  ⟨fun hsame => h.outlet_ne ⟨hsame.1.symm, hsame.2.symm⟩, h.target_ne.symm⟩

theorem edgeFrom?_join :
    (graph.join a).edgeFrom? b.source b.slot = none ↔
      graph.edgeFrom? b.source b.slot = none ∧ ¬ (a.source = b.source ∧ a.slot = b.slot) := by
  simp [edgeFrom?_eq_none_iff, join, plug, Edge.link, or_imp, forall_and]

theorem incoming?_join :
    (graph.join a).incoming? b.target = none ↔
      graph.incoming? b.target = none ∧ a.target ≠ b.target := by
  simp [incoming?_eq_none_iff, join, plug, Edge.link, or_imp, forall_and]

/-- The nodes stay, so that only the slot and the target can be lost to the other connection. -/
theorem offers_join : (graph.join a).Offers b ↔ graph.Offers b ∧ Separate a b := by
  constructor
  · intro h
    have hfree := edgeFrom?_join.mp h.free
    have hunplugged := incoming?_join.mp h.unplugged
    exact ⟨⟨h.slot, h.target, hfree.1, hunplugged.1⟩, hfree.2, hunplugged.2⟩
  · intro h
    exact ⟨h.1.slot, h.1.target, edgeFrom?_join.mpr ⟨h.1.free, h.2.outlet_ne⟩,
      incoming?_join.mpr ⟨h.1.unplugged, h.2.target_ne⟩⟩

theorem run_run_eq_ok_iff {both : Graph α} :
    a.run graph >>= b.run = .ok both ↔
      graph.Offers a ∧ graph.Offers b ∧ Separate a b ∧ both = (graph.join a).join b := by
  simp only [bind_eq_ok, run_eq_ok_iff]
  constructor
  · intro h
    obtain ⟨_, ⟨ha, rfl⟩, hb, hboth⟩ := h
    exact ⟨ha, (offers_join.mp hb).1, (offers_join.mp hb).2, hboth⟩
  · intro h
    exact ⟨_, ⟨h.1, rfl⟩, offers_join.mpr ⟨h.2.1, h.2.2.1⟩, h.2.2.2⟩

/-! ## Both lead to the same roots -/

theorem Cyclic.mono {larger : Graph α} (hedges : ∀ edge ∈ graph.edges, edge ∈ larger.edges)
    (h : graph.Cyclic) : larger.Cyclic := by
  obtain ⟨id, hcycle⟩ := h
  have hstep : ∀ source target, graph.Wired source target → larger.Wired source target := by
    intro source target hwired
    obtain ⟨edge, hedge, hends⟩ := hwired
    exact ⟨edge, hedges edge hedge, hends⟩
  exact ⟨id, TransGen.mono hstep _ _ hcycle⟩

theorem cyclic_join_iff (h : ¬ graph.Cyclic) :
    (graph.join a).Cyclic ↔ graph.reaches a.target a.source = true :=
  (cyclic_plug_iff h).trans reaches_iff.symm

/-- Without cycles the target is no root any longer. -/
theorem roots_join (h : ¬ (graph.join a).Cyclic) :
    (graph.join a).roots = graph.roots.filter fun root => root != a.target := by
  have hbefore : ¬ graph.Cyclic :=
    fun hcyclic => h (hcyclic.mono fun edge hedge => List.mem_append_left _ hedge)
  exact roots_plug_of_not_leads (mt (cyclic_plug_iff hbefore).mpr h)

theorem roots_join_join (h : ¬ ((graph.join a).join b).Cyclic) :
    ((graph.join a).join b).roots =
      graph.roots.filter fun root => root != b.target && root != a.target := by
  have hfirst : ¬ (graph.join a).Cyclic :=
    fun hcyclic => h (hcyclic.mono fun edge hedge => List.mem_append_left _ hedge)
  rw [roots_join h, roots_join hfirst, List.filter_filter]

theorem edges_join_join_perm :
    ((graph.join b).join a).edges.Perm ((graph.join a).join b).edges := by
  simp only [join, plug, List.append_assoc]
  exact (List.Perm.swap _ _ []).append_left graph.edges

/-- Two connections are granted in one order exactly if they are in the other. Both orders lead to
the same nodes, to the same edges in another order, and, if no cycle is closed, to the same roots in
the same order. -/
theorem connections_commute (graph : Graph α) (a b : Connection) :
    ((∃ both, a.run graph >>= b.run = .ok both) ↔ ∃ both, b.run graph >>= a.run = .ok both) ∧
    ∀ both other, a.run graph >>= b.run = .ok both → b.run graph >>= a.run = .ok other →
      other.nodes = both.nodes ∧ other.edges.Perm both.edges ∧
        (¬ both.Cyclic → other.roots = both.roots) := by
  constructor
  · simp only [run_run_eq_ok_iff]
    constructor
    · intro h
      obtain ⟨_, ha, hb, hapart, _⟩ := h
      exact ⟨_, hb, ha, hapart.symm, rfl⟩
    · intro h
      obtain ⟨_, hb, ha, hapart, _⟩ := h
      exact ⟨_, ha, hb, hapart.symm, rfl⟩
  · intro both other hboth hother
    obtain ⟨_, _, _, rfl⟩ := run_run_eq_ok_iff.mp hboth
    obtain ⟨_, _, _, rfl⟩ := run_run_eq_ok_iff.mp hother
    refine ⟨rfl, edges_join_join_perm, ?_⟩
    intro hboth
    have hother : ¬ ((graph.join b).join a).Cyclic :=
      fun hcyclic => hboth (hcyclic.mono fun edge => edges_join_join_perm.mem_iff.mp)
    rw [roots_join_join hboth, roots_join_join hother]
    simp only [Bool.and_comm]

/-- Three operations, each of them a root. -/
def scattered : Graph Float where
  nodes := ["a", "b", "c"].map fun id =>
    ⟨id, Key.ofNat 0, .other, ⟨0.0, 0.0⟩, ⟨0.0, 0.0⟩, [⟨0, "operand", true⟩], .operation "NOT" []⟩
  edges := []
  roots := ["a", "b", "c"]

/-- A chain can be plugged together from either end. -/
theorem scattered_chained : ∃ both other : Graph Float,
    Connection.run ⟨"a", 0, "b"⟩ scattered >>= Connection.run ⟨"b", 0, "c"⟩ = .ok both ∧
    Connection.run ⟨"b", 0, "c"⟩ scattered >>= Connection.run ⟨"a", 0, "b"⟩ = .ok other ∧
    ¬ both.Cyclic ∧ other.nodes = both.nodes ∧ other.edges.Perm both.edges ∧
    other.edges ≠ both.edges ∧ both.roots = ["a"] ∧ other.roots = ["a"] := by
  let first : Connection := ⟨"a", 0, "b"⟩
  let second : Connection := ⟨"b", 0, "c"⟩
  have hboth : first.run scattered >>= second.run = .ok ((scattered.join first).join second) := rfl
  have hother : second.run scattered >>= first.run = .ok ((scattered.join second).join first) := rfl
  have hscattered : ¬ scattered.Cyclic := by
    rintro ⟨id, hcycle⟩
    obtain ⟨_, ⟨edge, hedge, _⟩, _⟩ := TransGen.head'_iff.mp hcycle
    cases hedge
  have hfirst : ¬ (scattered.join first).Cyclic :=
    mt (cyclic_join_iff hscattered).mp (by decide)
  have hacyclic : ¬ ((scattered.join first).join second).Cyclic :=
    mt (cyclic_join_iff hfirst).mp (by decide)
  obtain ⟨hnodes, hedges, hroots⟩ := (connections_commute scattered first second).2 _ _ hboth hother
  refine ⟨_, _, hboth, hother, hacyclic, hnodes, hedges, by decide, rfl, hroots hacyclic⟩

/-- Of two operations that are plugged into each other the later target stays a root. -/
example :
    (Connection.run ⟨"a", 0, "b"⟩ scattered >>= Connection.run ⟨"b", 0, "a"⟩).map Graph.roots =
      .ok ["a", "c"] ∧
    (Connection.run ⟨"b", 0, "a"⟩ scattered >>= Connection.run ⟨"a", 0, "b"⟩).map Graph.roots =
      .ok ["b", "c"] :=
  ⟨rfl, rfl⟩

end Graph

end RuleGraph
