import RuleGraph.Proofs.Edits
import RuleGraph.Proofs.Paths

/-!
# Connections

A connection adds one edge. It closes a cycle exactly if its target leads to its source already, and
only then does a target that is a root stay one; all other roots stay as they are. Whether it does
is found by the search in depth, which has an answer for every graph.
-/

namespace RuleGraph

open Relation

namespace Graph

variable {α : Type} {graph : Graph α} {source target : String} {slot : Nat}

/-- A path of one edge at least leads from some id back to itself. -/
def Cyclic (graph : Graph α) : Prop :=
  ∃ id, TransGen graph.Wired id id

theorem search_decides (graph : Graph α) (source goal : String) :
    search graph.edges goal (graph.edges.length + 1) [] [source] =
      some (decide (graph.Leads source goal)) := by
  obtain ⟨found, hfound⟩ := exists_search_start graph source goal
  rw [hfound, Option.some_inj, Bool.eq_iff_iff, search_eq_some_iff hfound, decide_eq_true_iff]

/-! ## One more edge -/

theorem wired_plug {a b : String} :
    (graph.plug source slot target).Wired a b ↔ graph.Wired a b ∨ source = a ∧ target = b := by
  simp [Wired, plug, Edge.link, or_and_right, exists_or]

/-- A path in the graph with one more edge avoids the edge, or leads up to its source and on from
its target. -/
theorem transGen_plug {a b : String} (h : TransGen (graph.plug source slot target).Wired a b) :
    TransGen graph.Wired a b ∨ graph.Leads a source ∧ graph.Leads target b := by
  induction h with
  | single hstep =>
      rcases wired_plug.mp hstep with hold | ⟨rfl, rfl⟩
      · exact Or.inl (.single hold)
      · exact Or.inr ⟨.refl, .refl⟩
  | tail _ hstep ih =>
      rcases wired_plug.mp hstep with hold | ⟨rfl, rfl⟩
      · rcases ih with hpath | ⟨hup, hon⟩
        · exact Or.inl (hpath.tail hold)
        · exact Or.inr ⟨hup, hon.tail hold⟩
      · rcases ih with hpath | ⟨hup, _⟩
        · exact Or.inr ⟨hpath.to_reflTransGen, .refl⟩
        · exact Or.inr ⟨hup, .refl⟩

/-- The new edge is on the first cycle. -/
theorem cyclic_plug_iff (h : ¬ graph.Cyclic) :
    (graph.plug source slot target).Cyclic ↔ graph.Leads target source := by
  constructor
  · rintro ⟨id, hcycle⟩
    rcases transGen_plug hcycle with hold | ⟨hup, hon⟩
    · exact absurd ⟨id, hold⟩ h
    · exact hon.trans hup
  · intro hleads
    have hedge : (graph.plug source slot target).Wired source target :=
      wired_plug.mpr (Or.inr ⟨rfl, rfl⟩)
    have hback : (graph.plug source slot target).Leads target source :=
      hleads.mono fun edge hmem => List.mem_append_left _ hmem
    exact ⟨source, TransGen.head' hedge hback⟩

/-! ## The roots -/

theorem roots_plug_of_leads (h : graph.Leads target source) :
    (graph.plug source slot target).roots = graph.roots := by
  simp [plug, reaches_iff.mpr h]

theorem roots_plug_of_not_leads (h : ¬ graph.Leads target source) :
    (graph.plug source slot target).roots = graph.roots.filter fun root => root != target := by
  simp [plug, mt reaches_iff.mp h]

theorem mem_roots_plug : target ∈ (graph.plug source slot target).roots ↔
    target ∈ graph.roots ∧ graph.Leads target source := by
  rw [plug]
  by_cases hcloses : graph.reaches target source = true
  · simp [hcloses, reaches_iff.mp hcloses]
  · simp [hcloses, mt reaches_iff.mpr hcloses]

theorem filter_roots_plug (graph : Graph α) (source : String) (slot : Nat) (target : String) :
    ((graph.plug source slot target).roots.filter fun root => root ≠ target) =
      graph.roots.filter fun root => root ≠ target := by
  rw [plug]
  split
  · rfl
  · rw [List.filter_filter]
    exact List.filter_congr fun root _ => by simp [bne]

/-- The search in depth has an answer for every graph, the right one. A granted connection adds one
edge and takes at most its target from the roots, and that only if the target does not lead to the
source; otherwise it closes a cycle, the first one if there was none. -/
theorem connect_exact (graph : Graph α) :
    (∀ source goal, search graph.edges goal (graph.edges.length + 1) [] [source] =
      some (decide (graph.Leads source goal))) ∧
    ∀ source slot target next, graph.connect source slot target = .ok next →
      (target ∈ next.roots ↔ target ∈ graph.roots ∧ graph.Leads target source) ∧
      (next.roots.filter fun root => root ≠ target) =
        (graph.roots.filter fun root => root ≠ target) ∧
      next.nodes = graph.nodes ∧ next.edges = graph.edges ++ [Edge.link source slot target] ∧
      (¬ graph.Cyclic → (next.Cyclic ↔ graph.Leads target source)) := by
  refine ⟨search_decides graph, ?_⟩
  intro source slot target next hconnect
  obtain ⟨_, _, _, _, _, _, rfl⟩ := connect_eq_ok hconnect
  exact ⟨mem_roots_plug, filter_roots_plug graph source slot target, rfl, rfl, cyclic_plug_iff⟩

/-- Two operations, the second plugged into the first, and a root beside them. -/
def paired : Graph Float where
  nodes := ["a", "b", "c"].map fun id =>
    ⟨id, Key.ofNat 0, .other, ⟨0.0, 0.0⟩, ⟨0.0, 0.0⟩, [⟨0, "operand", true⟩], .operation "NOT" []⟩
  edges := [.link "a" 0 "b"]
  roots := ["a", "c"]

theorem not_cyclic_paired : ¬ paired.Cyclic := by
  rintro ⟨id, hcycle⟩
  obtain ⟨_, ⟨first, hfirst, rfl, _⟩, _⟩ := TransGen.head'_iff.mp hcycle
  obtain ⟨_, _, last, hlast, _, hback⟩ := TransGen.tail'_iff.mp hcycle
  rw [List.mem_singleton.mp hfirst, List.mem_singleton.mp hlast] at hback
  exact absurd hback (by decide)

/-- The first operation plugged into the second closes a cycle, and stays a root. -/
theorem paired_connect : ∃ next, paired.connect "b" 0 "a" = .ok next ∧ ¬ paired.Cyclic ∧
    next.Cyclic ∧ "a" ∈ next.roots ∧ (next.roots.filter fun root => root ≠ "a") = ["c"] := by
  have hconnect : paired.connect "b" 0 "a" = .ok (paired.plug "b" 0 "a") := rfl
  have hleads : paired.Leads "a" "b" := .single ⟨_, List.mem_singleton.mpr rfl, rfl, rfl⟩
  obtain ⟨hroot, hothers, _, _, hcyclic⟩ := (connect_exact paired).2 _ _ _ _ hconnect
  exact ⟨_, hconnect, not_cyclic_paired, (hcyclic not_cyclic_paired).mpr hleads,
    hroot.mpr ⟨List.mem_cons_self, hleads⟩, hothers⟩

end Graph

end RuleGraph
