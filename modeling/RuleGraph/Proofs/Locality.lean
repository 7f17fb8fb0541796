import Mathlib.Data.Set.Insert
import RuleGraph.Proofs.Unfolding

/-!
# The wired part of a graph

Rebuilding reads only the slots and contents of nodes, and where the last edge from a position leads
to. Two graphs in which these look-ups agree on a set of ids that the edges of the first do not lead
out of are therefore walked in step, whatever else is in them, at whatever paths and within whatever
bounds that suffice, up to the same expression or the same report.
-/

namespace RuleGraph

namespace Graph

variable {α β : Type} {first : Graph α} {second : Graph β}

/-! ## Graphs that are looked up alike -/

/-- The nodes differ at most in what rebuilding does not read. -/
structure Twins (node : Node α) (twin : Node β) : Prop where
  id_eq : node.id = twin.id
  slots_eq : node.slots = twin.slots
  content_eq : node.content = twin.content

theorem Twins.slot?_eq {node : Node α} {twin : Node β} (h : Twins node twin) (position : Nat) :
    node.slot? position = twin.slot? position := by
  rw [Node.slot?, Node.slot?, h.slots_eq]

theorem Twins.missingSlot_eq {node : Node α} {twin : Node β} (h : Twins node twin)
    (position : Nat) : node.missingSlot position = twin.missingSlot position := by
  rw [Node.missingSlot, Node.missingSlot, Node.slotLabel, Node.slotLabel, h.id_eq, h.slot?_eq]

/-- What rebuilding reads of the nodes and edges at some ids is the same in both graphs, and does
not lead to other ids. -/
structure Mirrors (first : Graph α) (second : Graph β) (ids : Set String) : Prop where
  node : ∀ id ∈ ids, (first.lastNode? id).map (fun node => (node.slots, node.content)) =
    (second.lastNode? id).map fun node => (node.slots, node.content)
  edge : ∀ id ∈ ids, ∀ position, (first.lastEdgeFrom? id position).map Edge.target =
    (second.lastEdgeFrom? id position).map Edge.target
  closed : ∀ id ∈ ids, ∀ position edge, first.lastEdgeFrom? id position = some edge →
    edge.target ∈ ids

variable {ids : Set String}

theorem Mirrors.refl (graph : Graph α) : graph.Mirrors graph Set.univ :=
  ⟨fun _ _ => rfl, fun _ _ _ => rfl, fun _ _ _ _ _ => Set.mem_univ _⟩

theorem Mirrors.node_cases (h : first.Mirrors second ids) {id : String} (hid : id ∈ ids) :
    (first.lastNode? id = none ∧ second.lastNode? id = none) ∨
      ∃ node twin, first.lastNode? id = some node ∧ second.lastNode? id = some twin ∧
        Twins node twin := by
  have hsame := h.node id hid
  cases hfirst : first.lastNode? id with
  | none =>
      rw [hfirst] at hsame
      exact Or.inl ⟨rfl, Option.map_eq_none_iff.mp hsame.symm⟩
  | some node =>
      rw [hfirst] at hsame
      obtain ⟨twin, htwin, hread⟩ := Option.map_eq_some_iff.mp hsame.symm
      obtain ⟨hslots, hcontent⟩ := Prod.mk.inj hread
      have hids := (mem_of_lastNode? hfirst).2.trans (mem_of_lastNode? htwin).2.symm
      exact Or.inr ⟨node, twin, rfl, htwin, hids, hslots.symm, hcontent.symm⟩

theorem Mirrors.edge_cases (h : first.Mirrors second ids) {id : String} (hid : id ∈ ids)
    (position : Nat) :
    (first.lastEdgeFrom? id position = none ∧ second.lastEdgeFrom? id position = none) ∨
      ∃ edge copy, first.lastEdgeFrom? id position = some edge ∧
        second.lastEdgeFrom? id position = some copy ∧ copy.target = edge.target := by
  have hsame := h.edge id hid position
  cases hfirst : first.lastEdgeFrom? id position with
  | none =>
      rw [hfirst] at hsame
      exact Or.inl ⟨rfl, Option.map_eq_none_iff.mp hsame.symm⟩
  | some edge =>
      rw [hfirst] at hsame
      obtain ⟨copy, hcopy, htarget⟩ := Option.map_eq_some_iff.mp hsame.symm
      exact Or.inr ⟨edge, copy, rfl, hcopy, htarget⟩

/-! ## Two walks in step -/

theorem Mirrors.fillPosition (h : first.Mirrors second ids)
    {walk : Node α → Except RebuildError Unfolding} {other : Node β → Except RebuildError Unfolding}
    {node : Node α} {twin : Node β} (htwins : Twins node twin) (hid : node.id ∈ ids)
    (inline : List (Option Literal)) (position : Nat)
    (hbelow : ∀ id ∈ ids, ∀ target copy, first.lastNode? id = some target →
      second.lastNode? id = some copy → Twins target copy →
        (walk target).map Unfolding.argument = (other copy).map Unfolding.argument) :
    (first.index.fillPosition walk node inline position).map (Option.map Unfolding.argument) =
      (second.index.fillPosition other twin inline position).map
        (Option.map Unfolding.argument) := by
  unfold GraphIndex.fillPosition
  rw [index_edgeFrom?, index_edgeFrom?, ← htwins.id_eq]
  rcases h.edge_cases hid position with ⟨hnone, hnone'⟩ | ⟨edge, copy, hedge, hcopy, htarget⟩
  · rw [hnone, hnone', htwins.slot?_eq, htwins.missingSlot_eq]
  · rw [hedge, hcopy]
    dsimp only
    rw [index_node?, index_node?, htarget]
    have hin := h.closed node.id hid position edge hedge
    rcases h.node_cases hin with ⟨hmissing, hmissing'⟩ | ⟨target, twin', hnode, htwin, hsame⟩
    · rw [hmissing, hmissing']
    · have hcommute : ∀ x : Except RebuildError Unfolding,
          (x.map some).map (Option.map Unfolding.argument) =
            (x.map Unfolding.argument).map some := by
        intro x
        cases x <;> rfl
      rw [hnode, htwin]
      dsimp only
      rw [hcommute, hcommute, hbelow edge.target hin target twin' hnode htwin hsame]

theorem Twins.settlePositions {node : Node α} {twin : Node β} (h : Twins node twin)
    {positions others : List (Option Unfolding)}
    (hsame : positions.map (Option.map Unfolding.argument) =
      others.map (Option.map Unfolding.argument)) :
    (GraphIndex.settlePositions node positions).map (List.map Unfolding.argument) =
      (GraphIndex.settlePositions twin others).map (List.map Unfolding.argument) := by
  rw [map_settlePositions, map_settlePositions, hsame]
  simp only [h.missingSlot_eq]

/-- A chain of different nodes that both graphs have. -/
structure Stacked (first : Graph α) (second : Graph β) (above : List String) : Prop where
  nodup : above.Nodup
  first_subset : above ⊆ first.nodes.map Node.id
  second_subset : above ⊆ second.nodes.map Node.id

theorem Stacked.nil (first : Graph α) (second : Graph β) : Stacked first second [] :=
  ⟨List.nodup_nil, List.nil_subset _, List.nil_subset _⟩

theorem Stacked.cons {above : List String} (h : Stacked first second above) {node : Node α}
    {twin : Node β} (htwins : Twins node twin) (hnode : node ∈ first.nodes)
    (htwin : twin ∈ second.nodes) (hnew : node.id ∉ above) :
    Stacked first second (node.id :: above) where
  nodup := List.nodup_cons.mpr ⟨hnew, h.nodup⟩
  first_subset := List.cons_subset.mpr ⟨List.mem_map_of_mem hnode, h.first_subset⟩
  second_subset :=
    List.cons_subset.mpr ⟨htwins.id_eq ▸ List.mem_map_of_mem htwin, h.second_subset⟩

theorem Stacked.length_le {above : List String} (h : Stacked first second above) :
    above.length ≤ first.nodes.length ∧ above.length ≤ second.nodes.length := by
  have hfirst := (h.nodup.subperm h.first_subset).length_le
  have hsecond := (h.nodup.subperm h.second_subset).length_le
  rw [List.length_map] at hfirst hsecond
  exact ⟨hfirst, hsecond⟩

/-- Walks of two graphs that are looked up alike, from twins on, meet the same. -/
theorem Mirrors.unfold (h : first.Mirrors second ids) {fuel deep : Nat} {above : List String}
    (hstacked : Stacked first second above) (path road : List Nat) {id : String} (hid : id ∈ ids)
    {node : Node α} {twin : Node β} (hnode : first.lastNode? id = some node)
    (htwin : second.lastNode? id = some twin) (htwins : Twins node twin)
    (hfuel : first.nodes.length < fuel + above.length)
    (hdeep : second.nodes.length < deep + above.length) :
    (first.index.unfold fuel above path node).map Unfolding.argument =
      (second.index.unfold deep above road twin).map Unfolding.argument := by
  have hle := hstacked.length_le
  induction fuel generalizing deep above path road id node twin with
  | zero => omega
  | succ fuel ih =>
      cases deep with
      | zero => omega
      | succ deep =>
          obtain ⟨hmem, rfl⟩ := mem_of_lastNode? hnode
          have hmem' := (mem_of_lastNode? htwin).1
          rw [GraphIndex.unfold, GraphIndex.unfold, ← htwins.content_eq, ← htwins.id_eq,
            ← htwins.slots_eq]
          cases node.content with
          | constant value => rfl
          | operation name inline =>
              dsimp only
              by_cases habove : node.id ∈ above
              · rw [if_pos habove, if_pos habove]
              by_cases hname : name = ""
              · rw [if_neg habove, if_neg habove, if_pos hname, if_pos hname]
              by_cases hoverflows : overflows node.slots inline = true
              · rw [if_neg habove, if_neg habove, if_neg hname, if_neg hname, if_pos hoverflows,
                  if_pos hoverflows, htwins.id_eq]
              rw [if_neg habove, if_neg habove, if_neg hname, if_neg hname, if_neg hoverflows,
                if_neg hoverflows]
              have hbelow := hstacked.cons htwins hmem hmem' habove
              have hpositions : ∀ position ∈ List.range (argumentCount node.slots inline),
                  (first.index.fillPosition (first.index.unfold fuel (node.id :: above)
                    (path ++ [position])) node inline position).map
                      (Option.map Unfolding.argument) =
                  (second.index.fillPosition (second.index.unfold deep (node.id :: above)
                    (road ++ [position])) twin inline position).map
                      (Option.map Unfolding.argument) := by
                intro position _
                refine h.fillPosition htwins hid inline position ?_
                intro other hother target copy htarget hcopy hsame
                refine ih hbelow (path ++ [position]) (road ++ [position]) hother
                  htarget hcopy hsame ?_ ?_ hbelow.length_le
                · rw [List.length_cons]
                  omega
                · rw [List.length_cons]
                  omega
              refine bind_map_congr (mapM_map_congr hpositions) fun positions positions' hsame => ?_
              refine bind_map_congr (htwins.settlePositions hsame) fun _ _ hsame => ?_
              exact congrArg (fun arguments => Except.ok (Argument.nested name arguments)) hsame

theorem Mirrors.unfoldRoot (h : first.Mirrors second ids) {fuel deep : Nat}
    (hfuel : first.nodes.length < fuel) (hdeep : second.nodes.length < deep) {id : String}
    (hid : id ∈ ids) (path road : List Nat) :
    (first.index.unfoldRoot fuel id path).map Prod.fst =
      (second.index.unfoldRoot deep id road).map Prod.fst := by
  rw [GraphIndex.unfoldRoot, GraphIndex.unfoldRoot, index_node?, index_node?]
  rcases h.node_cases hid with ⟨hmissing, hmissing'⟩ | ⟨node, twin, hnode, htwin, htwins⟩
  · rw [hmissing, hmissing']
  · rw [hnode, htwin]
    dsimp only
    rw [← htwins.content_eq]
    split
    · rfl
    · refine bind_map_congr (h.unfold (.nil first second) path road hid hnode htwin htwins hfuel
        hdeep) fun u v hsame => ?_
      rw [hsame]
      cases v.argument.expression? <;> rfl

/-! ## The wired part of a graph -/

/-- Both graphs have the same nodes and edges at some ids, as far as slots, contents and targets go,
and no edge of the first leads from these ids to another one. -/
structure AlikeOn (first : Graph α) (second : Graph β) (ids : Set String) : Prop where
  nodes : ∀ id ∈ ids, ∀ slots content,
    (∃ node ∈ first.nodes, node.id = id ∧ node.slots = slots ∧ node.content = content) ↔
      ∃ node ∈ second.nodes, node.id = id ∧ node.slots = slots ∧ node.content = content
  edges : ∀ id ∈ ids, ∀ slot target,
    (∃ edge ∈ first.edges, edge.source = id ∧ edge.slot = slot ∧ edge.target = target) ↔
      ∃ edge ∈ second.edges, edge.source = id ∧ edge.slot = slot ∧ edge.target = target
  closed : ∀ edge ∈ first.edges, edge.source ∈ ids → edge.target ∈ ids

theorem map_lastNode?_eq_some_iff {graph : Graph α} (h : (graph.nodes.map Node.id).Nodup)
    {id : String} {slots : List Slot} {content : Content} :
    (graph.lastNode? id).map (fun node => (node.slots, node.content)) = some (slots, content) ↔
      ∃ node ∈ graph.nodes, node.id = id ∧ node.slots = slots ∧ node.content = content := by
  simp [Option.map_eq_some_iff, lastNode?_eq_some_iff h, and_assoc]

theorem map_lastEdgeFrom?_eq_some_iff {graph : Graph α} (h : (graph.edges.map outlet).Nodup)
    {id : String} {slot : Nat} {target : String} :
    (graph.lastEdgeFrom? id slot).map Edge.target = some target ↔
      ∃ edge ∈ graph.edges, edge.source = id ∧ edge.slot = slot ∧ edge.target = target := by
  simp [Option.map_eq_some_iff, lastEdgeFrom?_eq_some_iff h, and_assoc]

theorem AlikeOn.mirrors (h : first.AlikeOn second ids) (hnodes : (first.nodes.map Node.id).Nodup)
    (hnodes' : (second.nodes.map Node.id).Nodup) (hedges : (first.edges.map outlet).Nodup)
    (hedges' : (second.edges.map outlet).Nodup) : first.Mirrors second ids where
  node := by
    intro id hid
    apply Option.ext
    rintro ⟨slots, content⟩
    rw [map_lastNode?_eq_some_iff hnodes, map_lastNode?_eq_some_iff hnodes']
    exact h.nodes id hid slots content
  edge := by
    intro id hid position
    apply Option.ext
    intro target
    rw [map_lastEdgeFrom?_eq_some_iff hedges, map_lastEdgeFrom?_eq_some_iff hedges']
    exact h.edges id hid position target
  closed := by
    intro id hid position edge hedge
    obtain ⟨hmem, hsource, _⟩ := mem_of_lastEdgeFrom? hedge
    exact h.closed edge hmem (hsource ▸ hid)

/-- Rebuilding depends only on the wired part of a graph, and reports the same errors. -/
theorem rebuild_local (hnodes : (first.nodes.map Node.id).Nodup)
    (hnodes' : (second.nodes.map Node.id).Nodup) (hedges : (first.edges.map outlet).Nodup)
    (hedges' : (second.edges.map outlet).Nodup) (h : first.AlikeOn second ids) {start : String}
    (hstart : start ∈ ids) : first.rebuild start = second.rebuild start :=
  (h.mirrors hnodes hnodes' hedges hedges').unfoldRoot (Nat.lt_succ_self _) (Nat.lt_succ_self _)
    hstart [] []

/-- The graph with a shared node, drawn anew in another order, beside an operation that takes the
shared node as well. -/
def sharedBeside : Graph Float where
  nodes := [
    ⟨"leaf", Key.ofNat 5, .dynamicValue, ⟨1.0, 2.0⟩, ⟨3.0, 4.0⟩, [],
      .operation "VAR" [some (.text "x")]⟩,
    ⟨"beside", Key.ofNat 6, .other, ⟨0.0, 0.0⟩, ⟨0.0, 0.0⟩, [⟨0, "only", true⟩],
      .operation "" []⟩,
    ⟨"sum", Key.ofNat 7, .action, ⟨5.0, 6.0⟩, ⟨7.0, 8.0⟩,
      [⟨0, "left", true⟩, ⟨1, "right", true⟩, ⟨2, "rest", false⟩], .operation "ADD" []⟩]
  edges := [⟨"second", "sum", 1, "leaf"⟩, ⟨"third", "beside", 0, "leaf"⟩,
    ⟨"first", "sum", 0, "leaf"⟩]
  roots := ["beside"]

/-- What stands beside the sum plays no part in it. -/
theorem sharedBeside_alike :
    (sharedOperand.nodes.map Node.id).Nodup ∧ (sharedBeside.nodes.map Node.id).Nodup ∧
      (sharedOperand.edges.map outlet).Nodup ∧ (sharedBeside.edges.map outlet).Nodup ∧
      sharedOperand.AlikeOn sharedBeside {"sum", "leaf"} ∧
      sharedOperand.rebuild "sum" = sharedBeside.rebuild "sum" := by
  have hnodes : (sharedOperand.nodes.map Node.id).Nodup := by decide
  have hnodes' : (sharedBeside.nodes.map Node.id).Nodup := by decide
  have hedges : (sharedOperand.edges.map outlet).Nodup := by decide
  have hedges' : (sharedBeside.edges.map outlet).Nodup := by decide
  have halike : sharedOperand.AlikeOn sharedBeside {"sum", "leaf"} := by
    refine ⟨?_, ?_, ?_⟩
    · rintro id (rfl | rfl)
      · simp [sharedOperand, sharedBeside]
      · simp [sharedOperand, sharedBeside]
    · rintro id (rfl | rfl)
      · simp [sharedOperand, sharedBeside, Edge.link, or_comm]
      · simp [sharedOperand, sharedBeside, Edge.link]
    · simp [sharedOperand, Edge.link]
  exact ⟨hnodes, hnodes', hedges, hedges', halike,
    rebuild_local hnodes hnodes' hedges hedges' halike (Or.inl rfl)⟩

end Graph

end RuleGraph
