import Mathlib.Data.List.Dedup
import RuleGraph.Proofs.Paths
import RuleGraph.Proofs.Refusals
import RuleGraph.Proofs.Unfolding

/-!
# Nesting, reports and cycles

The operations around a visited node, from the nearest on, are a route back to the start on which no
id occurs twice. So no visit is nested deeper than there are ids, and one visit more meets an id
that is around it already: the route up to there is a cycle that is reported. Every other report,
too, names a defect that the graph has within reach of the start (`Graph.Justifies`). Where a cycle
is within reach of the start nothing can be rebuilt, because what an operation takes as an argument
has an unfolding that is less deep than its own.
-/

namespace RuleGraph

open Relation

/-- How a node is rebuilt below a chain of operations, nearest first, at a path of the document. -/
abbrev Visit (α : Type) :=
  List String → List Nat → Node α → Except RebuildError Unfolding

namespace GraphIndex

variable {α : Type}

/-- The visit of a node, given the visits of what its edges lead to. -/
def visit (index : GraphIndex α) (below : Visit α) : Visit α := fun above path node =>
  match node.content with
  | .constant value => .ok ⟨.literal value, [], [node.id]⟩
  | .operation name inline =>
    if node.id ∈ above then .error (.cyclicGraph node.id (node.id :: above).reverse)
    else if name = "" then .error (.unnamedOperation node.id)
    else if overflows node.slots inline then .error (.overflow node.id)
    else do
      let positions ← (List.range (argumentCount node.slots inline)).mapM fun position =>
        index.fillPosition (below (node.id :: above) (path ++ [position])) node inline position
      let arguments ← settlePositions node positions
      return ⟨.nested name (arguments.map Unfolding.argument),
        (path, node.key) :: arguments.flatMap Unfolding.keys,
        node.id :: arguments.flatMap Unfolding.visited⟩

/-- Visits nested up to a depth; `beyond` answers for those that are nested deeper. -/
def visitWithin (index : GraphIndex α) (beyond : Visit α) : Nat → Visit α
  | 0 => beyond
  | depth + 1 => index.visit (index.visitWithin beyond depth)

/-- To unfold a node is to visit it, with the report of a cycle for what is nested too deep. -/
theorem unfold_eq_visitWithin (index : GraphIndex α) (fuel : Nat) :
    index.unfold fuel = index.visitWithin
      (fun above _ node => .error (.cyclicGraph node.id (node.id :: above).reverse)) fuel := by
  induction fuel with
  | zero => rfl
  | succ fuel ih =>
      funext above path node
      cases hcontent : node.content with
      | constant value => simp only [unfold, visitWithin, visit, hcontent]
      | operation name inline => simp only [unfold, visitWithin, visit, hcontent, ih]

end GraphIndex

namespace Graph

variable {α : Type} {graph : Graph α}

def idCount (graph : Graph α) : Nat :=
  (graph.nodes.map Node.id).dedup.length

/-- The last node with the id is an operation. -/
def IsOperation (graph : Graph α) (id : String) : Prop :=
  ∃ node, graph.lastNode? id = some node ∧ node.content.isConstant = false

/-- The target is an argument of the source: the edge from one of the positions of the operation
leads to it. Of several nodes with one id, and several edges from one position, the last counts. -/
def Takes (graph : Graph α) (source target : String) : Prop :=
  ∃ node name inline, graph.lastNode? source = some node ∧ node.content = .operation name inline ∧
    ∃ position < node.places inline, ∃ edge, graph.lastEdgeFrom? source position = some edge ∧
      edge.target = target

theorem idCount_lt_nestingBound (graph : Graph α) : graph.idCount < graph.nestingBound := by
  have hle := (List.dedup_sublist (graph.nodes.map Node.id)).length_le
  rw [List.length_map] at hle
  rw [idCount, nestingBound]
  omega

/-! ## What is around a visit -/

/-- The operations around the visit of a node, from the nearest to the one at the start. -/
structure Around (graph : Graph α) (start : String) (above : List String) (id : String) : Prop where
  nodup : above.Nodup
  operations : ∀ other ∈ above, graph.IsOperation other
  route : Route graph.Takes (id :: above).reverse start id

theorem Around.start (graph : Graph α) (id : String) : graph.Around id [] id :=
  ⟨List.nodup_nil, fun _ hother => absurd hother List.not_mem_nil, .single id⟩

theorem Around.length_le {start id : String} {above : List String}
    (h : graph.Around start above id) : above.length ≤ graph.idCount := by
  refine (h.nodup.subperm ?_).length_le
  intro other hother
  obtain ⟨node, hnode, _⟩ := h.operations other hother
  obtain ⟨hmem, rfl⟩ := mem_of_lastNode? hnode
  exact List.mem_dedup.mpr (List.mem_map_of_mem hmem)

/-- The operation is around what it takes as arguments. -/
theorem Around.step {start id target : String} {above : List String}
    (h : graph.Around start above id) (hnew : id ∉ above) (htakes : graph.Takes id target) :
    graph.Around start (id :: above) target where
  nodup := List.nodup_cons.mpr ⟨hnew, h.nodup⟩
  operations := by
    intro other hother
    rcases List.mem_cons.mp hother with rfl | hold
    · obtain ⟨node, name, inline, hnode, hcontent, _⟩ := htakes
      exact ⟨node, hnode, by rw [hcontent]; rfl⟩
    · exact h.operations other hold
  route := by
    rw [List.reverse_cons]
    exact h.route.concat htakes

theorem takes_of_lt {id : String} {node : Node α} {name : String} {inline : List (Option Literal)}
    {position : Nat} {edge : Edge} (hnode : graph.lastNode? id = some node)
    (hcontent : node.content = .operation name inline)
    (hposition : position < argumentCount node.slots inline)
    (hedge : graph.lastEdgeFrom? id position = some edge) : graph.Takes id edge.target := by
  rw [node.argumentCount_eq_places] at hposition
  exact ⟨node, name, inline, hnode, hcontent, position, hposition, edge, hedge, rfl⟩

/-! ## Depth -/

theorem fillPosition_congr {walk other : Node α → Except RebuildError Unfolding} {node : Node α}
    {inline : List (Option Literal)} {position : Nat}
    (h : ∀ edge target, graph.lastEdgeFrom? node.id position = some edge →
      graph.lastNode? edge.target = some target → walk target = other target) :
    graph.index.fillPosition walk node inline position =
      graph.index.fillPosition other node inline position := by
  unfold GraphIndex.fillPosition
  rw [index_edgeFrom?]
  cases hedge : graph.lastEdgeFrom? node.id position with
  | none => rfl
  | some edge =>
      dsimp only
      rw [index_node?]
      cases htarget : graph.lastNode? edge.target with
      | none => rfl
      | some target =>
          dsimp only
          rw [h edge target hedge htarget]

/-- Nothing is ever asked of visits that are nested deeper than there are ids, and one more. -/
theorem visitWithin_eq (beyond other : Visit α) {start id : String} {node : Node α}
    {above : List String} (path : List Nat) {depth deep : Nat}
    (h : graph.Around start above id) (hnode : graph.lastNode? id = some node)
    (hdepth : graph.idCount < depth + above.length) (hdeep : graph.idCount < deep + above.length) :
    graph.index.visitWithin beyond depth above path node =
      graph.index.visitWithin other deep above path node := by
  have hle := h.length_le
  induction depth generalizing deep above path id node with
  | zero => omega
  | succ depth ih =>
      cases deep with
      | zero => omega
      | succ deep =>
          rw [GraphIndex.visitWithin, GraphIndex.visitWithin, GraphIndex.visit, GraphIndex.visit]
          cases hcontent : node.content with
          | constant value => rfl
          | operation name inline =>
              dsimp only
              obtain ⟨_, rfl⟩ := mem_of_lastNode? hnode
              by_cases habove : node.id ∈ above
              · rw [if_pos habove, if_pos habove]
              · rw [if_neg habove, if_neg habove, mapM_congr_of_mem]
                intro position hposition
                apply fillPosition_congr
                intro edge target hedge htarget
                have htakes := takes_of_lt hnode hcontent (List.mem_range.mp hposition) hedge
                have hinner := h.step habove htakes
                apply ih _ hinner htarget _ _ hinner.length_le
                · rw [List.length_cons]
                  omega
                · rw [List.length_cons]
                  omega

/-! ## Reports of cycles -/

/-- The route takes arguments of arguments from the start on, until an operation is met again. -/
structure RunsInto (graph : Graph α) (start : String) (ids : List String) (id : String) : Prop where
  route : Route graph.Takes ids start id
  nodup : ids.dropLast.Nodup
  operations : ∀ other ∈ ids.dropLast, graph.IsOperation other
  returns : id ∈ ids.dropLast

theorem Around.runsInto {start id : String} {above : List String} (h : graph.Around start above id)
    (hagain : id ∈ above) : graph.RunsInto start (id :: above).reverse id := by
  have hbefore : (id :: above).reverse.dropLast = above.reverse := by
    rw [List.reverse_cons, List.dropLast_concat]
  refine ⟨h.route, ?_, ?_, ?_⟩
  · rw [hbefore]
    exact List.nodup_reverse.mpr h.nodup
  · rw [hbefore]
    exact fun other hother => h.operations other (List.mem_reverse.mp hother)
  · rw [hbefore]
    exact List.mem_reverse.mpr hagain

/-! ## Reports and the graph -/

/-- Something is at the position of the node: an edge, or a literal written inline. -/
def Filled (graph : Graph α) (node : Node α) (inline : List (Option Literal)) (position : Nat) :
    Prop :=
  (∃ edge ∈ graph.edges, edge.source = node.id ∧ edge.slot = position) ∨
    ∃ value, inline[position]? = some (some value)

/-- The operation is an argument of arguments of the start. Its node is the last with its id. -/
structure Meets (graph : Graph α) (start : String) (node : Node α) (name : String)
    (inline : List (Option Literal)) : Prop where
  reached : ReflTransGen graph.Takes start node.id
  last : graph.lastNode? node.id = some node
  content : node.content = .operation name inline

/-- The graph below the start has the defect that is reported. A position is missing where nothing
is at it, and either its slot is required or something is at a later position. -/
def Justifies (graph : Graph α) (start : String) : RebuildError → Prop
  | .nodeNotFound missing referencedFrom =>
    (∀ node ∈ graph.nodes, node.id ≠ missing) ∧
      (missing = start ∧ referencedFrom = "<root>" ∨
        ReflTransGen graph.Takes start referencedFrom ∧ graph.Takes referencedFrom missing)
  | .constantRoot id =>
    id = start ∧ ∃ node value, graph.lastNode? id = some node ∧ node.content = .constant value
  | .unnamedOperation id => ∃ node inline, graph.Meets start node "" inline ∧ node.id = id
  | .missingRequiredSlot id position label =>
    ∃ node name inline, graph.Meets start node name inline ∧ node.id = id ∧
      position < node.places inline ∧ label = node.slotLabel position ∧
      ¬ graph.Filled node inline position ∧
      ((∃ slot, node.slot? position = some slot ∧ slot.required = true) ∨
        ∃ later, position < later ∧ later < node.places inline ∧ graph.Filled node inline later)
  | .cyclicGraph id ids => graph.RunsInto start ids id
  | .overflow id =>
    ∃ node name inline, graph.Meets start node name inline ∧ node.id = id ∧
      overflows node.slots inline = true

theorem CountsPlaces.stops_eq_false (hcounts : graph.CountsPlaces) {start : String}
    {e : RebuildError} (h : graph.Justifies start e) : e.stops = false := by
  cases e with
  | overflow id =>
      obtain ⟨node, name, inline, hmeets, _, hoverflows⟩ := h
      have hmem := (mem_of_lastNode? hmeets.last).1
      rw [(hcounts node hmem).overflows_eq_false hmeets.content] at hoverflows
      cases hoverflows
  | _ => rfl

theorem not_filled {node : Node α} {inline : List (Option Literal)} {position : Nat}
    (hunplugged : graph.lastEdgeFrom? node.id position = none)
    (hunwritten : ∀ value, inline[position]? ≠ some (some value)) :
    ¬ graph.Filled node inline position := by
  rintro (⟨edge, hedge, hsource, hslot⟩ | ⟨value, hvalue⟩)
  · rw [lastEdgeFrom?, List.find?_eq_none] at hunplugged
    exact hunplugged edge (List.mem_reverse.mpr hedge) (by simp [hsource, hslot])
  · exact hunwritten value hvalue

theorem filled_of_fillPosition {unfold : Node α → Except RebuildError Unfolding} {node : Node α}
    {inline : List (Option Literal)} {position : Nat} {u : Unfolding}
    (h : graph.index.fillPosition unfold node inline position = .ok (some u)) :
    graph.Filled node inline position := by
  rcases fillPosition_eq_some.mp h with ⟨edge, _, hedge, _⟩ | ⟨_, value, hvalue, _⟩
  · exact Or.inl ⟨edge, mem_of_lastEdgeFrom? hedge⟩
  · exact Or.inr ⟨value, hvalue⟩

/-- The walk reports only what is wrong with the graph: at the visited node, or below it. -/
theorem unfold_justified (fuel : Nat) {start id : String} {node : Node α} {above : List String}
    {path : List Nat} {e : RebuildError} (h : graph.Around start above id)
    (hnode : graph.lastNode? id = some node)
    (hfuel : graph.idCount < fuel + above.length)
    (herror : graph.index.unfold fuel above path node = .error e) : graph.Justifies start e := by
  induction fuel generalizing id node above path with
  | zero =>
      have hle := h.length_le
      omega
  | succ fuel ih =>
      obtain ⟨_, rfl⟩ := mem_of_lastNode? hnode
      cases hcontent : node.content with
      | constant value =>
          rw [unfold_constant fuel above path hcontent] at herror
          cases herror
      | operation name inline =>
          have hmeets : graph.Meets start node name inline :=
            ⟨h.route.reflTransGen, hnode, hcontent⟩
          have hplaces := node.argumentCount_eq_places inline
          rcases unfold_operation_eq_error hcontent herror with ⟨habove, rfl⟩ | ⟨hnew, hbelow⟩
          · exact h.runsInto habove
          · rcases hbelow with ⟨rfl, rfl⟩ | ⟨hoverflows, rfl⟩ | ⟨position, hposition, hfill⟩ |
              ⟨gap, later, u, hlater, hcount, hvacant, hfilled, rfl⟩
            · exact ⟨node, inline, hmeets, rfl⟩
            · exact ⟨node, name, inline, hmeets, rfl, hoverflows⟩
            · rcases fillPosition_eq_error.mp hfill with
                ⟨edge, hedge, htarget⟩ | ⟨hunplugged, hunwritten, hrequired, rfl⟩
              · have htakes := takes_of_lt hnode hcontent hposition hedge
                rcases htarget with ⟨hmissing, rfl⟩ | ⟨target, htarget, hunfold⟩
                · exact ⟨lastNode?_eq_none_iff.mp hmissing, Or.inr ⟨hmeets.reached, htakes⟩⟩
                · refine ih (h.step hnew htakes) htarget ?_ hunfold
                  rw [List.length_cons]
                  omega
              · exact ⟨node, name, inline, hmeets, rfl, hplaces ▸ hposition, rfl,
                  not_filled hunplugged hunwritten, Or.inl hrequired⟩
            · rw [hplaces] at hcount
              exact ⟨node, name, inline, hmeets, rfl, Nat.lt_trans hlater hcount, rfl,
                not_filled hvacant.unplugged hvacant.unwritten,
                Or.inr ⟨later, hlater, hcount, filled_of_fillPosition hfilled⟩⟩

theorem justifies_of_rebuild {start : String} {e : RebuildError}
    (h : graph.rebuild start = .error e) : graph.Justifies start e := by
  rcases unfoldRoot_eq_error.mp (rebuild_eq_error_iff.mp h) with
    ⟨hmissing, rfl⟩ | ⟨node, hnode, ⟨hconstant, rfl⟩ | ⟨_, hunfold⟩⟩
  · exact ⟨lastNode?_eq_none_iff.mp hmissing, Or.inl ⟨rfl, rfl⟩⟩
  · cases hcontent : node.content with
    | operation name inline =>
        rw [hcontent] at hconstant
        cases hconstant
    | constant value => exact ⟨rfl, node, value, hnode, hcontent⟩
  · exact unfold_justified _ (.start graph start) hnode graph.idCount_lt_nestingBound hunfold

/-- Every report of a failed rebuilding names a defect that the graph has below the start, and
nothing but a slot at the last word keeps it from being reported. -/
theorem rebuild_justified {start : String} {e : RebuildError}
    (h : graph.rebuild start = .error e) :
    graph.Justifies start e ∧
      ((∀ node ∈ graph.nodes, ∀ slot ∈ node.slots, slot.index + 1 < UInt64.size) →
        e.stops = false) :=
  ⟨justifies_of_rebuild h,
    fun hslots => (countsPlaces_of_slots hslots).stops_eq_false (justifies_of_rebuild h)⟩

/-- A node of an operation with some required positions. -/
def operationAt (id : String) (positions : Nat) : Node Float where
  id := id
  key := Key.ofNat 0
  kind := .other
  position := ⟨0.0, 0.0⟩
  size := ⟨0.0, 0.0⟩
  slots := (List.range positions).map fun index => ⟨index, defaultSlotLabel index, true⟩
  content := .operation "not" []

/-- An operation below another one, with a literal behind an optional position that is empty. -/
def gapped : Graph Float where
  nodes := [operationAt "a" 1,
    { operationAt "b" 0 with
      slots := [⟨0, "when", false⟩], content := .operation "if" [none, some (.text "x")] }]
  edges := [.link "a" 0 "b"]
  roots := ["a"]

/-- The optional position is missed because something is behind it. -/
theorem gapped_justified :
    gapped.rebuild "a" = .error (.missingRequiredSlot "b" 0 "when") ∧
      gapped.Justifies "a" (.missingRequiredSlot "b" 0 "when") := by
  have hreport : gapped.rebuild "a" = .error (.missingRequiredSlot "b" 0 "when") := rfl
  exact ⟨hreport, (rebuild_justified hreport).1⟩

/-! ## Cycles within reach -/

theorem Unfolds.exists_of_takes {id target : String} {a : Argument} (ha : graph.Unfolds id a)
    (htakes : graph.Takes id target) : ∃ b, graph.Unfolds target b ∧ b.depth < a.depth := by
  obtain ⟨node, name, inline, hnode, hcontent, position, hposition, edge, hedge, rfl⟩ := htakes
  cases ha with
  | constant hnode' hcontent' =>
      cases hnode.symm.trans hnode'
      cases hcontent.symm.trans hcontent'
  | @operation _ _ _ _ arguments hnode' hcontent' _ _ hplugged _ hvacant =>
      cases hnode.symm.trans hnode'
      cases hcontent.symm.trans hcontent'
      rcases Nat.lt_or_ge position arguments.length with hfilled | hbehind
      · have hargument := List.getElem?_eq_getElem hfilled
        exact ⟨_, hplugged position _ edge hargument hedge,
          Argument.depth_lt_of_getElem? hargument⟩
      · have hunplugged := (hvacant position hbehind hposition).unplugged
        rw [(mem_of_lastNode? hnode).2, hedge] at hunplugged
        cases hunplugged

theorem Unfolds.exists_of_transGen {id target : String} {a : Argument} (ha : graph.Unfolds id a)
    (htakes : TransGen graph.Takes id target) :
    ∃ b, graph.Unfolds target b ∧ b.depth < a.depth := by
  induction htakes with
  | single hstep => exact ha.exists_of_takes hstep
  | tail _ hstep ih =>
      obtain ⟨b, hb, hless⟩ := ih
      obtain ⟨c, hc, hlesser⟩ := hb.exists_of_takes hstep
      exact ⟨c, hc, Nat.lt_trans hlesser hless⟩

/-- What leads into a cycle has no unfolding. -/
theorem not_unfolds_of_cycle {start id : String} (hleads : ReflTransGen graph.Takes start id)
    (hcycle : TransGen graph.Takes id id) (a : Argument) : ¬ graph.Unfolds start a := by
  intro ha
  have hround : TransGen graph.Takes start id := hcycle.trans_right hleads
  obtain ⟨b, hb, _⟩ := ha.exists_of_transGen hround
  obtain ⟨c, hc, hless⟩ := hb.exists_of_transGen hcycle
  rw [hc.unique hb] at hless
  exact Nat.lt_irrefl _ hless

/-- Rebuilding ends without visits that are nested deeper than there are ids, and one more. A cycle
that is reported is one, and is within reach of the start; where one is, nothing is rebuilt and
something is reported. -/
theorem rebuild_cycles
    (hslots : ∀ node ∈ graph.nodes, ∀ slot ∈ node.slots, slot.index + 1 < UInt64.size)
    (start : String) :
    (∀ node, graph.lastNode? start = some node → ∀ beyond depth, graph.idCount < depth →
      graph.index.visitWithin beyond depth [] [] node =
        graph.index.unfold graph.nestingBound [] [] node) ∧
    (∀ id ids, graph.rebuild start = .error (.cyclicGraph id ids) → graph.RunsInto start ids id) ∧
    ∀ id, ReflTransGen graph.Takes start id → TransGen graph.Takes id id →
      ∃ error, graph.rebuild start = .error error ∧ error.stops = false := by
  have hcounts := countsPlaces_of_slots hslots
  have hbound := graph.idCount_lt_nestingBound
  refine ⟨?_, ?_, ?_⟩
  · intro node hnode beyond depth hdepth
    rw [GraphIndex.unfold_eq_visitWithin]
    exact visitWithin_eq beyond _ [] (.start graph start) hnode hdepth hbound
  · intro id ids herror
    exact justifies_of_rebuild herror
  · intro id hleads hcycle
    cases hrebuild : graph.rebuild start with
    | error error =>
        exact ⟨error, rfl, hcounts.stops_eq_false (justifies_of_rebuild hrebuild)⟩
    | ok e =>
        obtain ⟨node, u, hnode, hunfold, _⟩ := rebuild_eq_ok.mp hrebuild
        exact absurd (unfold_sound _ hnode hunfold) (not_unfolds_of_cycle hleads hcycle _)

/-- Three operations, the last two of which take each other as arguments. -/
def looped : Graph Float where
  nodes := [operationAt "a" 1, operationAt "b" 1, operationAt "c" 1]
  edges := [.link "c" 0 "b", .link "b" 0 "c", .link "a" 0 "b"]
  roots := ["a"]

/-- The report leads from the start into the cycle and round it. -/
theorem looped_runsInto :
    (∀ node ∈ looped.nodes, ∀ slot ∈ node.slots, slot.index + 1 < UInt64.size) ∧
      looped.rebuild "a" = .error (.cyclicGraph "b" ["a", "b", "c", "b"]) ∧
      looped.RunsInto "a" ["a", "b", "c", "b"] "b" := by
  have hslots : ∀ node ∈ looped.nodes, ∀ slot ∈ node.slots, slot.index + 1 < UInt64.size := by
    simp [looped, operationAt, UInt64.size]
  have hreport : looped.rebuild "a" = .error (.cyclicGraph "b" ["a", "b", "c", "b"]) := rfl
  exact ⟨hslots, hreport, (rebuild_cycles hslots "a").2.1 _ _ hreport⟩

/-- An operation with an edge to itself, and another edge from the same position. -/
def overruled : Graph Float where
  nodes := [operationAt "a" 1, operationAt "b" 0]
  edges := [.link "a" 0 "a", .link "a" 0 "b"]
  roots := ["a"]

/-- A cycle is no obstacle where an edge of it is not the last from its position. -/
theorem overruled_rebuilt :
    (∀ node ∈ overruled.nodes, ∀ slot ∈ node.slots, slot.index + 1 < UInt64.size) ∧
      (∃ node ∈ overruled.nodes, ∃ edge ∈ overruled.edges, node.id = "a" ∧
        node.content = .operation "not" [] ∧ edge.source = "a" ∧ edge.slot < node.places [] ∧
        edge.target = "a") ∧
      overruled.rebuild "a" = .ok ⟨"not", [.nested "not" []]⟩ := by
  refine ⟨by simp [overruled, operationAt, UInt64.size], ?_, rfl⟩
  exact ⟨operationAt "a" 1, List.mem_cons_self, .link "a" 0 "a", List.mem_cons_self, rfl, rfl, rfl,
    by decide, rfl⟩

end Graph

end RuleGraph
