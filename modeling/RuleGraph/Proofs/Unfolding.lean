import Mathlib.Data.List.Perm.Subperm
import RuleGraph.Proofs.Outline
import RuleGraph.Proofs.Positions

/-!
# What a node unfolds to

`Graph.Unfolds` is the finite unfolding of a node, on any graph: ids and edges may be repeated,
edges may lead nowhere or round in circles, and nodes may be shared. Rebuilding from a node succeeds
exactly with its unfolding. The chain of operations that the walk carries never gives a false alarm:
the unfoldings along it become smaller and smaller, so that a node below itself has none.
-/

namespace RuleGraph

/-- The number of positions of an operation node: the literals written inline, and what the slots
add to them. -/
def Node.places {α : Type} (node : Node α) (inline : List (Option Literal)) : Nat :=
  (node.slots.map fun slot => slot.index + 1).foldl max inline.length

theorem Node.index_lt_places {α : Type} {node : Node α} {slot : Slot} (h : slot ∈ node.slots)
    (inline : List (Option Literal)) : slot.index < node.places inline := by
  rw [places, List.foldl_map]
  exact le_foldl_count_of_mem (fun slot : Slot => slot.index + 1) h inline.length

theorem Node.argumentCount_eq_places {α : Type} (node : Node α) (inline : List (Option Literal)) :
    argumentCount node.slots inline = node.places inline :=
  List.foldl_map.symm

namespace Graph

variable {α : Type}

/-- The finite unfolding of the node with an id. A constant stands for its literal. An operation has
as its arguments what stands at its positions, from the first on and without a gap: the unfolding of
the node an edge leads to, or else the literal written inline. All positions behind them are empty,
and their slots optional. -/
inductive Unfolds (graph : Graph α) : String → Argument → Prop
  | constant {id : String} {node : Node α} {value : Literal}
      (hnode : graph.lastNode? id = some node) (hcontent : node.content = .constant value) :
      Unfolds graph id (.literal value)
  | operation {id : String} {node : Node α} {name : String} {inline : List (Option Literal)}
      {arguments : List Argument}
      (hnode : graph.lastNode? id = some node) (hcontent : node.content = .operation name inline)
      (hname : name ≠ "") (hlength : arguments.length ≤ node.places inline)
      (hplugged : ∀ i argument edge, arguments[i]? = some argument →
        graph.lastEdgeFrom? id i = some edge → Unfolds graph edge.target argument)
      (hwritten : ∀ i argument, arguments[i]? = some argument → graph.lastEdgeFrom? id i = none →
        ∃ value, inline[i]? = some (some value) ∧ argument = .literal value)
      (hvacant : ∀ i, arguments.length ≤ i → i < node.places inline → graph.Vacant node inline i) :
      Unfolds graph id (.nested name arguments)

variable {graph : Graph α}

/-- Words count the positions of every operation node. -/
def CountsPlaces (graph : Graph α) : Prop :=
  ∀ node ∈ graph.nodes, node.Counted

theorem countsPlaces_of_slots
    (hslots : ∀ node ∈ graph.nodes, ∀ slot ∈ node.slots, slot.index + 1 < UInt64.size) :
    graph.CountsPlaces :=
  fun node hnode _ _ _ slot hslot => Or.inr (hslots node hnode slot hslot)

theorem Unfolds.exists_node {id : String} {a : Argument} (h : graph.Unfolds id a) :
    ∃ node, graph.lastNode? id = some node := by
  cases h with
  | constant hnode _ => exact ⟨_, hnode⟩
  | operation hnode _ _ _ _ _ _ => exact ⟨_, hnode⟩

/-- A place that holds an argument is not vacant, so that no unfolding ends before another. -/
theorem length_le_of_vacant {id : String} {node : Node α} {inline : List (Option Literal)}
    {arguments others : List Argument} (hid : node.id = id)
    (hothers : others.length ≤ node.places inline)
    (hwritten : ∀ i argument, others[i]? = some argument → graph.lastEdgeFrom? id i = none →
      ∃ value, inline[i]? = some (some value) ∧ argument = .literal value)
    (hvacant : ∀ i, arguments.length ≤ i → i < node.places inline → graph.Vacant node inline i) :
    others.length ≤ arguments.length := by
  by_contra hlonger
  have hi : arguments.length < others.length := by omega
  have hempty := hvacant arguments.length (Nat.le_refl _) (by omega)
  have hunplugged := hempty.unplugged
  rw [hid] at hunplugged
  obtain ⟨value, hvalue, _⟩ := hwritten _ _ (List.getElem?_eq_getElem hi) hunplugged
  exact hempty.unwritten value hvalue

theorem Unfolds.unique {id : String} {a b : Argument} (ha : graph.Unfolds id a)
    (hb : graph.Unfolds id b) : a = b := by
  induction ha generalizing b with
  | constant hnode hcontent =>
      cases hb with
      | constant hnode' hcontent' =>
          rw [Option.some.inj (hnode.symm.trans hnode'), hcontent'] at hcontent
          cases hcontent
          rfl
      | operation hnode' hcontent' _ _ _ _ _ =>
          rw [Option.some.inj (hnode.symm.trans hnode'), hcontent'] at hcontent
          cases hcontent
  | @operation id node name inline arguments hnode hcontent _ hlength _ hwritten hvacant ih =>
      cases hb with
      | constant hnode' hcontent' =>
          rw [Option.some.inj (hnode.symm.trans hnode'), hcontent'] at hcontent
          cases hcontent
      | @operation _ node' _ _ others hnode' hcontent' _ hlength' hplugged' hwritten' hvacant' =>
          cases Option.some.inj (hnode.symm.trans hnode')
          rw [hcontent'] at hcontent
          cases hcontent
          have hid : node.id = id := (mem_of_lastNode? hnode).2
          have hle := length_le_of_vacant hid hlength' hwritten' hvacant
          have hge := length_le_of_vacant hid hlength hwritten hvacant'
          congr 1
          apply List.ext_getElem (Nat.le_antisymm hge hle)
          intro i hi hi'
          cases hedge : graph.lastEdgeFrom? id i with
          | some edge =>
              exact ih i _ edge (List.getElem?_eq_getElem hi) hedge
                (hplugged' i _ edge (List.getElem?_eq_getElem hi') hedge)
          | none =>
              obtain ⟨value, hvalue, hargument⟩ := hwritten i _ (List.getElem?_eq_getElem hi) hedge
              obtain ⟨value', hvalue', hargument'⟩ :=
                hwritten' i _ (List.getElem?_eq_getElem hi') hedge
              rw [hvalue] at hvalue'
              cases hvalue'
              rw [hargument, hargument']

/-! ## The walk finds only unfoldings -/

theorem unfold_sound (fuel : Nat) {above : List String} {path : List Nat} {id : String}
    {node : Node α} {u : Unfolding} (hnode : graph.lastNode? id = some node)
    (h : graph.index.unfold fuel above path node = .ok u) : graph.Unfolds id u.argument := by
  induction fuel generalizing above path id node u with
  | zero => cases h
  | succ fuel ih =>
      have hid := (mem_of_lastNode? hnode).2
      cases hcontent : node.content with
      | constant value =>
          rw [unfold_constant fuel above path hcontent] at h
          cases h
          exact .constant hnode hcontent
      | operation name inline =>
          obtain ⟨_, hname, _, filled, hlength, hfilled, hvacant, rfl⟩ :=
            (unfold_operation_eq_ok hcontent).mp h
          rw [node.argumentCount_eq_places] at hlength hvacant
          have hargument : ∀ (i : Nat) (argument : Argument),
              (filled.map Unfolding.argument)[i]? = some argument →
                ∃ v, filled[i]? = some v ∧ v.argument = argument := by
            intro i argument hi
            rw [List.getElem?_map] at hi
            exact Option.map_eq_some_iff.mp hi
          refine .operation hnode hcontent hname (by rwa [List.length_map]) ?_ ?_ ?_
          · intro i argument edge hi hedge
            obtain ⟨v, hv, rfl⟩ := hargument i argument hi
            rcases fillPosition_eq_some.mp (hfilled i v hv) with
              ⟨found, target, hfound, htarget, hunfold⟩ | ⟨hnone, _⟩
            · rw [hid, hedge] at hfound
              cases hfound
              exact ih htarget hunfold
            · rw [hid, hedge] at hnone
              cases hnone
          · intro i argument hi hnone
            obtain ⟨v, hv, rfl⟩ := hargument i argument hi
            rcases fillPosition_eq_some.mp (hfilled i v hv) with
              ⟨found, _, hfound, _⟩ | ⟨_, value, hvalue, rfl⟩
            · rw [hid, hnone] at hfound
              cases hfound
            · exact ⟨value, hvalue, rfl⟩
          · intro i hi hcount
            exact hvacant i (by rwa [List.length_map] at hi) hcount

/-! ## The walk finds every unfolding -/

/-- A chain of operations that the walk is below of: no id occurs twice, all are ids of nodes, and
all of them unfold to something deeper than what is looked for. -/
structure Chain (graph : Graph α) (above : List String) (depth : Nat) : Prop where
  nodup : above.Nodup
  subset : above ⊆ graph.nodes.map Node.id
  deeper : ∀ id ∈ above, ∃ a, graph.Unfolds id a ∧ depth < a.depth

theorem Chain.length_le {above : List String} {depth : Nat} (h : graph.Chain above depth) :
    above.length ≤ graph.nodes.length := by
  have hle := (h.nodup.subperm h.subset).length_le
  rwa [List.length_map] at hle

theorem Chain.not_mem {above : List String} {id : String} {a : Argument}
    (h : graph.Chain above a.depth) (ha : graph.Unfolds id a) : id ∉ above := by
  intro hmem
  obtain ⟨b, hb, hlt⟩ := h.deeper id hmem
  rw [ha.unique hb] at hlt
  exact Nat.lt_irrefl _ hlt

theorem Chain.cons {above : List String} {id : String} {a : Argument} {depth : Nat}
    (h : graph.Chain above a.depth) (ha : graph.Unfolds id a) (hdepth : depth < a.depth) :
    graph.Chain (id :: above) depth where
  nodup := List.nodup_cons.mpr ⟨h.not_mem ha, h.nodup⟩
  subset := by
    obtain ⟨node, hnode⟩ := ha.exists_node
    obtain ⟨hmem, rfl⟩ := mem_of_lastNode? hnode
    exact List.cons_subset.mpr ⟨List.mem_map_of_mem hmem, h.subset⟩
  deeper := by
    intro other hother
    rcases List.mem_cons.mp hother with rfl | hold
    · exact ⟨a, ha, hdepth⟩
    · obtain ⟨b, hb, hlt⟩ := h.deeper other hold
      exact ⟨b, hb, Nat.lt_trans hdepth hlt⟩

/-- The walk arrives at an operation if its arguments fill their positions and the rest is
vacant. -/
theorem unfold_of_filled {fuel : Nat} {above : List String} {path : List Nat} {node : Node α}
    {name : String} {inline : List (Option Literal)} {arguments : List Argument}
    (hcontent : node.content = .operation name inline) (hnew : node.id ∉ above) (hname : name ≠ "")
    (hcounted : overflows node.slots inline = false)
    (hlength : arguments.length ≤ node.places inline)
    (hfill : ∀ i argument, arguments[i]? = some argument → ∃ v : Unfolding,
      v.argument = argument ∧ graph.index.fillPosition
        (graph.index.unfold fuel (node.id :: above) (path ++ [i])) node inline i = .ok (some v))
    (hvacant : ∀ i, arguments.length ≤ i → i < node.places inline → graph.Vacant node inline i) :
    ∃ u, graph.index.unfold (fuel + 1) above path node = .ok u ∧
      u.argument = .nested name arguments := by
  obtain ⟨filled, hcount, hfilled⟩ := exists_results hfill
  rw [← hcount, ← node.argumentCount_eq_places] at hlength hvacant
  have harguments : filled.map Unfolding.argument = arguments := by
    apply map_results hcount
    intro i v hv
    obtain ⟨argument, hi, rfl, _⟩ := hfilled i v hv
    exact hi
  refine ⟨_, (unfold_operation_eq_ok hcontent).mpr
    ⟨hnew, hname, hcounted, filled, hlength, ?_, hvacant, rfl⟩,
    congrArg (Argument.nested name) harguments⟩
  intro i v hv
  obtain ⟨_, _, _, hfound⟩ := hfilled i v hv
  exact hfound

/-- As long as the bound exceeds the nodes outside the chain, the walk arrives. -/
theorem CountsPlaces.unfold_complete (hcounts : graph.CountsPlaces)
    {id : String} {a : Argument} (h : graph.Unfolds id a) {fuel : Nat} {above : List String}
    {path : List Nat} {node : Node α} (hnode : graph.lastNode? id = some node)
    (hchain : graph.Chain above a.depth) (hfuel : graph.nodes.length < fuel + above.length) :
    ∃ u, graph.index.unfold fuel above path node = .ok u ∧ u.argument = a := by
  have hlength := hchain.length_le
  obtain ⟨fuel, rfl⟩ : ∃ n, fuel = n + 1 := ⟨fuel - 1, by omega⟩
  induction h generalizing fuel above path node with
  | @constant id found value hfound hcontent =>
      have hsame : node = found := Option.some.inj (hnode.symm.trans hfound)
      subst hsame
      exact ⟨_, unfold_constant fuel above path hcontent, rfl⟩
  | @operation id found name inline arguments hfound hcontent hname hplaces hplugged hwritten
      hvacant ih =>
      have hsame : node = found := Option.some.inj (hnode.symm.trans hfound)
      subst hsame
      have hself : graph.Unfolds id (.nested name arguments) :=
        .operation hfound hcontent hname hplaces hplugged hwritten hvacant
      obtain ⟨hmem, hid⟩ := mem_of_lastNode? hnode
      refine unfold_of_filled hcontent (hid ▸ hchain.not_mem hself) hname
        ((hcounts node hmem).overflows_eq_false hcontent) hplaces ?_ hvacant
      intro i argument hi
      cases hedge : graph.lastEdgeFrom? id i with
      | none =>
          obtain ⟨value, hvalue, rfl⟩ := hwritten i argument hi hedge
          refine ⟨⟨.literal value, [], []⟩, rfl, fillPosition_eq_some.mpr (Or.inr ?_)⟩
          exact ⟨hid ▸ hedge, value, hvalue, rfl⟩
      | some edge =>
          obtain ⟨target, htarget⟩ := (hplugged i argument edge hi hedge).exists_node
          have hbelow := hchain.cons hself (Argument.depth_lt_of_getElem? hi)
          rw [← hid] at hbelow
          have hdeeper := hbelow.length_le
          rw [List.length_cons] at hdeeper
          obtain ⟨fuel, rfl⟩ : ∃ n, fuel = n + 1 := ⟨fuel - 1, by omega⟩
          obtain ⟨v, hv, hargument⟩ := ih i argument edge hi hedge htarget hbelow hbelow.length_le
            fuel (by rw [List.length_cons]; omega)
          refine ⟨v, hargument, fillPosition_eq_some.mpr (Or.inl ?_)⟩
          exact ⟨edge, target, hid ▸ hedge, htarget, hv⟩

/-! ## Rebuilding -/

/-- Rebuilding from a node gives an expression exactly if the node unfolds to it. -/
theorem rebuild_eq_ok_iff
    (hslots : ∀ node ∈ graph.nodes, ∀ slot ∈ node.slots, slot.index + 1 < UInt64.size) {id : String}
    {e : Expression} : graph.rebuild id = .ok e ↔ graph.Unfolds id (.ofExpression e) := by
  rw [rebuild_eq_ok]
  constructor
  · intro h
    obtain ⟨node, u, hnode, hunfold, hargument⟩ := h
    rw [← hargument]
    exact unfold_sound _ hnode hunfold
  · intro h
    obtain ⟨node, hnode⟩ := h.exists_node
    have hchain : graph.Chain [] (Argument.ofExpression e).depth :=
      ⟨List.nodup_nil, List.nil_subset _, fun _ hid => absurd hid List.not_mem_nil⟩
    have hfuel : graph.nodes.length < graph.nestingBound + ([] : List String).length := by
      rw [nestingBound]
      omega
    obtain ⟨u, hunfold, hargument⟩ :=
      (countsPlaces_of_slots hslots).unfold_complete h hnode hchain hfuel
    exact ⟨node, u, hnode, hunfold, hargument⟩

/-- A node that two slots of another node are wired to. -/
def sharedOperand : Graph Float where
  nodes := [
    ⟨"sum", Key.ofNat 0, .other, ⟨0.0, 0.0⟩, ⟨0.0, 0.0⟩,
      [⟨0, "left", true⟩, ⟨1, "right", true⟩, ⟨2, "rest", false⟩], .operation "ADD" []⟩,
    ⟨"leaf", Key.ofNat 1, .other, ⟨0.0, 0.0⟩, ⟨0.0, 0.0⟩, [],
      .operation "VAR" [some (.text "x")]⟩]
  edges := [.link "sum" 0 "leaf", .link "sum" 1 "leaf"]
  roots := ["sum"]

/-- A shared node is no cycle: it is unfolded at both places. -/
theorem sharedOperand_unfolds :
    (∀ node ∈ sharedOperand.nodes, ∀ slot ∈ node.slots, slot.index + 1 < UInt64.size) ∧
      sharedOperand.Unfolds "sum" (.ofExpression
        ⟨"ADD", [.nested "VAR" [.literal (.text "x")], .nested "VAR" [.literal (.text "x")]]⟩) := by
  have hslots :
      ∀ node ∈ sharedOperand.nodes, ∀ slot ∈ node.slots, slot.index + 1 < UInt64.size := by
    simp [sharedOperand, UInt64.size]
  exact ⟨hslots, (rebuild_eq_ok_iff hslots).mp rfl⟩

/-- An operation with two slots at its only position, the second of which must be filled. -/
def doublySlotted : Graph Float where
  nodes := [⟨"a", Key.ofNat 0, .other, ⟨0.0, 0.0⟩, ⟨0.0, 0.0⟩,
    [⟨0, "x", false⟩, ⟨0, "y", true⟩], .operation "not" []⟩]
  edges := []
  roots := ["a"]

/-- A slot is no obstacle, although nothing is at its position and it must be filled, where another
one is listed before it. -/
theorem doublySlotted_rebuilt :
    (∀ node ∈ doublySlotted.nodes, ∀ slot ∈ node.slots, slot.index + 1 < UInt64.size) ∧
      (∃ node ∈ doublySlotted.nodes, node.id = "a" ∧ node.content = .operation "not" [] ∧
        ∃ slot ∈ node.slots, slot.required = true ∧
          doublySlotted.lastEdgeFrom? "a" slot.index = none) ∧
      doublySlotted.rebuild "a" = .ok ⟨"not", []⟩ := by
  refine ⟨by simp [doublySlotted, UInt64.size], ?_, rfl⟩
  exact ⟨_, List.mem_cons_self, rfl, rfl, ⟨0, "y", true⟩, by decide, rfl, rfl⟩

end Graph

end RuleGraph
