import Mathlib.Data.List.Find
import RuleGraph.Proofs.Occurrences

/-!
# Another argument in a slot

To take the wire out of a slot and plug in another node is to substitute in the document: at every
path at which the slot's node stands, the argument at the slot gives way to what the other node
stands for, and nothing else changes. The other node has to be spare: no part of the document, not
plugged in, and not above the slot.
-/

namespace RuleGraph

/-! ## Substitution in documents -/

namespace Argument

mutual

/-- The argument at a path of a document, with another one at each path that is hit. -/
def substitute (hit : List Nat → Bool) (path : List Nat) : Argument → Argument → Argument
  | .literal value, b => if hit path then b else .literal value
  | .nested name arguments, b =>
    if hit path then b else .nested name (substituteFrom hit path 0 arguments b)

def substituteFrom (hit : List Nat → Bool) (path : List Nat) (position : Nat) :
    List Argument → Argument → List Argument
  | [], _ => []
  | a :: rest, b =>
    a.substitute hit (path ++ [position]) b :: substituteFrom hit path (position + 1) rest b

end

variable {hit : List Nat → Bool} {b : Argument} {path : List Nat}

theorem substitute_of_hit (h : hit path = true) (a : Argument) : a.substitute hit path b = b := by
  cases a <;> rw [substitute, if_pos h]

theorem substitute_literal (h : hit path = false) (value : Literal) :
    (literal value).substitute hit path b = .literal value := by
  rw [substitute, h, if_neg Bool.false_ne_true]

theorem substitute_nested (h : hit path = false) (name : String) (arguments : List Argument) :
    (nested name arguments).substitute hit path b =
      .nested name (substituteFrom hit path 0 arguments b) := by
  rw [substitute, h, if_neg Bool.false_ne_true]

theorem length_substituteFrom (position : Nat) (arguments : List Argument) :
    (substituteFrom hit path position arguments b).length = arguments.length := by
  induction arguments generalizing position with
  | nil => rfl
  | cons first rest ih => rw [substituteFrom, List.length_cons, ih, List.length_cons]

theorem getElem?_substituteFrom (position : Nat) (arguments : List Argument) (i : Nat) :
    (substituteFrom hit path position arguments b)[i]? =
      arguments[i]?.map fun a => a.substitute hit (path ++ [position + i]) b := by
  induction arguments generalizing position i with
  | nil => rfl
  | cons first rest ih =>
      rw [substituteFrom]
      cases i with
      | zero => rfl
      | succ i =>
          have hplace : position + 1 + i = position + (i + 1) := by omega
          rw [List.getElem?_cons_succ, List.getElem?_cons_succ, ih, hplace]

/-- Unless something above a path is hit, the path leads to what stood there, substituted. -/
theorem at?_substitute (rest : List Nat) (a : Argument)
    (h : ∀ before after, before ++ after = rest → after ≠ [] → hit (path ++ before) = false) :
    (a.substitute hit path b).at? rest =
      (a.at? rest).map fun c => c.substitute hit (path ++ rest) b := by
  induction rest generalizing path a with
  | nil => rw [at?_nil, at?_nil, Option.map_some, List.append_nil]
  | cons position rest ih =>
      have hself : hit path = false := by
        rw [← List.append_nil path]
        exact h [] (position :: rest) rfl (List.cons_ne_nil _ _)
      cases a with
      | literal value => rw [substitute_literal hself, at?_literal_cons, Option.map_none]
      | nested name arguments =>
          rw [substitute_nested hself, at?_nested_cons, at?_nested_cons, getElem?_substituteFrom,
            Nat.zero_add]
          cases arguments[position]? with
          | none => rfl
          | some child =>
              rw [Option.map_some, Option.bind_some, Option.bind_some, ih, List.append_assoc]
              · rfl
              · intro before after happend hafter
                rw [List.append_assoc]
                exact h (position :: before) after (by rw [List.cons_append, happend]) hafter

end Argument

namespace Document

variable {hit : List Nat → Bool} {b : Argument}

def substitute (document : Document) (hit : List Nat → Bool) (b : Argument) : Document :=
  document.mapIdx fun index e =>
    ⟨e.name, Argument.substituteFrom hit [index] 0 e.arguments b⟩

theorem length_substitute (document : Document) :
    (document.substitute hit b).length = document.length :=
  List.length_mapIdx

theorem getElem?_substitute {document : Document} {i : Nat} {e : Expression}
    (h : (document.substitute hit b)[i]? = some e) (hroot : hit [i] = false) :
    ∃ old, document[i]? = some old ∧
      (Argument.ofExpression old).substitute hit [i] b = .ofExpression e := by
  rw [substitute, List.getElem?_mapIdx] at h
  obtain ⟨old, hold, rfl⟩ := Option.map_eq_some_iff.mp h
  exact ⟨old, hold, Argument.substitute_nested hroot old.name old.arguments⟩

theorem at?_substitute {document : Document} {path : List Nat} (hroots : ∀ i, hit [i] = false)
    (h : ∀ before after, before ++ after = path → after ≠ [] → hit before = false) :
    (document.substitute hit b).at? path =
      (document.at? path).map fun a => a.substitute hit path b := by
  cases path with
  | nil => rfl
  | cons index rest =>
      rw [at?, at?, substitute, List.getElem?_mapIdx]
      cases document[index]? with
      | none => rfl
      | some e =>
          have hroot : (Argument.ofExpression e).substitute hit [index] b = Argument.ofExpression
              ⟨e.name, Argument.substituteFrom hit [index] 0 e.arguments b⟩ :=
            Argument.substitute_nested (hroots index) e.name e.arguments
          rw [Option.map_some, Option.bind_some, Option.bind_some, ← hroot,
            Argument.at?_substitute]
          · rfl
          · intro before after happend hafter
            exact h (index :: before) after (by rw [List.cons_append, happend]) hafter

end Document

namespace Graph

variable {α : Type} {graph : Graph α}

/-- The path leads to the slot of a node: the node stands at all of the path but its end. -/
def isArgumentOf (graph : Graph α) (source : String) (slot : Nat) (path : List Nat) : Bool :=
  graph.nodeAt? path.dropLast == some source && path.getLast? == some slot

theorem isArgumentOf_concat {source : String} {slot position : Nat} {path : List Nat} :
    graph.isArgumentOf source slot (path ++ [position]) = true ↔
      graph.nodeAt? path = some source ∧ position = slot := by
  rw [isArgumentOf, List.dropLast_concat, List.getLast?_concat, Bool.and_eq_true, beq_iff_eq,
    beq_iff_eq, Option.some.injEq]

theorem isArgumentOf_singleton (source : String) (slot index : Nat) :
    graph.isArgumentOf source slot [index] = false := by
  rw [← Bool.not_eq_true, ← List.nil_append [index], isArgumentOf_concat]
  exact fun h => nomatch h.1

/-! ## Another node in a slot -/

/-- The graph with a node plugged into a slot in place of the one that was there. -/
def replug (graph : Graph α) (source : String) (slot : Nat) (target : String) : Graph α :=
  (graph.disconnect (edgeId source slot)).plug source slot target

/-- A node that can be plugged in below another one without a trace elsewhere. -/
structure Spare (graph : Graph α) (id source : String) : Prop where
  detached : ¬ graph.Rooted id
  unplugged : ∀ edge ∈ graph.edges, edge.target ≠ id
  apart : ¬ graph.Leads id source

/-- What a node is as an argument: the literal of a constant, or a rebuilt expression. -/
inductive StandsFor (graph : Graph α) (id : String) : Argument → Prop
  | constant {node : Node α} {value : Literal} (hnode : node ∈ graph.nodes) (hid : node.id = id)
      (hcontent : node.content = .constant value) : StandsFor graph id (.literal value)
  | operation {e : Expression} (h : graph.rebuild id = .ok e) :
      StandsFor graph id (.ofExpression e)

theorem StandsFor.unfolds {id : String} {a : Argument} (h : graph.StandsFor id a)
    (hwired : graph.WellWired) : graph.Unfolds id a := by
  cases h with
  | constant hnode hid hcontent =>
      exact .constant ((lastNode?_eq_some_iff hwired.nodup_nodes).mpr ⟨hnode, hid⟩) hcontent
  | operation h =>
      obtain ⟨node, u, hnode, hunfold, hargument⟩ := rebuild_eq_ok.mp h
      rw [← hargument]
      exact unfold_sound _ hnode hunfold

theorem lastEdgeFrom?_replug (h : graph.WellWired) (source target : String) (slot : Nat)
    (id : String) (position : Nat) :
    (graph.replug source slot target).lastEdgeFrom? id position =
      if source = id ∧ slot = position then some (Edge.link source slot target)
      else graph.lastEdgeFrom? id position := by
  rw [lastEdgeFrom?, replug, plug, List.reverse_append, List.reverse_singleton,
    List.singleton_append]
  by_cases hhere : source = id ∧ slot = position
  · obtain ⟨rfl, rfl⟩ := hhere
    rw [if_pos ⟨rfl, rfl⟩, List.find?_cons_of_pos]
    rw [Edge.link, beq_self_eq_true, beq_self_eq_true, Bool.and_self]
  · rw [if_neg hhere, List.find?_cons_of_neg]
    · rw [disconnect, ← List.filter_reverse, List.find?_filter, lastEdgeFrom?]
      apply List.find?_congr
      intro edge hedge
      have hkept : edge.id = edgeId source slot ↔ edge.source = source ∧ edge.slot = slot := by
        rw [h.edge_id edge (List.mem_reverse.mp hedge), edgeId_inj]
      rw [Bool.eq_iff_iff, decide_eq_true_iff, bne_iff_ne, Ne, hkept, and_iff_right_iff_imp]
      intro hleaves
      rw [Bool.and_eq_true, beq_iff_eq, beq_iff_eq] at hleaves
      obtain ⟨rfl, rfl⟩ := hleaves
      exact fun hsame => hhere ⟨hsame.1.symm, hsame.2.symm⟩
    · rw [Bool.and_eq_true, beq_iff_eq, beq_iff_eq]
      exact hhere

theorem Spare.roots_replug {id source : String} (h : graph.Spare id source) (slot : Nat) :
    (graph.replug source slot id).roots = graph.roots := by
  have hother : ∀ root ∈ graph.roots, (root != id) = true := by
    intro root hroot
    rw [bne_iff_ne]
    rintro rfl
    exact h.detached ⟨root, hroot, Relation.ReflTransGen.refl⟩
  rw [replug, plug]
  dsimp only
  split
  · rfl
  · exact List.filter_eq_self.mpr hother

/-- The slot of a wire takes every spare node, once the wire is gone. -/
theorem Spare.connect {id : String} {edge : Edge} (h : graph.Spare id edge.source)
    (hwired : graph.WellWired) (hedge : edge ∈ graph.edges)
    (hnode : ∃ node ∈ graph.nodes, node.id = id) :
    (graph.disconnect (edgeId edge.source edge.slot)).connect edge.source edge.slot id =
      .ok (graph.replug edge.source edge.slot id) := by
  obtain ⟨parent, hparent, hid, _, hslot⟩ := hwired.source_mem edge hedge
  have hfound : (graph.disconnect (edgeId edge.source edge.slot)).node? edge.source = some parent :=
    (find?_key_eq_some_iff hwired.nodup_nodes).mpr ⟨hparent, hid⟩
  obtain ⟨node, hmem, hsame⟩ := hnode
  have htarget : (graph.disconnect (edgeId edge.source edge.slot)).node? id = some node :=
    (find?_key_eq_some_iff hwired.nodup_nodes).mpr ⟨hmem, hsame⟩
  apply connect_eq_plug hfound (by rw [htarget]; rfl) hslot
  · rw [edgeFrom?_eq_none_iff]
    intro other hother hsource hplace
    obtain ⟨hold, hkept⟩ := mem_edges_disconnect.mp hother
    apply hkept
    rw [hwired.edge_id other hold, hsource, hplace]
  · rw [incoming?_eq_none_iff]
    intro other hother
    exact h.unplugged other (mem_edges_disconnect.mp hother).1

section

variable {edge : Edge} {id : String}

/-- What does not lead to the slot unfolds as before. -/
theorem agrees_replug (h : graph.WellWired) (source target : String) (slot : Nat) :
    graph.Agrees (graph.replug source slot target) fun id => ¬ graph.Leads id source where
  node := fun id node _ hnode => ⟨node, hnode, rfl, rfl⟩
  edge := by
    intro id position hid
    rw [lastEdgeFrom?_replug h, if_neg]
    rintro ⟨rfl, _⟩
    exact hid Relation.ReflTransGen.refl
  closed := by
    intro id position edge hid hedge hleads
    obtain ⟨hmem, rfl, _⟩ := mem_of_lastEdgeFrom? hedge
    exact hid (hleads.head (wired_of_mem hmem))

/-- A node of the document unfolds to what it did before, with the argument that is plugged in at
each path to the slot. -/
theorem Unfolds.substitute (h : graph.WellWired) (hedge : edge ∈ graph.edges) {b : Argument}
    (hb : (graph.replug edge.source edge.slot id).Unfolds id b) {start : String} {a : Argument}
    (ha : graph.Unfolds start a) {path : List Nat} (hpath : graph.nodeAt? path = some start)
    (hnot : graph.isArgumentOf edge.source edge.slot path = false) :
    (graph.replug edge.source edge.slot id).Unfolds start
      (a.substitute (graph.isArgumentOf edge.source edge.slot) path b) := by
  have hlast : graph.lastEdgeFrom? edge.source edge.slot = some edge :=
    (lastEdgeFrom?_eq_some_iff h.nodup_outlets).mpr ⟨hedge, rfl, rfl⟩
  induction ha generalizing path with
  | constant hnode hcontent =>
      rw [Argument.substitute_literal hnot]
      exact .constant hnode hcontent
  | @operation start node name inline arguments hnode hcontent hname hlength _ hwritten hvacant
      ih =>
      have hhit : ∀ i, graph.isArgumentOf edge.source edge.slot (path ++ [i]) = true ↔
          edge.source = start ∧ edge.slot = i := by
        intro i
        rw [isArgumentOf_concat, hpath, Option.some.injEq, eq_comm, @eq_comm _ i]
      have hmiss : ∀ i, ¬ (edge.source = start ∧ edge.slot = i) →
          graph.isArgumentOf edge.source edge.slot (path ++ [i]) = false := by
        intro i hother
        rwa [← Bool.not_eq_true, hhit]
      rw [Argument.substitute_nested hnot]
      refine .operation hnode hcontent hname ?_ ?_ ?_ ?_
      · rw [Argument.length_substituteFrom]
        exact hlength
      · intro i argument found hi hfound
        rw [Argument.getElem?_substituteFrom, Nat.zero_add] at hi
        obtain ⟨old, hold, rfl⟩ := Option.map_eq_some_iff.mp hi
        rw [lastEdgeFrom?_replug h] at hfound
        by_cases hplace : edge.source = start ∧ edge.slot = i
        · rw [if_pos hplace] at hfound
          cases hfound
          rw [Argument.substitute_of_hit ((hhit i).mpr hplace)]
          exact hb
        · rw [if_neg hplace] at hfound
          obtain ⟨hmem, rfl, rfl⟩ := mem_of_lastEdgeFrom? hfound
          exact ih _ old found hold hfound (h.nodeAt?_target hmem hpath) (hmiss _ hplace)
      · intro i argument hi hunplugged
        rw [Argument.getElem?_substituteFrom, Nat.zero_add] at hi
        obtain ⟨old, hold, rfl⟩ := Option.map_eq_some_iff.mp hi
        rw [lastEdgeFrom?_replug h] at hunplugged
        by_cases hplace : edge.source = start ∧ edge.slot = i
        · rw [if_pos hplace] at hunplugged
          cases hunplugged
        · rw [if_neg hplace] at hunplugged
          obtain ⟨value, hvalue, rfl⟩ := hwritten i old hold hunplugged
          exact ⟨value, hvalue, Argument.substitute_literal (hmiss i hplace) value⟩
      · intro i hi hcount
        rw [Argument.length_substituteFrom] at hi
        have hempty := hvacant i hi hcount
        have hplace : ¬ (edge.source = node.id ∧ edge.slot = i) := by
          rintro ⟨hsource, rfl⟩
          have hunplugged := hempty.unplugged
          rw [← hsource, hlast] at hunplugged
          cases hunplugged
        apply hempty.transfer rfl
        rw [lastEdgeFrom?_replug h, if_neg hplace]
        exact hempty.unplugged

theorem Spare.document_replug (hspare : graph.Spare id edge.source) (h : graph.WellWired)
    (hcounts : graph.CountsPlaces) (hedge : edge ∈ graph.edges) {document : Document}
    (hdocument : graph.document = .ok document) {b : Argument} (hb : graph.Unfolds id b) :
    (graph.replug edge.source edge.slot id).document =
      .ok (document.substitute (graph.isArgumentOf edge.source edge.slot) b) := by
  obtain ⟨hlength, hunfolds⟩ := unfolds_of_document hdocument
  have hplugged : (graph.replug edge.source edge.slot id).Unfolds id b :=
    hb.transfer (agrees_replug h edge.source id edge.slot) hspare.apart
  have hafter : (graph.replug edge.source edge.slot id).CountsPlaces := hcounts
  rw [hafter.document_eq_ok_iff, hspare.roots_replug, Document.length_substitute]
  refine ⟨hlength, ?_⟩
  intro i root e hroot he
  have hnot := graph.isArgumentOf_singleton edge.source edge.slot i
  obtain ⟨old, hold, hsame⟩ := Document.getElem?_substitute he hnot
  rw [← hsame]
  have hpath : graph.nodeAt? [i] = some root := (graph.nodeAt?_singleton i).trans hroot
  exact Unfolds.substitute h hedge hplugged (hunfolds i root old hroot hold) hpath hnot

/-- A slot that nothing in it leads back to is not below itself. -/
theorem isArgumentOf_of_append (h : graph.WellWired) (hedge : edge ∈ graph.edges)
    (hback : ¬ graph.Leads edge.target edge.source) {path : List Nat}
    (hpath : graph.nodeAt? path = some edge.source) {before after : List Nat}
    (happend : before ++ after = path ++ [edge.slot]) (hafter : after ≠ []) :
    graph.isArgumentOf edge.source edge.slot before = false := by
  by_contra hhit
  rw [Bool.not_eq_false] at hhit
  rcases List.eq_nil_or_concat before with rfl | ⟨first, slot, rfl⟩
  · cases hhit
  · rw [List.concat_eq_append] at happend hhit
    obtain ⟨hfirst, rfl⟩ := isArgumentOf_concat.mp hhit
    obtain ⟨rest, last, rfl⟩ := (List.eq_nil_or_concat after).resolve_left hafter
    rw [List.concat_eq_append, ← List.append_assoc] at happend
    obtain ⟨rfl, _⟩ := List.append_inj' happend rfl
    have hplugged : graph.nodeAt? (first ++ [edge.slot]) = some edge.target :=
      h.nodeAt?_target hedge hfirst
    rw [nodeAt?_append graph (ne_nil_of_nodeAt? hplugged), hplugged, Option.bind_some] at hpath
    exact hback (leads_of_descend hpath)

/-- Each path to the slot is one of the document, and there the new argument stands. -/
theorem at?_substitute_slot (h : graph.WellWired) (hedge : edge ∈ graph.edges)
    {document : Document} (hdocument : graph.document = .ok document) {path : List Nat}
    (hpath : graph.nodeAt? path = some edge.source) (b : Argument) :
    (document.at? (path ++ [edge.slot])).isSome = true ∧
      (document.substitute (graph.isArgumentOf edge.source edge.slot) b).at? (path ++ [edge.slot]) =
        some b := by
  obtain ⟨a, ha, hsource⟩ := h.exists_at? hdocument hpath
  obtain ⟨name, arguments, old, rfl, hold, _⟩ := hsource.exists_argument h hedge
  have hat : document.at? (path ++ [edge.slot]) = some old :=
    (Document.at?_concat (e := ⟨name, arguments⟩) ha edge.slot).trans hold
  have hback := hsource.not_leads h hedge
  refine ⟨by rw [hat]; rfl, ?_⟩
  rw [Document.at?_substitute (graph.isArgumentOf_singleton _ _), hat, Option.map_some,
    Argument.substitute_of_hit (isArgumentOf_concat.mpr ⟨hpath, rfl⟩)]
  exact fun before after happend hafter => isArgumentOf_of_append h hedge hback hpath happend hafter

end

end Graph

namespace Session

variable {session : Session}

theorem exists_apply (session : Session) (op : EditOp) {graph : Graph Float}
    (h : op.run session.layout (session.freshIds 0) (session.freshKeys 0) session.graph =
      .ok graph) : ∃ next, session.apply op = (next, .ok ()) ∧ next.graph = graph := by
  rw [Session.apply, h]
  exact ⟨_, rfl, rfl⟩

/-- To take a wire away and to plug a spare node into its slot is granted, and puts what the node
stands for into the document: at the slot of each path at which the slot's node stands. -/
theorem Reached.replug_substitutes {layout : Layout Float} (h : session.Reached layout Admits)
    {document : Document} (hdocument : session.document = .ok document) {edge : Edge}
    (hedge : edge ∈ session.graph.edges) {id : String} (hspare : session.graph.Spare id edge.source)
    {a : Argument} (hstands : session.graph.StandsFor id a) :
    ∃ cut next, session.apply (.disconnect (edgeId edge.source edge.slot)) = (cut, .ok ()) ∧
      cut.apply (.connect edge.source edge.slot id) = (next, .ok ()) ∧
      next.graph.roots = session.graph.roots ∧
      next.document =
        .ok (document.substitute (session.graph.isArgumentOf edge.source edge.slot) a) ∧
      ∀ path, session.graph.nodeAt? path = some edge.source →
        (document.at? (path ++ [edge.slot])).isSome = true ∧
          (document.substitute (session.graph.isArgumentOf edge.source edge.slot) a).at?
            (path ++ [edge.slot]) = some a := by
  obtain ⟨hwired, hmade⟩ := h.graph_wired_made
  have hunfolds := hstands.unfolds hwired
  rw [document_eq_ok] at hdocument
  obtain ⟨node, hnode⟩ := hunfolds.exists_node
  obtain ⟨cut, hcut, hcutGraph⟩ := exists_apply session
    (.disconnect (edgeId edge.source edge.slot)) rfl
  have hplug := hspare.connect hwired hedge ⟨node, Graph.mem_of_lastNode? hnode⟩
  rw [← hcutGraph] at hplug
  obtain ⟨next, hnext, hnextGraph⟩ := exists_apply cut (.connect edge.source edge.slot id) hplug
  refine ⟨cut, next, hcut, hnext, ?_, ?_, ?_⟩
  · rw [hnextGraph]
    exact hspare.roots_replug edge.slot
  · rw [document_eq_ok, hnextGraph]
    exact hspare.document_replug hwired hmade.countsPlaces hedge hdocument hunfolds
  · intro path hpath
    exact Graph.at?_substitute_slot hwired hedge hdocument hpath a

/-- A session with a constant that is no part of its document. -/
def spared : Session :=
  ((start numberedSupply ⟨Registry.standard, LayoutConfig.standard⟩).perform
    (.loadDocument [⟨"IF", [.nested "and" [], .literal (.text "yes")]⟩])).perform
      (.apply (.addConstantNode (.text "spare") ⟨0.0, 0.0⟩ (some "spare")))

theorem reached_spared : spared.Reached ⟨Registry.standard, LayoutConfig.standard⟩ Admits :=
  .perform _ (.perform _ (.start numberedSupply) trivial) trivial

/-- The constant takes the place of an operation. -/
theorem spared_substitutes :
    spared.Reached ⟨Registry.standard, LayoutConfig.standard⟩ Admits ∧
      spared.document = .ok [⟨"IF", [.nested "and" [], .literal (.text "yes")]⟩] ∧
      spared.graph.Spare "spare" "root.0" ∧
      ∃ cut next, spared.apply (.disconnect "root.0-0") = (cut, .ok ()) ∧
        cut.apply (.connect "root.0" 0 "spare") = (next, .ok ()) ∧
        next.document = .ok [⟨"IF", [.literal (.text "spare"), .literal (.text "yes")]⟩] := by
  have hedges : spared.graph.edges = [Edge.link "root.0" 0 "root.0.0"] := rfl
  have hroots : spared.graph.roots = ["root.0"] := rfl
  have hedge : Edge.link "root.0" 0 "root.0.0" ∈ spared.graph.edges := by
    rw [hedges]
    exact List.mem_singleton.mpr rfl
  have hspare : spared.graph.Spare "spare" "root.0" := by
    refine ⟨?_, ?_, ?_⟩
    · intro hrooted
      obtain ⟨root, hroot, hleads⟩ := hrooted
      rw [hroots, List.mem_singleton] at hroot
      subst hroot
      have hreaches := Graph.reaches_iff.mpr hleads
      have hunreached : spared.graph.reaches "root.0" "spare" = false := rfl
      rw [hunreached] at hreaches
      cases hreaches
    · intro other hother
      rw [hedges, List.mem_singleton] at hother
      subst hother
      decide
    · intro hleads
      have hreaches := Graph.reaches_iff.mpr hleads
      have hunreached : spared.graph.reaches "spare" "root.0" = false := rfl
      rw [hunreached] at hreaches
      cases hreaches
  have hdocument : spared.document = .ok [⟨"IF", [.nested "and" [], .literal (.text "yes")]⟩] := rfl
  have hnode : Node.constant LayoutConfig.standard "spare" (Key.ofNat 3) (.text "spare")
      ⟨0.0, 0.0⟩ ∈ spared.graph.nodes :=
    List.mem_append_right _ (List.mem_singleton.mpr rfl)
  have hstands : spared.graph.StandsFor "spare" (.literal (.text "spare")) :=
    .constant hnode rfl rfl
  obtain ⟨cut, next, hcut, hnext, _, hafter, _⟩ :=
    Reached.replug_substitutes reached_spared hdocument hedge hspare hstands
  exact ⟨reached_spared, hdocument, hspare, cut, next, hcut, hnext, hafter⟩

end Session

end RuleGraph
