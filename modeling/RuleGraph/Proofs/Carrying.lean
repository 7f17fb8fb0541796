import RuleGraph.Proofs.Redrawing
import RuleGraph.Proofs.Spelling
import RuleGraph.Proofs.Traces

/-!
# Keys that are carried over

A relayout hands out new keys, and then matches the ids of what it has drawn with the paths that the
trace has noted. Traces are exact, and each drawn id is read back as its path, so that every
operation is found and keeps the key of the node that it was rebuilt from, in any graph.
-/

namespace RuleGraph

/-- Words hold the positions on the paths to all operations of the document. -/
def Document.PathsInWords (document : Document) : Prop :=
  ∀ entry ∈ document.operations, ∀ position ∈ entry.1, position < UInt64.size

namespace Graph

variable {α : Type} {graph : Graph α}

/-- The node of an operation is under the id of its path, and has the key of the node that shows the
operation in the graph: the one that the path leads to. -/
def CarriedTo (graph : Graph α) (entry : List Nat × Expression) (node : Node α) : Prop :=
  node.id = idOfPath entry.1 ∧ ∃ old, graph.lastNodeAt? entry.1 = some old ∧
    old.name? = some entry.2.name ∧ node.key = old.key

theorem carryKey_of_lookup {keys : List (List Nat × Key)} {node : Node α} {path : List Nat}
    {key : Key} (hid : node.id = idOfPath path) (hwords : ∀ position ∈ path, position < UInt64.size)
    (hlookup : keys.lookup path = some key) : carryKey keys node = { node with key } := by
  rw [carryKey, hid, pathOfId_idOfPath hwords]
  dsimp only
  rw [hlookup]

/-- Each drawn node takes over the key of the node that its expression was rebuilt from. -/
theorem carried_document [Scalar α] (layout : Layout α) (keys : Nat → Key) {trace : Trace}
    (htrace : graph.trace = .ok trace) (hne : trace.expressions ≠ [])
    (hwords : trace.expressions.PathsInWords) :
    List.Forall₂ graph.CarriedTo trace.expressions.operations
      ((layout.document keys trace.expressions).carryKeys trace.keys).nodes := by
  have hnoted : ∀ entry ∈ trace.expressions.operations,
      (∀ position ∈ entry.1, position < UInt64.size) ∧
        ∃ old, graph.lastNodeAt? entry.1 = some old ∧ old.name? = some entry.2.name ∧
          trace.keys.lookup entry.1 = some old.key := by
    intro entry hentry
    exact ⟨hwords entry hentry,
      (exact_trace htrace).noted entry.1 entry.2 (Document.mem_operations.mp hentry)⟩
  have hids := layout.map_id_document keys hne
  rw [← List.forall₂_eq_eq_eq, List.forall₂_map_left_iff, List.forall₂_map_right_iff] at hids
  rw [carryKeys, List.forall₂_map_right_iff]
  refine ((List.forall₂_and_left _ _).mpr ⟨hnoted, hids.flip⟩).imp ?_
  rintro entry node ⟨⟨hshort, old, hold, hname, hlookup⟩, hid⟩
  rw [carryKey_of_lookup hid hshort hlookup]
  exact ⟨hid, old, hold, hname, rfl⟩

end Graph

namespace Session

/-- After a relayout each operation of the document is drawn under the id of its path and the key of
the node that it was rebuilt from, and none under a key that was new. -/
def CarriesKeys (session next : Session) (document : Document) : Prop :=
  ∃ keys kept, next.graph.nodes = (session.layout.document keys document).nodes ++ kept ∧
    List.Forall₂ session.graph.CarriedTo document.operations
      (session.layout.document keys document).nodes ∧
    ∀ n, (∀ old ∈ session.graph.nodes, old.key ≠ session.freshKeys n) →
      ∀ node ∈ (session.layout.document keys document).nodes, node.key ≠ session.freshKeys n

/-- Traces are exact, and so relayouts carry the keys over. -/
theorem traces_carry_keys :
    (∀ {α : Type} (graph : Graph α) (trace : Trace), graph.trace = .ok trace →
      trace.Exact graph) ∧
    ∀ (session next : Session) (document : Document), session.relayout = (next, .ok ()) →
      session.document = .ok document → document ≠ [] → document.PathsInWords →
      session.CarriesKeys next document := by
  refine ⟨fun _ _ => Graph.exact_trace, ?_⟩
  intro session next document hnext hdocument hne hwords
  obtain ⟨trace, htrace, hgraph⟩ := relayout_graph hnext
  obtain ⟨_, htrace', rfl⟩ := Graph.document_eq_ok_iff_trace.mp (document_eq_ok.mp hdocument)
  cases htrace.symm.trans htrace'
  have hcarried := Graph.carried_document session.layout session.freshKeys htrace hne hwords
  obtain ⟨keys, hkeys⟩ := Graph.exists_carryKeys_document session.layout session.freshKeys
    trace.keys trace.expressions
  have hnodes : next.graph.nodes =
      ((session.layout.document session.freshKeys trace.expressions).carryKeys trace.keys).nodes ++
        Graph.rehoused _ session.freshIds (session.graph.detached trace.visited) :=
    congrArg Graph.nodes hgraph
  rw [hkeys] at hcarried hnodes
  refine ⟨keys, _, hnodes, hcarried, ?_⟩
  intro n hnew node hnode hkey
  obtain ⟨_, _, _, old, hold, _, hsame⟩ := exists_of_forall₂ hcarried node hnode
  exact hnew old (Graph.mem_of_lastNodeAt? hold) (hsame.symm.trans hkey)

/-- A session whose only root is not the first one that was drawn, with a constant plugged in. -/
def shifted : Session :=
  ((((start numberedSupply ⟨Registry.standard, LayoutConfig.standard⟩).perform
    (.loadDocument [⟨"IF", []⟩, ⟨"and", [.nested "not" [], .literal (.text "no")]⟩])).perform
      (.apply (.removeRoot "root.0"))).perform
        (.apply (.addConstantNode (.text "yes") ⟨0.0, 0.0⟩ (some "spare")))).perform
          (.apply (.connect "root.1" 1 "spare"))

/-- Both operations are drawn at new paths, under their old keys; the constant is not drawn. -/
theorem shifted_keys :
    ∃ trace next document, shifted.graph.trace = .ok trace ∧ trace.Exact shifted.graph ∧
      shifted.relayout = (next, .ok ()) ∧ shifted.document = .ok document ∧
      document = [⟨"and", [.nested "not" [], .literal (.text "yes")]⟩] ∧
      document ≠ [] ∧ document.PathsInWords ∧ shifted.CarriesKeys next document := by
  have hdocument : shifted.document =
      .ok [⟨"and", [.nested "not" [], .literal (.text "yes")]⟩] := rfl
  have hwords : Document.PathsInWords [⟨"and", [.nested "not" [], .literal (.text "yes")]⟩] := by
    simp [Document.PathsInWords, Document.operations, Argument.ofExpression,
      Argument.operationsFrom, Argument.operations, UInt64.size]
  have hne := List.cons_ne_nil (⟨"and", [.nested "not" [], .literal (.text "yes")]⟩ : Expression) []
  obtain ⟨next, hnext⟩ := exists_relayout_iff.mpr ⟨_, hdocument⟩
  obtain ⟨trace, htrace, _⟩ := relayout_graph hnext
  exact ⟨trace, next, _, htrace, traces_carry_keys.1 _ _ htrace, hnext, hdocument, rfl, hne, hwords,
    traces_carry_keys.2 shifted next _ hnext hdocument hne hwords⟩

end Session

end RuleGraph
