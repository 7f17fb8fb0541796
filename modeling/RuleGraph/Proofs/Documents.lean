import RuleGraph.Proofs.Names
import RuleGraph.Proofs.Nodes
import RuleGraph.Proofs.Unfolding

/-!
# Rebuilt documents

A document is rebuilt exactly if each root unfolds to its expression; the order of the walk, the
nodes it has visited and the bound on its nesting play no part. What a node unfolds to depends only
on the nodes that can be reached from it: it is the same in every graph whose look-ups agree there.
-/

namespace RuleGraph

theorem Graph.AllMade.countsPlaces {layout : Layout Float} {graph : Graph Float}
    (h : graph.AllMade layout) : graph.CountsPlaces :=
  fun node hnode => (h node hnode).counted

namespace Graph

variable {α : Type} {graph other : Graph α}

/-! ## Documents as unfoldings -/

theorem trace_eq_ok {trace : Trace} :
    graph.trace = .ok trace ↔ ∃ found : List (Expression × Unfolding),
      (found.length = graph.roots.length ∧
        ∀ (i : Nat) (root : String) (entry : Expression × Unfolding), graph.roots[i]? = some root →
          found[i]? = some entry →
            graph.index.unfoldRoot graph.nestingBound root [i] = .ok entry) ∧
      trace = ⟨found.map Prod.fst, found.flatMap fun entry => entry.2.keys,
        found.flatMap fun entry => entry.2.visited⟩ := by
  rw [Graph.trace, bind_eq_ok]
  refine exists_congr fun found => and_congr mapM_zipIdx_eq_ok ?_
  exact ⟨fun h => by cases h; rfl, fun h => by rw [h]; rfl⟩

theorem unfolds_of_unfoldRoot {fuel : Nat} {id : String} {path : List Nat} {e : Expression}
    {u : Unfolding} (h : graph.index.unfoldRoot fuel id path = .ok (e, u)) :
    graph.Unfolds id (.ofExpression e) := by
  obtain ⟨node, hnode, hunfold, hargument⟩ := unfoldRoot_eq_ok.mp h
  rw [← hargument]
  exact unfold_sound _ hnode hunfold

/-- A root is walked, at any path, exactly to the expression that it unfolds to. -/
theorem CountsPlaces.unfoldRoot_iff (hcounts : graph.CountsPlaces) {id : String} {path : List Nat}
    {e : Expression} :
    (∃ u, graph.index.unfoldRoot graph.nestingBound id path = .ok (e, u)) ↔
      graph.Unfolds id (.ofExpression e) := by
  constructor
  · rintro ⟨u, hroot⟩
    exact unfolds_of_unfoldRoot hroot
  · intro h
    obtain ⟨node, hnode⟩ := h.exists_node
    have hchain : graph.Chain [] (Argument.ofExpression e).depth :=
      ⟨List.nodup_nil, List.nil_subset _, fun _ hid => absurd hid List.not_mem_nil⟩
    have hfuel : graph.nodes.length < graph.nestingBound + ([] : List String).length := by
      rw [nestingBound]
      omega
    obtain ⟨u, hunfold, hargument⟩ := hcounts.unfold_complete h hnode hchain hfuel
    exact ⟨u, unfoldRoot_eq_ok.mpr ⟨node, hnode, hunfold, hargument⟩⟩

theorem document_eq_ok_iff_trace {document : Document} :
    graph.document = .ok document ↔
      ∃ trace, graph.trace = .ok trace ∧ trace.expressions = document := by
  rw [Graph.document]
  cases graph.trace with
  | error e => simp [Except.map]
  | ok trace => simp [Except.map]

theorem unfolds_of_document {document : Document} (h : graph.document = .ok document) :
    document.length = graph.roots.length ∧
      ∀ (i : Nat) (root : String) (e : Expression), graph.roots[i]? = some root →
        document[i]? = some e → graph.Unfolds root (.ofExpression e) := by
  obtain ⟨trace, htrace, rfl⟩ := document_eq_ok_iff_trace.mp h
  obtain ⟨found, ⟨hlength, hfound⟩, rfl⟩ := trace_eq_ok.mp htrace
  refine ⟨by rw [List.length_map, hlength], ?_⟩
  intro i root e hroot he
  rw [List.getElem?_map, Option.map_eq_some_iff] at he
  obtain ⟨entry, hentry, rfl⟩ := he
  exact unfolds_of_unfoldRoot (hfound i root entry hroot hentry)

/-- The document is the list of what the roots unfold to. -/
theorem CountsPlaces.document_eq_ok_iff (hcounts : graph.CountsPlaces) {document : Document} :
    graph.document = .ok document ↔ document.length = graph.roots.length ∧
      ∀ (i : Nat) (root : String) (e : Expression), graph.roots[i]? = some root →
        document[i]? = some e → graph.Unfolds root (.ofExpression e) := by
  refine ⟨unfolds_of_document, ?_⟩
  intro h
  rw [document_eq_ok_iff_trace]
  obtain ⟨hlength, hunfolds⟩ := h
  have hwalk : ∀ (i : Nat) (e : Expression), document[i]? = some e →
      ∃ entry : Expression × Unfolding, entry.1 = e ∧ ∀ root, graph.roots[i]? = some root →
        graph.index.unfoldRoot graph.nestingBound root [i] = .ok entry := by
    intro i e he
    have hi := (List.getElem?_eq_some_iff.mp he).1
    have hroot := List.getElem?_eq_getElem (hlength ▸ hi)
    obtain ⟨u, hu⟩ := hcounts.unfoldRoot_iff.mpr (hunfolds i _ e hroot he)
    refine ⟨(e, u), rfl, ?_⟩
    intro root hsame
    rw [hroot] at hsame
    cases hsame
    exact hu
  obtain ⟨found, hcount, hfound⟩ := exists_results hwalk
  have hexpressions : found.map Prod.fst = document := by
    apply map_results hcount
    intro i entry hentry
    obtain ⟨e, he, rfl, _⟩ := hfound i entry hentry
    exact he
  refine ⟨_, trace_eq_ok.mpr ⟨found, ⟨hcount.trans hlength, ?_⟩, rfl⟩, hexpressions⟩
  intro i root entry hroot hentry
  obtain ⟨_, _, _, hok⟩ := hfound i entry hentry
  exact hok root hroot

/-! ## Unfoldings -/

/-- Operations without a name have no unfolding. -/
theorem Unfolds.named {id : String} {a : Argument} (h : graph.Unfolds id a) : "" ∉ a.names := by
  induction h with
  | constant _ _ => exact List.not_mem_nil
  | @operation id node name inline arguments _ _ hname _ _ hwritten _ ih =>
      intro hmem
      rw [Argument.names, List.mem_cons, Argument.mem_namesAll] at hmem
      rcases hmem with hempty | ⟨a, ha, hbelow⟩
      · exact hname hempty.symm
      · obtain ⟨i, hi⟩ := List.mem_iff_getElem?.mp ha
        cases hedge : graph.lastEdgeFrom? id i with
        | some edge => exact ih i a edge hi hedge hbelow
        | none =>
            obtain ⟨value, _, rfl⟩ := hwritten i a hi hedge
            exact List.not_mem_nil hbelow

theorem named_of_document {document : Document} (h : graph.document = .ok document) :
    ∀ e ∈ document, "" ∉ e.names := by
  obtain ⟨hlength, hunfolds⟩ := unfolds_of_document h
  intro e he
  obtain ⟨i, hi⟩ := List.mem_iff_getElem?.mp he
  have hroot := List.getElem?_eq_getElem (hlength ▸ (List.getElem?_eq_some_iff.mp hi).1)
  exact (hunfolds i _ e hroot hi).named

/-- The nodes of both graphs unfold to the same, as far as their look-ups agree. -/
structure Agrees (graph other : Graph α) (P : String → Prop) : Prop where
  node : ∀ id node, P id → graph.lastNode? id = some node →
    ∃ twin, other.lastNode? id = some twin ∧ twin.slots = node.slots ∧ twin.content = node.content
  edge : ∀ id position, P id → other.lastEdgeFrom? id position = graph.lastEdgeFrom? id position
  closed : ∀ id position edge, P id → graph.lastEdgeFrom? id position = some edge → P edge.target

theorem Vacant.transfer {node twin : Node α} {inline : List (Option Literal)} {position : Nat}
    (h : graph.Vacant node inline position) (hslots : twin.slots = node.slots)
    (hedge : other.lastEdgeFrom? twin.id position = none) : other.Vacant twin inline position where
  unplugged := hedge
  unwritten := h.unwritten
  optional := by
    intro slot hslot
    rw [Node.slot?, hslots] at hslot
    exact h.optional slot hslot

theorem Unfolds.transfer {P : String → Prop} (hagrees : graph.Agrees other P) {id : String}
    {a : Argument} (h : graph.Unfolds id a) (hid : P id) : other.Unfolds id a := by
  induction h with
  | constant hnode hcontent =>
      obtain ⟨twin, htwin, _, hsame⟩ := hagrees.node _ _ hid hnode
      exact .constant htwin (hsame.trans hcontent)
  | @operation id node name inline arguments hnode hcontent hname hlength _ hwritten hvacant ih =>
      obtain ⟨twin, htwin, hslots, hsame⟩ := hagrees.node _ _ hid hnode
      have hplaces : twin.places inline = node.places inline := by
        rw [Node.places, Node.places, hslots]
      have hnodeId : node.id = id := (mem_of_lastNode? hnode).2
      have htwinId : twin.id = id := (mem_of_lastNode? htwin).2
      refine .operation htwin (hsame.trans hcontent) hname (hplaces ▸ hlength) ?_ ?_ ?_
      · intro i argument edge hi hedge
        rw [hagrees.edge id i hid] at hedge
        exact ih i argument edge hi hedge (hagrees.closed id i edge hid hedge)
      · intro i argument hi hedge
        rw [hagrees.edge id i hid] at hedge
        exact hwritten i argument hi hedge
      · intro i hi hcount
        have hempty := hvacant i hi (hplaces ▸ hcount)
        apply hempty.transfer hslots
        rw [htwinId, hagrees.edge id i hid, ← hnodeId]
        exact hempty.unplugged

end Graph

theorem Session.document_eq_ok {session : Session} {document : Document} :
    session.document = .ok document ↔ session.graph.document = .ok document := by
  rw [Session.document]
  cases session.graph.document with
  | error e =>
      constructor
      · intro h
        cases h
      · intro h
        cases h
  | ok found =>
      dsimp only
      rw [Except.ok.injEq, Except.ok.injEq]

end RuleGraph
