import RuleGraph.Proofs.Documents

/-!
# Traces

A path of the document, the index of a root and then argument positions, leads along edges to a
node, in any graph: of several edges from one position, and of several nodes with one id, it takes
the last. Rebuilding notes keys at exactly the paths of the operations of the document, each that of
the node at the path, and it visits exactly the nodes that the paths of the document lead to.
-/

namespace RuleGraph

namespace Graph

variable {α : Type} {graph : Graph α}

/-- The node that positions lead to from a node, one after another. -/
def lastBelow? (graph : Graph α) : Node α → List Nat → Option (Node α)
  | node, [] => some node
  | node, position :: path =>
    (graph.lastEdgeFrom? node.id position).bind fun edge =>
      (graph.lastNode? edge.target).bind fun target => graph.lastBelow? target path

/-- The node at a path of the document: the index of a root, then positions. -/
def lastNodeAt? (graph : Graph α) : List Nat → Option (Node α)
  | [] => none
  | index :: path =>
    graph.roots[index]?.bind fun root =>
      (graph.lastNode? root).bind fun node => graph.lastBelow? node path

theorem lastBelow?_cons {node target : Node α} {position : Nat} {edge : Edge}
    (hedge : graph.lastEdgeFrom? node.id position = some edge)
    (htarget : graph.lastNode? edge.target = some target) (path : List Nat) :
    graph.lastBelow? node (position :: path) = graph.lastBelow? target path := by
  rw [lastBelow?, hedge, Option.bind_some, htarget, Option.bind_some]

theorem lastBelow?_cons_eq_some {node last : Node α} {position : Nat} {path : List Nat}
    (h : graph.lastBelow? node (position :: path) = some last) :
    ∃ edge target, graph.lastEdgeFrom? node.id position = some edge ∧
      graph.lastNode? edge.target = some target ∧ graph.lastBelow? target path = some last := by
  rw [lastBelow?] at h
  obtain ⟨edge, hedge, h⟩ := Option.bind_eq_some_iff.mp h
  obtain ⟨target, htarget, h⟩ := Option.bind_eq_some_iff.mp h
  exact ⟨edge, target, hedge, htarget, h⟩

theorem mem_of_lastBelow? {node last : Node α} {path : List Nat} (hnode : node ∈ graph.nodes)
    (h : graph.lastBelow? node path = some last) : last ∈ graph.nodes := by
  induction path generalizing node with
  | nil =>
      cases h
      exact hnode
  | cons position path ih =>
      obtain ⟨_, target, _, htarget, hlast⟩ := lastBelow?_cons_eq_some h
      exact ih (mem_of_lastNode? htarget).1 hlast

theorem mem_of_lastNodeAt? {path : List Nat} {node : Node α}
    (h : graph.lastNodeAt? path = some node) : node ∈ graph.nodes := by
  cases path with
  | nil => cases h
  | cons index path =>
      obtain ⟨root, _, h⟩ := Option.bind_eq_some_iff.mp h
      obtain ⟨first, hfirst, h⟩ := Option.bind_eq_some_iff.mp h
      exact mem_of_lastBelow? (mem_of_lastNode? hfirst).1 h

/-! ## Keys -/

/-- The key of the node below another one is noted for the operation that it shows, behind a
path. -/
def NotedBelow (graph : Graph α) (path : List Nat) (node : Node α) (entry : List Nat × Expression)
    (noted : List Nat × Key) : Prop :=
  noted.1 = path ++ entry.1 ∧ ∃ below, graph.lastBelow? node entry.1 = some below ∧
    below.name? = some entry.2.name ∧ below.key = noted.2

theorem NotedBelow.step {path : List Nat} {node target : Node α} {position : Nat} {edge : Edge}
    {entry : List Nat × Expression} {noted : List Nat × Key}
    (hedge : graph.lastEdgeFrom? node.id position = some edge)
    (htarget : graph.lastNode? edge.target = some target)
    (h : graph.NotedBelow (path ++ [position]) target entry noted) :
    graph.NotedBelow path node (position :: entry.1, entry.2) noted := by
  obtain ⟨hpath, below, hbelow, hshows⟩ := h
  refine ⟨?_, below, (lastBelow?_cons hedge htarget entry.1).trans hbelow, hshows⟩
  rw [hpath, List.append_assoc]
  rfl

/-- What is noted for each argument is noted for the operations of all of them. -/
theorem forall₂_operationsFrom {R : List Nat × Expression → List Nat × Key → Prop}
    {filled : List Unfolding} {position : Nat}
    (h : ∀ (i : Nat) (v : Unfolding), filled[i]? = some v →
      List.Forall₂ (fun entry noted => R ((position + i) :: entry.1, entry.2) noted)
        v.argument.operations v.keys) :
    List.Forall₂ R (Argument.operationsFrom position (filled.map Unfolding.argument))
      (filled.flatMap Unfolding.keys) := by
  induction filled generalizing position with
  | nil => exact .nil
  | cons first rest ih =>
      rw [List.map_cons, Argument.operationsFrom, List.flatMap_cons]
      refine List.rel_append (List.forall₂_map_left_iff.mpr (h 0 first rfl)) (ih ?_)
      intro i v hv
      have hrest := h (i + 1) v hv
      rwa [show position + (i + 1) = position + 1 + i by omega] at hrest

/-- The walk notes the operations of what it finds, in order. -/
theorem unfold_keys (fuel : Nat) {above : List String} {path : List Nat} {node : Node α}
    {u : Unfolding} (hunfold : graph.index.unfold fuel above path node = .ok u) :
    List.Forall₂ (graph.NotedBelow path node) u.argument.operations u.keys := by
  induction fuel generalizing above path node u with
  | zero => cases hunfold
  | succ fuel ih =>
      cases hcontent : node.content with
      | constant value =>
          rw [unfold_constant fuel above path hcontent] at hunfold
          cases hunfold
          exact .nil
      | operation name inline =>
          obtain ⟨_, _, _, filled, _, hfilled, _, rfl⟩ :=
            (unfold_operation_eq_ok hcontent).mp hunfold
          have hname : node.name? = some name := by rw [Node.name?, hcontent]
          refine .cons ⟨(List.append_nil path).symm, node, rfl, hname, rfl⟩ ?_
          apply forall₂_operationsFrom
          intro i v hv
          rw [Nat.zero_add]
          rcases fillPosition_eq_some.mp (hfilled i v hv) with
            ⟨edge, target, hedge, htarget, hbelow⟩ | ⟨_, value, _, rfl⟩
          · exact (ih hbelow).imp fun _ _ hnoted => hnoted.step hedge htarget
          · exact .nil

/-! ## Visits -/

/-- The walk visits the nodes that the paths of what it finds lead to. -/
theorem mem_unfold_visited (fuel : Nat) {above : List String} {path : List Nat} {node : Node α}
    {u : Unfolding} (hunfold : graph.index.unfold fuel above path node = .ok u) {id : String} :
    id ∈ u.visited ↔ ∃ below a last, u.argument.at? below = some a ∧
      graph.lastBelow? node below = some last ∧ last.id = id := by
  induction fuel generalizing above path node u with
  | zero => cases hunfold
  | succ fuel ih =>
      cases hcontent : node.content with
      | constant value =>
          rw [unfold_constant fuel above path hcontent] at hunfold
          cases hunfold
          rw [List.mem_singleton]
          constructor
          · rintro rfl
            exact ⟨[], _, node, Argument.at?_nil _, rfl, rfl⟩
          · rintro ⟨below, a, last, hat, hlast, rfl⟩
            cases below with
            | nil =>
                cases hlast
                rfl
            | cons position below => cases hat
      | operation name inline =>
          obtain ⟨_, _, _, filled, _, hfilled, _, rfl⟩ :=
            (unfold_operation_eq_ok hcontent).mp hunfold
          rw [List.mem_cons, List.mem_flatMap]
          constructor
          · rintro (rfl | ⟨v, hv, hid⟩)
            · exact ⟨[], _, node, Argument.at?_nil _, rfl, rfl⟩
            · obtain ⟨i, hi⟩ := List.mem_iff_getElem?.mp hv
              rcases fillPosition_eq_some.mp (hfilled i v hi) with
                ⟨edge, target, hedge, htarget, hbelow⟩ | ⟨_, value, _, rfl⟩
              · obtain ⟨below, a, last, hat, hlast, hlastId⟩ := (ih hbelow).mp hid
                refine ⟨i :: below, a, last, ?_, ?_, hlastId⟩
                · rw [Argument.at?_nested_cons, List.getElem?_map, hi]
                  exact hat
                · rw [lastBelow?_cons hedge htarget, hlast]
              · cases hid
          · rintro ⟨below, a, last, hat, hlast, rfl⟩
            cases below with
            | nil =>
                cases hlast
                exact Or.inl rfl
            | cons i below =>
                rw [Argument.at?_nested_cons, List.getElem?_map] at hat
                obtain ⟨_, harg, hat⟩ := Option.bind_eq_some_iff.mp hat
                obtain ⟨v, hv, rfl⟩ := Option.map_eq_some_iff.mp harg
                obtain ⟨edge, target, hedge, htarget, hlast⟩ := lastBelow?_cons_eq_some hlast
                refine Or.inr ⟨v, List.mem_of_getElem? hv, ?_⟩
                rcases fillPosition_eq_some.mp (hfilled i v hv) with
                  ⟨found, other, hfound, hother, hbelow⟩ | ⟨hnone, _⟩
                · cases hedge.symm.trans hfound
                  cases htarget.symm.trans hother
                  exact (ih hbelow).mpr ⟨below, a, last, hat, hlast, rfl⟩
                · cases hedge.symm.trans hnone

/-! ## Documents -/

/-- A trace is put together from what the roots unfold to. -/
theorem trace_unfoldings {trace : Trace} (htrace : graph.trace = .ok trace) :
    ∃ found : List Unfolding,
      trace.expressions.map Argument.ofExpression = found.map Unfolding.argument ∧
      trace.keys = found.flatMap Unfolding.keys ∧
      trace.visited = found.flatMap Unfolding.visited ∧
      ∀ (i : Nat) (u : Unfolding), found[i]? = some u → ∃ root node,
        graph.roots[i]? = some root ∧ graph.lastNode? root = some node ∧
          graph.index.unfold graph.nestingBound [] [i] node = .ok u := by
  obtain ⟨found, ⟨hlength, hfound⟩, rfl⟩ := trace_eq_ok.mp htrace
  have hwalk : ∀ (i : Nat) (entry : Expression × Unfolding), found[i]? = some entry →
      ∃ root node, graph.roots[i]? = some root ∧ graph.lastNode? root = some node ∧
        graph.index.unfold graph.nestingBound [] [i] node = .ok entry.2 ∧
          entry.2.argument = .ofExpression entry.1 := by
    intro i entry hentry
    have hroot := List.getElem?_eq_getElem (hlength ▸ (List.getElem?_eq_some_iff.mp hentry).1)
    obtain ⟨node, hnode, hunfold⟩ := unfoldRoot_eq_ok.mp (hfound i _ entry hroot hentry)
    exact ⟨_, node, hroot, hnode, hunfold⟩
  refine ⟨found.map Prod.snd, ?_, ?_, ?_, ?_⟩
  · rw [List.map_map, List.map_map]
    apply List.map_congr_left
    intro entry hentry
    obtain ⟨i, hi⟩ := List.mem_iff_getElem?.mp hentry
    obtain ⟨_, _, _, _, _, hargument⟩ := hwalk i entry hi
    exact hargument.symm
  · rw [List.flatMap_map]
  · rw [List.flatMap_map]
  · intro i u hu
    rw [List.getElem?_map] at hu
    obtain ⟨entry, hentry, rfl⟩ := Option.map_eq_some_iff.mp hu
    obtain ⟨root, node, hroot, hnode, hunfold, _⟩ := hwalk i entry hentry
    exact ⟨root, node, hroot, hnode, hunfold⟩

theorem lastNodeAt?_cons {index : Nat} {root : String} {node : Node α}
    (hroot : graph.roots[index]? = some root) (hnode : graph.lastNode? root = some node)
    (path : List Nat) : graph.lastNodeAt? (index :: path) = graph.lastBelow? node path := by
  rw [lastNodeAt?, hroot, Option.bind_some, hnode, Option.bind_some]

/-- The key of the node at the path of an operation, which shows it, is noted for the path. -/
def NotedAt (graph : Graph α) (entry : List Nat × Expression) (noted : List Nat × Key) : Prop :=
  noted.1 = entry.1 ∧ ∃ node, graph.lastNodeAt? entry.1 = some node ∧
    node.name? = some entry.2.name ∧ node.key = noted.2

/-- Keys are noted for the operations of the document, in order. -/
theorem trace_keys {trace : Trace} (htrace : graph.trace = .ok trace) :
    List.Forall₂ graph.NotedAt trace.expressions.operations trace.keys := by
  obtain ⟨found, hexpressions, hkeys, _, hfound⟩ := trace_unfoldings htrace
  rw [Document.operations, hexpressions, hkeys]
  apply forall₂_operationsFrom
  intro i u hu
  obtain ⟨root, node, hroot, hnode, hunfold⟩ := hfound i u hu
  rw [Nat.zero_add]
  refine (unfold_keys _ hunfold).imp ?_
  rintro entry noted ⟨hpath, below, hbelow, hshows⟩
  exact ⟨hpath, below, (lastNodeAt?_cons hroot hnode entry.1).trans hbelow, hshows⟩

theorem map_fst_trace_keys {trace : Trace} (htrace : graph.trace = .ok trace) :
    trace.keys.map Prod.fst = trace.expressions.operations.map Prod.fst := by
  rw [← List.forall₂_eq_eq_eq, List.forall₂_map_left_iff, List.forall₂_map_right_iff]
  exact (trace_keys htrace).flip.imp fun _ _ hnoted => hnoted.1

theorem mem_trace_visited {trace : Trace} (htrace : graph.trace = .ok trace) {id : String} :
    id ∈ trace.visited ↔ ∃ path a node, trace.expressions.at? path = some a ∧
      graph.lastNodeAt? path = some node ∧ node.id = id := by
  obtain ⟨found, hexpressions, _, hvisited, hfound⟩ := trace_unfoldings htrace
  have hargument : ∀ i : Nat, trace.expressions[i]?.map Argument.ofExpression =
      found[i]?.map Unfolding.argument := by
    intro i
    rw [← List.getElem?_map, ← List.getElem?_map, hexpressions]
  rw [hvisited, List.mem_flatMap]
  constructor
  · rintro ⟨u, hu, hid⟩
    obtain ⟨i, hi⟩ := List.mem_iff_getElem?.mp hu
    obtain ⟨root, node, hroot, hnode, hunfold⟩ := hfound i u hi
    obtain ⟨below, a, last, hat, hlast, hlastId⟩ := (mem_unfold_visited _ hunfold).mp hid
    have hsame := hargument i
    rw [hi, Option.map_some] at hsame
    obtain ⟨e, he, hu⟩ := Option.map_eq_some_iff.mp hsame
    refine ⟨i :: below, a, last, ?_, (lastNodeAt?_cons hroot hnode below).trans hlast, hlastId⟩
    rw [Document.at?, he, Option.bind_some, hu, hat]
  · rintro ⟨path, a, last, hat, hlast, hlastId⟩
    cases path with
    | nil => cases hat
    | cons i below =>
        obtain ⟨e, he, hat⟩ := Option.bind_eq_some_iff.mp hat
        have hsame := hargument i
        rw [he, Option.map_some] at hsame
        obtain ⟨u, hu, hargument⟩ := Option.map_eq_some_iff.mp hsame.symm
        obtain ⟨root, node, hroot, hnode, hunfold⟩ := hfound i u hu
        rw [lastNodeAt?_cons hroot hnode] at hlast
        refine ⟨u, List.mem_of_getElem? hu, (mem_unfold_visited _ hunfold).mpr ?_⟩
        exact ⟨below, a, last, hargument ▸ hat, hlast, hlastId⟩

end Graph

/-- The trace notes keys for exactly the paths of the operations of its document, each that of the
node at the path, and it visits exactly the nodes that the paths of the document lead to. -/
structure Trace.Exact {α : Type} (trace : Trace) (graph : Graph α) : Prop where
  noted : ∀ path e, trace.expressions.at? path = some (.ofExpression e) →
    ∃ node, graph.lastNodeAt? path = some node ∧ node.name? = some e.name ∧
      trace.keys.lookup path = some node.key
  noted_only : ∀ path key, trace.keys.lookup path = some key →
    ∃ e, trace.expressions.at? path = some (.ofExpression e)
  visited_iff : ∀ id, id ∈ trace.visited ↔ ∃ path a node, trace.expressions.at? path = some a ∧
    graph.lastNodeAt? path = some node ∧ node.id = id

theorem Graph.exact_trace {α : Type} {graph : Graph α} {trace : Trace}
    (htrace : graph.trace = .ok trace) : trace.Exact graph := by
  have hpaths := map_fst_trace_keys htrace
  have hnodup : (trace.keys.map Prod.fst).Nodup := hpaths ▸ trace.expressions.nodup_operations
  refine ⟨?_, ?_, fun id => mem_trace_visited htrace⟩
  · intro path e hat
    obtain ⟨⟨_, key⟩, hkey, rfl, node, hnode, hname, rfl⟩ :=
      exists_of_forall₂ (trace_keys htrace).flip _ (Document.mem_operations.mpr hat)
    exact ⟨node, hnode, hname, (lookup_eq_some_iff_mem hnodup).mpr hkey⟩
  · intro path key hkey
    have hmem := List.mem_map_of_mem (f := Prod.fst) ((lookup_eq_some_iff_mem hnodup).mp hkey)
    rw [hpaths] at hmem
    obtain ⟨entry, hentry, rfl⟩ := List.mem_map.mp hmem
    exact ⟨entry.2, Document.mem_operations.mp hentry⟩

end RuleGraph
