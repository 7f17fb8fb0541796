import RuleGraph.Proofs.Substitution

/-!
# Literals of a document

A literal of a document is written inline, at a position of an operation without an edge, or is the
value of a constant that is plugged in. To write another one there, in the one node, is to
substitute in the document: at all paths at which the literal stands. What rebuilding reads
otherwise, the edges, the slots and the number of positions, stays, so that no gap opens and no
argument moves.
-/

namespace RuleGraph

namespace Graph

variable {α : Type} {graph other : Graph α} {hit : List Nat → Bool} {value : Literal}

/-! ## Graphs with other literals -/

/-- The second content is that of a node at a path with the value at each place that is hit: a
constant is hit at its path, an operation at the positions that have no edge. -/
inductive RewritesAt (graph : Graph α) (hit : List Nat → Bool) (value : Literal) (path : List Nat)
    (id : String) : Content → Content → Prop
  | constant (old : Literal) :
      RewritesAt graph hit value path id (.constant old)
        (.constant (if hit path then value else old))
  | operation {name : String} {inline written : List (Option Literal)} (hnot : hit path = false)
      (hlength : written.length = inline.length)
      (hwritten : ∀ i, graph.lastEdgeFrom? id i = none → written[i]? = inline[i]?.map fun entry =>
        entry.map fun old => if hit (path ++ [i]) then value else old) :
      RewritesAt graph hit value path id (.operation name inline) (.operation name written)

/-- The other graph has the same edges, and the nodes of the document differ only in the literals at
the paths that are hit, which are the value. -/
structure Rewrites (graph other : Graph α) (hit : List Nat → Bool) (value : Literal) : Prop where
  edge : ∀ id position, other.lastEdgeFrom? id position = graph.lastEdgeFrom? id position
  node : ∀ path id node, graph.nodeAt? path = some id → graph.lastNode? id = some node →
    ∃ twin, other.lastNode? id = some twin ∧ twin.slots = node.slots ∧
      graph.RewritesAt hit value path id node.content twin.content

theorem RewritesAt.of_not_hit {path : List Nat} {id : String} (hnot : hit path = false)
    (hpositions : ∀ i, graph.lastEdgeFrom? id i = none → hit (path ++ [i]) = false)
    (content : Content) : graph.RewritesAt hit value path id content content := by
  cases content with
  | constant old =>
      have hrewrites : graph.RewritesAt hit value path id (.constant old) _ := .constant old
      rwa [hnot, if_neg Bool.false_ne_true] at hrewrites
  | operation name inline =>
      refine .operation hnot rfl ?_
      intro i hunplugged
      simp [hpositions i hunplugged]

theorem RewritesAt.of_hit {path : List Nat} (hhit : hit path = true) (id : String) (old : Literal) :
    graph.RewritesAt hit value path id (.constant old) (.constant value) := by
  have hrewrites : graph.RewritesAt hit value path id (.constant old) _ := .constant old
  rwa [hhit, if_pos rfl] at hrewrites

theorem RewritesAt.constant_eq {path : List Nat} {id : String} {old : Literal} {content : Content}
    (h : graph.RewritesAt hit value path id (.constant old) content) :
    content = .constant (if hit path then value else old) := by
  cases h
  rfl

theorem RewritesAt.operation_eq {path : List Nat} {id name : String}
    {inline : List (Option Literal)} {content : Content}
    (h : graph.RewritesAt hit value path id (.operation name inline) content) :
    hit path = false ∧ ∃ written, content = .operation name written ∧
      written.length = inline.length ∧ ∀ i, graph.lastEdgeFrom? id i = none →
        written[i]? = inline[i]?.map fun entry =>
          entry.map fun old => if hit (path ++ [i]) then value else old := by
  cases h with
  | operation hnot hlength hwritten => exact ⟨hnot, _, rfl, hlength, hwritten⟩

theorem Rewrites.not_hit_of_operation (h : graph.Rewrites other hit value) {path : List Nat}
    {id : String} {node : Node α} (hpath : graph.nodeAt? path = some id)
    (hnode : graph.lastNode? id = some node) (hoperation : node.content.isConstant = false) :
    hit path = false := by
  obtain ⟨_, _, _, hcontent⟩ := h.node path id node hpath hnode
  obtain ⟨name, inline, hkind⟩ := Node.exists_operation hoperation
  rw [hkind] at hcontent
  exact hcontent.operation_eq.1

theorem substitute_literal_eq (hit : List Nat → Bool) (path : List Nat) (value old : Literal) :
    (Argument.literal old).substitute hit path (.literal value) =
      .literal (if hit path then value else old) := by
  rw [Argument.substitute]
  split <;> rfl

/-- Literals are changed, but none is written where there was none. -/
theorem Rewrites.vacant (h : graph.Rewrites other hit value) {node twin : Node α}
    {inline written : List (Option Literal)} {i : Nat} (hid : twin.id = node.id)
    (hslots : twin.slots = node.slots) (hvacant : graph.Vacant node inline i)
    (hwritten : graph.lastEdgeFrom? node.id i = none →
      ∃ change : Literal → Literal, written[i]? = inline[i]?.map (Option.map change)) :
    other.Vacant twin written i where
  unplugged := by
    rw [hid, h.edge]
    exact hvacant.unplugged
  unwritten := by
    intro literal hliteral
    obtain ⟨change, hchange⟩ := hwritten hvacant.unplugged
    rw [hchange] at hliteral
    obtain ⟨entry, hentry, hsome⟩ := Option.map_eq_some_iff.mp hliteral
    obtain ⟨old, rfl, _⟩ := Option.map_eq_some_iff.mp hsome
    exact hvacant.unwritten old hentry
  optional := by
    intro slot hslot
    rw [Node.slot?, hslots] at hslot
    exact hvacant.optional slot hslot

/-- A node of the document unfolds to what it did before, with the value at each path that is
hit. -/
theorem Unfolds.rewrite (h : graph.WellWired) (hrewrites : graph.Rewrites other hit value)
    {start : String} {a : Argument} (ha : graph.Unfolds start a) {path : List Nat}
    (hpath : graph.nodeAt? path = some start) :
    other.Unfolds start (a.substitute hit path (.literal value)) := by
  induction ha generalizing path with
  | constant hnode hcontent =>
      obtain ⟨twin, htwin, _, hrewritten⟩ := hrewrites.node path _ _ hpath hnode
      rw [hcontent] at hrewritten
      rw [substitute_literal_eq]
      exact .constant htwin hrewritten.constant_eq
  | @operation start node name inline arguments hnode hcontent hname hlength _ hinline hvacant ih =>
      obtain ⟨twin, htwin, hslots, hrewritten⟩ := hrewrites.node path _ _ hpath hnode
      rw [hcontent] at hrewritten
      obtain ⟨hnot, written, hwrittenContent, hcount, hwritten⟩ := hrewritten.operation_eq
      -- as many places as before: what was filled is filled, and what was vacant is vacant
      have hplaces : twin.places written = node.places inline := by
        rw [Node.places, Node.places, hslots, hcount]
      rw [Argument.substitute_nested hnot]
      refine .operation htwin hwrittenContent hname ?_ ?_ ?_ ?_
      · rw [Argument.length_substituteFrom, hplaces]
        exact hlength
      · intro i argument edge hi hedge
        rw [Argument.getElem?_substituteFrom, Nat.zero_add] at hi
        obtain ⟨old, hold, rfl⟩ := Option.map_eq_some_iff.mp hi
        rw [hrewrites.edge] at hedge
        obtain ⟨hmem, rfl, rfl⟩ := mem_of_lastEdgeFrom? hedge
        exact ih _ old edge hold hedge (h.nodeAt?_target hmem hpath)
      · intro i argument hi hunplugged
        rw [Argument.getElem?_substituteFrom, Nat.zero_add] at hi
        obtain ⟨old, hold, rfl⟩ := Option.map_eq_some_iff.mp hi
        rw [hrewrites.edge] at hunplugged
        obtain ⟨literal, hliteral, rfl⟩ := hinline i old hold hunplugged
        refine ⟨_, ?_, substitute_literal_eq hit _ value literal⟩
        rw [hwritten i hunplugged, hliteral]
        rfl
      · intro i hi hbound
        rw [Argument.length_substituteFrom] at hi
        have hempty := hvacant i hi (hplaces ▸ hbound)
        have hid : twin.id = node.id :=
          (mem_of_lastNode? htwin).2.trans (mem_of_lastNode? hnode).2.symm
        apply hrewrites.vacant hid hslots hempty
        intro hunplugged
        rw [(mem_of_lastNode? hnode).2] at hunplugged
        exact ⟨_, hwritten i hunplugged⟩

/-- The document of the other graph has the value at each path that is hit. -/
theorem Rewrites.document_eq (hrewrites : graph.Rewrites other hit value) (h : graph.WellWired)
    (hcounts : other.CountsPlaces)
    (hroots : other.roots = graph.roots) {document : Document}
    (hdocument : graph.document = .ok document) :
    other.document = .ok (document.substitute hit (.literal value)) := by
  obtain ⟨hlength, hunfolds⟩ := unfolds_of_document hdocument
  rw [hcounts.document_eq_ok_iff, hroots, Document.length_substitute]
  refine ⟨hlength, ?_⟩
  intro i root e hroot he
  have hpath : graph.nodeAt? [i] = some root := (graph.nodeAt?_singleton i).trans hroot
  obtain ⟨node, hnode, hid, hoperation⟩ := h.root_mem root (List.mem_of_getElem? hroot)
  have hnot := hrewrites.not_hit_of_operation hpath
    ((lastNode?_eq_some_iff h.nodup_nodes).mpr ⟨hnode, hid⟩) hoperation
  obtain ⟨old, hold, hsame⟩ := Document.getElem?_substitute he hnot
  rw [← hsame]
  exact (hunfolds i root old hroot hold).rewrite h hrewrites hpath

/-! ## Single nodes with other literals -/

theorem WellWired.lastNode?_replaceNode (h : graph.WellWired) {id : String} {node changed : Node α}
    (hnode : graph.node? id = some node) (hserves : Serves node changed) (found : String) :
    (graph.replaceNode id changed).lastNode? found =
      if found = id then some changed else graph.lastNode? found := by
  have hid : changed.id = id := hserves.id_eq.trans (mem_of_node? hnode).2
  have hnodup := (h.replaceNode hnode hserves).nodup_nodes
  split
  · rename_i hfound
    rw [lastNode?_eq_some_iff hnodup, hfound]
    exact ⟨mem_replaceFirst_self hnode, hid⟩
  · rename_i hother
    apply Option.ext
    intro other
    rw [lastNode?_eq_some_iff hnodup, lastNode?_eq_some_iff h.nodup_nodes]
    refine and_congr_left ?_
    rintro rfl
    constructor
    · intro hmem
      exact (mem_replaceFirst hmem).resolve_left fun hsame => hother (hsame ▸ hid)
    · intro hmem
      refine (mem_replaceFirst_of_mem hmem).resolve_right fun hfound => hother ?_
      exact (mem_of_node? hfound.1).2

/-- It is enough to look at the node that is changed, if nothing is hit elsewhere. -/
theorem WellWired.rewrites_replaceNode (h : graph.WellWired) {id : String} {node changed : Node α}
    (hnode : graph.node? id = some node) (hserves : Serves node changed)
    (hhere : ∀ path, graph.nodeAt? path = some id →
      graph.RewritesAt hit value path id node.content changed.content)
    (helsewhere : ∀ path found, graph.nodeAt? path = some found → found ≠ id →
      hit path = false ∧ ∀ i, graph.lastEdgeFrom? found i = none → hit (path ++ [i]) = false) :
    graph.Rewrites (graph.replaceNode id changed) hit value where
  edge := fun _ _ => rfl
  node := by
    intro path found other hpath hother
    rw [h.lastNode?_replaceNode hnode hserves]
    split
    · rename_i hfound
      subst hfound
      have hsame : other = node := Option.some.inj (hother.symm.trans
        ((lastNode?_eq_some_iff h.nodup_nodes).mpr (mem_of_node? hnode)))
      exact ⟨changed, rfl, hsame ▸ hserves.slots_eq, hsame ▸ hhere path hpath⟩
    · rename_i hfound
      obtain ⟨hnot, hpositions⟩ := helsewhere path found hpath hfound
      exact ⟨other, hother, rfl, .of_not_hit hnot hpositions other.content⟩

/-- A position without an edge is not on the path to a node. -/
theorem isArgumentOf_of_nodeAt? {id found : String} {i : Nat} (hedge : graph.edgeFrom? id i = none)
    {path : List Nat} (hpath : graph.nodeAt? path = some found) :
    graph.isArgumentOf id i path = false := by
  by_contra hhit
  rw [Bool.not_eq_false] at hhit
  rcases List.eq_nil_or_concat path with rfl | ⟨before, position, rfl⟩
  · cases hpath
  · rw [List.concat_eq_append] at hpath hhit
    obtain ⟨hbefore, rfl⟩ := isArgumentOf_concat.mp hhit
    rw [nodeAt?_concat graph (ne_nil_of_nodeAt? hbefore), hbefore, Option.bind_some, hedge] at hpath
    cases hpath

theorem WellWired.nodeAt?_of_unplugged (h : graph.WellWired) {id : String} {i : Nat}
    (hedge : graph.lastEdgeFrom? id i = none) {path : List Nat}
    (hpath : graph.nodeAt? path = some id) : graph.nodeAt? (path ++ [i]) = none := by
  rw [nodeAt?_concat graph (ne_nil_of_nodeAt? hpath), hpath, Option.bind_some,
    ← h.lastEdgeFrom?_eq, hedge, Option.map_none]

/-- A literal at a position without an edge is hit by the paths to the position. -/
theorem WellWired.rewrites_inline (h : graph.WellWired) {id : String} {node : Node α}
    (hnode : graph.node? id = some node) {name : String} {inline : List (Option Literal)}
    (hcontent : node.content = .operation name inline) {i : Nat} {old : Literal}
    (hold : inline[i]? = some (some old)) (hedge : graph.edgeFrom? id i = none)
    (value : Literal) :
    graph.Rewrites
      (graph.replaceNode id { node with content := .operation name (inline.set i (some value)) })
      (graph.isArgumentOf id i) value := by
  have hserves : Serves node { node with content := .operation name (inline.set i (some value)) } :=
    ⟨rfl, rfl, by rw [hcontent]; rfl⟩
  apply h.rewrites_replaceNode hnode hserves
  · intro path hpath
    rw [hcontent]
    refine .operation (isArgumentOf_of_nodeAt? hedge hpath) List.length_set ?_
    intro j _
    by_cases hplace : j = i
    · subst hplace
      rw [isArgumentOf_concat.mpr ⟨hpath, rfl⟩, hold,
        List.getElem?_set_self (List.getElem?_eq_some_iff.mp hold).1]
      rfl
    · have hnot : graph.isArgumentOf id i (path ++ [j]) = false := by
        rw [← Bool.not_eq_true, isArgumentOf_concat]
        exact fun hhit => hplace hhit.2
      rw [List.getElem?_set_ne (Ne.symm hplace)]
      simp [hnot]
  · intro path found hpath hfound
    refine ⟨isArgumentOf_of_nodeAt? hedge hpath, ?_⟩
    intro j _
    rw [← Bool.not_eq_true, isArgumentOf_concat, hpath]
    exact fun hhit => hfound (Option.some.inj hhit.1)

/-- The value of a constant is hit by the paths to the constant. -/
theorem WellWired.rewrites_constant (h : graph.WellWired) {id : String} {node : Node α}
    (hnode : graph.node? id = some node) {old : Literal} (hcontent : node.content = .constant old)
    (value : Literal) :
    graph.Rewrites
      (graph.replaceNode id { node with kind := value.kind, content := .constant value })
      (fun path => graph.nodeAt? path == some id) value := by
  have hserves : Serves node { node with kind := value.kind, content := .constant value } :=
    ⟨rfl, rfl, by rw [hcontent]; rfl⟩
  apply h.rewrites_replaceNode hnode hserves
  · intro path hpath
    rw [hcontent]
    exact .of_hit (by rw [hpath, beq_self_eq_true]) id old
  · intro path found hpath hfound
    refine ⟨?_, ?_⟩
    · rw [hpath, beq_eq_false_iff_ne]
      exact fun hsame => hfound (Option.some.inj hsame)
    · intro i hunplugged
      rw [h.nodeAt?_of_unplugged hunplugged hpath]
      rfl

/-! ## Literals at positions -/

/-- Without an edge, an argument is the literal that is written inline. -/
theorem Unfolds.exists_inline {id name : String} {arguments : List Argument}
    (ha : graph.Unfolds id (.nested name arguments)) {i : Nat} (hi : i < arguments.length)
    (hedge : graph.lastEdgeFrom? id i = none) :
    ∃ node inline old, graph.lastNode? id = some node ∧ node.content = .operation name inline ∧
      inline[i]? = some (some old) ∧ arguments[i]? = some (.literal old) := by
  cases ha with
  | @operation _ node _ inline _ hnode hcontent _ _ _ hinline _ =>
      have hargument := List.getElem?_eq_getElem hi
      obtain ⟨old, hold, hsame⟩ := hinline i _ hargument hedge
      exact ⟨node, inline, old, hnode, hcontent, hold, hargument.trans (congrArg some hsame)⟩

end Graph

/-- Where only literals are hit, nothing above a path that is hit is hit. -/
theorem Document.at?_substitute_of_literals {document : Document} {hit : List Nat → Bool}
    (hliterals : ∀ path, hit path = true → ∃ old, document.at? path = some (.literal old))
    {path : List Nat} (hhit : hit path = true) (b : Argument) :
    (document.substitute hit b).at? path = some b := by
  have hroots : ∀ i, hit [i] = false := by
    intro i
    by_contra hroot
    obtain ⟨old, hold⟩ := hliterals [i] (Bool.not_eq_false _ ▸ hroot)
    obtain ⟨e, _, he⟩ := Option.bind_eq_some_iff.mp hold
    cases he
  have habove : ∀ before after, before ++ after = path → after ≠ [] → hit before = false := by
    rintro before after rfl hafter
    by_contra hbefore
    obtain ⟨old, hold⟩ := hliterals before (Bool.not_eq_false _ ▸ hbefore)
    obtain ⟨_, hbelow⟩ := hliterals _ hhit
    rw [Document.at?_append hold] at hbelow
    cases after with
    | nil => exact hafter rfl
    | cons position after => cases hbelow
  obtain ⟨old, hold⟩ := hliterals path hhit
  rw [Document.at?_substitute hroots habove, hold, Option.map_some,
    Argument.substitute_of_hit hhit]

namespace Session

/-- In the next session the literals of the document at the paths that are hit are the value.
Nothing else of the document, no edge and no root has changed. -/
structure Overwrites (session next : Session) (document : Document) (hit : List Nat → Bool)
    (value : Literal) : Prop where
  edges_eq : next.graph.edges = session.graph.edges
  roots_eq : next.graph.roots = session.graph.roots
  document_eq : next.document = .ok (document.substitute hit (.literal value))
  literal : ∀ path, hit path = true → ∃ old, document.at? path = some (.literal old)
  written : ∀ path, hit path = true →
    (document.substitute hit (.literal value)).at? path = some (.literal value)

variable {layout : Layout Float} {session : Session} {document : Document} {value : Literal}

theorem Reached.overwrites (h : session.Reached layout Admits)
    (hdocument : session.document = .ok document) (hfinite : value.isFinite = true) {id : String}
    {index : Nat} {node changed : Node Float} (hnode : session.graph.node? id = some node)
    (hchanged : node.setInline? index (some value) = some changed) {hit : List Nat → Bool}
    (hrewrites : session.graph.Rewrites (session.graph.replaceNode id changed) hit value)
    (hliterals : ∀ path, hit path = true → ∃ old, document.at? path = some (.literal old)) :
    ∃ next, session.apply (.setInlineValue id index (some value)) = (next, .ok ()) ∧
      session.Overwrites next document hit value := by
  obtain ⟨hwired, hmade⟩ := h.graph_wired_made
  have hrun : (EditOp.setInlineValue id index (some value)).run session.layout (session.freshIds 0)
      (session.freshKeys 0) session.graph = .ok (session.graph.replaceNode id changed) := by
    rw [EditOp.run, Graph.setInline, Option.any_some, hfinite, if_neg (by decide), hnode]
    dsimp only
    rw [hchanged]
  obtain ⟨next, hnext, hgraph⟩ := exists_apply session _ hrun
  rw [h.layout_eq] at hrun
  refine ⟨next, hnext, ?_, ?_, ?_, hliterals, ?_⟩
  · rw [hgraph]
    rfl
  · rw [hgraph]
    rfl
  · rw [document_eq_ok, hgraph]
    exact hrewrites.document_eq hwired (hmade.run hrun).countsPlaces rfl
      (document_eq_ok.mp hdocument)
  · intro path hhit
    exact Document.at?_substitute_of_literals hliterals hhit _

/-- A literal at a position without an edge stands behind all paths to the operation. -/
theorem Reached.overwrites_inline (h : session.Reached layout Admits)
    (hdocument : session.document = .ok document) (hfinite : value.isFinite = true)
    {id name : String} {arguments : List Argument}
    (ha : session.graph.Unfolds id (.nested name arguments)) {i : Nat} (hi : i < arguments.length)
    (hedge : session.graph.edgeFrom? id i = none) :
    ∃ next, session.apply (.setInlineValue id i (some value)) = (next, .ok ()) ∧
      session.Overwrites next document (session.graph.isArgumentOf id i) value := by
  have hwired := h.graph_wired
  obtain ⟨node, inline, old, hlast, hcontent, hold, hargument⟩ :=
    ha.exists_inline hi ((hwired.lastEdgeFrom?_eq id i).trans hedge)
  have hnode : session.graph.node? id = some node :=
    (find?_key_eq_some_iff hwired.nodup_nodes).mpr (Graph.mem_of_lastNode? hlast)
  have hchanged : node.setInline? i (some value) =
      some { node with content := .operation name (inline.set i (some value)) } := by
    unfold Node.setInline?
    rw [hcontent]
    dsimp only
    rw [if_pos (List.getElem?_eq_some_iff.mp hold).1]
  refine h.overwrites hdocument hfinite hnode hchanged
    (hwired.rewrites_inline hnode hcontent hold hedge value) ?_
  intro path hhit
  rcases List.eq_nil_or_concat path with rfl | ⟨before, position, rfl⟩
  · cases hhit
  · rw [List.concat_eq_append] at hhit ⊢
    obtain ⟨hbefore, rfl⟩ := Graph.isArgumentOf_concat.mp hhit
    obtain ⟨b, hb, hunfolds⟩ := hwired.exists_at? (document_eq_ok.mp hdocument) hbefore
    rw [hunfolds.unique ha] at hb
    exact ⟨old, (Document.at?_concat (e := ⟨name, arguments⟩) hb position).trans hargument⟩

/-- The value of a constant stands at all paths to the constant. -/
theorem Reached.overwrites_constant (h : session.Reached layout Admits)
    (hdocument : session.document = .ok document) (hfinite : value.isFinite = true)
    {node : Node Float} (hnode : node ∈ session.graph.nodes) {old : Literal}
    (hcontent : node.content = .constant old) :
    ∃ next, session.apply (.setInlineValue node.id 0 (some value)) = (next, .ok ()) ∧
      session.Overwrites next document (fun path => session.graph.nodeAt? path == some node.id)
        value := by
  have hwired := h.graph_wired
  have hfound : session.graph.node? node.id = some node :=
    (find?_key_eq_some_iff hwired.nodup_nodes).mpr ⟨hnode, rfl⟩
  have hchanged : node.setInline? 0 (some value) =
      some { node with kind := value.kind, content := .constant value } := by
    unfold Node.setInline?
    rw [hcontent]
    rfl
  refine h.overwrites hdocument hfinite hfound hchanged
    (hwired.rewrites_constant hfound hcontent value) ?_
  intro path hhit
  obtain ⟨b, hb, hunfolds⟩ := hwired.exists_at? (document_eq_ok.mp hdocument)
    (beq_iff_eq.mp hhit)
  have hliteral : session.graph.Unfolds node.id (.literal old) :=
    .constant ((Graph.lastNode?_eq_some_iff hwired.nodup_nodes).mpr ⟨hnode, rfl⟩) hcontent
  exact ⟨old, hb.trans (congrArg some (hunfolds.unique hliteral))⟩

/-- To write a literal in the graph is to write it in the document: at an argument without an edge
of an operation of the document, behind all paths to the operation, and in a constant, at all paths
to the constant. -/
theorem Reached.setInlineValue_overwrites (h : session.Reached layout Admits)
    (hdocument : session.document = .ok document) (hfinite : value.isFinite = true) :
    (∀ node ∈ session.graph.nodes, node.content.isConstant = false →
      session.graph.Rooted node.id → ∃ e, session.graph.rebuild node.id = .ok e ∧
        ∀ i < e.arguments.length, session.graph.edgeFrom? node.id i = none →
          ∃ next, session.apply (.setInlineValue node.id i (some value)) = (next, .ok ()) ∧
            session.Overwrites next document (session.graph.isArgumentOf node.id i) value) ∧
    ∀ node ∈ session.graph.nodes, node.content.isConstant = true →
      ∃ next, session.apply (.setInlineValue node.id 0 (some value)) = (next, .ok ()) ∧
        session.Overwrites next document (fun path => session.graph.nodeAt? path == some node.id)
          value := by
  obtain ⟨hwired, hmade⟩ := h.graph_wired_made
  constructor
  · intro node hnode hoperation hrooted
    obtain ⟨path, hpath⟩ := hwired.exists_nodeAt? hrooted
    obtain ⟨a, _, ha⟩ := hwired.exists_at? (document_eq_ok.mp hdocument) hpath
    have hfound := (Graph.lastNode?_eq_some_iff hwired.nodup_nodes).mpr ⟨hnode, rfl⟩
    cases a with
    | literal old =>
        cases ha with
        | constant hlast hcontent =>
            rw [Option.some.inj (hfound.symm.trans hlast), hcontent] at hoperation
            cases hoperation
    | nested name arguments =>
        refine ⟨⟨name, arguments⟩, ?_, fun i hi hedge =>
          h.overwrites_inline hdocument hfinite ha hi hedge⟩
        have hroot : ∃ u, session.graph.index.unfoldRoot session.graph.nestingBound node.id [] =
            .ok (⟨name, arguments⟩, u) := hmade.countsPlaces.unfoldRoot_iff.mpr ha
        obtain ⟨u, hu⟩ := hroot
        rw [Graph.rebuild, hu]
        rfl
  · intro node hnode hconstant
    cases hcontent : node.content with
    | constant old => exact h.overwrites_constant hdocument hfinite hnode hcontent
    | operation name inline =>
        rw [hcontent] at hconstant
        cases hconstant

/-- A session with a literal that is written inline and one that is plugged in. -/
def inscribed : Session :=
  spared.perform (.apply (.connect "root.0" 2 "spare"))

/-- Both are written over, each in its own node. -/
theorem inscribed_overwrites :
    inscribed.Reached ⟨Registry.standard, LayoutConfig.standard⟩ Admits ∧
      inscribed.document = .ok
        [⟨"IF", [.nested "and" [], .literal (.text "yes"), .literal (.text "spare")]⟩] ∧
      (Literal.text "new").isFinite = true ∧
      (∃ next, inscribed.apply (.setInlineValue "root.0" 1 (some (.text "new"))) = (next, .ok ()) ∧
        next.document = .ok
          [⟨"IF", [.nested "and" [], .literal (.text "new"), .literal (.text "spare")]⟩]) ∧
      ∃ next, inscribed.apply (.setInlineValue "spare" 0 (some (.text "new"))) = (next, .ok ()) ∧
        next.document = .ok
          [⟨"IF", [.nested "and" [], .literal (.text "yes"), .literal (.text "new")]⟩] := by
  have hreached : inscribed.Reached ⟨Registry.standard, LayoutConfig.standard⟩ Admits :=
    .perform _ reached_spared trivial
  have hdocument : inscribed.document = .ok
      [⟨"IF", [.nested "and" [], .literal (.text "yes"), .literal (.text "spare")]⟩] := rfl
  have hnodes : inscribed.graph.nodes.map (fun node => (node.id, node.content.isConstant)) =
      [("root.0", false), ("root.0.0", false), ("spare", true)] := rfl
  have hnode : ∀ entry ∈ [("root.0", false), ("root.0.0", false), ("spare", true)],
      ∃ node ∈ inscribed.graph.nodes, (node.id, node.content.isConstant) = entry := by
    rw [← hnodes]
    exact fun _ => List.mem_map.mp
  have hrooted : inscribed.graph.Rooted "root.0" :=
    ⟨"root.0", List.mem_singleton.mpr rfl, Relation.ReflTransGen.refl⟩
  have hfinite : (Literal.text "new").isFinite = true := rfl
  obtain ⟨hoperation, hconstant⟩ := Reached.setInlineValue_overwrites hreached hdocument
    hfinite
  refine ⟨hreached, hdocument, hfinite, ?_, ?_⟩
  · obtain ⟨node, hmem, hentry⟩ := hnode ("root.0", false) List.mem_cons_self
    obtain ⟨hid, hkind⟩ := Prod.mk.inj hentry
    obtain ⟨e, he, hpositions⟩ := hoperation node hmem hkind (hid ▸ hrooted)
    rw [hid] at he hpositions
    have hrebuilt : inscribed.graph.rebuild "root.0" = .ok
        ⟨"IF", [.nested "and" [], .literal (.text "yes"), .literal (.text "spare")]⟩ := rfl
    cases hrebuilt.symm.trans he
    obtain ⟨next, hnext, hafter⟩ := hpositions 1 (by decide) rfl
    exact ⟨next, hnext, hafter.document_eq⟩
  · obtain ⟨node, hmem, hentry⟩ := hnode ("spare", true) (by decide)
    obtain ⟨hid, hkind⟩ := Prod.mk.inj hentry
    obtain ⟨next, hnext, hafter⟩ := hconstant node hmem hkind
    rw [hid] at hnext hafter
    exact ⟨next, hnext, hafter.document_eq⟩

end Session

end RuleGraph
