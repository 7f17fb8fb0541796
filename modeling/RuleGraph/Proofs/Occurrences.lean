import RuleGraph.Proofs.RootCycles
import RuleGraph.Proofs.Traces

/-!
# Where nodes stand in a document

A path of the document, the index of a root and then slots, leads along edges to a node. The nodes
that some path leads to are those that the roots lead to, and they are what rebuilding visits; the
keys that it notes are those of the nodes that the paths lead to. A node is met at two paths only
where a root is plugged into a node of the document.
-/

namespace RuleGraph

open Relation

namespace Graph

variable {α : Type} {graph : Graph α}

/-! ## Paths of a document -/

/-- The id of the node that slots lead to from a node, one after another. -/
def descend (graph : Graph α) : String → List Nat → Option String
  | id, [] => some id
  | id, position :: path =>
    match graph.edgeFrom? id position with
    | some edge => graph.descend edge.target path
    | none => none

/-- The id of the node at a path of the document: the index of a root, then slots. -/
def nodeAt? (graph : Graph α) : List Nat → Option String
  | [] => none
  | index :: path => graph.roots[index]?.bind fun root => graph.descend root path

/-- Some root leads to the id. -/
def Rooted (graph : Graph α) (id : String) : Prop :=
  ∃ root ∈ graph.roots, graph.Leads root id

/-- No root is plugged into a node of the document. -/
def RootsApart (graph : Graph α) : Prop :=
  ∀ edge ∈ graph.edges, edge.target ∈ graph.roots → ¬ graph.Rooted edge.source

theorem descend_cons (graph : Graph α) (id : String) (position : Nat) (path : List Nat) :
    graph.descend id (position :: path) =
      (graph.edgeFrom? id position).bind fun edge => graph.descend edge.target path := by
  rw [descend]
  cases graph.edgeFrom? id position <;> rfl

theorem descend_append (graph : Graph α) (id : String) (path rest : List Nat) :
    graph.descend id (path ++ rest) =
      (graph.descend id path).bind fun last => graph.descend last rest := by
  induction path generalizing id with
  | nil => rw [List.nil_append, descend, Option.bind_some]
  | cons first path ih =>
      rw [List.cons_append, descend_cons, descend_cons, Option.bind_assoc]
      exact Option.bind_congr fun edge _ => ih edge.target

theorem descend_singleton (graph : Graph α) (id : String) (position : Nat) :
    graph.descend id [position] = (graph.edgeFrom? id position).map Edge.target := by
  rw [descend_cons]
  cases graph.edgeFrom? id position <;> rfl

theorem nodeAt?_append (graph : Graph α) {path : List Nat} (hpath : path ≠ []) (rest : List Nat) :
    graph.nodeAt? (path ++ rest) =
      (graph.nodeAt? path).bind fun last => graph.descend last rest := by
  cases path with
  | nil => exact absurd rfl hpath
  | cons index path =>
      rw [List.cons_append, nodeAt?, nodeAt?, Option.bind_assoc]
      exact Option.bind_congr fun root _ => descend_append graph root path rest

theorem nodeAt?_concat (graph : Graph α) {path : List Nat} (hpath : path ≠ []) (position : Nat) :
    graph.nodeAt? (path ++ [position]) =
      (graph.nodeAt? path).bind fun parent =>
        (graph.edgeFrom? parent position).map Edge.target := by
  rw [nodeAt?_append graph hpath]
  exact Option.bind_congr fun parent _ => descend_singleton graph parent position

theorem ne_nil_of_nodeAt? {path : List Nat} {id : String} (h : graph.nodeAt? path = some id) :
    path ≠ [] := by
  rintro rfl
  cases h

theorem nodeAt?_singleton (graph : Graph α) (index : Nat) :
    graph.nodeAt? [index] = graph.roots[index]? := by
  rw [nodeAt?]
  cases graph.roots[index]? <;> rfl

theorem WellWired.nodeAt?_target (h : graph.WellWired) {edge : Edge} (hedge : edge ∈ graph.edges)
    {path : List Nat} (hpath : graph.nodeAt? path = some edge.source) :
    graph.nodeAt? (path ++ [edge.slot]) = some edge.target := by
  have hfound : graph.edgeFrom? edge.source edge.slot = some edge :=
    (edgeFrom?_eq_some_iff h.nodup_outlets).mpr ⟨hedge, rfl, rfl⟩
  rw [nodeAt?_concat graph (ne_nil_of_nodeAt? hpath), hpath, Option.bind_some, hfound,
    Option.map_some]

theorem leads_of_descend {id last : String} {path : List Nat}
    (h : graph.descend id path = some last) : graph.Leads id last := by
  induction path generalizing id with
  | nil =>
      cases h
      exact ReflTransGen.refl
  | cons position path ih =>
      rw [descend_cons] at h
      obtain ⟨edge, hedge, hrest⟩ := Option.bind_eq_some_iff.mp h
      obtain ⟨hmem, hsource, _⟩ := mem_of_edgeFrom? hedge
      exact (ih hrest).head ⟨edge, hmem, hsource, rfl⟩

theorem WellWired.exists_descend (h : graph.WellWired) {id last : String}
    (hleads : graph.Leads id last) : ∃ path, graph.descend id path = some last := by
  induction hleads with
  | refl => exact ⟨[], rfl⟩
  | tail _ hstep ih =>
      obtain ⟨edge, hedge, rfl, rfl⟩ := hstep
      obtain ⟨path, hpath⟩ := ih
      have hfound : graph.edgeFrom? edge.source edge.slot = some edge :=
        (edgeFrom?_eq_some_iff h.nodup_outlets).mpr ⟨hedge, rfl, rfl⟩
      refine ⟨path ++ [edge.slot], ?_⟩
      rw [descend_append, hpath, Option.bind_some, descend_singleton, hfound, Option.map_some]

theorem rooted_of_nodeAt? {path : List Nat} {id : String} (h : graph.nodeAt? path = some id) :
    graph.Rooted id := by
  cases path with
  | nil => cases h
  | cons index path =>
      obtain ⟨root, hroot, hdescend⟩ := Option.bind_eq_some_iff.mp h
      exact ⟨root, List.mem_of_getElem? hroot, leads_of_descend hdescend⟩

theorem WellWired.exists_nodeAt? (h : graph.WellWired) {id : String} (hrooted : graph.Rooted id) :
    ∃ path, graph.nodeAt? path = some id := by
  obtain ⟨root, hroot, hleads⟩ := hrooted
  obtain ⟨index, hindex⟩ := List.mem_iff_getElem?.mp hroot
  obtain ⟨path, hpath⟩ := h.exists_descend hleads
  refine ⟨index :: path, ?_⟩
  rw [nodeAt?, hindex, Option.bind_some, hpath]

/-- A path of one index leads to a root. A longer one ends with an edge. -/
theorem nodeAt?_cases {path : List Nat} {id : String} (h : graph.nodeAt? path = some id) :
    (∃ index, path = [index] ∧ graph.roots[index]? = some id) ∨
      ∃ before edge, path = before ++ [edge.slot] ∧ edge ∈ graph.edges ∧ edge.target = id ∧
        graph.nodeAt? before = some edge.source := by
  rcases List.eq_nil_or_concat path with rfl | ⟨before, position, rfl⟩
  · cases h
  · rw [List.concat_eq_append] at h ⊢
    by_cases hbefore : before = []
    · subst hbefore
      obtain ⟨root, hroot, hid⟩ := Option.bind_eq_some_iff.mp h
      cases hid
      exact Or.inl ⟨position, rfl, hroot⟩
    · rw [nodeAt?_concat graph hbefore] at h
      obtain ⟨parent, hparent, hedge⟩ := Option.bind_eq_some_iff.mp h
      obtain ⟨edge, hfound, rfl⟩ := Option.map_eq_some_iff.mp hedge
      obtain ⟨hmem, rfl, rfl⟩ := mem_of_edgeFrom? hfound
      exact Or.inr ⟨before, edge, rfl, hmem, rfl, hparent⟩

/-- Where no root is plugged into a node of the document, each node stands at one path at most. -/
theorem WellWired.nodeAt?_inj (h : graph.WellWired) (hroots : graph.RootsApart) {p q : List Nat}
    {id : String} (hp : graph.nodeAt? p = some id) (hq : graph.nodeAt? q = some id) : p = q := by
  induction hn : p.length generalizing p q id with
  | zero => exact absurd (List.length_eq_zero_iff.mp hn) (ne_nil_of_nodeAt? hp)
  | succ n ih =>
      rcases nodeAt?_cases hp with ⟨i, rfl, hi⟩ | ⟨before, edge, rfl, hedge, rfl, hbefore⟩
      · rcases nodeAt?_cases hq with ⟨j, rfl, hj⟩ | ⟨_, last, rfl, hlast, rfl, hother⟩
        · have hbound := (List.getElem?_eq_some_iff.mp hi).1
          rw [(List.getElem?_inj hbound h.nodup_roots).mp (hi.trans hj.symm)]
        · exact absurd (rooted_of_nodeAt? hother) (hroots last hlast (List.mem_of_getElem? hi))
      · rcases nodeAt?_cases hq with ⟨j, rfl, hj⟩ | ⟨_, last, rfl, hlast, htarget, hother⟩
        · exact absurd (rooted_of_nodeAt? hbefore) (hroots edge hedge (List.mem_of_getElem? hj))
        · have hsame : last = edge := List.inj_on_of_nodup_map h.nodup_targets hlast hedge htarget
          subst hsame
          rw [List.length_append, List.length_singleton] at hn
          rw [ih hbefore hother (by omega)]

/-! ## What rebuilding visits -/

theorem WellWired.lastEdgeFrom?_eq (h : graph.WellWired) (source : String) (slot : Nat) :
    graph.lastEdgeFrom? source slot = graph.edgeFrom? source slot :=
  lastEdgeFrom?_of_nodup h.nodup_outlets source slot

/-- No look-up has several nodes or edges to choose from. -/
theorem WellWired.descend_of_lastBelow? (h : graph.WellWired) {node last : Node α} {path : List Nat}
    (hlast : graph.lastBelow? node path = some last) :
    graph.descend node.id path = some last.id := by
  induction path generalizing node with
  | nil =>
      cases hlast
      rfl
  | cons position path ih =>
      obtain ⟨edge, target, hedge, htarget, hlast⟩ := lastBelow?_cons_eq_some hlast
      rw [descend_cons, ← h.lastEdgeFrom?_eq, hedge, Option.bind_some,
        ← (mem_of_lastNode? htarget).2]
      exact ih hlast

theorem WellWired.nodeAt?_of_lastNodeAt? (h : graph.WellWired) {node : Node α} {path : List Nat}
    (hlast : graph.lastNodeAt? path = some node) : graph.nodeAt? path = some node.id := by
  cases path with
  | nil => cases hlast
  | cons index path =>
      obtain ⟨root, hroot, hlast⟩ := Option.bind_eq_some_iff.mp hlast
      obtain ⟨first, hfirst, hlast⟩ := Option.bind_eq_some_iff.mp hlast
      rw [nodeAt?, hroot, Option.bind_some, ← (mem_of_lastNode? hfirst).2]
      exact h.descend_of_lastBelow? hlast

theorem visited_of_leads (h : graph.WellWired) (fuel : Nat) {above : List String} {path : List Nat}
    {node : Node α} {u : Unfolding} (hnode : node ∈ graph.nodes)
    (hunfold : graph.index.unfold fuel above path node = .ok u) {id : String}
    (hleads : graph.Leads node.id id) : id ∈ u.visited := by
  induction fuel generalizing above path node u with
  | zero => cases hunfold
  | succ fuel ih =>
      rcases ReflTransGen.cases_head hleads with rfl | ⟨_, ⟨edge, hedge, hsource, rfl⟩, hrest⟩
      · exact (mem_unfold_visited _ hunfold).mpr ⟨[], _, node, Argument.at?_nil _, rfl, rfl⟩
      · obtain ⟨_, shorter, target, v, hfuel, htarget, hid, hbelow, hvisited, _⟩ :=
          unfold_plugged h hnode hunfold hedge hsource
        cases hfuel
        exact hvisited (ih htarget hbelow (hid ▸ hrest))

/-- Rebuilding visits all nodes that the roots lead to, and no others. -/
theorem WellWired.visited_iff (h : graph.WellWired) {trace : Trace}
    (htrace : graph.trace = .ok trace) {id : String} : id ∈ trace.visited ↔ graph.Rooted id := by
  constructor
  · intro hid
    obtain ⟨path, _, node, _, hnode, rfl⟩ := (mem_trace_visited htrace).mp hid
    exact rooted_of_nodeAt? (h.nodeAt?_of_lastNodeAt? hnode)
  · intro hrooted
    obtain ⟨found, ⟨hlength, hfound⟩, rfl⟩ := trace_eq_ok.mp htrace
    obtain ⟨root, hroot, hleads⟩ := hrooted
    obtain ⟨i, hi⟩ := List.mem_iff_getElem?.mp hroot
    have hentry := List.getElem?_eq_getElem (hlength ▸ (List.getElem?_eq_some_iff.mp hi).1)
    obtain ⟨node, hnode, hunfold, _⟩ := unfoldRoot_eq_ok.mp (hfound i root _ hi hentry)
    obtain ⟨hmem, rfl⟩ := mem_of_lastNode? hnode
    exact List.mem_flatMap.mpr
      ⟨_, List.mem_of_getElem? hentry, visited_of_leads h _ hmem hunfold hleads⟩

/-! ## The keys that rebuilding notes -/

/-- Each key is that of the node at its path. -/
theorem WellWired.node_of_lookup (h : graph.WellWired) {trace : Trace}
    (htrace : graph.trace = .ok trace) {path : List Nat} {key : Key}
    (hlookup : trace.keys.lookup path = some key) :
    ∃ node ∈ graph.nodes, graph.nodeAt? path = some node.id ∧ node.key = key := by
  obtain ⟨e, he⟩ := (exact_trace htrace).noted_only path key hlookup
  obtain ⟨node, hnode, _, hkey⟩ := (exact_trace htrace).noted path e he
  exact ⟨node, mem_of_lastNodeAt? hnode, h.nodeAt?_of_lastNodeAt? hnode,
    Option.some.inj (hkey.symm.trans hlookup)⟩

theorem mem_keys_of_descend (h : graph.WellWired) (fuel : Nat) {above : List String}
    {path below : List Nat} {node last : Node α} {u : Unfolding} (hnode : node ∈ graph.nodes)
    (hunfold : graph.index.unfold fuel above path node = .ok u) (hlast : last ∈ graph.nodes)
    (hoperation : last.content.isConstant = false)
    (hdescend : graph.descend node.id below = some last.id) :
    (path ++ below, last.key) ∈ u.keys := by
  induction fuel generalizing above path below node u with
  | zero => cases hunfold
  | succ fuel ih =>
      cases below with
      | nil =>
          have hsame : node = last :=
            List.inj_on_of_nodup_map h.nodup_nodes hnode hlast (Option.some.inj hdescend)
          subst hsame
          rw [List.append_nil]
          obtain ⟨name, inline, hcontent⟩ := Node.exists_operation hoperation
          obtain ⟨_, _, _, _, _, _, _, rfl⟩ := (unfold_operation_eq_ok hcontent).mp hunfold
          exact List.mem_cons_self
      | cons position below =>
          rw [descend_cons] at hdescend
          obtain ⟨edge, hedge, hrest⟩ := Option.bind_eq_some_iff.mp hdescend
          obtain ⟨hmem, hsource, rfl⟩ := mem_of_edgeFrom? hedge
          obtain ⟨_, shorter, target, v, hfuel, htarget, hid, hbelow, _, hkeys⟩ :=
            unfold_plugged h hnode hunfold hmem hsource
          cases hfuel
          have hentry := hkeys (ih htarget hbelow (hid ▸ hrest))
          rwa [List.append_assoc, List.singleton_append] at hentry

/-- The key that is noted for the path of an operation is that of the operation. -/
theorem WellWired.lookup_keys (h : graph.WellWired) {trace : Trace}
    (htrace : graph.trace = .ok trace) {path : List Nat} {node : Node α}
    (hnode : node ∈ graph.nodes) (hoperation : node.content.isConstant = false)
    (hpath : graph.nodeAt? path = some node.id) : trace.keys.lookup path = some node.key := by
  have hentry : (path, node.key) ∈ trace.keys := by
    obtain ⟨found, ⟨hlength, hfound⟩, rfl⟩ := trace_eq_ok.mp htrace
    cases path with
    | nil => cases hpath
    | cons index below =>
        obtain ⟨root, hroot, hdescend⟩ := Option.bind_eq_some_iff.mp hpath
        have hwalk := List.getElem?_eq_getElem
          (hlength ▸ (List.getElem?_eq_some_iff.mp hroot).1 : index < found.length)
        obtain ⟨first, hfirst, hunfold, _⟩ := unfoldRoot_eq_ok.mp (hfound index root _ hroot hwalk)
        obtain ⟨hmem, hid⟩ := mem_of_lastNode? hfirst
        rw [← hid] at hdescend
        exact List.mem_flatMap.mpr ⟨_, List.mem_of_getElem? hwalk,
          mem_keys_of_descend h _ hmem hunfold hnode hoperation hdescend⟩
  cases hlookup : trace.keys.lookup path with
  | none =>
      rw [List.lookup_eq_none_iff] at hlookup
      have hother := hlookup _ hentry
      rw [bne_self_eq_false] at hother
      cases hother
  | some key =>
      obtain ⟨other, hother, hat, hkey⟩ := h.node_of_lookup htrace hlookup
      have hsame : other = node :=
        List.inj_on_of_nodup_map h.nodup_nodes hother hnode (Option.some.inj (hat.symm.trans hpath))
      rw [← hkey, hsame]

/-! ## What stands at a path -/

/-- What is plugged into an operation with an unfolding unfolds to its argument there. -/
theorem Unfolds.exists_argument (h : graph.WellWired) {edge : Edge} (hedge : edge ∈ graph.edges)
    {a : Argument} (ha : graph.Unfolds edge.source a) :
    ∃ name arguments b, a = .nested name arguments ∧ arguments[edge.slot]? = some b ∧
      graph.Unfolds edge.target b := by
  have hlast : graph.lastEdgeFrom? edge.source edge.slot = some edge :=
    (lastEdgeFrom?_eq_some_iff h.nodup_outlets).mpr ⟨hedge, rfl, rfl⟩
  obtain ⟨parent, hparent, hid, hoperation, hslot⟩ := h.source_mem edge hedge
  have hfound : graph.lastNode? edge.source = some parent :=
    (lastNode?_eq_some_iff h.nodup_nodes).mpr ⟨hparent, hid⟩
  cases ha with
  | constant hnode hcontent =>
      rw [Option.some.inj (hfound.symm.trans hnode), hcontent] at hoperation
      cases hoperation
  | @operation _ node name inline arguments hnode hcontent _ _ hplugged _ hvacant =>
      have hsame : node = parent := Option.some.inj (hnode.symm.trans hfound)
      subst hsame
      obtain ⟨slot, hslotMem, hindex⟩ := Node.exists_slot hslot
      have hplace := Node.index_lt_places hslotMem inline
      rw [hindex] at hplace
      have hin : edge.slot < arguments.length := by
        by_contra hbeyond
        have hunplugged := (hvacant edge.slot (by omega) hplace).unplugged
        rw [hid, hlast] at hunplugged
        cases hunplugged
      have hargument := List.getElem?_eq_getElem hin
      exact ⟨name, arguments, _, rfl, hargument, hplugged _ _ edge hargument hlast⟩

/-- The document has at a path what the node at the path unfolds to. -/
theorem WellWired.exists_at? (h : graph.WellWired) {document : Document}
    (hdocument : graph.document = .ok document) {path : List Nat} {id : String}
    (hpath : graph.nodeAt? path = some id) :
    ∃ a, document.at? path = some a ∧ graph.Unfolds id a := by
  obtain ⟨hlength, hunfolds⟩ := unfolds_of_document hdocument
  induction hn : path.length generalizing path id with
  | zero => exact absurd (List.length_eq_zero_iff.mp hn) (ne_nil_of_nodeAt? hpath)
  | succ n ih =>
      rcases nodeAt?_cases hpath with ⟨i, rfl, hi⟩ | ⟨before, edge, rfl, hedge, rfl, hbefore⟩
      · have he := List.getElem?_eq_getElem (hlength.symm ▸ (List.getElem?_eq_some_iff.mp hi).1)
        refine ⟨_, ?_, hunfolds i id _ hi he⟩
        rw [Document.at?, he, Option.bind_some, Argument.at?_nil]
      · rw [List.length_append, List.length_singleton] at hn
        obtain ⟨a, ha, hsource⟩ := ih hbefore (by omega)
        obtain ⟨name, arguments, b, rfl, hb, htarget⟩ := hsource.exists_argument h hedge
        refine ⟨b, ?_, htarget⟩
        rw [Document.at?_concat (e := ⟨name, arguments⟩) ha]
        exact hb

/-- A node with an unfolding leads to no deeper one. -/
theorem Unfolds.exists_depth_le (h : graph.WellWired) {id last : String} {a : Argument}
    (ha : graph.Unfolds id a) (hleads : graph.Leads id last) :
    ∃ b, graph.Unfolds last b ∧ b.depth ≤ a.depth := by
  induction hleads with
  | refl => exact ⟨a, ha, Nat.le_refl _⟩
  | tail _ hstep ih =>
      obtain ⟨edge, hedge, rfl, rfl⟩ := hstep
      obtain ⟨b, hb, hle⟩ := ih
      obtain ⟨name, arguments, c, rfl, hargument, hc⟩ := hb.exists_argument h hedge
      have hlt : c.depth < (Argument.nested name arguments).depth :=
        Argument.depth_lt_of_getElem? hargument
      exact ⟨c, hc, by omega⟩

/-- What is plugged into a node with an unfolding does not lead back to the node. -/
theorem Unfolds.not_leads (h : graph.WellWired) {edge : Edge} (hedge : edge ∈ graph.edges)
    {a : Argument} (ha : graph.Unfolds edge.source a) : ¬ graph.Leads edge.target edge.source := by
  intro hback
  obtain ⟨name, arguments, b, rfl, hargument, hb⟩ := ha.exists_argument h hedge
  obtain ⟨c, hc, hle⟩ := hb.exists_depth_le h hback
  rw [hc.unique ha] at hle
  have hlt : b.depth < (Argument.nested name arguments).depth :=
    Argument.depth_lt_of_getElem? hargument
  omega

end Graph

end RuleGraph
