import RuleGraph.Proofs.Redrawing
import RuleGraph.Proofs.Spelling

/-!
# Keys

New nodes take the next keys of the supply, and nothing compares keys. That no two nodes of a graph
have the same key rests on two facts: a key that is drawn is new to all graphs of the session, and a
relayout takes each key from one node to one node. The second fails where a root is plugged into a
node of the document: the root is drawn at two paths, both times under its key.
-/

namespace RuleGraph

def Supply.DiffersTo (supply : Supply) (count : Nat) : Prop :=
  ∀ m n, m < count → n < count → supply.keys m = supply.keys n → m = n

theorem Supply.DiffersTo.mono {supply : Supply} {m n : Nat} (h : supply.DiffersTo n) (hle : m ≤ n) :
    supply.DiffersTo m :=
  fun i j hi hj => h i j (Nat.lt_of_lt_of_le hi hle) (Nat.lt_of_lt_of_le hj hle)

theorem Key.bigEndian_inj {width m n : Nat} (hm : m < 256 ^ width) (hn : n < 256 ^ width)
    (h : bigEndian width m = bigEndian width n) : m = n := by
  induction width generalizing m n with
  | zero =>
      rw [Nat.pow_zero] at hm hn
      omega
  | succ width ih =>
      rw [Nat.pow_succ] at hm hn
      rw [bigEndian, bigEndian] at h
      obtain ⟨hhigh, hlow⟩ := List.append_inj' h rfl
      have hquotient : m / 256 = n / 256 := ih (by omega) (by omega) hhigh
      have hremainder := congrArg UInt8.toNat (List.cons.inj hlow).1
      rw [UInt8.toNat_ofNat', UInt8.toNat_ofNat'] at hremainder
      omega

/-- Keys by number are all different, as long as sixteen bytes hold the numbers. -/
theorem Session.differs_numbered {count : Nat} (h : count ≤ 256 ^ 16) :
    Session.numberedSupply.DiffersTo count := by
  intro m n hm hn heq
  exact Key.bigEndian_inj (by omega) (by omega) (congrArg Key.bytes heq)

namespace Graph

section

variable {α : Type} {graph next : Graph α} {supply : Supply} {spent : Nat}

def keys (graph : Graph α) : List Key :=
  graph.nodes.map Node.key

/-- Every key of the graph is one of the first of the supply, and no two nodes have the same. -/
structure Keyed (graph : Graph α) (supply : Supply) (spent : Nat) : Prop where
  drawn : ∀ key ∈ graph.keys, ∃ n < spent, supply.keys n = key
  nodup : graph.keys.Nodup

theorem Keyed.mono (h : graph.Keyed supply spent) {more : Nat} (hle : spent ≤ more) :
    graph.Keyed supply more where
  drawn := by
    intro key hkey
    obtain ⟨n, hn, hsame⟩ := h.drawn key hkey
    exact ⟨n, Nat.lt_of_lt_of_le hn hle, hsame⟩
  nodup := h.nodup

theorem Keyed.of_sublist (h : graph.Keyed supply spent) (hkeys : next.keys.Sublist graph.keys) :
    next.Keyed supply spent where
  drawn := fun key hkey => h.drawn key (hkeys.subset hkey)
  nodup := h.nodup.sublist hkeys

/-! ## Drawings -/

theorem keys_document [Scalar α] (layout : Layout α) (keys : Nat → Key) (document : Document) :
    (layout.document keys document).keys =
      (List.range (layout.document keys document).nodes.length).map keys := by
  by_cases hempty : document = []
  · subst hempty
    rfl
  · rw [Layout.document_of_ne_nil hempty, Graph.keys, Layout.length_nodes, Layout.nodes,
      List.map_map, List.range_eq_range', ← List.zipIdx_map_snd, List.map_map]
    rfl

theorem keyed_document [Scalar α] {layout : Layout α} {document : Document}
    (hgraph : layout.document (fun n => supply.keys (spent + n)) document = graph)
    (hdiffers : supply.DiffersTo (spent + graph.nodes.length)) :
    graph.Keyed supply (spent + graph.nodes.length) := by
  have hkeys : graph.keys =
      (List.range graph.nodes.length).map fun n => supply.keys (spent + n) := by
    rw [← hgraph]
    exact keys_document layout _ document
  refine ⟨?_, ?_⟩
  · intro key hkey
    rw [hkeys] at hkey
    obtain ⟨n, hn, rfl⟩ := List.mem_map.mp hkey
    have hlt := List.mem_range.mp hn
    exact ⟨spent + n, by omega, rfl⟩
  · rw [hkeys]
    refine List.Nodup.map_on ?_ List.nodup_range
    intro m hm n hn heq
    rw [List.mem_range] at hm hn
    have hplace := hdiffers (spent + m) (spent + n) (by omega) (by omega) heq
    omega

/-! ## Edits -/

theorem Keyed.replaceNode (h : graph.Keyed supply spent) {id : String} {node changed : Node α}
    (hnode : graph.node? id = some node) (hkey : changed.key = node.key) :
    (graph.replaceNode id changed).Keyed supply spent := by
  apply h.of_sublist
  rw [keys, Graph.replaceNode, map_replaceFirst]
  · exact List.Sublist.refl _
  · intro entry hentry
    rw [hkey, Option.some.inj (hnode.symm.trans hentry)]

theorem Keyed.addNode (h : graph.Keyed supply spent) (hdiffers : supply.DiffersTo (spent + 1))
    {node : Node α} (hkey : node.key = supply.keys spent) (hadd : graph.addNode node = .ok next) :
    next.Keyed supply (spent + 1) := by
  obtain ⟨_, _, rfl⟩ := addNode_eq_ok hadd
  have hkeys : Graph.keys { graph with nodes := graph.nodes ++ [node] } =
      graph.keys ++ [supply.keys spent] := by
    rw [keys, List.map_append, List.map_singleton, hkey]
    rfl
  refine ⟨?_, ?_⟩
  · intro key hmem
    rw [hkeys, List.mem_append, List.mem_singleton] at hmem
    rcases hmem with hold | rfl
    · exact (h.mono (Nat.le_succ spent)).drawn key hold
    · exact ⟨spent, Nat.lt_succ_self spent, rfl⟩
  · rw [hkeys]
    refine List.Nodup.append h.nodup (List.nodup_singleton _) ?_
    intro key hold hnew
    obtain ⟨n, hn, hsame⟩ := h.drawn key hold
    have hplace := hdiffers n spent (by omega) (by omega)
      (hsame.trans (List.mem_singleton.mp hnew))
    omega

/-- Every granted edit keeps the keys apart. -/
theorem Keyed.run {graph next : Graph Float} (h : graph.Keyed supply spent)
    (hdiffers : supply.DiffersTo (spent + 1)) {layout : Layout Float} {freshId : String}
    {op : EditOp} (hrun : op.run layout freshId (supply.keys spent) graph = .ok next) :
    next.Keyed supply (spent + 1) := by
  have hmore := h.mono (Nat.le_succ spent)
  cases op with
  | connect source slot target =>
      obtain ⟨_, _, _, _, _, _, rfl⟩ := connect_eq_ok hrun
      exact hmore.of_sublist (List.Sublist.refl _)
  | disconnect edge =>
      cases hrun
      exact hmore.of_sublist (List.Sublist.refl _)
  | deleteNode id =>
      obtain ⟨_, _, rfl⟩ := deleteNode_eq_ok hrun
      exact hmore.of_sublist (List.filter_sublist.map _)
  | addNode kind position id =>
      refine h.addNode hdiffers ?_ hrun
      cases kind <;> rfl
  | addOperationNode name position id => exact h.addNode hdiffers rfl hrun
  | addConstantNode value position id => exact h.addNode hdiffers rfl hrun
  | moveNode id position =>
      obtain ⟨node, hnode, rfl⟩ := moveNode_eq_ok hrun
      exact hmore.replaceNode hnode rfl
  | setInlineValue id index value =>
      obtain ⟨node, changed, hnode, _, hchanged, rfl⟩ := setInline_eq_ok hrun
      obtain ⟨kind, content, rfl, _⟩ := Node.setInline?_eq_some hchanged
      exact hmore.replaceNode hnode rfl
  | addRoot id =>
      obtain ⟨_, _, _, _, rfl⟩ := addRoot_eq_ok hrun
      split
      · exact hmore
      · exact hmore.of_sublist (List.Sublist.refl _)
  | removeRoot id =>
      cases hrun
      exact hmore.of_sublist (List.Sublist.refl _)

/-! ## Relayouts -/

/-- A drawn node keeps the key that it is drawn with, or takes that of the node at its path. -/
theorem carryKey_cases (h : graph.WellWired) {trace : Trace} (htrace : graph.trace = .ok trace)
    {node : Node α} {path : List Nat} (hid : node.id = idOfPath path) :
    (carryKey trace.keys node).key = node.key ∨
      ∃ old ∈ graph.nodes, graph.nodeAt? path = some old.id ∧
        (carryKey trace.keys node).key = old.key := by
  unfold carryKey
  split
  · exact Or.inl rfl
  · rename_i found hfound
    split
    · rename_i key hkey
      rw [hid] at hfound
      rw [eq_of_pathOfId hfound] at hkey
      obtain ⟨old, hold, hpath, hsame⟩ := h.node_of_lookup htrace hkey
      exact Or.inr ⟨old, hold, hpath, hsame.symm⟩
    · exact Or.inl rfl

section

variable [Scalar α] {layout : Layout α} {document : Document}

theorem drawn_key {node : Node α}
    (hnode : node ∈ (layout.document (fun n => supply.keys (spent + n)) document).nodes) :
    ∃ n < (layout.document (fun n => supply.keys (spent + n)) document).nodes.length,
      supply.keys (spent + n) = node.key := by
  have hkey := List.mem_map_of_mem (f := Node.key) hnode
  change node.key ∈ Graph.keys _ at hkey
  rw [keys_document] at hkey
  obtain ⟨n, hn, hsame⟩ := List.mem_map.mp hkey
  exact ⟨n, List.mem_range.mp hn, hsame⟩

/-- The key that a node is drawn with is on no older node. -/
theorem Keyed.key_ne_drawn (h : graph.Keyed supply spent)
    (hdiffers : supply.DiffersTo
      (spent + (layout.document (fun n => supply.keys (spent + n)) document).nodes.length))
    {old node : Node α} (hold : old ∈ graph.nodes)
    (hnode : node ∈ (layout.document (fun n => supply.keys (spent + n)) document).nodes) :
    old.key ≠ node.key := by
  intro heq
  obtain ⟨m, hm, hold⟩ := h.drawn old.key (List.mem_map_of_mem hold)
  obtain ⟨n, hn, hnew⟩ := drawn_key hnode
  have hplace := hdiffers m (spent + n) (by omega) (by omega) (hold.trans (heq.trans hnew.symm))
  omega

theorem Keyed.nodup_redrawn (h : graph.Keyed supply spent) (hwired : graph.WellWired)
    (happart : graph.RootsApart) {trace : Trace} (htrace : graph.trace = .ok trace)
    (hdiffers : supply.DiffersTo (spent +
      (layout.document (fun n => supply.keys (spent + n)) trace.expressions).nodes.length)) :
    (redrawn layout (fun n => supply.keys (spent + n)) trace).keys.Nodup := by
  have hids := layout.nodup_ids_document (fun n => supply.keys (spent + n)) trace.expressions
  have hfresh := (keyed_document rfl hdiffers).nodup
  rw [keys, redrawn, carryKeys, List.map_map]
  refine List.Nodup.map_on ?_ hids.of_map
  intro x hx y hy heq
  obtain ⟨p, hp⟩ := Layout.exists_path_of_mem_nodes_document hx
  obtain ⟨q, hq⟩ := Layout.exists_path_of_mem_nodes_document hy
  change (carryKey trace.keys x).key = (carryKey trace.keys y).key at heq
  rcases carryKey_cases hwired htrace hp with hnewX | ⟨a, ha, hpathA, hkeyA⟩
  · rcases carryKey_cases hwired htrace hq with hnewY | ⟨b, hb, _, hkeyB⟩
    · exact List.inj_on_of_nodup_map hfresh hx hy (hnewX.symm.trans (heq.trans hnewY))
    · exact absurd (hkeyB.symm.trans (heq.symm.trans hnewX)) (h.key_ne_drawn hdiffers hb hx)
  · rcases carryKey_cases hwired htrace hq with hnewY | ⟨b, hb, hpathB, hkeyB⟩
    · exact absurd (hkeyA.symm.trans (heq.trans hnewY)) (h.key_ne_drawn hdiffers ha hy)
    · -- both keys come from one node, and that stands at one path
      have hsame : a = b :=
        List.inj_on_of_nodup_map h.nodup ha hb (hkeyA.symm.trans (heq.trans hkeyB))
      subst hsame
      have hpaths : p = q := hwired.nodeAt?_inj happart hpathA hpathB
      exact List.inj_on_of_nodup_map hids hx hy (by rw [hp, hq, hpaths])

/-- A relayout keeps the keys apart, unless a root is plugged into a node of the document. -/
theorem Keyed.relaid (h : graph.Keyed supply spent) (hwired : graph.WellWired)
    (happart : graph.RootsApart) {trace : Trace} (htrace : graph.trace = .ok trace)
    {ids : Nat → String}
    (hnext : graph.relaid layout (fun n => supply.keys (spent + n)) ids trace = next)
    (hdiffers : supply.DiffersTo (spent + next.nodes.length)) :
    next.Keyed supply (spent + next.nodes.length) := by
  have hkeys : next.keys = (redrawn layout (fun n => supply.keys (spent + n)) trace).keys ++
      (graph.detached trace.visited).map Node.key := by
    rw [← hnext, relaid_eq hwired, keys, beside, List.map_append, keys, moved, renameIds,
      List.map_map]
    rfl
  have hlength : (layout.document (fun n => supply.keys (spent + n)) trace.expressions).nodes.length
      ≤ next.nodes.length := by
    rw [← hnext, Graph.relaid, List.length_append, List.length_map]
    exact Nat.le_add_right _ _
  have hdrawn := hdiffers.mono (Nat.add_le_add_left hlength spent)
  have hkept : ((graph.detached trace.visited).map Node.key).Sublist graph.keys :=
    List.filter_sublist.map _
  refine ⟨?_, ?_⟩
  · intro key hkey
    rw [hkeys, List.mem_append] at hkey
    have hold : key ∈ graph.keys → ∃ n < spent + next.nodes.length, supply.keys n = key :=
      (h.mono (Nat.le_add_right _ _)).drawn key
    rcases hkey with hredrawn | hdetached
    · obtain ⟨_, hcarried, rfl⟩ := List.mem_map.mp hredrawn
      obtain ⟨node, hnode, rfl⟩ := List.mem_map.mp hcarried
      obtain ⟨path, hid⟩ := Layout.exists_path_of_mem_nodes_document hnode
      rcases carryKey_cases hwired htrace hid with hnew | ⟨old, hmem, _, hsame⟩
      · obtain ⟨n, hn, hkey⟩ := drawn_key hnode
        exact ⟨spent + n, by omega, hkey.trans hnew.symm⟩
      · exact hold (hsame ▸ List.mem_map_of_mem hmem)
    · exact hold (hkept.subset hdetached)
  · rw [hkeys]
    refine List.Nodup.append (h.nodup_redrawn hwired happart htrace hdrawn)
      (h.nodup.sublist hkept) ?_
    intro key hredrawn hdetached
    obtain ⟨_, hcarried, rfl⟩ := List.mem_map.mp hredrawn
    obtain ⟨node, hnode, rfl⟩ := List.mem_map.mp hcarried
    obtain ⟨kept, hmem, hkey⟩ := List.mem_map.mp hdetached
    obtain ⟨hkeptMem, hunvisited⟩ := List.mem_filter.mp hmem
    obtain ⟨path, hid⟩ := Layout.exists_path_of_mem_nodes_document hnode
    rcases carryKey_cases hwired htrace hid with hnew | ⟨old, hold, hpath, hsame⟩
    · exact h.key_ne_drawn hdrawn hkeptMem hnode (hkey.trans hnew)
    · have heq : kept = old :=
        List.inj_on_of_nodup_map h.nodup hkeptMem hold (hkey.trans hsame)
      subst heq
      have hvisited := (hwired.visited_iff htrace).mpr (rooted_of_nodeAt? hpath)
      rw [isDetached, List.contains_iff_mem.mpr hvisited] at hunvisited
      cases hunvisited

/-- Words hold the positions of all nodes of the document. -/
def PathsInWords (graph : Graph α) : Prop :=
  ∀ path id, graph.nodeAt? path = some id → ∀ position ∈ path, position < UInt64.size

/-- An operation is drawn again at each of its paths, under its key. -/
theorem WellWired.exists_redrawn (h : graph.WellWired) (hshort : graph.PathsInWords) {trace : Trace}
    (htrace : graph.trace = .ok trace) (keys : Nat → Key) {node : Node α}
    (hnode : node ∈ graph.nodes) (hoperation : node.content.isConstant = false) {path : List Nat}
    (hpath : graph.nodeAt? path = some node.id) :
    ∃ other ∈ (redrawn layout keys trace).nodes,
      other.id = idOfPath path ∧ other.key = node.key := by
  have hdocument : graph.document = .ok trace.expressions :=
    document_eq_ok_iff_trace.mpr ⟨trace, htrace, rfl⟩
  obtain ⟨a, hat, hunfolds⟩ := h.exists_at? hdocument hpath
  have hexpression : ∃ e, a = .ofExpression e := by
    cases hunfolds with
    | constant hfound hcontent =>
        have hself := (lastNode?_eq_some_iff h.nodup_nodes).mpr ⟨hnode, rfl⟩
        rw [Option.some.inj (hself.symm.trans hfound), hcontent] at hoperation
        cases hoperation
    | @operation _ _ name _ arguments _ _ _ _ _ _ _ => exact ⟨⟨name, arguments⟩, rfl⟩
  obtain ⟨e, rfl⟩ := hexpression
  obtain ⟨drawn, hdrawn, key, position, rfl⟩ := layout.exists_mem_nodes_document keys hat
  refine ⟨_, List.mem_map_of_mem hdrawn, (serves_carryKey trace.keys _).id_eq, ?_⟩
  rw [carryKey]
  dsimp only [Node.ofExpression]
  rw [pathOfId_idOfPath (hshort path _ hpath)]
  dsimp only
  rw [h.lookup_keys htrace hnode hoperation hpath]

/-- A root that is plugged into a node of the document is drawn twice under its key. -/
theorem WellWired.not_nodup_relaid (h : graph.WellWired) (hshort : graph.PathsInWords)
    (hplugged : ¬ graph.RootsApart) {trace : Trace} (htrace : graph.trace = .ok trace)
    (keys : Nat → Key) (ids : Nat → String) :
    ¬ (graph.relaid layout keys ids trace).keys.Nodup := by
  intro hnodup
  rw [relaid_eq h, Graph.keys, Graph.beside, List.map_append] at hnodup
  have hredrawn := hnodup.sublist (List.sublist_append_left _ _)
  apply hplugged
  intro edge hedge hroot hrooted
  obtain ⟨root, hmem, hid, hoperation⟩ := h.root_mem edge.target hroot
  obtain ⟨index, hindex⟩ := List.mem_iff_getElem?.mp hroot
  obtain ⟨path, hpath⟩ := h.exists_nodeAt? hrooted
  rw [← hid, ← nodeAt?_singleton] at hindex
  have hbelow := h.nodeAt?_target hedge hpath
  rw [← hid] at hbelow
  obtain ⟨first, hfirst, hfirstId, hfirstKey⟩ :=
    h.exists_redrawn hshort htrace keys hmem hoperation hindex
  obtain ⟨second, hsecond, hsecondId, hsecondKey⟩ :=
    h.exists_redrawn hshort htrace keys hmem hoperation hbelow
  have hsame : first = second :=
    List.inj_on_of_nodup_map hredrawn hfirst hsecond (hfirstKey.trans hsecondKey.symm)
  rw [← hsame, hfirstId, idOfPath_inj] at hsecondId
  have hlength := congrArg List.length hsecondId
  have hne := List.length_pos_iff.mpr (ne_nil_of_nodeAt? hpath)
  rw [List.length_append, List.length_singleton, List.length_singleton] at hlength
  omega

end

end

end Graph

namespace Session

/-- The request lays a document out again of which a root is an argument too. -/
def Repeats (session : Session) : Request → Prop
  | .relayout =>
    (∃ document, session.document = .ok document) ∧ ¬ session.graph.RootsApart
  | _ => False

/-- Admitted requests that draw no root twice. -/
def KeepsKeys (session : Session) (request : Request) : Prop :=
  session.Admits request ∧ ¬ session.Repeats request

variable {layout : Layout Float} {session : Session}

/-- While no cycle through a root is uncoiled, no root is drawn twice. -/
theorem Reached.keepsKeys (h : session.Reached layout KeepsCycles) :
    session.Reached layout KeepsKeys := by
  induction h with
  | start supply => exact .start supply
  | opened hopen => exact .opened hopen
  | @perform session request hreached hkeeps ih =>
      refine .perform request ih ⟨hkeeps.1, ?_⟩
      intro hrepeats
      unfold Repeats at hrepeats
      split at hrepeats
      · obtain ⟨⟨document, hdocument⟩, hplugged⟩ := hrepeats
        apply hplugged
        intro edge hedge hroot _
        obtain ⟨hwired, hclosed⟩ := hreached.wired_closed session.graph List.mem_cons_self
        obtain ⟨error, herror⟩ := Graph.document_error_of_cycle hwired hroot hedge rfl
          (hclosed _ hroot edge hedge rfl)
        rw [document_eq_ok, herror] at hdocument
        cases hdocument
      · exact hrepeats

theorem Reached.keyed (h : session.Reached layout KeepsKeys)
    (hdiffers : session.supply.DiffersTo session.keysDrawn) :
    ∀ graph ∈ session.graphs, graph.Keyed session.supply session.keysDrawn := by
  have hadmits : ∀ session request, KeepsKeys session request → session.Admits request :=
    fun _ _ hkeeps => hkeeps.1
  have hkeyed := h.forall_drawn (P := fun supply spent graph =>
    supply.DiffersTo spent → graph.Keyed supply spent) ?_
    (fun session bytes => hadmits session (.restore bytes)) ?_ ?_ ?_
  · exact fun graph hgraph => hkeyed graph hgraph hdiffers
  · intro supply m n graph hle hgraph hdiffers
    exact (hgraph (hdiffers.mono hle)).mono hle
  · intro supply spent document graph hgraph hdiffers
    exact Graph.keyed_document hgraph hdiffers
  · intro session op graph _ _ hgraph hrun hdiffers
    exact (hgraph (hdiffers.mono (Nat.le_succ _))).run hdiffers hrun
  · intro session trace graph hreached hkeeps hgraph htrace hrelaid hdiffers
    have hwired := (hreached.mono hadmits).graph_wired
    have hdocument : session.document = .ok trace.expressions :=
      document_eq_ok.mpr (Graph.document_eq_ok_iff_trace.mpr ⟨trace, htrace, rfl⟩)
    have happart : session.graph.RootsApart := by
      by_contra hplugged
      exact hkeeps.2 ⟨⟨_, hdocument⟩, hplugged⟩
    exact (hgraph (hdiffers.mono (Nat.le_add_right _ _))).relaid hwired happart htrace hrelaid
      hdiffers

theorem not_nodup_keys_relayout (h : session.Reached layout Admits)
    (hshort : session.graph.PathsInWords) (hrepeats : session.Repeats .relayout) :
    ¬ ((session.perform .relayout).graph.nodes.map Node.key).Nodup := by
  obtain ⟨next, hnext⟩ := exists_relayout_iff.mpr hrepeats.1
  obtain ⟨trace, htrace, hgraph⟩ := relayout_graph hnext
  rw [perform_of_ok .relayout hnext, hgraph]
  exact h.graph_wired.not_nodup_relaid hshort hrepeats.2 htrace _ _

/-- As long as all keys that were drawn are different and no relayout draws a root twice, no two
nodes of a graph have the same key. A relayout that does draw a root twice makes this fail. -/
theorem Reached.nodup_keys (h : session.Reached layout KeepsKeys)
    (hdiffers : session.supply.DiffersTo session.keysDrawn) :
    (∀ graph ∈ session.graphs, (graph.nodes.map Node.key).Nodup) ∧
      (session.graph.PathsInWords → session.Repeats .relayout →
        ¬ ((session.perform .relayout).graph.nodes.map Node.key).Nodup) := by
  refine ⟨fun graph hgraph => (h.keyed hdiffers graph hgraph).nodup, ?_⟩
  exact not_nodup_keys_relayout (h.mono fun _ _ hkeeps => hkeeps.1)

/-- A relayout that moves a node out of the way, and carries a key over. -/
theorem displaced_nodup_keys :
    let relaid := displaced.perform .relayout
    relaid.Reached ⟨Registry.standard, LayoutConfig.standard⟩ KeepsKeys ∧
      relaid.supply.DiffersTo relaid.keysDrawn ∧
      relaid.graph.keys = [Key.ofNat 2, Key.ofNat 1] ∧
      ∀ graph ∈ relaid.graphs, (graph.nodes.map Node.key).Nodup := by
  intro relaid
  have hstart : displaced.Reached ⟨Registry.standard, LayoutConfig.standard⟩ KeepsKeys :=
    .perform _ (.perform _ (.start numberedSupply) ⟨trivial, fun hrepeats => hrepeats⟩)
      ⟨trivial, fun hrepeats => hrepeats⟩
  have hedges : displaced.graph.edges = [] := rfl
  have hreached : relaid.Reached ⟨Registry.standard, LayoutConfig.standard⟩ KeepsKeys := by
    refine .perform .relayout hstart ⟨fresh_displaced, ?_⟩
    intro hrepeats
    apply hrepeats.2
    intro edge hedge
    rw [hedges] at hedge
    cases hedge
  have hdiffers : relaid.supply.DiffersTo relaid.keysDrawn := differs_numbered (by decide)
  exact ⟨hreached, hdiffers, rfl, (Reached.nodup_keys hreached hdiffers).1⟩

/-- The session of which a cycle was uncoiled, laid out again with both operations at top level. -/
def doubled : Session :=
  ((coiled.perform (.apply (.disconnect "root.0-0"))).perform (.apply (.addRoot "root.1"))).perform
    .relayout

/-- The root that is an argument of another operation is drawn twice, under one key. -/
theorem doubled_keys :
    doubled.Reached ⟨Registry.standard, LayoutConfig.standard⟩ Admits ∧
      doubled.supply.DiffersTo doubled.keysDrawn ∧
      doubled.graph.nodes.map Node.id = ["root.0", "root.1", "root.1.0"] ∧
      doubled.graph.keys = [Key.ofNat 1, Key.ofNat 2, Key.ofNat 1] ∧
      ¬ (doubled.graph.nodes.map Node.key).Nodup := by
  have hcoiled := reached_coiled.mono fun _ _ hkeeps => hkeeps.1
  have hbefore := Reached.perform (.apply (.addRoot "root.1"))
    (Reached.perform (.apply (.disconnect "root.0-0")) hcoiled trivial) trivial
  have hfresh : (((coiled.perform (.apply (.disconnect "root.0-0"))).perform
      (.apply (.addRoot "root.1"))).Admits .relayout) := by
    refine fresh_numbered _ rfl ?_
    intro node hnode
    have hdrawn : node ∈ ((⟨Registry.standard, LayoutConfig.standard⟩ : Layout Float).document
        (fun n => Key.ofNat (1 + n)) [⟨"IF", []⟩, ⟨"IF", []⟩]).nodes := hnode
    exact Layout.exists_path_of_mem_nodes_document hdrawn
  have hkeys : doubled.graph.keys = [Key.ofNat 1, Key.ofNat 2, Key.ofNat 1] := rfl
  refine ⟨hbefore.perform .relayout hfresh, differs_numbered (by decide), rfl, hkeys, ?_⟩
  change ¬ doubled.graph.keys.Nodup
  rw [hkeys]
  decide

end Session

end RuleGraph
