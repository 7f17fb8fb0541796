import Mathlib.Data.List.Forall2
import RuleGraph.Proofs.Edits
import RuleGraph.Proofs.Relayouts
import RuleGraph.Proofs.Runs

/-!
# The log explains the graph

Edits look at ids, slots, contents and edges, and never at keys: graphs that differ in the keys of
some nodes are edited alike (`Graph.Rekeyed.run`). While a session is asked for nothing but edits
and undos, the edits of its log, carried out again from the graph that was loaded, therefore lead to
the graph that it shows, and the beginnings of the log to the earlier graphs.
-/

namespace RuleGraph

/-! ## Nodes under other keys -/

/-- The nodes are equal, or differ in nothing but their keys, which are of two kinds. -/
def Node.Rekeyed {α : Type} (P Q : Key → Prop) (a b : Node α) : Prop :=
  a = b ∨ P a.key ∧ Q b.key ∧ a = { b with key := a.key }

/-- The graphs are equal but for the keys of some nodes, which are of two kinds. -/
structure Graph.Rekeyed {α : Type} (P Q : Key → Prop) (a b : Graph α) : Prop where
  nodes : List.Forall₂ (Node.Rekeyed P Q) a.nodes b.nodes
  edges_eq : a.edges = b.edges
  roots_eq : a.roots = b.roots

/-- Both answers are the same refusal, or both are granted and related. -/
inductive Alike {ε β : Type} (R : β → β → Prop) : Except ε β → Except ε β → Prop
  | ok {x y : β} (h : R x y) : Alike R (.ok x) (.ok y)
  | error (e : ε) : Alike R (.error e) (.error e)

theorem find?_of_forall₂ {β : Type} {R : β → β → Prop} {p : β → Bool} {xs ys : List β}
    (h : List.Forall₂ R xs ys) (hp : ∀ x y, R x y → p x = p y) :
    Option.Rel R (xs.find? p) (ys.find? p) := by
  induction h with
  | nil => exact .none
  | @cons x y xs ys hxy _ ih =>
      rw [List.find?_cons, List.find?_cons, hp x y hxy]
      cases p y with
      | true => exact .some hxy
      | false => exact ih

theorem replaceFirst_of_forall₂ {β : Type} {R : β → β → Prop} {p : β → Bool} {x y : β}
    {xs ys : List β} (h : List.Forall₂ R xs ys) (hp : ∀ x y, R x y → p x = p y) (hxy : R x y) :
    List.Forall₂ R (replaceFirst p x xs) (replaceFirst p y ys) := by
  induction h with
  | nil => exact .nil
  | @cons first other xs ys hfirst hrest ih =>
      rw [replaceFirst, replaceFirst, hp first other hfirst]
      split
      · exact .cons hxy hrest
      · exact .cons hfirst ih

namespace Node.Rekeyed

variable {α : Type} {P Q : Key → Prop} {a b : Node α}

theorem refl (a : Node α) : a.Rekeyed P Q a :=
  Or.inl rfl

theorem exists_key (h : a.Rekeyed P Q b) : ∃ key, a = { b with key } := by
  rcases h with rfl | ⟨_, _, h⟩
  · exact ⟨a.key, rfl⟩
  · exact ⟨a.key, h⟩

theorem id_eq (h : a.Rekeyed P Q b) : a.id = b.id := by
  obtain ⟨key, rfl⟩ := h.exists_key
  rfl

theorem content_eq (h : a.Rekeyed P Q b) : a.content = b.content := by
  obtain ⟨key, rfl⟩ := h.exists_key
  rfl

theorem slot?_eq (h : a.Rekeyed P Q b) (index : Nat) : a.slot? index = b.slot? index := by
  obtain ⟨key, rfl⟩ := h.exists_key
  rfl

theorem inlineError_eq (h : a.Rekeyed P Q b) (index : Nat) :
    a.inlineError index = b.inlineError index := by
  obtain ⟨key, rfl⟩ := h.exists_key
  rfl

theorem move (h : a.Rekeyed P Q b) (position : Position α) :
    Node.Rekeyed P Q { a with position } { b with position } := by
  rcases h with rfl | ⟨ha, hb, h⟩
  · exact refl _
  · exact Or.inr ⟨ha, hb, by rw [h]⟩

theorem setInline?_key (node : Node α) (key : Key) (index : Nat) (value : Option Literal) :
    Node.setInline? { node with key } index value =
      (node.setInline? index value).map fun changed => { changed with key } := by
  have hslot : slot? { node with key } index = node.slot? index := rfl
  unfold Node.setInline?
  rw [hslot]
  dsimp only
  split
  · split
    · rfl
    · split <;> rfl
  · split <;> rfl
  · rfl

theorem setInline? (h : a.Rekeyed P Q b) (index : Nat) (value : Option Literal) :
    Option.Rel (Node.Rekeyed P Q) (a.setInline? index value) (b.setInline? index value) := by
  rcases h with rfl | ⟨ha, hb, h⟩
  · cases a.setInline? index value with
    | none => exact .none
    | some changed => exact .some (refl changed)
  · rw [h, setInline?_key]
    cases hchanged : b.setInline? index value with
    | none => exact .none
    | some changed =>
        obtain ⟨kind, content, rfl, _⟩ := Node.setInline?_eq_some hchanged
        exact .some (Or.inr ⟨ha, hb, rfl⟩)

end Node.Rekeyed

/-! ## Edits -/

namespace Graph.Rekeyed

variable {α : Type} {P Q : Key → Prop} {a b : Graph α}

theorem refl (a : Graph α) : a.Rekeyed P Q a :=
  ⟨List.forall₂_same.mpr fun node _ => .refl node, rfl, rfl⟩

theorem node? (h : a.Rekeyed P Q b) (id : String) :
    Option.Rel (Node.Rekeyed P Q) (a.node? id) (b.node? id) :=
  find?_of_forall₂ h.nodes fun _ _ hnode => by rw [hnode.id_eq]

theorem isNone_node? (h : a.Rekeyed P Q b) (id : String) :
    (a.node? id).isNone = (b.node? id).isNone := by
  have hnode := h.node? id
  generalize a.node? id = x at hnode ⊢
  generalize b.node? id = y at hnode ⊢
  cases hnode <;> rfl

theorem replaceNode (h : a.Rekeyed P Q b) {id : String} {x y : Node α} (hnode : x.Rekeyed P Q y) :
    (a.replaceNode id x).Rekeyed P Q (b.replaceNode id y) :=
  ⟨replaceFirst_of_forall₂ h.nodes (fun _ _ hother => by rw [hother.id_eq]) hnode, h.edges_eq,
    h.roots_eq⟩

theorem isSome_node? (h : a.Rekeyed P Q b) (id : String) :
    (a.node? id).isSome = (b.node? id).isSome := by
  rw [← Option.not_isNone, ← Option.not_isNone, h.isNone_node?]

/-- What is asked of a node that is found, or refused if there is none, is answered alike. -/
theorem answer {ε : Type} (h : a.Rekeyed P Q b) (id : String) (e : ε)
    {f g : Node α → Except ε (Graph α)}
    (hfg : ∀ x y, x.Rekeyed P Q y → Alike (Graph.Rekeyed P Q) (f x) (g y)) :
    Alike (Graph.Rekeyed P Q)
      (match a.node? id with
        | none => .error e
        | some node => f node)
      (match b.node? id with
        | none => .error e
        | some node => g node) := by
  have hnode := h.node? id
  generalize a.node? id = x at hnode ⊢
  generalize b.node? id = y at hnode ⊢
  cases hnode with
  | none => exact .error e
  | some hxy => exact hfg _ _ hxy

theorem edgeFrom?_eq (h : a.Rekeyed P Q b) (source : String) (slot : Nat) :
    a.edgeFrom? source slot = b.edgeFrom? source slot := by
  rw [edgeFrom?, edgeFrom?, h.edges_eq]

theorem incoming?_eq (h : a.Rekeyed P Q b) (target : String) :
    a.incoming? target = b.incoming? target := by
  rw [incoming?, incoming?, h.edges_eq]

theorem below_eq (h : a.Rekeyed P Q b) (id : String) : a.below id = b.below id := by
  rw [below, below, h.edges_eq]

theorem plug (h : a.Rekeyed P Q b) (source target : String) (slot : Nat) :
    (a.plug source slot target).Rekeyed P Q (b.plug source slot target) := by
  refine ⟨h.nodes, ?_, ?_⟩
  · simp only [Graph.plug, h.edges_eq]
  · have hreaches : a.reaches target source = b.reaches target source := by
      rw [reaches, reaches, h.edges_eq]
    rw [Graph.plug, Graph.plug]
    dsimp only
    rw [hreaches, h.roots_eq]

theorem without (h : a.Rekeyed P Q b) (removed : List String) :
    (a.without removed).Rekeyed P Q (b.without removed) := by
  refine ⟨List.rel_filter ?_ h.nodes, ?_, ?_⟩
  · intro x y hxy
    dsimp only
    rw [hxy.id_eq]
  · simp only [Graph.without, h.edges_eq]
  · simp only [Graph.without, h.roots_eq]

theorem connect (h : a.Rekeyed P Q b) (source target : String) (slot : Nat) :
    Alike (Graph.Rekeyed P Q) (a.connect source slot target) (b.connect source slot target) := by
  refine h.answer source _ fun x y hxy => ?_
  have htarget := h.isNone_node? target
  rw [htarget, hxy.slot?_eq, h.edgeFrom?_eq, h.incoming?_eq]
  split
  · exact .error _
  · split
    · exact .error _
    · split
      · exact .error _
      · split
        · exact .error _
        · exact .ok (h.plug source target slot)

theorem deleteNode (h : a.Rekeyed P Q b) (id : String) :
    Alike (Graph.Rekeyed P Q) (a.deleteNode id) (b.deleteNode id) := by
  refine h.answer id _ fun x y _ => ?_
  rw [h.below_eq]
  exact .ok (h.without _)

theorem addNode (h : a.Rekeyed P Q b) {x y : Node α} (hnode : x.Rekeyed P Q y) :
    Alike (Graph.Rekeyed P Q) (a.addNode x) (b.addNode y) := by
  unfold Graph.addNode
  rw [hnode.id_eq, h.isSome_node?, hnode.content_eq]
  split
  · exact .error _
  · split
    · exact .error _
    · exact .ok ⟨List.rel_append h.nodes (.cons hnode .nil), h.edges_eq, h.roots_eq⟩

theorem moveNode (h : a.Rekeyed P Q b) (id : String) (position : Position α) :
    Alike (Graph.Rekeyed P Q) (a.moveNode id position) (b.moveNode id position) :=
  h.answer id _ fun _ _ hxy => .ok (h.replaceNode (hxy.move position))

theorem setInline (h : a.Rekeyed P Q b) (id : String) (index : Nat) (value : Option Literal) :
    Alike (Graph.Rekeyed P Q) (a.setInline id index value) (b.setInline id index value) := by
  unfold Graph.setInline
  split
  · exact .error _
  · refine h.answer id _ fun x y hxy => ?_
    rw [hxy.inlineError_eq]
    have hchanged := hxy.setInline? index value
    generalize x.setInline? index value = c at hchanged ⊢
    generalize y.setInline? index value = d at hchanged ⊢
    cases hchanged with
    | none => exact .error _
    | some hcd => exact .ok (h.replaceNode hcd)

theorem addRoot (h : a.Rekeyed P Q b) (id : String) :
    Alike (Graph.Rekeyed P Q) (a.addRoot id) (b.addRoot id) := by
  refine h.answer id _ fun x y hxy => ?_
  rw [hxy.content_eq, h.incoming?_eq, isRoot, isRoot, h.roots_eq]
  split
  · exact .error _
  · split
    · exact .error _
    · split
      · exact .ok h
      · exact .ok ⟨h.nodes, h.edges_eq, rfl⟩

end Graph.Rekeyed

def EditOp.GivesId : EditOp → Prop
  | .addNode _ _ id => id.isSome = true
  | .addOperationNode _ _ id => id.isSome = true
  | .addConstantNode _ _ id => id.isSome = true
  | _ => True

theorem Node.ofKind_rekeyed {P Q : Key → Prop} {key other : Key} (hkey : P key) (hother : Q other)
    (layout : Layout Float) (id : String) (kind : NodeKind) (position : Position Float) :
    Node.Rekeyed P Q (Node.ofKind layout.registry layout.config id key kind position)
      (Node.ofKind layout.registry layout.config id other kind position) := by
  cases kind <;> exact Or.inr ⟨hkey, hother, rfl⟩

/-- Graphs that differ in keys are edited alike, new nodes being given ids but different keys. -/
theorem Graph.Rekeyed.run {P Q : Key → Prop} {a b : Graph Float} (h : a.Rekeyed P Q b)
    {op : EditOp} (hgives : op.GivesId) {key other : Key} (hkey : P key) (hother : Q other)
    (layout : Layout Float) (id otherId : String) :
    Alike (Graph.Rekeyed P Q) (op.run layout id key a) (op.run layout otherId other b) := by
  cases op with
  | connect source slot target => exact h.connect source target slot
  | disconnect edge =>
      refine .ok ⟨h.nodes, ?_, h.roots_eq⟩
      simp only [disconnect, h.edges_eq]
  | deleteNode node => exact h.deleteNode node
  | addNode kind position given =>
      obtain ⟨name, rfl⟩ := Option.isSome_iff_exists.mp hgives
      exact h.addNode (Node.ofKind_rekeyed hkey hother layout name kind position)
  | addOperationNode name position given =>
      obtain ⟨name, rfl⟩ := Option.isSome_iff_exists.mp hgives
      exact h.addNode (Or.inr ⟨hkey, hother, rfl⟩)
  | addConstantNode value position given =>
      obtain ⟨name, rfl⟩ := Option.isSome_iff_exists.mp hgives
      exact h.addNode (Or.inr ⟨hkey, hother, rfl⟩)
  | moveNode node position => exact h.moveNode node position
  | setInlineValue node index value => exact h.setInline node index value
  | addRoot node => exact h.addRoot node
  | removeRoot node =>
      refine .ok ⟨h.nodes, h.edges_eq, ?_⟩
      simp only [removeRoot, h.roots_eq]

/-- Carries out edits one after another. A new node takes the id and the key for the place of its
edit in the list, if it is given no id. -/
def EditOp.replay (layout : Layout Float) (ids : Nat → String) (keys : Nat → Key)
    (graph : Graph Float) (ops : List EditOp) : Except EditError (Graph Float) :=
  ops.zipIdx.foldlM (fun graph entry => entry.1.run layout (ids entry.2) (keys entry.2) graph) graph

theorem EditOp.replay_concat (layout : Layout Float) (ids : Nat → String) (keys : Nat → Key)
    (graph : Graph Float) (ops : List EditOp) (op : EditOp) :
    replay layout ids keys graph (ops ++ [op]) =
      replay layout ids keys graph ops >>= op.run layout (ids ops.length) (keys ops.length) := by
  rw [replay, List.zipIdx_append, List.foldlM_append]
  simp only [List.zipIdx_singleton, List.foldlM_cons, List.foldlM_nil, bind_pure, Nat.zero_add]
  rfl

namespace Session

variable {loaded session next : Session}

/-- Nothing was changed since the document was loaded. -/
structure Untouched (session : Session) : Prop where
  history_eq : session.history = []
  log_eq : session.log = []

/-- The sessions that edits and undos, granted or refused, lead to from another one. -/
inductive Driven (loaded : Session) : Session → Prop
  | refl : Driven loaded loaded
  | applied {session : Session} (op : EditOp) (h : Driven loaded session) (hgives : op.GivesId) :
      Driven loaded (session.perform (.apply op))
  | undone {session : Session} (h : Driven loaded session) : Driven loaded (session.perform .undo)

/-- The edits lead from the graph of the loaded session to the graph, up to the keys of nodes that
were added since. -/
def Explains (loaded : Session) (ids : Nat → String) (keys : Nat → Key) (ops : List EditOp)
    (graph : Graph Float) : Prop :=
  ∃ found, EditOp.replay loaded.layout ids keys loaded.graph ops = .ok found ∧
    found.Rekeyed (fun key => ∃ n, key = keys n)
      (fun key => ∃ n, loaded.keysDrawn ≤ n ∧ key = loaded.supply.keys n) graph

/-- The log explains the graph, and its beginnings explain the earlier graphs. -/
structure LogExplains (loaded : Session) (ids : Nat → String) (keys : Nat → Key)
    (session : Session) : Prop where
  succeeds : ∃ count, loaded.Succeeds session count
  current : loaded.Explains ids keys session.log session.graph
  earlier : ∀ entry ∈ session.history, entry.2 ≤ session.log.length ∧
    loaded.Explains ids keys (session.log.take entry.2) entry.1
  sorted : session.history.Pairwise fun later earlier => earlier.2 ≤ later.2

theorem apply_ok {op : EditOp} (h : session.apply op = (next, .ok ())) :
    ∃ graph, op.run session.layout (session.freshIds 0) (session.freshKeys 0) session.graph =
        .ok graph ∧ session.Succeeds next 1 ∧ next.graph = graph ∧
      next.history = (session.graph, session.log.length) :: session.history ∧
      next.log = session.log ++ [op] := by
  unfold apply at h
  split at h
  · cases h
  · rename_i graph hrun
    cases h
    exact ⟨graph, hrun, ⟨rfl, rfl, rfl⟩, rfl, rfl, rfl⟩

theorem undo_ok (h : session.undo = (next, .ok ())) :
    ∃ graph edits, session.history = (graph, edits) :: next.history ∧ session.Succeeds next 0 ∧
      next.graph = graph ∧ next.log = session.log.take edits := by
  unfold undo at h
  split at h
  · cases h
  · rename_i graph edits history hhistory
    cases h
    exact ⟨graph, edits, hhistory, ⟨rfl, rfl, rfl⟩, rfl, rfl⟩

namespace LogExplains

variable {ids : Nat → String} {keys : Nat → Key}

theorem apply (h : loaded.LogExplains ids keys session) {op : EditOp} (hgives : op.GivesId)
    (hcall : session.apply op = (next, .ok ())) : loaded.LogExplains ids keys next := by
  obtain ⟨graph, hrun, hnext, hgraph, hhistory, hlog⟩ := apply_ok hcall
  obtain ⟨count, hcount⟩ := h.succeeds
  obtain ⟨found, hfound, hsame⟩ := h.current
  have hrecorded : ∃ n, keys session.log.length = keys n := ⟨_, rfl⟩
  have hgenerated : ∃ n, loaded.keysDrawn ≤ n ∧ session.freshKeys 0 = loaded.supply.keys n := by
    refine ⟨session.keysDrawn, ?_, ?_⟩
    · rw [hcount.keysDrawn_eq]
      exact Nat.le_add_right _ _
    · rw [← hcount.supply_eq]
      rfl
  have hagain := hsame.run hgives hrecorded hgenerated session.layout (ids session.log.length)
    (session.freshIds 0)
  rw [hrun] at hagain
  generalize hreplayed : op.run session.layout (ids session.log.length) (keys session.log.length)
    found = answer at hagain
  cases hagain with
  | ok hgranted =>
      rename_i again
      refine ⟨⟨count + 1, ?_⟩, ?_, ?_, ?_⟩
      · exact ⟨hnext.layout_eq.trans hcount.layout_eq, hnext.supply_eq.trans hcount.supply_eq,
          by rw [hnext.keysDrawn_eq, hcount.keysDrawn_eq, Nat.add_assoc]⟩
      · refine ⟨again, ?_, hgraph ▸ hgranted⟩
        rw [hlog, EditOp.replay_concat, hfound, ← hcount.layout_eq]
        exact hreplayed
      · rw [hhistory, hlog, List.forall_mem_cons, List.length_append, List.take_left]
        refine ⟨⟨Nat.le_add_right _ _, h.current⟩, ?_⟩
        intro entry hentry
        obtain ⟨hle, hexplains⟩ := h.earlier entry hentry
        rw [List.take_append_of_le_length hle]
        exact ⟨Nat.le_trans hle (Nat.le_add_right _ _), hexplains⟩
      · rw [hhistory, List.pairwise_cons]
        exact ⟨fun entry hentry => (h.earlier entry hentry).1, h.sorted⟩

/-- The log is cut to what it was, and so are its beginnings for the graphs before. -/
theorem undo (h : loaded.LogExplains ids keys session) (hcall : session.undo = (next, .ok ())) :
    loaded.LogExplains ids keys next := by
  obtain ⟨graph, edits, hhistory, hnext, hgraph, hlog⟩ := undo_ok hcall
  obtain ⟨count, hcount⟩ := h.succeeds
  have hearlier := h.earlier
  have hsorted := h.sorted
  rw [hhistory, List.forall_mem_cons] at hearlier
  rw [hhistory, List.pairwise_cons] at hsorted
  obtain ⟨⟨hedits, hcurrent⟩, hrest⟩ := hearlier
  refine ⟨⟨count, ?_⟩, ?_, ?_, hsorted.2⟩
  · exact ⟨hnext.layout_eq.trans hcount.layout_eq, hnext.supply_eq.trans hcount.supply_eq,
      hnext.keysDrawn_eq.trans hcount.keysDrawn_eq⟩
  · rw [hgraph, hlog]
    exact hcurrent
  · intro entry hentry
    have hle := hsorted.1 entry hentry
    rw [hlog, List.length_take, Nat.min_eq_left hedits, List.take_take, Nat.min_eq_left hle]
    exact ⟨hle, (hrest entry hentry).2⟩

theorem refl (h : loaded.Untouched) (ids : Nat → String) (keys : Nat → Key) :
    loaded.LogExplains ids keys loaded := by
  refine ⟨⟨0, rfl, rfl, rfl⟩, ⟨loaded.graph, ?_, .refl _⟩, ?_, ?_⟩
  · rw [h.log_eq]
    rfl
  · rw [h.history_eq]
    exact fun entry hentry => absurd hentry List.not_mem_nil
  · rw [h.history_eq]
    exact .nil

end LogExplains

theorem Driven.logExplains (hloaded : loaded.Untouched) (h : Driven loaded session)
    (ids : Nat → String) (keys : Nat → Key) : loaded.LogExplains ids keys session := by
  induction h with
  | refl => exact .refl hloaded ids keys
  | @applied session op _ hgives ih =>
      rcases session.perform_eq_or_granted (.apply op) with hsame | hcall
      · rw [hsame]
        exact ih
      · exact ih.apply hgives hcall
  | @undone session _ ih =>
      rcases session.perform_eq_or_granted .undo with hsame | hcall
      · rw [hsame]
        exact ih
      · exact ih.undo hcall

/-- While a session that was just loaded is asked for edits and undos only, and new nodes are given
ids, its log leads from the graph that was loaded to the graph that it shows, whatever keys the new
nodes take; and as many edits of the log as are noted for an earlier graph lead to that graph. -/
theorem Driven.log_replays (hloaded : loaded.Untouched) (h : Driven loaded session)
    (ids : Nat → String) (keys : Nat → Key) :
    loaded.Explains ids keys session.log session.graph ∧
      ∀ entry ∈ session.history, entry.2 ≤ session.log.length ∧
        loaded.Explains ids keys (session.log.take entry.2) entry.1 :=
  have hexplains := h.logExplains hloaded ids keys
  ⟨hexplains.current, hexplains.earlier⟩

/-- A session in which a constant was added and plugged in, which was taken back, and a literal was
written in its place; a last edit was refused. -/
def reworded : Session :=
  let loaded := (start numberedSupply ⟨Registry.standard, LayoutConfig.standard⟩).loadDocument
    [⟨"IF", []⟩]
  let added := loaded.perform (.apply (.addConstantNode (.text "x") ⟨0.0, 0.0⟩ (some "x")))
  let unplugged := (added.perform (.apply (.connect "root.0" 2 "x"))).perform .undo
  (unplugged.perform (.apply (.setInlineValue "root.0" 0 (some (.text "x"))))).perform
    (.apply (.connect "root.0" 9 "x"))

/-- The two edits that stand are carried out again, the new node under another key. -/
theorem reworded_log_replays :
    let loaded := (start numberedSupply ⟨Registry.standard, LayoutConfig.standard⟩).loadDocument
      [⟨"IF", []⟩]
    loaded.Untouched ∧ Driven loaded reworded ∧
      (reworded.log.length, reworded.history.map Prod.snd) = (2, [1, 0]) ∧
      reworded.graph.nodes.map Node.key = [Key.ofNat 1, Key.ofNat 2] ∧
      loaded.Explains (fun _ => "") (fun _ => Key.ofNat 7) reworded.log reworded.graph ∧
      ∀ entry ∈ reworded.history, loaded.Explains (fun _ => "") (fun _ => Key.ofNat 7)
        (reworded.log.take entry.2) entry.1 := by
  intro loaded
  have hloaded : loaded.Untouched := ⟨rfl, rfl⟩
  have hadded : Driven loaded _ := .applied (.addConstantNode (.text "x") ⟨0.0, 0.0⟩ (some "x"))
    .refl rfl
  have hunplugged := (hadded.applied (.connect "root.0" 2 "x") trivial).undone
  have hreworded : Driven loaded reworded :=
    (hunplugged.applied (.setInlineValue "root.0" 0 (some (.text "x"))) trivial).applied
      (.connect "root.0" 9 "x") trivial
  obtain ⟨hcurrent, hearlier⟩ :=
    hreworded.log_replays hloaded (fun _ => "") (fun _ => Key.ofNat 7)
  exact ⟨hloaded, hreworded, rfl, rfl, hcurrent, fun entry hentry => (hearlier entry hentry).2⟩

end Session

end RuleGraph
