import RuleGraph.Proofs.Redrawing
import RuleGraph.Proofs.Writing

/-!
# What is saved is opened again

No number that cannot be written enters a graph: values are read as finite numbers, and edits are
checked for the literals that they bring in. What a graph without such numbers is rebuilt to can be
written, and a session that opens what is written shows it. Nothing is assumed of fresh ids: a graph
that is no longer well wired has finite literals all the same.
-/

namespace RuleGraph

/-! ## Finite contents -/

theorem Content.nonFinite?_constant {value : Literal} :
    (Content.constant value).nonFinite? = none ↔ value.isFinite = true := by
  simp [nonFinite?]

theorem Content.nonFinite?_operation {name : String} {inline : List (Option Literal)} :
    (Content.operation name inline).nonFinite? = none ↔
      ∀ value, some value ∈ inline → value.isFinite = true := by
  simp only [nonFinite?, List.findIdx?_eq_none_iff]
  constructor
  · intro h value hvalue
    simpa using h _ hvalue
  · intro h entry hentry
    cases entry with
    | none => rfl
    | some value => simpa using h value hentry

theorem mem_resized {β : Type} {length : Nat} {entries : List (Option β)} {x : β}
    (h : some x ∈ resized length entries) : some x ∈ entries := by
  rcases List.mem_append.mp h with hkept | hfilled
  · exact List.mem_of_mem_take hkept
  · simp at hfilled

theorem Node.nonFinite?_setInline? {α : Type} {node changed : Node α} {index : Nat}
    {value : Option Literal} (hnode : node.content.nonFinite? = none)
    (hvalue : (value.any fun v => !v.isFinite) = false)
    (hchanged : node.setInline? index value = some changed) :
    changed.content.nonFinite? = none := by
  have hset : ∀ inline : List (Option Literal), (∀ v, some v ∈ inline → v.isFinite = true) →
      ∀ v, some v ∈ inline.set index value → v.isFinite = true := by
    intro inline hinline v hv
    rcases List.mem_or_eq_of_mem_set hv with hold | hnew
    · exact hinline v hold
    · simpa [← hnew] using hvalue
  cases hcontent : node.content with
  | constant old =>
      obtain ⟨new, rfl, _, rfl⟩ := setInline?_constant hcontent hchanged
      exact Content.nonFinite?_constant.mpr (by simpa using hvalue)
  | operation name inline =>
      rw [hcontent, Content.nonFinite?_operation] at hnode
      obtain ⟨written, rfl, ⟨_, rfl⟩ | ⟨_, _, _, rfl⟩⟩ :=
        setInline?_operation hcontent hchanged
      · exact Content.nonFinite?_operation.mpr (hset inline hnode)
      · exact Content.nonFinite?_operation.mpr (hset _ fun v hv => hnode v (mem_resized hv))

/-! ## Finite graphs -/

theorem Argument.Writable.at? {a b : Argument} {path : List Nat} (h : a.Writable)
    (hat : a.at? path = some b) : b.Writable := by
  induction path generalizing a with
  | nil =>
      rw [Argument.at?_nil, Option.some.injEq] at hat
      exact hat ▸ h
  | cons position path ih =>
      cases a with
      | literal value => cases hat
      | nested name arguments =>
          rw [Argument.at?_nested_cons, Option.bind_eq_some_iff] at hat
          obtain ⟨argument, hargument, hb⟩ := hat
          exact ih ((Argument.writable_nested.mp h).2 argument (List.mem_of_getElem? hargument)) hb

theorem Document.Writable.at? {document : Document} {b : Argument} {path : List Nat}
    (h : document.Writable) (hat : document.at? path = some b) : b.Writable := by
  cases path with
  | nil => cases hat
  | cons index path =>
      rw [Document.at?, Option.bind_eq_some_iff] at hat
      obtain ⟨e, he, hb⟩ := hat
      exact (Document.writable_iff.mp h e (List.mem_of_getElem? he)).at? hb

namespace Graph

variable {graph next : Graph Float}

def AllFinite (graph : Graph Float) : Prop :=
  ∀ node ∈ graph.nodes, node.content.nonFinite? = none

theorem allFinite_document (layout : Layout Float) (keys : Nat → Key) {document : Document}
    (h : document.Writable) : (layout.document keys document).AllFinite := by
  intro node hnode
  by_cases hempty : document = []
  · subst hempty
    rw [List.mem_singleton.mp hnode]
    rfl
  · obtain ⟨path, e, hat, key, position, rfl⟩ := Layout.mem_nodes_document hempty hnode
    have hwritable : (Argument.nested e.name e.arguments).Writable := h.at? hat
    refine Content.nonFinite?_operation.mpr fun value hvalue => ?_
    obtain ⟨a, ha, hliteral⟩ := List.mem_map.mp hvalue
    have hargument := (Argument.writable_nested.mp hwritable).2 a ha
    cases a with
    | literal found =>
        cases hliteral
        exact Argument.writable_literal.mp hargument
    | nested name arguments => cases hliteral

/-- Edits are checked for the literals that they bring in. -/
theorem AllFinite.run (h : graph.AllFinite) {layout : Layout Float} {freshId : String}
    {freshKey : Key} {op : EditOp} (hrun : op.run layout freshId freshKey graph = .ok next) :
    next.AllFinite :=
  forall_nodes_run h (fun _ _ hfinite => hfinite) (fun _ _ hnode => hnode)
    (fun _ _ _ _ hnode hvalue hchanged => Node.nonFinite?_setInline? hnode hvalue hchanged) hrun

theorem AllFinite.relaid (h : graph.AllFinite) (layout : Layout Float) (keys : Nat → Key)
    (ids : Nat → String) {trace : Trace} (htrace : trace.expressions.Writable) :
    (graph.relaid layout keys ids trace).AllFinite :=
  forall_nodes_relaid h (allFinite_document layout keys htrace) (fun _ _ hnode => hnode)
    fun _ _ _ hnode => hnode

/-! ## Rebuilding -/

theorem AllFinite.writable_unfold (h : graph.AllFinite) {fuel : Nat} {above : List String}
    {path : List Nat} {node : Node Float} {u : Unfolding} (hnode : node ∈ graph.nodes)
    (hunfold : graph.index.unfold fuel above path node = .ok u) : u.argument.Writable := by
  induction fuel generalizing above path node u with
  | zero => cases hunfold
  | succ fuel ih =>
      have hfinite := h node hnode
      cases hcontent : node.content with
      | constant value =>
          rw [unfold_constant fuel above path hcontent] at hunfold
          cases hunfold
          rw [hcontent, Content.nonFinite?_constant] at hfinite
          exact Argument.writable_literal.mpr hfinite
      | operation name inline =>
          rw [hcontent, Content.nonFinite?_operation] at hfinite
          obtain ⟨_, hname, _, filled, _, hfilled, _, rfl⟩ :=
            (unfold_operation_eq_ok hcontent).mp hunfold
          refine Argument.writable_nested.mpr ⟨hname, ?_⟩
          intro a ha
          obtain ⟨v, hv, rfl⟩ := List.mem_map.mp ha
          obtain ⟨i, hi⟩ := List.mem_iff_getElem?.mp hv
          rcases fillPosition_eq_some.mp (hfilled i v hi) with
            ⟨edge, target, _, htarget, hbelow⟩ | ⟨_, value, hvalue, rfl⟩
          · exact ih (mem_of_lastNode? htarget).1 hbelow
          · exact Argument.writable_literal.mpr (hfinite value (List.mem_of_getElem? hvalue))

theorem AllFinite.writable_trace (h : graph.AllFinite) {trace : Trace}
    (htrace : graph.trace = .ok trace) : trace.expressions.Writable := by
  obtain ⟨found, ⟨hlength, hfound⟩, rfl⟩ := trace_eq_ok.mp htrace
  refine Document.writable_iff.mpr fun e he => ?_
  obtain ⟨⟨_, u⟩, hentry, rfl⟩ := List.mem_map.mp he
  obtain ⟨i, hi⟩ := List.mem_iff_getElem?.mp hentry
  have hroot := List.getElem?_eq_getElem (hlength ▸ (List.getElem?_eq_some_iff.mp hi).1)
  obtain ⟨node, hnode, hunfold, hargument⟩ := unfoldRoot_eq_ok.mp (hfound i _ _ hroot hi)
  rw [← hargument]
  exact h.writable_unfold (mem_of_lastNode? hnode).1 hunfold

end Graph

/-! ## Sessions -/

namespace Session

/-- The request brings finite values or a document that can be written, and no graph from
elsewhere. -/
def Request.Feeds : Request → Prop
  | .load v => v.Finite
  | .loadUnder _ v => v.Finite
  | .loadDocument document => document.Writable
  | .restore _ => False
  | _ => True

/-- The sessions that finite values and edits lead to. -/
inductive Fed : Session → Prop
  | start (supply : Supply) (layout : Layout Float) : Fed (start supply layout)
  | opened {supply : Supply} {layout : Layout Float} {v : Json} {session : Session}
      (hv : v.Finite) (h : openOn supply layout v = .ok session) : Fed session
  | perform {session : Session} (request : Request) (h : Fed session) (hfeeds : request.Feeds) :
      Fed (session.perform request)

def AllFinite (session : Session) : Prop :=
  ∀ graph ∈ session.graphs, graph.AllFinite

variable {session next : Session}

theorem allFinite_loadDocument {document : Document} (h : document.Writable) :
    (session.loadDocument document).AllFinite := by
  intro graph hgraph
  rw [List.mem_singleton.mp hgraph]
  exact Graph.allFinite_document _ _ h

theorem AllFinite.call (h : session.AllFinite) {request : Request} (hfeeds : request.Feeds)
    (hcall : session.call request = (next, .ok ())) : next.AllFinite := by
  cases request with
  | load v =>
      obtain ⟨document, hdocument, rfl⟩ := load_eq_ok hcall
      exact allFinite_loadDocument (hfeeds.writable hdocument)
  | loadUnder policy v =>
      obtain ⟨document, hdocument, rfl⟩ := loadUnder_eq_ok hcall
      exact allFinite_loadDocument (hfeeds.writable (Document.ofJsonUnder_eq_ok.mp hdocument).1)
  | loadDocument document =>
      cases hcall
      exact allFinite_loadDocument hfeeds
  | apply op =>
      obtain ⟨graph, hrun, _, hgraphs⟩ := apply_eq_ok hcall
      have hgraph := (h _ List.mem_cons_self).run hrun
      rw [AllFinite, hgraphs]
      exact List.forall_mem_cons.mpr ⟨hgraph, h⟩
  | undo =>
      obtain ⟨_, hgraphs⟩ := undo_eq_ok hcall
      rw [AllFinite, hgraphs]
      exact fun graph hgraph => h graph (List.mem_of_mem_tail hgraph)
  | relayout =>
      obtain ⟨trace, htrace, _, hgraphs⟩ := relayout_eq_ok hcall
      have hcurrent := h _ List.mem_cons_self
      rw [AllFinite, hgraphs]
      exact List.forall_mem_cons.mpr
        ⟨hcurrent.relaid _ _ _ (hcurrent.writable_trace htrace), h⟩
  | restore bytes => cases hfeeds

theorem AllFinite.perform (h : session.AllFinite) {request : Request} (hfeeds : request.Feeds) :
    (session.perform request).AllFinite := by
  rcases session.perform_eq_or_granted request with hsame | hcall
  · rw [hsame]
    exact h
  · exact h.call hfeeds hcall

theorem Fed.allFinite (h : session.Fed) : session.AllFinite := by
  induction h with
  | start supply layout =>
      intro graph hgraph
      rw [List.mem_singleton.mp hgraph]
      exact Graph.allFinite_document _ _ ⟨by simp, by simp⟩
  | opened hv hopen =>
      obtain ⟨document, hdocument, rfl⟩ := openOn_eq_ok hopen
      exact allFinite_loadDocument (hv.writable hdocument)
  | perform request _ hfeeds ih => exact ih.perform hfeeds

theorem AllFinite.writable (h : session.AllFinite) {document : Document}
    (hdocument : session.document = .ok document) : document.Writable := by
  rw [document_eq_ok, Graph.document_eq_ok_iff_trace] at hdocument
  obtain ⟨trace, htrace, rfl⟩ := hdocument
  exact (h _ List.mem_cons_self).writable_trace htrace

/-- A value that holds a document with names throughout opens as a session that shows it. -/
theorem exists_openOn {v : Json} {document : Document} (hv : Document.ofJson v = .ok document)
    (hnamed : ∀ e ∈ document, "" ∉ e.names) (supply : Supply) (layout : Layout Float) :
    ∃ reopened, openOn supply layout v = .ok reopened ∧ reopened.document = .ok document := by
  refine ⟨(start supply layout).loadDocument document, by rw [openOn, load, hv]; rfl, ?_⟩
  rw [document_eq_ok]
  change (layout.document _ document).document = .ok document
  rw [layout.document_document, Document.firstUnnamed?_eq_none_iff.mpr hnamed]

/-- Whatever document a session shows, it can be saved; the value is read as the document, and opens
as a session that shows it, under whatever layout and with whatever keys and ids. -/
theorem Fed.save_reopens (h : session.Fed) {document : Document}
    (hdocument : session.document = .ok document) :
    ∃ v, session.save = .ok v ∧ Document.ofJson v = .ok document ∧
      ∀ (supply : Supply) (layout : Layout Float), ∃ reopened,
        openOn supply layout v = .ok reopened ∧ reopened.document = .ok document := by
  have hwritable := h.allFinite.writable hdocument
  obtain ⟨v, hwritten, hread⟩ := hwritable.exists_written
  refine ⟨v, by simp only [save, hdocument, hwritten], hread, ?_⟩
  intro supply layout
  exact exists_openOn hread hwritable.named supply layout

/-- The value of an operation on a text. -/
def ifText : Json :=
  .array [.object [("name", .string "IF"),
    ("data", .array [.object [("dtype", .string "str"), ("str", .string "x")]])]]

/-- A session in which minus zero was written over the text, and the document laid out again. -/
def rewritten : Session :=
  (((start numberedSupply ⟨Registry.empty, LayoutConfig.standard⟩).perform (.load ifText)).perform
    (.apply (.setInlineValue "root.0" 0 (some (.number (-0.0)))))).perform .relayout

theorem fed_rewritten : rewritten.Fed := by
  have hvalue : ifText.Finite := by
    refine .array (List.forall_mem_singleton.mpr (.object ?_))
    refine List.forall_mem_cons.mpr ⟨.string "IF", List.forall_mem_singleton.mpr (.array ?_)⟩
    refine List.forall_mem_singleton.mpr (.object ?_)
    exact List.forall_mem_cons.mpr ⟨.string "str", List.forall_mem_singleton.mpr (.string "x")⟩
  have hloaded : ((start numberedSupply ⟨Registry.empty, LayoutConfig.standard⟩).perform
      (.load ifText)).Fed := .perform (.load ifText) (.start _ _) hvalue
  exact .perform .relayout (.perform (.apply _) hloaded trivial) trivial

/-- The session with minus zero is saved and opened again. -/
theorem rewritten_reopens :
    rewritten.Fed ∧ rewritten.document = .ok [⟨"IF", [.literal (.number (-0.0))]⟩] ∧
      ∃ v, rewritten.save = .ok v ∧
        Document.ofJson v = .ok [⟨"IF", [.literal (.number (-0.0))]⟩] ∧
        ∃ reopened, openOn numberedSupply ⟨Registry.standard, LayoutConfig.standard⟩ v =
          .ok reopened ∧ reopened.document = .ok [⟨"IF", [.literal (.number (-0.0))]⟩] := by
  have hdocument : rewritten.document = .ok [⟨"IF", [.literal (.number (-0.0))]⟩] := rfl
  obtain ⟨v, hsaved, hread, hopened⟩ := fed_rewritten.save_reopens hdocument
  exact ⟨fed_rewritten, hdocument, v, hsaved, hread, hopened _ _⟩

end Session

end RuleGraph
