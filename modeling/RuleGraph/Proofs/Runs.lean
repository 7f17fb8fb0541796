import RuleGraph.Session

/-!
# Runs of a session

A run starts with an empty or an opened document and goes on with requests, granted or refused. A
request shows a drawn, an edited, a relaid or an earlier graph, or leaves the session as it is:
`Session.perform_effect` says this once. `Session.Reached.forall_drawn` lifts what holds of drawn
graphs and is kept by edits and relayouts to the current graph and all earlier ones of every run,
with a view to the keys that are spent; `Session.Reached.forall_graphs` leaves the keys aside.
-/

namespace RuleGraph

/-- Ids that are new to a graph: no two are alike, and none is the id of a path or of a node. -/
structure Graph.Fresh {α : Type} (graph : Graph α) (ids : Nat → String) : Prop where
  injective : Function.Injective ids
  ne_path : ∀ n path, ids n ≠ idOfPath path
  ne_node : ∀ n, ∀ node ∈ graph.nodes, node.id ≠ ids n

namespace Session

/-- What a session can be asked to do. -/
inductive Request where
  | load (v : Json)
  | loadUnder (policy : Policy) (v : Json)
  | loadDocument (document : Document)
  | apply (op : EditOp)
  | undo
  | relayout
  | restore (bytes : Bytes)

def call (session : Session) : Request → Answer
  | .load v => session.load v
  | .loadUnder policy v => session.loadUnder policy v
  | .loadDocument document => (session.loadDocument document, .ok ())
  | .apply op => session.apply op
  | .undo => session.undo
  | .relayout => session.relayout
  | .restore bytes => session.restore bytes

/-- The session after a request, whether it was granted or not. -/
def perform (session : Session) (request : Request) : Session :=
  (session.call request).1

/-- The sessions of one layout that runs of allowed requests lead to. -/
inductive Reached (layout : Layout Float) (allowed : Session → Request → Prop) : Session → Prop
  | start (supply : Supply) : Reached layout allowed (start supply layout)
  | opened {supply : Supply} {v : Json} {session : Session}
      (h : openOn supply layout v = .ok session) : Reached layout allowed session
  | perform {session : Session} (request : Request) (h : Reached layout allowed session)
      (hallowed : allowed session request) : Reached layout allowed (session.perform request)

/-- The graph that is shown and the earlier ones, the latest first. -/
def graphs (session : Session) : List (Graph Float) :=
  session.graph :: session.history.map Prod.fst

/-- Requests other than to restore a snapshot, the ids that are not spent being fresh whenever a
relayout draws from them. -/
def Admits (session : Session) : Request → Prop
  | .restore _ => False
  | .relayout => session.graph.Fresh session.freshIds
  | _ => True

/-! ## One request -/

/-- The other session goes on from the session, with some keys more that are spent. -/
structure Succeeds (session next : Session) (keys : Nat) : Prop where
  layout_eq : next.layout = session.layout
  supply_eq : next.supply = session.supply
  keysDrawn_eq : next.keysDrawn = session.keysDrawn + keys

theorem apply_eq_ok {session next : Session} {op : EditOp} (h : session.apply op = (next, .ok ())) :
    ∃ graph, op.run session.layout (session.freshIds 0) (session.freshKeys 0) session.graph =
      .ok graph ∧ session.Succeeds next 1 ∧ next.graphs = graph :: session.graphs := by
  unfold apply at h
  split at h
  · cases h
  · rename_i graph hrun
    cases h
    exact ⟨graph, hrun, ⟨rfl, rfl, rfl⟩, rfl⟩

theorem undo_eq_ok {session next : Session} (h : session.undo = (next, .ok ())) :
    session.Succeeds next 0 ∧ next.graphs = session.graphs.tail := by
  unfold undo at h
  split at h
  · cases h
  · rename_i hhistory
    cases h
    refine ⟨⟨rfl, rfl, rfl⟩, ?_⟩
    rw [graphs, graphs, hhistory]
    rfl

theorem relayout_eq_ok {session next : Session} (h : session.relayout = (next, .ok ())) :
    ∃ trace, session.graph.trace = .ok trace ∧
      session.Succeeds next (session.graph.relaid session.layout session.freshKeys
        session.freshIds trace).nodes.length ∧
      next.graphs = session.graph.relaid session.layout session.freshKeys session.freshIds trace ::
        session.graphs := by
  unfold relayout at h
  split at h
  · cases h
  · rename_i trace htrace
    cases h
    exact ⟨trace, htrace, ⟨rfl, rfl, rfl⟩, rfl⟩

theorem restore_eq_ok {session next : Session} {bytes : Bytes}
    (h : session.restore bytes = (next, .ok ())) :
    ∃ graph, Graph.ofBytes bytes = .ok graph ∧ session.Succeeds next 0 ∧
      next.graphs = graph :: session.graphs := by
  unfold restore at h
  split at h
  · cases h
  · rename_i graph hgraph
    cases h
    exact ⟨graph, hgraph, ⟨rfl, rfl, rfl⟩, rfl⟩

theorem load_eq_ok {session next : Session} {v : Json} (h : session.load v = (next, .ok ())) :
    ∃ document, Document.ofJson v = .ok document ∧ next = session.loadDocument document := by
  unfold load at h
  split at h
  · cases h
  · rename_i document hdocument
    cases h
    exact ⟨document, hdocument, rfl⟩

theorem loadUnder_eq_ok {session next : Session} {policy : Policy} {v : Json}
    (h : session.loadUnder policy v = (next, .ok ())) :
    ∃ document, Document.ofJsonUnder policy v = .ok document ∧
      next = session.loadDocument document := by
  unfold loadUnder at h
  split at h
  · cases h
  · rename_i document hdocument
    cases h
    exact ⟨document, hdocument, rfl⟩

theorem openOn_eq_ok {supply : Supply} {layout : Layout Float} {v : Json} {session : Session}
    (h : openOn supply layout v = .ok session) :
    ∃ document, Document.ofJson v = .ok document ∧
      session = (start supply layout).loadDocument document := by
  simp only [openOn, load] at h
  split at h
  · cases h
  · rename_i document hdocument
    cases h
    exact ⟨document, hdocument, rfl⟩

theorem perform_of_ok {session next : Session} (request : Request)
    (h : session.call request = (next, .ok ())) : session.perform request = next :=
  congrArg Prod.fst h

/-- A refused request leaves the session as it was. -/
theorem eq_of_call_eq_error {session next : Session} {request : Request} {error : SessionError}
    (h : session.call request = (next, .error error)) : next = session := by
  cases request with
  | loadDocument document => cases h
  | load v =>
      simp only [call, load] at h
      split at h <;> cases h
      rfl
  | loadUnder policy v =>
      simp only [call, loadUnder] at h
      split at h <;> cases h
      rfl
  | apply op =>
      simp only [call, apply] at h
      split at h <;> cases h
      rfl
  | undo =>
      simp only [call, undo] at h
      split at h <;> cases h
      rfl
  | relayout =>
      simp only [call, relayout] at h
      split at h <;> cases h
      rfl
  | restore bytes =>
      simp only [call, restore] at h
      split at h <;> cases h
      rfl

theorem perform_eq_or_granted (session : Session) (request : Request) :
    session.perform request = session ∨
      session.call request = (session.perform request, .ok ()) := by
  rw [perform]
  cases hcall : session.call request with
  | mk next answer =>
      cases answer with
      | error e => exact Or.inl (eq_of_call_eq_error hcall)
      | ok _ => exact Or.inr rfl

/-- What a request can do to the graphs of a session. -/
inductive Effect (session : Session) : Request → Session → Prop
  | nothing {request : Request} : Effect session request session
  | drawn {request : Request} (document : Document) :
      Effect session request (session.loadDocument document)
  | edited {op : EditOp} {graph : Graph Float} {next : Session}
      (hrun : op.run session.layout (session.freshIds 0) (session.freshKeys 0) session.graph =
        .ok graph)
      (hnext : session.Succeeds next 1) (hgraphs : next.graphs = graph :: session.graphs) :
      Effect session (.apply op) next
  | undone {next : Session} (hnext : session.Succeeds next 0)
      (hgraphs : next.graphs = session.graphs.tail) : Effect session .undo next
  | relaid {trace : Trace} {next : Session} (htrace : session.graph.trace = .ok trace)
      (hnext : session.Succeeds next
        (session.graph.relaid session.layout session.freshKeys session.freshIds trace).nodes.length)
      (hgraphs : next.graphs =
        session.graph.relaid session.layout session.freshKeys session.freshIds trace ::
          session.graphs) : Effect session .relayout next
  | restored {bytes : Bytes} {graph : Graph Float} {next : Session}
      (hgraph : Graph.ofBytes bytes = .ok graph) (hnext : session.Succeeds next 0)
      (hgraphs : next.graphs = graph :: session.graphs) : Effect session (.restore bytes) next

theorem perform_effect (session : Session) (request : Request) :
    Effect session request (session.perform request) := by
  rcases session.perform_eq_or_granted request with hsame | hcall
  · rw [hsame]
    exact .nothing
  · generalize session.perform request = next at hcall
    cases request with
    | load v =>
        obtain ⟨document, _, rfl⟩ := load_eq_ok hcall
        exact .drawn document
    | loadUnder policy v =>
        obtain ⟨document, _, rfl⟩ := loadUnder_eq_ok hcall
        exact .drawn document
    | loadDocument document =>
        cases hcall
        exact .drawn document
    | apply op =>
        obtain ⟨graph, hrun, hnext, hgraphs⟩ := apply_eq_ok hcall
        exact .edited hrun hnext hgraphs
    | undo =>
        obtain ⟨hnext, hgraphs⟩ := undo_eq_ok hcall
        exact .undone hnext hgraphs
    | relayout =>
        obtain ⟨trace, htrace, hnext, hgraphs⟩ := relayout_eq_ok hcall
        exact .relaid htrace hnext hgraphs
    | restore bytes =>
        obtain ⟨graph, hgraph, hnext, hgraphs⟩ := restore_eq_ok hcall
        exact .restored hgraph hnext hgraphs

/-- The graphs that are shown and the earlier ones have a property, with the keys that are spent. -/
def AllGraphs (P : Supply → Nat → Graph Float → Prop) (session : Session) : Prop :=
  ∀ graph ∈ session.graphs, P session.supply session.keysDrawn graph

namespace AllGraphs

variable {P : Supply → Nat → Graph Float → Prop} {session next : Session}

theorem of_drawn (hhistory : session.history = [])
    (hgraph : P session.supply session.keysDrawn session.graph) : session.AllGraphs P := by
  intro graph hmem
  rw [graphs, hhistory] at hmem
  exact List.mem_singleton.mp hmem ▸ hgraph

theorem earlier (h : session.AllGraphs P)
    (hmono : ∀ supply m n graph, m ≤ n → P supply m graph → P supply n graph) {keys : Nat}
    (hnext : session.Succeeds next keys) :
    ∀ graph ∈ session.graphs, P next.supply next.keysDrawn graph := by
  intro graph hgraph
  rw [hnext.supply_eq, hnext.keysDrawn_eq]
  exact hmono _ _ _ graph (Nat.le_add_right _ _) (h graph hgraph)

theorem shown (h : session.AllGraphs P)
    (hmono : ∀ supply m n graph, m ≤ n → P supply m graph → P supply n graph) {keys : Nat}
    (hnext : session.Succeeds next keys) {graph : Graph Float}
    (hgraphs : next.graphs = graph :: session.graphs)
    (hgraph : P session.supply (session.keysDrawn + keys) graph) : next.AllGraphs P := by
  rw [AllGraphs, hgraphs]
  refine List.forall_mem_cons.mpr ⟨?_, h.earlier hmono hnext⟩
  rw [hnext.supply_eq, hnext.keysDrawn_eq]
  exact hgraph

theorem undone (h : session.AllGraphs P)
    (hmono : ∀ supply m n graph, m ≤ n → P supply m graph → P supply n graph)
    (hnext : session.Succeeds next 0) (hgraphs : next.graphs = session.graphs.tail) :
    next.AllGraphs P := by
  rw [AllGraphs, hgraphs]
  exact fun graph hgraph => h.earlier hmono hnext graph (List.mem_of_mem_tail hgraph)

end AllGraphs

/-! ## Whole runs -/

namespace Reached

variable {layout : Layout Float} {allowed : Session → Request → Prop} {session : Session}

theorem mono {more : Session → Request → Prop}
    (hmore : ∀ session request, allowed session request → more session request)
    (h : session.Reached layout allowed) : session.Reached layout more := by
  induction h with
  | start supply => exact .start supply
  | opened hopen => exact .opened hopen
  | perform request _ hallowed ih => exact .perform request ih (hmore _ _ hallowed)

theorem layout_eq (h : session.Reached layout allowed) : session.layout = layout := by
  induction h with
  | start supply => rfl
  | opened hopen =>
      obtain ⟨document, _, rfl⟩ := openOn_eq_ok hopen
      rfl
  | @perform session request _ _ ih =>
      have heffect := session.perform_effect request
      generalize session.perform request = next at heffect ⊢
      cases heffect with
      | nothing => exact ih
      | drawn document => exact ih
      | edited _ hnext _ => exact hnext.layout_eq.trans ih
      | undone hnext _ => exact hnext.layout_eq.trans ih
      | relaid _ hnext _ => exact hnext.layout_eq.trans ih
      | restored _ hnext _ => exact hnext.layout_eq.trans ih

/-- A property of graphs and of the keys that are spent, which more keys do not spoil: if drawings
have it, and edits and relayouts of reached sessions keep it, then all graphs of every reached
session have it. -/
theorem forall_drawn {P : Supply → Nat → Graph Float → Prop}
    (hmono : ∀ supply m n graph, m ≤ n → P supply m graph → P supply n graph)
    (hrestore : ∀ session bytes, ¬ allowed session (.restore bytes))
    (hdrawn : ∀ (supply : Supply) (spent : Nat) (document : Document) (graph : Graph Float),
      layout.document (fun n => supply.keys (spent + n)) document = graph →
      P supply (spent + graph.nodes.length) graph)
    (hedited : ∀ (session : Session) (op : EditOp) (graph : Graph Float),
      session.Reached layout allowed → allowed session (.apply op) →
      P session.supply session.keysDrawn session.graph →
      op.run layout (session.freshIds 0) (session.freshKeys 0) session.graph = .ok graph →
      P session.supply (session.keysDrawn + 1) graph)
    (hrelaid : ∀ (session : Session) (trace : Trace) (graph : Graph Float),
      session.Reached layout allowed → allowed session .relayout →
      P session.supply session.keysDrawn session.graph → session.graph.trace = .ok trace →
      session.graph.relaid layout session.freshKeys session.freshIds trace = graph →
      P session.supply (session.keysDrawn + graph.nodes.length) graph)
    (h : session.Reached layout allowed) : session.AllGraphs P := by
  induction h with
  | start supply =>
      have hfirst := hdrawn supply 0 [] _ rfl
      simp only [Nat.zero_add] at hfirst
      exact .of_drawn rfl hfirst
  | opened hopen =>
      obtain ⟨document, _, rfl⟩ := openOn_eq_ok hopen
      exact .of_drawn rfl (hdrawn _ _ document _ rfl)
  | @perform session request hreached hallowed ih =>
      have hlayout := hreached.layout_eq
      have hcurrent := ih _ List.mem_cons_self
      have heffect := session.perform_effect request
      generalize session.perform request = next at heffect ⊢
      cases heffect with
      | nothing => exact ih
      | drawn document => exact .of_drawn rfl (hdrawn _ _ document _ (by rw [hlayout]; rfl))
      | edited hrun hnext hgraphs =>
          rw [hlayout] at hrun
          exact ih.shown hmono hnext hgraphs (hedited _ _ _ hreached hallowed hcurrent hrun)
      | undone hnext hgraphs => exact ih.undone hmono hnext hgraphs
      | relaid htrace hnext hgraphs =>
          refine ih.shown hmono hnext hgraphs ?_
          exact hrelaid _ _ _ hreached hallowed hcurrent htrace (by rw [hlayout])
      | restored _ _ _ => exact absurd hallowed (hrestore _ _)

/-- A property of graphs that drawings have, and that edits and relayouts of reached sessions keep,
is had by all graphs of every reached session. -/
theorem forall_graphs {P : Graph Float → Prop}
    (hadmits : ∀ session request, allowed session request → session.Admits request)
    (hdrawn : ∀ keys document, P (layout.document keys document))
    (hedited : ∀ (session : Session) (op : EditOp) (graph : Graph Float),
      session.Reached layout allowed → allowed session (.apply op) → P session.graph →
      op.run layout (session.freshIds 0) (session.freshKeys 0) session.graph = .ok graph → P graph)
    (hrelaid : ∀ (session : Session) (trace : Trace),
      session.Reached layout allowed → session.graph.Fresh session.freshIds → P session.graph →
      session.graph.trace = .ok trace →
      P (session.graph.relaid layout session.freshKeys session.freshIds trace))
    (h : session.Reached layout allowed) : ∀ graph ∈ session.graphs, P graph := by
  apply h.forall_drawn (P := fun _ _ graph => P graph) (fun _ _ _ _ _ hgraph => hgraph)
    (fun session bytes => hadmits session (.restore bytes))
  · rintro supply spent document graph rfl
    exact hdrawn _ document
  · exact hedited
  · rintro session trace graph hreached hallowed hgraph htrace rfl
    exact hrelaid session trace hreached (hadmits session .relayout hallowed) hgraph htrace

end Reached

end Session

end RuleGraph
