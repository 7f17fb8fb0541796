import RuleGraph.CommandLine
import RuleGraph.Proofs.Names
import RuleGraph.Proofs.Numbers
import RuleGraph.Proofs.Positions
import RuleGraph.Proofs.Wiring

/-!
# Drawing and rebuilding

A drawing is rebuilt to the document that was drawn, whatever the registry knows and whatever the
measures are; an operation without a name is reported where it first occurs. The walk over the
drawing follows the outline of the document: every id it looks up is the id of a path, and paths
have different ids.
-/

namespace RuleGraph

open RuleGraph.Graph

/-! ## Results -/

/-- What rebuilding an argument that was drawn at a path gives: the argument, or a report of its
first operation without a name. -/
def Rebuilds (path : List Nat) (a : Argument) (result : Except RebuildError Unfolding) : Prop :=
  match a.firstUnnamed? with
  | none => ∃ u, result = .ok u ∧ u.argument = a
  | some below => result = .error (.unnamedOperation (idOfPath (path ++ below)))

/-- What filling a position with a drawn argument gives. -/
def Fills (path : List Nat) (position : Nat) (a : Argument)
    (result : Except RebuildError (Option Unfolding)) : Prop :=
  match a.firstUnnamed? with
  | none => ∃ u, result = .ok (some u) ∧ u.argument = a
  | some below => result = .error (.unnamedOperation (idOfPath (path ++ position :: below)))

theorem Rebuilds.fills {path : List Nat} {position : Nat} {a : Argument}
    {result : Except RebuildError Unfolding} (h : Rebuilds (path ++ [position]) a result) :
    Fills path position a (result.map some) := by
  unfold Fills
  unfold Rebuilds at h
  split
  · rename_i hnamed
    rw [hnamed] at h
    obtain ⟨u, rfl, hargument⟩ := h
    exact ⟨u, rfl, hargument⟩
  · rename_i below hunnamed
    rw [hunnamed] at h
    dsimp only at h
    rw [h, List.append_assoc]
    rfl

/-- The first operation without a name is reported if all arguments before it have results. -/
theorem mapM_range_eq_unnamed {β : Type} (path : List Nat) {below : List Nat}
    {arguments : List Argument} {count : Nat} {run : Nat → Except RebuildError β}
    (hcount : arguments.length ≤ count)
    (hnamed : ∀ i a, arguments[i]? = some a → a.firstUnnamed? = none →
      ∃ result, run i = .ok result)
    (hunnamed : ∀ i a rest, arguments[i]? = some a → a.firstUnnamed? = some rest →
      run i = .error (.unnamedOperation (idOfPath (path ++ i :: rest))))
    (h : Argument.firstUnnamedFrom? 0 arguments = some below) :
    (List.range count).mapM run = .error (.unnamedOperation (idOfPath (path ++ below))) := by
  rcases Argument.firstUnnamedFrom?_cases 0 arguments with
    ⟨hnone, _⟩ | ⟨i, a, rest, ha, hrest, hbefore, hfound⟩
  · cases hnone.symm.trans h
  · rw [Nat.zero_add] at hfound
    cases hfound.symm.trans h
    have hi := (List.getElem?_eq_some_iff.mp ha).1
    refine mapM_range_eq_error (by omega) ?_ (hunnamed i a rest ha hrest)
    intro j hj
    have hjlt : j < arguments.length := by omega
    have hargument := List.getElem?_eq_getElem hjlt
    exact hnamed j _ hargument (hbefore j _ hj hargument)

/-- Filled positions are settled to the arguments, or the first report among them is passed on. -/
theorem settle_fills {α : Type} (node : Node α) {path : List Nat} {arguments : List Argument}
    {count : Nat} {fill : Nat → Except RebuildError (Option Unfolding)}
    (hcount : arguments.length ≤ count)
    (hfill : ∀ i a, arguments[i]? = some a → Fills path i a (fill i))
    (hempty : ∀ i, arguments.length ≤ i → i < count → fill i = .ok none) :
    match Argument.firstUnnamedFrom? 0 arguments with
    | none => ∃ filled, ((List.range count).mapM fill >>= GraphIndex.settlePositions node) =
        .ok filled ∧ filled.map Unfolding.argument = arguments
    | some below => ((List.range count).mapM fill >>= GraphIndex.settlePositions node) =
        .error (.unnamedOperation (idOfPath (path ++ below))) := by
  have hnamed : ∀ i a, arguments[i]? = some a → a.firstUnnamed? = none →
      ∃ u, fill i = .ok (some u) ∧ u.argument = a := by
    intro i a ha hnone
    have hresult := hfill i a ha
    rwa [Fills, hnone] at hresult
  have hunnamed : ∀ i a rest, arguments[i]? = some a → a.firstUnnamed? = some rest →
      fill i = .error (.unnamedOperation (idOfPath (path ++ i :: rest))) := by
    intro i a rest ha hrest
    have hresult := hfill i a ha
    rwa [Fills, hrest] at hresult
  split
  · rename_i hnone
    have hresult : ∀ i a, arguments[i]? = some a → ∃ u, fill i = .ok (some u) ∧ u.argument = a :=
      fun i a ha => hnamed i a ha
        (Argument.firstUnnamed?_of_firstUnnamedFrom? hnone a (List.mem_of_getElem? ha))
    obtain ⟨filled, hlength, hfilled⟩ := exists_results hresult
    rw [← hlength] at hcount hempty
    refine ⟨filled, mapM_settle_eq_ok.mpr ⟨hcount, ?_, hempty⟩, map_results hlength ?_⟩
    · intro i u hu
      obtain ⟨_, _, hok, _⟩ := hfilled i u hu
      exact hok
    · intro i u hu
      obtain ⟨_, ha, _, rfl⟩ := hfilled i u hu
      exact ha
  · rename_i hbelow
    have hsucceeds : ∀ i a, arguments[i]? = some a → a.firstUnnamed? = none →
        ∃ filled, fill i = .ok filled := by
      intro i a ha hnone
      obtain ⟨u, hu, _⟩ := hnamed i a ha hnone
      exact ⟨some u, hu⟩
    rw [mapM_range_eq_unnamed path hcount hsucceeds hunnamed hbelow]
    rfl

namespace Layout

variable {α : Type} [Scalar α] {layout : Layout α} {keys : Nat → Key} {document : Document}
  {path : List Nat} {e : Expression}

/-! ## Lookups in a drawing -/

theorem lastNode?_document (layout : Layout α) (keys : Nat → Key)
    (h : document.at? path = some (.ofExpression e)) :
    ∃ node, (layout.document keys document).lastNode? (idOfPath path) = some node ∧
      layout.Draws (idOfPath path, e) node := by
  obtain ⟨node, hnode, hdraws⟩ := layout.exists_mem_nodes_document keys h
  refine ⟨node, ?_, hdraws⟩
  rw [lastNode?_eq_some_iff (layout.nodup_ids_document keys document)]
  obtain ⟨key, position, rfl⟩ := hdraws
  exact ⟨hnode, rfl⟩

theorem mem_edges_document {edge : Edge} :
    edge ∈ (layout.document keys document).edges ↔
      ∃ wire ∈ document.wires, edge = wireBelow rootId wire := by
  rw [edges_document, List.mem_map]
  simp only [eq_comm]

theorem lastEdgeFrom?_document (layout : Layout α) (keys : Nat → Key) {position : Nat}
    {child : Expression} (h : document.at? path = some (.ofExpression e))
    (hchild : e.arguments[position]? = some (.ofExpression child)) :
    (layout.document keys document).lastEdgeFrom? (idOfPath path) position =
      some (Edge.link (idOfPath path) position (idOfPath (path ++ [position]))) := by
  rw [lastEdgeFrom?_eq_some_iff (wellWired_document layout keys document).nodup_outlets,
    mem_edges_document]
  refine ⟨⟨(path, position), ?_, rfl⟩, rfl, rfl⟩
  have hpath : path ≠ [] := by
    intro hnil
    subst hnil
    cases h
  exact Document.mem_wires.mpr ⟨hpath, child, (Document.at?_concat h position).trans hchild⟩

theorem lastEdgeFrom?_document_eq_none {position : Nat}
    (h : document.at? path = some (.ofExpression e))
    (hchild : ∀ child, e.arguments[position]? ≠ some (.ofExpression child)) :
    (layout.document keys document).lastEdgeFrom? (idOfPath path) position = none := by
  cases hfound : (layout.document keys document).lastEdgeFrom? (idOfPath path) position with
  | none => rfl
  | some edge =>
      obtain ⟨hedge, hsource, hslot⟩ := mem_of_lastEdgeFrom? hfound
      obtain ⟨wire, hwire, rfl⟩ := mem_edges_document.mp hedge
      obtain ⟨_, child, hend⟩ := Document.mem_wires.mp hwire
      have hfrom : wire.1 = path := idOfPath_inj.mp hsource
      have hat : wire.2 = position := hslot
      rw [hfrom, hat, Document.at?_concat h] at hend
      exact absurd hend (hchild child)

/-! ## The walk -/

/-- A position without an argument is vacant, although the registry may have a slot there. -/
theorem vacant_document (h : document.at? path = some (.ofExpression e)) {node : Node α}
    (hdraws : layout.Draws (idOfPath path, e) node) {position : Nat}
    (hposition : e.arguments.length ≤ position) :
    (layout.document keys document).Vacant node (e.arguments.map Argument.literal?) position := by
  have hnone : e.arguments[position]? = none := List.getElem?_eq_none hposition
  obtain ⟨key, place, rfl⟩ := hdraws
  refine ⟨?_, ?_, ?_⟩
  · apply lastEdgeFrom?_document_eq_none h
    intro child hchild
    rw [hnone] at hchild
    cases hchild
  · intro value hvalue
    rw [List.getElem?_map, hnone] at hvalue
    cases hvalue
  · intro slot hslot
    obtain ⟨hmem, hindex⟩ := Node.mem_of_slot? hslot
    by_contra hrequired
    have hlt : slot.index < e.arguments.length :=
      Expression.index_lt_of_required hmem (by simpa using hrequired)
    omega

theorem Draws.id_eq {id : String} {node : Node α} (h : layout.Draws (id, e) node) :
    node.id = id := by
  obtain ⟨key, place, rfl⟩ := h
  rfl

theorem Draws.content_eq {id : String} {node : Node α} (h : layout.Draws (id, e) node) :
    node.content = .operation e.name (e.arguments.map Argument.literal?) := by
  obtain ⟨key, place, rfl⟩ := h
  rfl

/-- Slots behind the arguments are those that the registry shows anyway, at words. -/
theorem Draws.overflows_eq_false {id : String} {node : Node α} (h : layout.Draws (id, e) node) :
    overflows node.slots (e.arguments.map Argument.literal?) = false := by
  obtain ⟨key, place, rfl⟩ := h
  rw [overflows_eq_false_iff, List.length_map]
  exact fun _ hslot => Expression.counted_of_mem_slots hslot

theorem fillPosition_document (h : document.at? path = some (.ofExpression e)) {node : Node α}
    (hdraws : layout.Draws (idOfPath path, e) node) {position : Nat} {a : Argument}
    (ha : e.arguments[position]? = some a) {unfold : Node α → Except RebuildError Unfolding}
    (hunfold : ∀ child target, a = .ofExpression child →
      document.at? (path ++ [position]) = some (.ofExpression child) →
      layout.Draws (idOfPath (path ++ [position]), child) target →
      Rebuilds (path ++ [position]) a (unfold target)) :
    Fills path position a ((layout.document keys document).index.fillPosition unfold node
      (e.arguments.map Argument.literal?) position) := by
  have hid := hdraws.id_eq
  cases a with
  | literal value =>
      refine ⟨⟨.literal value, [], []⟩, fillPosition_eq_some.mpr (Or.inr ⟨?_, value, ?_, rfl⟩), rfl⟩
      · rw [hid]
        apply lastEdgeFrom?_document_eq_none h
        intro child hchild
        rw [ha] at hchild
        cases hchild
      · rw [List.getElem?_map, ha]
        rfl
  | nested name arguments =>
      have hchild : e.arguments[position]? = some (.ofExpression ⟨name, arguments⟩) := ha
      have hedge := lastEdgeFrom?_document layout keys h hchild
      have hat := (Document.at?_concat h position).trans hchild
      obtain ⟨target, htarget, htargetDraws⟩ := lastNode?_document layout keys hat
      have hfill : (layout.document keys document).index.fillPosition unfold node
          (e.arguments.map Argument.literal?) position = (unfold target).map some := by
        rw [GraphIndex.fillPosition, index_edgeFrom?, hid, hedge]
        dsimp only [Edge.link]
        rw [index_node?, htarget]
      rw [hfill]
      exact (hunfold ⟨name, arguments⟩ target rfl hat htargetDraws).fills

/-- A drawn operation is rebuilt if its arguments fill their positions. -/
theorem unfold_of_fills (h : document.at? path = some (.ofExpression e)) {node : Node α}
    (hdraws : layout.Draws (idOfPath path, e) node) (hname : e.name ≠ "") {above : List String}
    (hnew : node.id ∉ above) {fuel : Nat} {treePath : List Nat}
    (hfills : ∀ i a, e.arguments[i]? = some a → Fills path i a
      ((layout.document keys document).index.fillPosition
        ((layout.document keys document).index.unfold fuel (node.id :: above) (treePath ++ [i]))
        node (e.arguments.map Argument.literal?) i)) :
    Rebuilds path (.ofExpression e)
      ((layout.document keys document).index.unfold (fuel + 1) above treePath node) := by
  have hcount : e.arguments.length ≤
      argumentCount node.slots (e.arguments.map Argument.literal?) := by
    have hle := length_le_argumentCount node.slots (e.arguments.map Argument.literal?)
    rwa [List.length_map] at hle
  have hsettled := settle_fills node hcount hfills fun i hi _ =>
    fillPosition_eq_none.mpr (vacant_document h hdraws hi)
  rw [GraphIndex.unfold, hdraws.content_eq]
  dsimp only
  rw [if_neg hnew, if_neg hname, hdraws.overflows_eq_false, if_neg Bool.false_ne_true, Rebuilds,
    Argument.ofExpression, Argument.firstUnnamed?_named hname, ← bind_assoc]
  split at hsettled
  · obtain ⟨filled, hfilled, harguments⟩ := hsettled
    rw [hfilled]
    exact ⟨_, rfl, congrArg (Argument.nested e.name) harguments⟩
  · rw [hsettled]
    rfl

theorem unfold_document (a : Argument) {above : List String} {fuel : Nat} {treePath : List Nat}
    {node : Node α} (he : a = .ofExpression e)
    (h : document.at? path = some (.ofExpression e))
    (hdraws : layout.Draws (idOfPath path, e) node)
    (habove : ∀ id ∈ above, ∃ p : List Nat, id = idOfPath p ∧ p.length < path.length)
    (hfuel : a.depth ≤ fuel) :
    Rebuilds path a ((layout.document keys document).index.unfold fuel above treePath node) := by
  induction a generalizing path e above fuel treePath node with
  | literal value => cases he
  | nested name arguments ih =>
      cases he
      rw [Argument.depth] at hfuel
      obtain ⟨fuel, rfl⟩ : ∃ n, fuel = n + 1 := ⟨fuel - 1, by omega⟩
      have hnew : node.id ∉ above := by
        intro hmem
        obtain ⟨p, hp, hlt⟩ := habove _ hmem
        rw [hdraws.id_eq, idOfPath_inj] at hp
        rw [hp] at hlt
        exact Nat.lt_irrefl _ hlt
      by_cases hname : e.name = ""
      · -- the operation itself is the first without a name
        rw [GraphIndex.unfold, hdraws.content_eq]
        dsimp only
        rw [if_neg hnew, if_pos hname, Rebuilds, hname, Argument.firstUnnamed?_unnamed,
          hdraws.id_eq]
        dsimp only
        rw [List.append_nil]
      · refine unfold_of_fills h hdraws hname hnew ?_
        intro i a ha
        apply fillPosition_document h hdraws ha
        intro child target hchild hat htarget
        have hmem := List.mem_of_getElem? ha
        apply ih a hmem hchild hat htarget
        · intro id hid
          rw [List.length_append, List.length_singleton]
          rcases List.mem_cons.mp hid with rfl | hold
          · exact ⟨path, hdraws.id_eq, by omega⟩
          · obtain ⟨p, hp, hlt⟩ := habove id hold
            exact ⟨p, hp, by omega⟩
        · have hdepth := Argument.depth_le_depthAll hmem
          omega

/-! ## Documents -/

theorem depth_le_nestingBound (layout : Layout α) (keys : Nat → Key) (h : e ∈ document) :
    (Argument.ofExpression e).depth ≤ (layout.document keys document).nestingBound := by
  have hbelow := Argument.depth_le_depthAll (List.mem_map_of_mem (f := Argument.ofExpression) h)
  have hall := Argument.depth_le_operationsFrom 0
    fun a (_ : a ∈ document.map Argument.ofExpression) => a.depth_le_operations
  have hnodes := layout.length_nodes_document keys (List.ne_nil_of_mem h)
  rw [nestingBound, hnodes, Document.operations]
  omega

theorem unfoldRoot_document (layout : Layout α) (keys : Nat → Key) {index : Nat}
    (h : document[index]? = some e) (treePath : List Nat) :
    match (Argument.ofExpression e).firstUnnamed? with
    | none => ∃ u, (layout.document keys document).index.unfoldRoot
        (layout.document keys document).nestingBound (childId rootId index) treePath = .ok (e, u)
    | some below => (layout.document keys document).index.unfoldRoot
        (layout.document keys document).nestingBound (childId rootId index) treePath =
          .error (.unnamedOperation (idOfPath (index :: below))) := by
  have hat : document.at? [index] = some (.ofExpression e) := by
    rw [Document.at?, h]
    exact Argument.at?_nil _
  obtain ⟨node, hnode, hdraws⟩ := lastNode?_document layout keys hat
  have hid : idOfPath [index] = childId rootId index := rfl
  have hwalk : Rebuilds [index] (.ofExpression e) ((layout.document keys document).index.unfold
      (layout.document keys document).nestingBound [] treePath node) :=
    unfold_document _ rfl hat hdraws (fun _ hmem => absurd hmem List.not_mem_nil)
      (depth_le_nestingBound layout keys (List.mem_of_getElem? h))
  unfold Rebuilds at hwalk
  split at hwalk
  · obtain ⟨u, hu, hargument⟩ := hwalk
    exact ⟨u, unfoldRoot_eq_ok.mpr ⟨node, hid ▸ hnode, hu, hargument⟩⟩
  · have hoperation : node.content.isConstant = false := by
      obtain ⟨key, place, rfl⟩ := hdraws
      rfl
    rw [GraphIndex.unfoldRoot, index_node?, ← hid, hnode]
    dsimp only
    rw [if_neg (by rw [hoperation]; exact Bool.false_ne_true), hwalk]
    rfl

theorem zipIdx_map_range {β : Type} (f : Nat → β) (count : Nat) :
    ((List.range count).map f).zipIdx = (List.range count).map fun i => (f i, i) := by
  apply List.ext_getElem
  · simp
  · intro i hi hi'
    simp

/-- A drawing is rebuilt to the document, or its first operation without a name is reported. -/
theorem document_document (layout : Layout α) (keys : Nat → Key) (document : Document) :
    (layout.document keys document).document =
      match document.firstUnnamed? with
      | none => .ok document
      | some path => .error (.unnamedOperation (idOfPath path)) := by
  have hunnamed : document.firstUnnamed? =
      Argument.firstUnnamedFrom? 0 (document.map Argument.ofExpression) := rfl
  have htop : ∀ (i : Nat) (a : Argument), (document.map Argument.ofExpression)[i]? = some a →
      ∃ e, a = Argument.ofExpression e ∧ document[i]? = some e := by
    intro i a ha
    rw [List.getElem?_map, Option.map_eq_some_iff] at ha
    obtain ⟨e, he, rfl⟩ := ha
    exact ⟨e, rfl, he⟩
  rw [Graph.document, trace, roots_document, zipIdx_map_range, List.mapM_map, hunnamed]
  simp only [Function.comp_def]
  split
  · rename_i hnone
    have hresult : ∀ i e, document[i]? = some e → ∃ found : Expression × Unfolding,
        (layout.document keys document).index.unfoldRoot
          (layout.document keys document).nestingBound (childId rootId i) [i] = .ok found ∧
        found.1 = e := by
      intro i e he
      have hnamed := Argument.firstUnnamed?_of_firstUnnamedFrom? hnone _
        (List.mem_map_of_mem (List.mem_of_getElem? he))
      have hroot := unfoldRoot_document layout keys he [i]
      rw [hnamed] at hroot
      obtain ⟨u, hu⟩ := hroot
      exact ⟨(e, u), hu, rfl⟩
    obtain ⟨found, hlength, hfound⟩ := exists_results hresult
    have hdocument : found.map Prod.fst = document := by
      apply map_results hlength
      intro i root hroot
      obtain ⟨_, he, _, rfl⟩ := hfound i root hroot
      exact he
    have hroots : ((List.range document.length).mapM fun i =>
        (layout.document keys document).index.unfoldRoot
          (layout.document keys document).nestingBound (childId rootId i) [i]) = .ok found := by
      refine mapM_range_eq_ok.mpr ⟨hlength, ?_⟩
      intro i root hroot
      obtain ⟨_, _, hok, _⟩ := hfound i root hroot
      exact hok
    rw [hroots]
    exact congrArg Except.ok hdocument
  · rename_i below hbelow
    rw [mapM_range_eq_unnamed [] (Nat.le_of_eq (List.length_map _)) ?_ ?_ hbelow]
    · rfl
    · intro i a ha hnone
      obtain ⟨e, rfl, he⟩ := htop i a ha
      have hroot := unfoldRoot_document layout keys he [i]
      rw [hnone] at hroot
      obtain ⟨u, hu⟩ := hroot
      exact ⟨_, hu⟩
    · intro i a rest ha hrest
      obtain ⟨e, rfl, he⟩ := htop i a ha
      have hroot := unfoldRoot_document layout keys he [i]
      rwa [hrest] at hroot

theorem rebuild_single (layout : Layout α) (keys : Nat → Key) (e : Expression) :
    (layout.single keys e).rebuild "root.0" =
      match Document.firstUnnamed? [e] with
      | none => .ok e
      | some path => .error (.unnamedOperation (idOfPath path)) := by
  have hid : "root.0" = childId rootId 0 := by decide
  have hunnamed : Document.firstUnnamed? [e] =
      (Argument.ofExpression e).firstUnnamed?.map (0 :: ·) := by
    have hcons := Argument.firstUnnamedFrom?_cons 0 (.ofExpression e) []
    have hnil : Argument.firstUnnamedFrom? 1 [] = none := rfl
    rw [hnil, Option.or_none] at hcons
    exact hcons
  have hfirst : ([e] : Document)[0]? = some e := rfl
  have hroot := unfoldRoot_document layout keys hfirst []
  rw [single_eq_document, rebuild, hid, hunnamed]
  split at hroot
  · rename_i hnone
    obtain ⟨u, hu⟩ := hroot
    rw [hu, hnone]
    rfl
  · rename_i below hsome
    rw [hroot, hsome]
    rfl

end Layout

/-! ## The check of the command line -/

namespace CommandLine

variable {read : String → Except String String} {options : Options}

theorem orderly_accepted {registry : Registry} {text : String} {v : Json} {document : Document}
    (hparse : Json.parse? text = some v) (h : accepted registry options v = .ok document) :
    document.Orderly := by
  have hnumeric := Json.numeric_parse? hparse
  unfold accepted at h
  split at h
  · exact Document.orderly_ofJson hnumeric h
  · exact Document.orderly_ofJsonUnder hnumeric h

/-- The check fails where the graph shows no document, or one that is not the same. -/
theorem roundTrip_eq_error {document : Document} {graph : Graph Float} {reason : String} :
    roundTrip document graph = .error reason ↔
      (∃ e, graph.document = .error e ∧ reason = "Reconstruction failed: " ++ e.message) ∨
      ∃ rebuilt, graph.document = .ok rebuilt ∧ Document.same rebuilt document = false ∧
        reason = "Round trip produced a different document" := by
  rw [roundTrip]
  cases graph.document with
  | error e => simp [@eq_comm _ reason]
  | ok rebuilt =>
      cases hsame : Document.same rebuilt document with
      | false => simp [hsame, @eq_comm _ reason]
      | true => simp [hsame]

/-- The check notices that an operation is another one. -/
theorem roundTrip_of_names_ne {document rebuilt : Document} {graph : Graph Float}
    (hrebuilt : graph.document = .ok rebuilt)
    (hnames : rebuilt.map Expression.names ≠ document.map Expression.names) :
    roundTrip document graph = .error "Round trip produced a different document" := by
  refine roundTrip_eq_error.mpr (Or.inr ⟨rebuilt, hrebuilt, ?_, rfl⟩)
  rw [← Bool.not_eq_true]
  exact fun hsame => hnames (Document.names_eq_of_same hsame)

theorem roundTrip_document {document : Document} (h : document.Orderly) (layout : Layout Float)
    (keys : Nat → Key) :
    roundTrip document (layout.document keys document) =
      .ok ("\nRound trip: OK (" ++ toString document.length ++ " expressions)\n") := by
  have hnone := Document.firstUnnamed?_eq_none_iff.mpr h.names
  rw [roundTrip, layout.document_document, hnone]
  dsimp only
  rw [if_pos h.same_self]

theorem rest_run {text : String} {v : Json} {config : LayoutConfig Float} {document : Document}
    (keys : Nat → Key) (hread : read options.documentPath = .ok text)
    (hparse : Json.parse? text = some v) (hconfig : configuration read options = .ok config)
    (haccepted : accepted .standard options v = .ok document) :
    (run read keys options).rest =
      .ok ("\nRound trip: OK (" ++ toString document.length ++ " expressions)\n") := by
  have hpresent : run read keys options = present options ⟨.standard, config⟩ keys document := by
    rw [run, hread]
    dsimp only
    rw [hparse]
    dsimp only
    rw [hconfig]
    dsimp only
    rw [haccepted]
  rw [hpresent]
  exact roundTrip_document (orderly_accepted hparse haccepted) _ keys

end CommandLine

/-! ## The round trip -/

theorem Document.exists_firstUnnamed {document : Document} (h : ∃ e ∈ document, "" ∈ e.names) :
    ∃ entry, document.operations.find? (fun entry => entry.2.name == "") = some entry ∧
      document.firstUnnamed? = some entry.1 := by
  cases hfirst : document.operations.find? fun entry => entry.2.name == "" with
  | some entry => exact ⟨entry, rfl, by rw [firstUnnamed?, hfirst]; rfl⟩
  | none =>
      have hnone : document.firstUnnamed? = none := by
        rw [firstUnnamed?, hfirst]
        rfl
      obtain ⟨e, he, hname⟩ := h
      exact absurd hname (firstUnnamed?_eq_none_iff.mp hnone e he)

/-- Rebuilding inverts drawing. A document whose operations all have names comes back as it was, and
so does a single expression from its first node; else the first operation without a name, depth
first and left to right, is reported under the id of its path. The command line thus finds every
document that it accepts unchanged. -/
theorem rebuild_inverts_drawing {α : Type} [Scalar α] (layout : Layout α) (keys : Nat → Key) :
    (∀ document : Document, (∀ e ∈ document, "" ∉ e.names) →
      (layout.document keys document).document = .ok document) ∧
    (∀ document : Document, (∃ e ∈ document, "" ∈ e.names) →
      ∃ entry, document.operations.find? (fun entry => entry.2.name == "") = some entry ∧
        (layout.document keys document).document = .error (.unnamedOperation (idOfPath entry.1))) ∧
    (∀ e : Expression, "" ∉ e.names → (layout.single keys e).rebuild "root.0" = .ok e) ∧
    (∀ e : Expression, "" ∈ e.names →
      ∃ entry, (Document.operations [e]).find? (fun entry => entry.2.name == "") = some entry ∧
        (layout.single keys e).rebuild "root.0" =
          .error (.unnamedOperation (idOfPath entry.1))) ∧
    (∀ (read : String → Except String String) (options : CommandLine.Options) (text : String)
      (v : Json) (config : LayoutConfig Float) (document : Document),
      read options.documentPath = .ok text → Json.parse? text = some v →
      CommandLine.configuration read options = .ok config →
      CommandLine.accepted .standard options v = .ok document →
      (CommandLine.run read keys options).rest =
        .ok ("\nRound trip: OK (" ++ toString document.length ++ " expressions)\n")) := by
  refine ⟨?_, ?_, ?_, ?_, ?_⟩
  · intro document hnames
    rw [layout.document_document, Document.firstUnnamed?_eq_none_iff.mpr hnames]
  · intro document hunnamed
    obtain ⟨entry, hentry, hfirst⟩ := Document.exists_firstUnnamed hunnamed
    refine ⟨entry, hentry, ?_⟩
    rw [layout.document_document, hfirst]
  · intro e hnames
    have hnone : Document.firstUnnamed? [e] = none :=
      Document.firstUnnamed?_eq_none_iff.mpr (List.forall_mem_singleton.mpr hnames)
    rw [layout.rebuild_single, hnone]
  · intro e hunnamed
    have hsingle : ∃ other ∈ ([e] : Document), "" ∈ other.names :=
      ⟨e, List.mem_cons_self, hunnamed⟩
    obtain ⟨entry, hentry, hfirst⟩ := Document.exists_firstUnnamed hsingle
    refine ⟨entry, hentry, ?_⟩
    rw [layout.rebuild_single, hfirst]
  · intro read options text v config document hread hparse hconfig haccepted
    exact CommandLine.rest_run keys hread hparse hconfig haccepted

/-- A named and an unnamed operation, drawn by a layout that knows neither, and the text of two
operations that are known, in a file that the command line checks. -/
theorem rebuild_inverts_drawing_unknown :
    let layout : Layout Float := ⟨Registry.empty, LayoutConfig.standard⟩
    let named : Document := [⟨"IF", [.nested "NOT" [.literal (.text "x")]]⟩]
    let unnamed : Document := [⟨"IF", [.literal (.text "x"), .nested "" []]⟩]
    let text := "[\x7b\"name\":\"IF\",\"data\":[\x7b\"dtype\":\"exp\"," ++
      "\"exp\":\x7b\"name\":\"and\"\x7d\x7d]\x7d]"
    let read := fun path => if path = "rules.json" then .ok text else .error "no such file"
    let options : CommandLine.Options := ⟨"rules.json", some .knownOperations, none, none, false⟩
    (layout.document Key.ofNat named).document = .ok named ∧
      (layout.document Key.ofNat unnamed).document = .error (.unnamedOperation "root.0.1") ∧
      CommandLine.accepted .standard options
        (.array [.object [("name", .string "IF"), ("data", .array [.object
          [("dtype", .string "exp"), ("exp", .object [("name", .string "and")])]])]]) =
        .ok [⟨"IF", [.nested "and" []]⟩] ∧
      (CommandLine.run read Key.ofNat options).rest = .ok "\nRound trip: OK (1 expressions)\n" := by
  intro layout named unnamed text read options
  obtain ⟨hnamed, hunnamed, _, _, hchecked⟩ := rebuild_inverts_drawing layout Key.ofNat
  have hparse : Json.parse? text = some (.array [.object [("name", .string "IF"),
      ("data", .array [.object
        [("dtype", .string "exp"), ("exp", .object [("name", .string "and")])]])]]) := by
    cbv
  refine ⟨hnamed named ?_, ?_, rfl, hchecked read options text _ _ _ rfl hparse rfl rfl⟩
  · simp [named, Expression.names, Argument.namesAll, Argument.names]
  · obtain ⟨entry, hentry, hreport⟩ := hunnamed unnamed ⟨_, List.mem_cons_self, by
      simp [Expression.names, Argument.namesAll, Argument.names]⟩
    have hpath : entry = ([0, 1], ⟨"", []⟩) := by
      simpa [unnamed, Document.operations, Argument.operationsFrom, Argument.ofExpression,
        Argument.operations, eq_comm] using hentry
    rw [hreport, hpath]
    rfl

end RuleGraph
