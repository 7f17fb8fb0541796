import RuleGraph.Graph.Walk
import RuleGraph.Proofs.Locality
import RuleGraph.Proofs.Traces

/-!
# One walker for all roots

The walker that the roots share is the same before and after a visit, but for the keys and ids that
it notes: what an operation puts on the stack is taken off when it is left, and so is each position
from the path. A visit therefore depends on no earlier one, and finds what the node unfolds to. The
keys need an invariant of their own, as a second key at one path would replace the first: nothing is
noted yet at the path of a visit, nor behind it.
-/

namespace RuleGraph

namespace Walker

/-- The walker after some visits: with their keys and ids, and otherwise as it was. -/
def after (walker : Walker) (found : List Unfolding) : Walker :=
  { walker with
    keys := walker.keys ++ found.flatMap Unfolding.keys
    visited := walker.visited ++ found.flatMap Unfolding.visited }

@[simp] theorem after_nil (walker : Walker) : walker.after [] = walker := by
  simp [after]

@[simp] theorem after_after (walker : Walker) (found others : List Unfolding) :
    (walker.after found).after others = walker.after (found ++ others) := by
  simp [after]

/-- A literal leaves no trace. -/
theorem after_literal (walker : Walker) (value : Literal) :
    walker.after [⟨.literal value, [], []⟩] = walker := by
  simp [after]

theorem pop_after_push (walker : Walker) (position : Nat) (found : List Unfolding) :
    ((walker.push position).after found).pop = walker.after found := by
  simp [push, after, pop]

/-- No key is noted for the path, or for a longer one that starts with it. -/
def Free (walker : Walker) (path : List Nat) : Prop :=
  ∀ noted ∈ walker.keys, ¬ path <+: noted.1

theorem free_fresh (path : List Nat) : fresh.Free path :=
  fun _ hnoted => absurd hnoted List.not_mem_nil

/-- What is noted at one position is not below another one. -/
theorem Free.after {walker : Walker} {path : List Nat} {position other : Nat}
    (h : walker.Free (path ++ [other])) (hne : other ≠ position) {found : List Unfolding}
    (hfound : ∀ u ∈ found, ∀ noted ∈ u.keys, path ++ [position] <+: noted.1) :
    (walker.after found).Free (path ++ [other]) := by
  intro noted hnoted hbelow
  rcases List.mem_append.mp hnoted with hold | hnew
  · exact h noted hold hbelow
  · obtain ⟨u, hu, hkey⟩ := List.mem_flatMap.mp hnew
    have hsame := (List.prefix_of_prefix_length_le hbelow (hfound u hu noted hkey)
      (by simp)).eq_of_length (by simp)
    rw [List.append_right_inj, List.singleton_inj] at hsame
    exact hne hsame

theorem keys_enter {α : Type} {walker : Walker} (h : walker.Free walker.path) (node : Node α) :
    ((walker.meet node).enter node).keys = walker.keys ++ [(walker.path, node.key)] :=
  Table.put_of_forall_ne (fun noted hnoted heq => h noted hnoted (heq ▸ List.prefix_rfl)) _

/-- An operation is left with its key and its id noted before those of its arguments. -/
theorem leave_enter {α : Type} {walker : Walker} (h : walker.Free walker.path) (node : Node α)
    (arguments : List Unfolding) (a : Argument) :
    (((walker.meet node).enter node).after arguments).leave node =
      walker.after [⟨a, (walker.path, node.key) :: arguments.flatMap Unfolding.keys,
        node.id :: arguments.flatMap Unfolding.visited⟩] := by
  rw [leave, after, keys_enter h node]
  simp [after, enter, meet]

end Walker

namespace Graph

variable {α : Type} {graph : Graph α}

/-! ## Positions -/

theorem run_walkPosition {visit : Node α → Walk Argument}
    {unfold : Node α → Except RebuildError Unfolding} {position : Nat} {walker : Walker}
    (h : ∀ target, (visit target).run (walker.push position) =
      (unfold target).map fun u => (u.argument, (walker.push position).after [u]))
    (node : Node α) (inline : List (Option Literal)) :
    (graph.index.walkPosition visit node inline position).run walker =
      (graph.index.fillPosition unfold node inline position).map fun found =>
        (found.map Unfolding.argument, walker.after found.toList) := by
  unfold GraphIndex.walkPosition GraphIndex.fillPosition
  cases graph.index.edgeFrom? node.id position with
  | some edge =>
      dsimp only
      cases graph.index.node? edge.target with
      | none => rfl
      | some target =>
          dsimp only
          simp only [StateT.run_bind, StateT.run_modify, StateT.run_pure, pure_bind, h]
          cases unfold target with
          | error e => rfl
          | ok u => exact congrArg (fun w => Except.ok (_, w)) (walker.pop_after_push position [u])
  | none =>
      dsimp only
      have hempty : StateT.run (if (node.slot? position).any fun slot => slot.required then
            throw (node.missingSlot position) else pure none : Walk (Option Argument)) walker =
          Except.map (fun found : Option Unfolding =>
              (found.map Unfolding.argument, walker.after found.toList))
            (if (node.slot? position).any fun slot => slot.required then
              .error (node.missingSlot position) else .ok none) := by
        split
        · rfl
        · exact congrArg (fun w => Except.ok (none, w)) walker.after_nil.symm
      rcases inline[position]? with _ | _ | value
      · exact hempty
      · exact hempty
      · exact congrArg (fun w => Except.ok (some (Argument.literal value), w))
          (walker.after_literal value).symm

theorem prefix_of_unfold {fuel : Nat} {above : List String} {path : List Nat} {node : Node α}
    {u : Unfolding} (hunfold : graph.index.unfold fuel above path node = .ok u) :
    ∀ noted ∈ u.keys, path <+: noted.1 := by
  intro noted hnoted
  obtain ⟨entry, _, hpath, _⟩ := exists_of_forall₂ (unfold_keys fuel hunfold) noted hnoted
  rw [hpath]
  exact List.prefix_append path entry.1

/-- The walker is between the visits of the arguments of an operation: it has noted nothing for the
positions that are left. -/
structure Between (above : List String) (path positions : List Nat) (walker : Walker) : Prop where
  visiting_eq : walker.visiting = above
  stack_eq : walker.stack = above.reverse
  path_eq : walker.path = path
  nodup : positions.Nodup
  free : ∀ position ∈ positions, walker.Free (path ++ [position])

theorem Between.enter {walker : Walker} (hstack : walker.stack = walker.visiting.reverse)
    (hfree : walker.Free walker.path) (node : Node α) {positions : List Nat}
    (hnodup : positions.Nodup) :
    Between (node.id :: walker.visiting) walker.path positions
      ((walker.meet node).enter node) where
  visiting_eq := rfl
  stack_eq := by
    rw [List.reverse_cons, ← hstack]
    rfl
  path_eq := rfl
  nodup := hnodup
  free := by
    intro position _ noted hnoted hbelow
    rw [Walker.keys_enter hfree] at hnoted
    rcases List.mem_append.mp hnoted with hold | hself
    · exact hfree noted hold ((List.prefix_append _ _).trans hbelow)
    · rw [List.mem_singleton.mp hself] at hbelow
      have hlength := hbelow.length_le
      rw [List.length_append, List.length_singleton] at hlength
      exact Nat.not_succ_le_self _ hlength

theorem Between.step {above : List String} {path rest : List Nat} {position fuel : Nat}
    {walker : Walker} (h : Between above path (position :: rest) walker) {node : Node α}
    {inline : List (Option Literal)} {found : Option Unfolding}
    (hfill : graph.index.fillPosition (graph.index.unfold fuel above (path ++ [position])) node
      inline position = .ok found) : Between above path rest (walker.after found.toList) where
  visiting_eq := h.visiting_eq
  stack_eq := h.stack_eq
  path_eq := h.path_eq
  nodup := (List.nodup_cons.mp h.nodup).2
  free := by
    intro other hother
    have hne : other ≠ position := by
      rintro rfl
      exact (List.nodup_cons.mp h.nodup).1 hother
    refine (h.free other (List.mem_cons_of_mem _ hother)).after hne ?_
    intro u hu
    rw [Option.mem_toList] at hu
    subst hu
    rcases fillPosition_eq_some.mp hfill with ⟨_, target, _, _, hunfold⟩ | ⟨_, _, _, rfl⟩
    · exact prefix_of_unfold hunfold
    · exact fun _ hkey => absurd hkey List.not_mem_nil

/-! ## Visits -/

/-- A visit finds what the node unfolds to, and leaves the walker as it was, but for the keys and
ids that it notes. -/
def Visits (graph : Graph α) (fuel : Nat) : Prop :=
  ∀ (node : Node α) (walker : Walker), walker.stack = walker.visiting.reverse →
    walker.Free walker.path →
      (graph.index.walk fuel node).run walker =
        (graph.index.unfold fuel walker.visiting walker.path node).map fun u =>
          (u.argument, walker.after [u])

theorem Visits.run_positions {fuel : Nat} (hvisits : graph.Visits fuel) (node : Node α)
    (inline : List (Option Literal)) {above : List String} {path positions : List Nat}
    {walker : Walker} (h : Between above path positions walker) :
    (positions.mapM fun position =>
      graph.index.walkPosition (graph.index.walk fuel) node inline position).run walker =
    (positions.mapM fun position => graph.index.fillPosition
      (graph.index.unfold fuel above (path ++ [position])) node inline position).map fun found =>
        (found.map (Option.map Unfolding.argument), walker.after (found.filterMap id)) := by
  induction positions generalizing walker with
  | nil => exact congrArg (fun w => Except.ok ([], w)) walker.after_nil.symm
  | cons position rest ih =>
      have hbelow : ∀ target, (graph.index.walk fuel target).run (walker.push position) =
          (graph.index.unfold fuel above (path ++ [position]) target).map fun u =>
            (u.argument, (walker.push position).after [u]) := by
        intro target
        have hfree : (walker.push position).Free (walker.push position).path := by
          rw [Walker.push, h.path_eq]
          exact h.free position List.mem_cons_self
        have hstack : (walker.push position).stack = (walker.push position).visiting.reverse :=
          h.stack_eq.trans (congrArg List.reverse h.visiting_eq.symm)
        rw [hvisits target _ hstack hfree, Walker.push, h.visiting_eq, h.path_eq]
      rw [List.mapM_cons, List.mapM_cons, StateT.run_bind, run_walkPosition hbelow]
      cases hfill : graph.index.fillPosition
          (graph.index.unfold fuel above (path ++ [position])) node inline position with
      | error e => rfl
      | ok found =>
          change StateT.run
            (rest.mapM (graph.index.walkPosition (graph.index.walk fuel) node inline) >>=
              fun results => pure (found.map Unfolding.argument :: results))
            (walker.after found.toList) = _
          rw [StateT.run_bind, ih (h.step hfill)]
          cases rest.mapM fun position => graph.index.fillPosition
              (graph.index.unfold fuel above (path ++ [position])) node inline position with
          | error e => rfl
          | ok results =>
              refine congrArg (fun w => Except.ok (_, w)) ((walker.after_after _ _).trans ?_)
              cases found <;> rfl

theorem run_walkSettled (node : Node α) (name : String) (positions : List (Option Unfolding))
    (walker : Walker) :
    (GraphIndex.walkSettled node name (positions.map (Option.map Unfolding.argument))).run walker =
      (GraphIndex.settlePositions node positions).map fun arguments =>
        (.nested name (arguments.map Unfolding.argument), walker.leave node) := by
  unfold GraphIndex.walkSettled
  dsimp only
  have hsettled := map_settlePositions node positions
  cases hgap : (dropTrailingEmpty (positions.map (Option.map Unfolding.argument))).findIdx?
      Option.isNone with
  | some gap =>
      rw [hgap] at hsettled
      cases hsettle : GraphIndex.settlePositions node positions with
      | error e =>
          rw [hsettle] at hsettled
          rw [Except.error.inj hsettled]
          rfl
      | ok arguments =>
          rw [hsettle] at hsettled
          cases hsettled
  | none =>
      rw [hgap] at hsettled
      cases hsettle : GraphIndex.settlePositions node positions with
      | error e =>
          rw [hsettle] at hsettled
          cases hsettled
      | ok arguments =>
          rw [hsettle] at hsettled
          rw [← Except.ok.inj hsettled]
          rfl

theorem visits (graph : Graph α) (fuel : Nat) : graph.Visits fuel := by
  induction fuel with
  | zero =>
      intro node walker hstack _
      rw [GraphIndex.unfold, List.reverse_cons, ← hstack]
      rfl
  | succ fuel ih =>
      intro node walker hstack hfree
      rw [GraphIndex.walk, GraphIndex.unfold, StateT.run_bind, StateT.run_modify, pure_bind]
      cases node.content with
      | constant value =>
          refine congrArg (fun w => Except.ok (Argument.literal value, w)) ?_
          simp [Walker.after, Walker.meet]
      | operation name inline =>
          dsimp only
          rw [StateT.run_bind, StateT.run_get, pure_bind]
          dsimp only
          by_cases habove : node.id ∈ walker.visiting
          · rw [if_pos habove, List.reverse_cons, ← hstack]
            have hmet : node.id ∈ (walker.meet node).visiting := habove
            rw [if_pos hmet]
            rfl
          have hmet : node.id ∉ (walker.meet node).visiting := habove
          rw [if_neg habove, if_neg hmet]
          by_cases hname : name = ""
          · rw [if_pos hname, if_pos hname]
            rfl
          have hbetween := Between.enter hstack hfree node
            (List.nodup_range (n := argumentCount node.slots inline))
          rw [if_neg hname, if_neg hname, StateT.run_bind, StateT.run_modify, pure_bind]
          by_cases hoverflows : overflows node.slots inline = true
          · rw [if_pos hoverflows, if_pos hoverflows]
            rfl
          rw [if_neg hoverflows, if_neg hoverflows, StateT.run_bind,
            ih.run_positions node inline hbetween]
          cases (List.range (argumentCount node.slots inline)).mapM fun position =>
              graph.index.fillPosition (graph.index.unfold fuel (node.id :: walker.visiting)
                (walker.path ++ [position])) node inline position with
          | error e => rfl
          | ok found =>
              refine (run_walkSettled node name found
                (((walker.meet node).enter node).after (found.filterMap id))).trans ?_
              change _ = Except.map _ (GraphIndex.settlePositions node found >>= _)
              cases hsettle : GraphIndex.settlePositions node found with
              | error e => rfl
              | ok arguments =>
                  obtain ⟨count, rfl⟩ := settlePositions_eq_ok.mp hsettle
                  have hfilled : (arguments.map some ++ List.replicate count none).filterMap id =
                      arguments := by simp
                  rw [hfilled]
                  exact congrArg (fun w => Except.ok (_, w))
                    (Walker.leave_enter hfree node arguments _)

/-! ## Roots -/

theorem run_walkRoot {fuel : Nat} {walker : Walker} (hvisiting : walker.visiting = [])
    (hstack : walker.stack = []) {path : List Nat} (hfree : walker.Free path) (id : String) :
    (graph.index.walkRoot fuel id path).run walker =
      (graph.index.unfoldRoot fuel id path).map fun found =>
        (found.1, { walker with path }.after [found.2]) := by
  unfold GraphIndex.walkRoot GraphIndex.unfoldRoot
  cases graph.index.node? id with
  | none => rfl
  | some node =>
      dsimp only
      by_cases hconstant : node.content.isConstant = true
      · rw [if_pos hconstant, if_pos hconstant]
        rfl
      have hvisit : (graph.index.walk fuel node).run { walker with path } =
          (graph.index.unfold fuel [] path node).map fun u =>
            (u.argument, { walker with path }.after [u]) := by
        rw [graph.visits fuel node { walker with path }
          (hstack.trans (congrArg List.reverse hvisiting.symm)) hfree, hvisiting]
      rw [if_neg hconstant, if_neg hconstant, StateT.run_bind, StateT.run_modify, pure_bind,
        StateT.run_bind, hvisit]
      cases graph.index.unfold fuel [] path node with
      | error e => rfl
      | ok u =>
          dsimp only [Except.map, bind, Except.bind]
          cases u.argument.expression? <;> rfl

theorem run_roots (graph : Graph α) (fuel : Nat) {roots : List (String × Nat)}
    (hnodup : (roots.map Prod.snd).Nodup) {walker : Walker} (hvisiting : walker.visiting = [])
    (hstack : walker.stack = []) (hfree : ∀ root ∈ roots, walker.Free [root.2]) :
    ((roots.mapM fun root => graph.index.walkRoot fuel root.1 [root.2]).run walker).map
        (fun result => Trace.mk result.1 result.2.keys result.2.visited) =
      (roots.mapM fun root => graph.index.unfoldRoot fuel root.1 [root.2]).map fun found =>
        ⟨found.map Prod.fst, walker.keys ++ found.flatMap fun entry => entry.2.keys,
          walker.visited ++ found.flatMap fun entry => entry.2.visited⟩ := by
  induction roots generalizing walker with
  | nil =>
      refine congrArg Except.ok (congrArg₂ (Trace.mk []) ?_ ?_)
      · exact (List.append_nil _).symm
      · exact (List.append_nil _).symm
  | cons root rest ih =>
      obtain ⟨id, index⟩ := root
      rw [List.mapM_cons, List.mapM_cons, StateT.run_bind,
        run_walkRoot hvisiting hstack (hfree _ List.mem_cons_self)]
      rw [List.map_cons, List.nodup_cons] at hnodup
      cases hroot : graph.index.unfoldRoot fuel id [index] with
      | error e => rfl
      | ok entry =>
          have hleft : ∀ other ∈ rest,
              ({ walker with path := [index] }.after [entry.2]).Free [other.2] := by
            intro other hother
            have hne : other.2 ≠ index :=
              fun hsame => hnodup.1 (List.mem_map.mpr ⟨other, hother, hsame⟩)
            have hold : { walker with path := [index] }.Free ([] ++ [other.2]) :=
              hfree other (List.mem_cons_of_mem _ hother)
            refine hold.after hne ?_
            intro u hu
            rw [List.mem_singleton.mp hu]
            obtain ⟨node, _, hunfold, _⟩ := unfoldRoot_eq_ok.mp hroot
            exact prefix_of_unfold hunfold
          change Except.map _ (StateT.run (rest.mapM (fun root =>
              graph.index.walkRoot fuel root.1 [root.2]) >>= fun es => pure (entry.1 :: es))
                ({ walker with path := [index] }.after [entry.2])) =
            Except.map _ ((rest.mapM fun root => graph.index.unfoldRoot fuel root.1 [root.2]) >>=
              fun found => pure (entry :: found))
          rw [StateT.run_bind]
          refine bind_map_congr (ih hnodup.2 hvisiting hstack hleft) ?_
          intro result found hsame
          obtain ⟨hexpressions, hkeys, hvisited⟩ := Trace.mk.inj hsame
          change Except.ok (Trace.mk (entry.1 :: result.1) result.2.keys result.2.visited) = _
          rw [hexpressions, hkeys, hvisited]
          simp only [Walker.after, List.flatMap_cons, List.flatMap_nil, List.append_nil,
            List.append_assoc]
          rfl

theorem walkRoots_eq_trace (graph : Graph α) : graph.walkRoots = graph.trace := by
  have hnodup : (graph.roots.zipIdx.map Prod.snd).Nodup := by
    rw [List.zipIdx_map_snd]
    exact List.nodup_range'
  have hrun := run_roots graph graph.nestingBound hnodup rfl rfl fun _ _ => Walker.free_fresh _
  exact hrun

theorem walkFrom_eq_rebuild (graph : Graph α) : graph.walkFrom = graph.rebuild := by
  funext id
  rw [walkFrom, run_walkRoot rfl rfl (Walker.free_fresh []), rebuild]
  cases graph.index.unfoldRoot graph.nestingBound id [] <;> rfl

/-- At which index a root stands plays no part in what it is rebuilt to. -/
theorem unfoldRoot_path (graph : Graph α) (id : String) (path : List Nat) :
    (graph.index.unfoldRoot graph.nestingBound id path).map Prod.fst = graph.rebuild id :=
  (Mirrors.refl graph).unfoldRoot (Nat.lt_succ_self _) (Nat.lt_succ_self _) (Set.mem_univ _) path []

theorem document_eq_mapM_rebuild (graph : Graph α) :
    graph.document = graph.roots.mapM graph.rebuild := by
  have hpaths : ∀ root ∈ graph.roots.zipIdx,
      (graph.index.unfoldRoot graph.nestingBound root.1 [root.2]).map Prod.fst =
        (graph.rebuild root.1).map id := by
    intro root _
    rw [Except.map_id, id, unfoldRoot_path]
  calc graph.document
      = (graph.roots.zipIdx.mapM fun root =>
          graph.index.unfoldRoot graph.nestingBound root.1 [root.2]).map (List.map Prod.fst) := by
        rw [document, trace]
        cases graph.roots.zipIdx.mapM fun root =>
          graph.index.unfoldRoot graph.nestingBound root.1 [root.2] <;> rfl
    _ = graph.roots.zipIdx.mapM fun root => graph.rebuild root.1 := by
        rw [mapM_map_congr hpaths, List.map_id_fun, Except.map_id, id]
    _ = (graph.roots.zipIdx.map Prod.fst).mapM graph.rebuild := by
        rw [List.mapM_map]
        rfl
    _ = graph.roots.mapM graph.rebuild := by rw [List.zipIdx_map_fst]

/-- The document is rebuilt by one walker exactly as each root is by a walker of its own: it comes
to the same expressions, or to the error of the first root that has one. -/
theorem walkRoots_exact (graph : Graph α) :
    graph.walkRoots = graph.trace ∧ graph.walkFrom = graph.rebuild ∧
      graph.walkRoots.map Trace.expressions = graph.roots.mapM graph.walkFrom ∧
      graph.document = graph.roots.mapM graph.rebuild := by
  refine ⟨graph.walkRoots_eq_trace, graph.walkFrom_eq_rebuild, ?_, graph.document_eq_mapM_rebuild⟩
  rw [walkRoots_eq_trace, walkFrom_eq_rebuild]
  exact graph.document_eq_mapM_rebuild

end Graph

end RuleGraph
