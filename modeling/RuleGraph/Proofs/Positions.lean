import RuleGraph.Graph.Rebuild
import RuleGraph.Proofs.Computations
import RuleGraph.Proofs.Lookup

/-!
# Positions of an operation

What fills one position of an operation node, when all positions are filled without an error, and
which of them become arguments. Each step is turned from a computation that may fail into a
statement about single positions.
-/

namespace RuleGraph

theorem Argument.expression?_eq_some_iff {a : Argument} {e : Expression} :
    a.expression? = some e ↔ a = .ofExpression e := by
  cases a with
  | literal value => simp [Argument.expression?, Argument.ofExpression]
  | nested name arguments =>
      obtain ⟨name', arguments'⟩ := e
      simp [Argument.expression?, Argument.ofExpression]

theorem Node.exists_operation {α : Type} {node : Node α} (h : node.content.isConstant = false) :
    ∃ name inline, node.content = .operation name inline := by
  cases hcontent : node.content with
  | constant value =>
      rw [hcontent] at h
      cases h
  | operation name inline => exact ⟨name, inline, rfl⟩

/-! ## Settling -/

theorem le_foldl_count {β : Type} (f : β → Nat) (entries : List β) (count : Nat) :
    count ≤ entries.foldl (fun count entry => max count (f entry)) count := by
  induction entries generalizing count with
  | nil => exact Nat.le_refl _
  | cons entry rest ih =>
      rw [List.foldl_cons]
      exact Nat.le_trans (Nat.le_max_left _ _) (ih _)

theorem le_foldl_count_of_mem {β : Type} (f : β → Nat) {entries : List β} {entry : β}
    (h : entry ∈ entries) (count : Nat) :
    f entry ≤ entries.foldl (fun count entry => max count (f entry)) count := by
  induction entries generalizing count with
  | nil => cases h
  | cons first rest ih =>
      rw [List.foldl_cons]
      rcases List.mem_cons.mp h with rfl | hrest
      · exact Nat.le_trans (Nat.le_max_right _ _) (le_foldl_count f rest _)
      · exact ih hrest _

theorem length_le_argumentCount (slots : List Slot) (inline : List (Option Literal)) :
    inline.length ≤ argumentCount slots inline :=
  le_foldl_count (fun slot : Slot => slot.index + 1) slots inline.length

theorem index_lt_argumentCount {slots : List Slot} {slot : Slot} (h : slot ∈ slots)
    (inline : List (Option Literal)) : slot.index < argumentCount slots inline :=
  le_foldl_count_of_mem (fun slot : Slot => slot.index + 1) h inline.length

theorem overflows_eq_false_iff {slots : List Slot} {inline : List (Option Literal)} :
    overflows slots inline = false ↔
      ∀ slot ∈ slots, slot.index < inline.length ∨ slot.index + 1 < UInt64.size := by
  simp only [overflows, List.any_eq_false, Bool.and_eq_true, decide_eq_true_eq]
  refine forall₂_congr fun slot _ => ?_
  omega

/-- No slot of an operation is at the last word, unless there are inline positions up to it. -/
def Node.Counted {α : Type} (node : Node α) : Prop :=
  ∀ name inline, node.content = .operation name inline → ∀ slot ∈ node.slots,
    slot.index < inline.length ∨ slot.index + 1 < UInt64.size

/-- To count the positions of the operation does not overflow. -/
theorem Node.Counted.overflows_eq_false {α : Type} {node : Node α} (h : node.Counted)
    {name : String} {inline : List (Option Literal)}
    (hcontent : node.content = .operation name inline) : overflows node.slots inline = false :=
  overflows_eq_false_iff.mpr (h name inline hcontent)

theorem dropTrailingEmpty_append {β : Type} (entries : List (Option β)) :
    ∃ count, entries = dropTrailingEmpty entries ++ List.replicate count none := by
  induction entries with
  | nil => exact ⟨0, rfl⟩
  | cons entry rest ih =>
      obtain ⟨count, hrest⟩ := ih
      cases entry with
      | some value => exact ⟨count, congrArg (some value :: ·) hrest⟩
      | none =>
          cases hkept : dropTrailingEmpty rest with
          | nil =>
              have hdrop : dropTrailingEmpty (none :: rest) = [] := by
                unfold dropTrailingEmpty
                rw [hkept]
              rw [hkept] at hrest
              rw [hdrop]
              exact ⟨count + 1, congrArg (none :: ·) hrest⟩
          | cons first kept =>
              have hdrop : dropTrailingEmpty (none :: rest) = none :: first :: kept := by
                unfold dropTrailingEmpty
                rw [hkept]
              rw [hkept] at hrest
              rw [hdrop]
              exact ⟨count, congrArg (none :: ·) hrest⟩

theorem getLast?_dropTrailingEmpty {β : Type} (entries : List (Option β)) :
    (dropTrailingEmpty entries).getLast? ≠ some none := by
  induction entries with
  | nil => simp [dropTrailingEmpty]
  | cons entry rest ih =>
      unfold dropTrailingEmpty
      split
      · simp
      · rename_i hkept
        rw [List.getLast?_cons]
        cases hlast : (dropTrailingEmpty rest).getLast? with
        | some last =>
            rw [hlast] at ih
            simpa using ih
        | none =>
            rw [List.getLast?_eq_none_iff] at hlast
            intro hentry
            exact hkept (by simpa using hentry) hlast

/-- An empty position that is kept is before a filled one. -/
theorem exists_filled_of_dropTrailingEmpty {β : Type} {entries : List (Option β)} {gap : Nat}
    (h : (dropTrailingEmpty entries)[gap]? = some none) :
    ∃ later value, gap < later ∧ (dropTrailingEmpty entries)[later]? = some (some value) := by
  have hlast := getLast?_dropTrailingEmpty entries
  rw [List.getLast?_eq_getElem?] at hlast
  generalize dropTrailingEmpty entries = kept at h hlast
  have hgap := (List.getElem?_eq_some_iff.mp h).1
  have hend : kept.length - 1 < kept.length := by omega
  cases hvalue : kept[kept.length - 1] with
  | none => exact absurd (hvalue ▸ List.getElem?_eq_getElem hend) hlast
  | some value =>
      have hfilled : kept[kept.length - 1]? = some (some value) :=
        hvalue ▸ List.getElem?_eq_getElem hend
      have hne : gap ≠ kept.length - 1 := by
        intro hsame
        rw [hsame, hfilled] at h
        cases h
      exact ⟨kept.length - 1, value, by omega, hfilled⟩

theorem dropTrailingEmpty_replicate {β : Type} (count : Nat) :
    dropTrailingEmpty (List.replicate count (none : Option β)) = [] := by
  induction count with
  | zero => rfl
  | succ count ih =>
      rw [List.replicate_succ, dropTrailingEmpty]
      rw [ih]

theorem dropTrailingEmpty_filled {β : Type} (filled : List β) (count : Nat) :
    dropTrailingEmpty (filled.map some ++ List.replicate count none) = filled.map some := by
  induction filled with
  | nil => exact dropTrailingEmpty_replicate count
  | cons entry rest ih => exact congrArg (some entry :: ·) ih

theorem map_some_filterMap_id {β : Type} {entries : List (Option β)}
    (h : ∀ entry ∈ entries, entry.isNone = false) : (entries.filterMap id).map some = entries := by
  induction entries with
  | nil => rfl
  | cons entry rest ih =>
      have hrest := ih fun other hother => h other (List.mem_cons_of_mem _ hother)
      cases entry with
      | none => cases h none List.mem_cons_self
      | some value => exact congrArg (some value :: ·) hrest

/-- The arguments are the filled positions, if only positions at the end are empty. -/
theorem settlePositions_eq_ok {α : Type} {node : Node α} {positions : List (Option Unfolding)}
    {filled : List Unfolding} :
    GraphIndex.settlePositions node positions = .ok filled ↔
      ∃ count, positions = filled.map some ++ List.replicate count none := by
  unfold GraphIndex.settlePositions
  constructor
  · intro h
    obtain ⟨count, hpositions⟩ := dropTrailingEmpty_append positions
    dsimp only at h
    split at h
    · cases h
    · rename_i hgap
      cases h
      refine ⟨count, ?_⟩
      rw [map_some_filterMap_id (List.findIdx?_eq_none_iff.mp hgap)]
      exact hpositions
  · intro h
    obtain ⟨count, rfl⟩ := h
    have hgap : (filled.map some).findIdx? Option.isNone = none := by
      rw [List.findIdx?_eq_none_iff]
      intro entry hentry
      obtain ⟨u, _, rfl⟩ := List.mem_map.mp hentry
      rfl
    dsimp only
    rw [dropTrailingEmpty_filled, hgap]
    simp

theorem dropTrailingEmpty_map {β γ : Type} (f : β → γ) (entries : List (Option β)) :
    dropTrailingEmpty (entries.map (Option.map f)) =
      (dropTrailingEmpty entries).map (Option.map f) := by
  induction entries with
  | nil => rfl
  | cons entry rest ih =>
      rw [List.map_cons]
      unfold dropTrailingEmpty
      rw [ih]
      cases entry with
      | some value => rfl
      | none => cases dropTrailingEmpty rest <;> rfl

/-- Which arguments are settled on depends only on what the positions unfold to. -/
theorem map_settlePositions {α : Type} (node : Node α) (positions : List (Option Unfolding)) :
    (GraphIndex.settlePositions node positions).map (List.map Unfolding.argument) =
      match (dropTrailingEmpty (positions.map (Option.map Unfolding.argument))).findIdx?
          Option.isNone with
      | some gap => .error (node.missingSlot gap)
      | none => .ok ((dropTrailingEmpty
          (positions.map (Option.map Unfolding.argument))).filterMap id) := by
  have hempty : Option.isNone ∘ Option.map Unfolding.argument = Option.isNone := by
    funext entry
    cases entry <;> rfl
  rw [dropTrailingEmpty_map, List.findIdx?_map, hempty, GraphIndex.settlePositions]
  cases (dropTrailingEmpty positions).findIdx? Option.isNone with
  | some gap => rfl
  | none =>
      refine congrArg Except.ok ?_
      rw [List.filterMap_map, List.map_filterMap]
      rfl

/-- All positions are filled and settled exactly if those up to some place take the arguments, and
those behind it take nothing. -/
theorem mapM_settle_eq_ok {α : Type} {node : Node α} {count : Nat}
    {fill : Nat → Except RebuildError (Option Unfolding)} {filled : List Unfolding} :
    ((List.range count).mapM fill >>= GraphIndex.settlePositions node) = .ok filled ↔
      filled.length ≤ count ∧ (∀ i u, filled[i]? = some u → fill i = .ok (some u)) ∧
        ∀ i, filled.length ≤ i → i < count → fill i = .ok none := by
  rw [bind_eq_ok]
  constructor
  · intro h
    obtain ⟨positions, hpositions, hsettle⟩ := h
    obtain ⟨empty, rfl⟩ := settlePositions_eq_ok.mp hsettle
    obtain ⟨hlength, hall⟩ := mapM_range_eq_ok.mp hpositions
    rw [List.length_append, List.length_map, List.length_replicate] at hlength
    refine ⟨by omega, ?_, ?_⟩
    · intro i u hu
      have hi := (List.getElem?_eq_some_iff.mp hu).1
      apply hall
      rw [List.getElem?_append_left (by rwa [List.length_map]), List.getElem?_map, hu]
      rfl
    · intro i hfilled hcount
      apply hall
      rw [List.getElem?_append_right (by rwa [List.length_map]), List.length_map,
        List.getElem?_replicate, if_pos (by omega)]
  · intro h
    obtain ⟨hlength, hfilled, hempty⟩ := h
    refine ⟨filled.map some ++ List.replicate (count - filled.length) none, ?_,
      settlePositions_eq_ok.mpr ⟨_, rfl⟩⟩
    rw [mapM_range_eq_ok, List.length_append, List.length_map, List.length_replicate]
    refine ⟨by omega, ?_⟩
    intro i entry hentry
    rcases Nat.lt_or_ge i filled.length with hi | hi
    · rw [List.getElem?_append_left (by rwa [List.length_map]), List.getElem?_map,
        Option.map_eq_some_iff] at hentry
      obtain ⟨u, hu, rfl⟩ := hentry
      exact hfilled i u hu
    · rw [List.getElem?_append_right (by rwa [List.length_map]), List.length_map,
        List.getElem?_replicate] at hentry
      split at hentry
      · cases hentry
        exact hempty i hi (by omega)
      · cases hentry

/-! ## One position -/

namespace Graph

variable {α : Type} {graph : Graph α}

/-- Nothing is at the position of the node, and nothing has to be: of several slots at the position
the first listed counts, as for every look-up of a slot. -/
structure Vacant (graph : Graph α) (node : Node α) (inline : List (Option Literal))
    (position : Nat) : Prop where
  unplugged : graph.lastEdgeFrom? node.id position = none
  unwritten : ∀ value, inline[position]? ≠ some (some value)
  optional : ∀ slot, node.slot? position = some slot → slot.required = false

theorem fillPosition_eq_none {unfold : Node α → Except RebuildError Unfolding} {node : Node α}
    {inline : List (Option Literal)} {position : Nat} :
    graph.index.fillPosition unfold node inline position = .ok none ↔
      graph.Vacant node inline position := by
  unfold GraphIndex.fillPosition
  rw [index_edgeFrom?]
  constructor
  · intro h
    split at h
    · split at h
      · cases h
      · cases hunfold : unfold ‹Node α› with
        | error e =>
            rw [hunfold] at h
            cases h
        | ok u =>
            rw [hunfold] at h
            cases h
    · rename_i hunplugged
      split at h
      · cases h
      · rename_i hunwritten
        split at h
        · cases h
        · rename_i hrequired
          refine ⟨hunplugged, hunwritten, ?_⟩
          intro slot hslot
          rw [hslot] at hrequired
          simpa using hrequired
  · intro h
    rw [h.unplugged]
    dsimp only
    split
    · rename_i value hvalue
      exact absurd hvalue (h.unwritten value)
    · rw [if_neg]
      intro hrequired
      obtain ⟨slot, hslot, hslotRequired⟩ := (Option.any_eq_true _ _).mp hrequired
      rw [h.optional slot hslot] at hslotRequired
      cases hslotRequired

/-- An edge goes before a literal. -/
theorem fillPosition_eq_some {unfold : Node α → Except RebuildError Unfolding} {node : Node α}
    {inline : List (Option Literal)} {position : Nat} {u : Unfolding} :
    graph.index.fillPosition unfold node inline position = .ok (some u) ↔
      (∃ edge target, graph.lastEdgeFrom? node.id position = some edge ∧
        graph.lastNode? edge.target = some target ∧ unfold target = .ok u) ∨
      (graph.lastEdgeFrom? node.id position = none ∧
        ∃ value, inline[position]? = some (some value) ∧ u = ⟨.literal value, [], []⟩) := by
  unfold GraphIndex.fillPosition
  rw [index_edgeFrom?]
  cases hedge : graph.lastEdgeFrom? node.id position with
  | some edge =>
      dsimp only
      rw [index_node?]
      cases htarget : graph.lastNode? edge.target with
      | none => simp [htarget]
      | some target =>
          cases hunfold : unfold target with
          | error e => simp [htarget, hunfold, Except.map]
          | ok v => simp [htarget, hunfold, Except.map]
  | none =>
      dsimp only
      split
      · rename_i value hvalue
        simp [hvalue, eq_comm]
      · rename_i hunwritten
        constructor
        · intro h
          split at h
          · cases h
          · cases h
        · intro h
          rcases h with ⟨edge, _, hnone, _⟩ | ⟨_, value, hvalue, _⟩
          · cases hnone
          · exact absurd hvalue (hunwritten value)

theorem unfold_constant (fuel : Nat) (above : List String) (path : List Nat) {node : Node α}
    {value : Literal} (hcontent : node.content = .constant value) :
    graph.index.unfold (fuel + 1) above path node = .ok ⟨.literal value, [], [node.id]⟩ := by
  rw [GraphIndex.unfold, hcontent]

theorem unfold_operation_eq_ok {fuel : Nat} {above : List String} {path : List Nat} {node : Node α}
    {name : String} {inline : List (Option Literal)} {u : Unfolding}
    (hcontent : node.content = .operation name inline) :
    graph.index.unfold (fuel + 1) above path node = .ok u ↔
      node.id ∉ above ∧ name ≠ "" ∧ overflows node.slots inline = false ∧
      ∃ filled : List Unfolding, filled.length ≤ argumentCount node.slots inline ∧
        (∀ i v, filled[i]? = some v →
          graph.index.fillPosition (graph.index.unfold fuel (node.id :: above) (path ++ [i])) node
            inline i = .ok (some v)) ∧
        (∀ i, filled.length ≤ i → i < argumentCount node.slots inline →
          graph.Vacant node inline i) ∧
        u = ⟨.nested name (filled.map Unfolding.argument),
          (path, node.key) :: filled.flatMap Unfolding.keys,
          node.id :: filled.flatMap Unfolding.visited⟩ := by
  rw [GraphIndex.unfold, hcontent]
  dsimp only
  constructor
  · intro h
    split at h
    · cases h
    · rename_i habove
      split at h
      · cases h
      · rename_i hname
        split at h
        · cases h
        · rename_i hcounted
          rw [← bind_assoc] at h
          obtain ⟨filled, hfilled, hu⟩ := bind_eq_ok.mp h
          obtain ⟨hlength, hsome, hnone⟩ := mapM_settle_eq_ok.mp hfilled
          cases hu
          exact ⟨habove, hname, eq_false_of_ne_true hcounted, filled, hlength, hsome,
            fun i hi hcount => fillPosition_eq_none.mp (hnone i hi hcount), rfl⟩
  · intro h
    obtain ⟨habove, hname, hcounted, filled, hlength, hsome, hnone, rfl⟩ := h
    rw [if_neg habove, if_neg hname, if_neg (Bool.eq_false_iff.mp hcounted), ← bind_assoc,
      bind_eq_ok]
    exact ⟨filled, mapM_settle_eq_ok.mpr ⟨hlength, hsome,
      fun i hi hcount => fillPosition_eq_none.mpr (hnone i hi hcount)⟩, rfl⟩

theorem unfoldRoot_eq_ok {fuel : Nat} {id : String} {path : List Nat} {e : Expression}
    {u : Unfolding} :
    graph.index.unfoldRoot fuel id path = .ok (e, u) ↔
      ∃ node, graph.lastNode? id = some node ∧ graph.index.unfold fuel [] path node = .ok u ∧
        u.argument = .ofExpression e := by
  rw [GraphIndex.unfoldRoot, index_node?]
  constructor
  · intro h
    split at h
    · cases h
    · rename_i node hnode
      split at h
      · cases h
      · obtain ⟨found, hfound, hroot⟩ := bind_eq_ok.mp h
        split at hroot
        · rename_i e' he
          cases hroot
          exact ⟨node, hnode, hfound, Argument.expression?_eq_some_iff.mp he⟩
        · cases hroot
  · intro h
    obtain ⟨node, hnode, hunfold, hargument⟩ := h
    have hoperation : ¬ node.content.isConstant = true := by
      intro hconstant
      cases hcontent : node.content with
      | operation name inline =>
          rw [hcontent] at hconstant
          cases hconstant
      | constant value =>
          cases fuel with
          | zero => cases hunfold
          | succ fuel =>
              rw [unfold_constant fuel [] path hcontent] at hunfold
              cases hunfold
              cases hargument
    rw [hnode]
    dsimp only
    rw [if_neg hoperation, bind_eq_ok]
    refine ⟨u, hunfold, ?_⟩
    rw [hargument, Argument.expression?_ofExpression]

theorem rebuild_eq_ok {id : String} {e : Expression} :
    graph.rebuild id = .ok e ↔
      ∃ node u, graph.lastNode? id = some node ∧
        graph.index.unfold graph.nestingBound [] [] node = .ok u ∧
          u.argument = .ofExpression e := by
  rw [rebuild]
  constructor
  · intro h
    cases hroot : graph.index.unfoldRoot graph.nestingBound id [] with
    | error e =>
        rw [hroot] at h
        cases h
    | ok found =>
        rw [hroot] at h
        cases h
        obtain ⟨node, hnode, hunfold, hargument⟩ := unfoldRoot_eq_ok.mp hroot
        exact ⟨node, found.2, hnode, hunfold, hargument⟩
  · intro h
    obtain ⟨node, u, hfound⟩ := h
    rw [unfoldRoot_eq_ok.mpr ⟨node, hfound⟩]
    rfl

end Graph

end RuleGraph
