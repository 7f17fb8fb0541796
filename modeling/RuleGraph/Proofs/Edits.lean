import RuleGraph.Graph.Edit
import RuleGraph.Proofs.Lookup

/-!
# Edits that are granted

One lemma for each edit says everything that a granted edit has checked, and the graph it leads to.
-/

namespace RuleGraph

namespace Graph

variable {α : Type} {graph next : Graph α}

theorem connect_eq_ok {source target : String} {slot : Nat}
    (h : graph.connect source slot target = .ok next) :
    ∃ node, graph.node? source = some node ∧ (graph.node? target).isSome = true ∧
      (node.slot? slot).isSome = true ∧ graph.edgeFrom? source slot = none ∧
      graph.incoming? target = none ∧ next = graph.plug source slot target := by
  unfold connect at h
  split at h
  · cases h
  · rename_i node hnode
    split at h
    · cases h
    · rename_i htarget
      split at h
      · cases h
      · rename_i hslot
        split at h
        · cases h
        · rename_i hfree
          split at h
          · cases h
          · rename_i hunplugged
            cases h
            refine ⟨node, hnode, ?_, ?_, hfree, hunplugged, rfl⟩
            · simpa [Option.isSome_iff_ne_none] using htarget
            · simpa [Option.isSome_iff_ne_none] using hslot

theorem connect_eq_plug {source target : String} {slot : Nat} {node : Node α}
    (hnode : graph.node? source = some node) (htarget : (graph.node? target).isSome = true)
    (hslot : (node.slot? slot).isSome = true) (hfree : graph.edgeFrom? source slot = none)
    (hunplugged : graph.incoming? target = none) :
    graph.connect source slot target = .ok (graph.plug source slot target) := by
  rw [connect, hnode]
  dsimp only
  rw [if_neg, if_neg, hfree]
  · dsimp only
    rw [hunplugged]
  · simpa [Option.isSome_iff_ne_none] using hslot
  · simpa [Option.isSome_iff_ne_none] using htarget

theorem deleteNode_eq_ok {id : String} (h : graph.deleteNode id = .ok next) :
    ∃ node, graph.node? id = some node ∧ next = graph.without (graph.below id) := by
  unfold deleteNode at h
  split at h
  · cases h
  · rename_i node hnode
    cases h
    exact ⟨node, hnode, rfl⟩

theorem addNode_eq_ok {node : Node α} (h : graph.addNode node = .ok next) :
    graph.node? node.id = none ∧ node.content.nonFinite? = none ∧
      next = { graph with nodes := graph.nodes ++ [node] } := by
  unfold addNode at h
  split at h
  · cases h
  · rename_i hfree
    split at h
    · cases h
    · rename_i hfinite
      cases h
      exact ⟨by simpa using hfree, hfinite, rfl⟩

theorem moveNode_eq_ok {id : String} {position : Position α}
    (h : graph.moveNode id position = .ok next) :
    ∃ node, graph.node? id = some node ∧ next = graph.replaceNode id { node with position } := by
  unfold moveNode at h
  split at h
  · cases h
  · rename_i node hnode
    cases h
    exact ⟨node, hnode, rfl⟩

theorem setInline_eq_ok {id : String} {index : Nat} {value : Option Literal}
    (h : graph.setInline id index value = .ok next) :
    ∃ node changed, graph.node? id = some node ∧ (value.any fun v => !v.isFinite) = false ∧
      node.setInline? index value = some changed ∧ next = graph.replaceNode id changed := by
  unfold setInline at h
  split at h
  · cases h
  · rename_i hfinite
    split at h
    · cases h
    · rename_i node hnode
      split at h
      · cases h
      · rename_i changed hchanged
        cases h
        exact ⟨node, changed, hnode, by simpa using hfinite, hchanged, rfl⟩

theorem addRoot_eq_ok {id : String} (h : graph.addRoot id = .ok next) :
    ∃ node, graph.node? id = some node ∧ node.content.isConstant = false ∧
      graph.incoming? id = none ∧
      next = if graph.isRoot id then graph else { graph with roots := graph.roots ++ [id] } := by
  unfold addRoot at h
  split at h
  · cases h
  · rename_i node hnode
    split at h
    · cases h
    · rename_i hoperation
      split at h
      · cases h
      · rename_i hunplugged
        cases h
        exact ⟨node, hnode, by simpa using hoperation, hunplugged, rfl⟩

/-! ## Nodes in place of others -/

theorem mem_replaceFirst {β : Type} {matching : β → Bool} {replacement entry : β} {entries : List β}
    (h : entry ∈ replaceFirst matching replacement entries) :
    entry = replacement ∨ entry ∈ entries := by
  induction entries with
  | nil => cases h
  | cons first rest ih =>
      rw [replaceFirst] at h
      split at h
      · rcases List.mem_cons.mp h with heq | hrest
        · exact Or.inl heq
        · exact Or.inr (List.mem_cons_of_mem _ hrest)
      · rcases List.mem_cons.mp h with rfl | hrest
        · exact Or.inr List.mem_cons_self
        · rcases ih hrest with heq | hmem
          · exact Or.inl heq
          · exact Or.inr (List.mem_cons_of_mem _ hmem)

theorem mem_replaceFirst_self {β : Type} {matching : β → Bool} {replacement entry : β}
    {entries : List β} (h : entries.find? matching = some entry) :
    replacement ∈ replaceFirst matching replacement entries := by
  induction entries with
  | nil => cases h
  | cons first rest ih =>
      rw [replaceFirst]
      by_cases hfirst : matching first = true
      · rw [if_pos hfirst]
        exact List.mem_cons_self
      · rw [List.find?_cons_of_neg hfirst] at h
        rw [if_neg hfirst]
        exact List.mem_cons_of_mem _ (ih h)

/-- The first match is the only entry that is lost. -/
theorem mem_replaceFirst_of_mem {β : Type} {matching : β → Bool} {replacement entry : β}
    {entries : List β} (h : entry ∈ entries) :
    entry ∈ replaceFirst matching replacement entries ∨
      entries.find? matching = some entry ∧
        replacement ∈ replaceFirst matching replacement entries := by
  induction entries with
  | nil => cases h
  | cons first rest ih =>
      rw [replaceFirst]
      by_cases hfirst : matching first = true
      · rw [if_pos hfirst, List.find?_cons_of_pos hfirst]
        rcases List.mem_cons.mp h with rfl | hrest
        · exact Or.inr ⟨rfl, List.mem_cons_self⟩
        · exact Or.inl (List.mem_cons_of_mem _ hrest)
      · rw [if_neg hfirst, List.find?_cons_of_neg hfirst]
        rcases List.mem_cons.mp h with rfl | hrest
        · exact Or.inl List.mem_cons_self
        · rcases ih hrest with hmem | hfound
          · exact Or.inl (List.mem_cons_of_mem _ hmem)
          · exact Or.inr ⟨hfound.1, List.mem_cons_of_mem _ hfound.2⟩

theorem find?_replaceFirst {β : Type} {matching : β → Bool} {replacement entry : β}
    {entries : List β} (h : entries.find? matching = some entry)
    (hreplacement : matching replacement = true) :
    (replaceFirst matching replacement entries).find? matching = some replacement := by
  induction entries with
  | nil => cases h
  | cons first rest ih =>
      rw [replaceFirst]
      by_cases hfirst : matching first = true
      · rw [if_pos hfirst]
        exact List.find?_cons_of_pos hreplacement
      · rw [List.find?_cons_of_neg hfirst] at h
        rw [if_neg hfirst, List.find?_cons_of_neg hfirst]
        exact ih h

/-- A replacement that agrees with the entry it replaces in some value leaves the list of values as
it was. -/
theorem map_replaceFirst {β γ : Type} {matching : β → Bool} {replacement : β} {value : β → γ}
    {entries : List β}
    (hsame : ∀ entry, entries.find? matching = some entry → value entry = value replacement) :
    (replaceFirst matching replacement entries).map value = entries.map value := by
  induction entries with
  | nil => rfl
  | cons first rest ih =>
      rw [replaceFirst]
      by_cases hfirst : matching first = true
      · rw [if_pos hfirst, List.map_cons, List.map_cons,
          hsame first (List.find?_cons_of_pos hfirst)]
      · rw [List.find?_cons_of_neg hfirst] at hsame
        rw [if_neg hfirst, List.map_cons, List.map_cons, ih hsame]

end Graph

/-- An operation is written to at an inline position, or at a slot behind them; then it gets inline
positions up to the slot. -/
theorem Node.setInline?_operation {α : Type} {node changed : Node α} {name : String}
    {inline : List (Option Literal)} (hcontent : node.content = .operation name inline)
    {index : Nat} {value : Option Literal} (h : node.setInline? index value = some changed) :
    ∃ written, changed = { node with content := .operation name written } ∧
      (index < inline.length ∧ written = inline.set index value ∨
        inline.length ≤ index ∧ (node.slot? index).isSome = true ∧ index + 1 < UInt64.size ∧
          written = (resized (index + 1) inline).set index value) := by
  unfold setInline? at h
  rw [hcontent] at h
  dsimp only at h
  split at h
  · rename_i hinline
    cases h
    exact ⟨_, rfl, Or.inl ⟨hinline, rfl⟩⟩
  · rename_i hbeyond
    split at h
    · rename_i hslot
      cases h
      exact ⟨_, rfl, Or.inr ⟨Nat.le_of_not_lt hbeyond, hslot.1, hslot.2, rfl⟩⟩
    · cases h

theorem Node.setInline?_constant {α : Type} {node changed : Node α} {old : Literal}
    (hcontent : node.content = .constant old) {index : Nat} {value : Option Literal}
    (h : node.setInline? index value = some changed) :
    ∃ new : Literal, value = some new ∧ index = 0 ∧
      changed = { node with kind := new.kind, content := .constant new } := by
  unfold setInline? at h
  rw [hcontent] at h
  cases value with
  | none => cases h
  | some new =>
      dsimp only at h
      split at h
      · rename_i hzero
        cases h
        exact ⟨new, rfl, hzero, rfl⟩
      · cases h

/-- Writing a literal changes nothing but the kind and the content of a node, and an operation stays
an operation. -/
theorem Node.setInline?_eq_some {α : Type} {node changed : Node α} {index : Nat}
    {value : Option Literal} (h : node.setInline? index value = some changed) :
    ∃ kind content, changed = { node with kind, content } ∧
      content.isConstant = node.content.isConstant := by
  cases hcontent : node.content with
  | constant old =>
      obtain ⟨new, _, _, rfl⟩ := setInline?_constant hcontent h
      exact ⟨_, _, rfl, rfl⟩
  | operation name inline =>
      obtain ⟨written, rfl, _⟩ := setInline?_operation hcontent h
      exact ⟨_, _, rfl, rfl⟩

end RuleGraph
