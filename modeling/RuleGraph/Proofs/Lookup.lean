import Mathlib.Data.List.Nodup
import RuleGraph.Graph.Basic

/-!
# Lookups

What the lookups of a graph find. The tables of an indexed graph find the last of several nodes with
one id, and the last of several edges from one slot; the plain lookups find the first. Where ids,
and the slots that edges leave from, are not repeated, both find the one member that there is.
-/

namespace RuleGraph

namespace Graph

variable {α : Type}

def lastNode? (graph : Graph α) (id : String) : Option (Node α) :=
  graph.nodes.reverse.find? fun node => node.id == id

def lastEdgeFrom? (graph : Graph α) (source : String) (slot : Nat) : Option Edge :=
  graph.edges.reverse.find? fun edge => edge.source == source && edge.slot == slot

def outlet (edge : Edge) : String × Nat :=
  (edge.source, edge.slot)

end Graph

/-! ## Tables built in one pass -/

theorem get?_foldl_put {κ β : Type} [DecidableEq κ] (key : β → κ) (entries : List β)
    (table : Table κ β) (k : κ) :
    Table.get? (entries.foldl (fun table entry => table.put (key entry) entry) table) k =
      (entries.reverse.find? fun entry => key entry == k).or (Table.get? table k) := by
  induction entries generalizing table with
  | nil => simp
  | cons entry rest ih =>
      rw [List.foldl_cons, ih, Table.get?_put, List.reverse_cons, List.find?_append,
        Option.or_assoc]
      by_cases h : key entry = k <;> simp [h]

def entryOf (slots : Table String (Table Nat Edge)) (source : String) (slot : Nat) : Option Edge :=
  (slots.get? source).bind fun edges => edges.get? slot

theorem entryOf_putEdge (slots : Table String (Table Nat Edge)) (edge : Edge) (source : String)
    (slot : Nat) :
    entryOf (GraphIndex.putEdge slots edge) source slot =
      if edge.source = source ∧ edge.slot = slot then some edge else entryOf slots source slot := by
  rw [entryOf, GraphIndex.putEdge, Table.get?_put]
  by_cases hsource : edge.source = source
  · subst hsource
    by_cases hslot : edge.slot = slot
    · simp [hslot]
    · cases hfound : slots.get? edge.source with
      | none => simp [hslot, Table.get?_put, entryOf, hfound]
      | some edges => simp [hslot, Table.get?_put, entryOf, hfound]
  · simp [hsource, entryOf]

theorem entryOf_foldl_putEdge (edges : List Edge) (slots : Table String (Table Nat Edge))
    (source : String) (slot : Nat) :
    entryOf (edges.foldl GraphIndex.putEdge slots) source slot =
      (edges.reverse.find? fun edge => edge.source == source && edge.slot == slot).or
        (entryOf slots source slot) := by
  induction edges generalizing slots with
  | nil => simp
  | cons edge rest ih =>
      rw [List.foldl_cons, ih, entryOf_putEdge, List.reverse_cons, List.find?_append,
        Option.or_assoc]
      by_cases h : edge.source = source ∧ edge.slot = slot <;> simp [h]

namespace Graph

variable {α : Type}

/-- Of several nodes with one id the index keeps the last. -/
theorem index_node? (graph : Graph α) (id : String) :
    graph.index.node? id = graph.lastNode? id := by
  rw [GraphIndex.node?, index, get?_foldl_put]
  simp [lastNode?]

/-- Of several edges from one slot the index keeps the last. -/
theorem index_edgeFrom? (graph : Graph α) (source : String) (slot : Nat) :
    graph.index.edgeFrom? source slot = graph.lastEdgeFrom? source slot := by
  have h := entryOf_foldl_putEdge graph.edges [] source slot
  simpa [entryOf, lastEdgeFrom?, GraphIndex.edgeFrom?, index] using h

/-! ## Members that are found -/

theorem mem_of_lastNode? {graph : Graph α} {id : String} {node : Node α}
    (h : graph.lastNode? id = some node) : node ∈ graph.nodes ∧ node.id = id :=
  ⟨List.mem_reverse.mp (List.mem_of_find?_eq_some h), by simpa using List.find?_some h⟩

theorem mem_of_lastEdgeFrom? {graph : Graph α} {source : String} {slot : Nat} {edge : Edge}
    (h : graph.lastEdgeFrom? source slot = some edge) :
    edge ∈ graph.edges ∧ edge.source = source ∧ edge.slot = slot :=
  ⟨List.mem_reverse.mp (List.mem_of_find?_eq_some h), by simpa using List.find?_some h⟩

theorem mem_of_node? {graph : Graph α} {id : String} {node : Node α}
    (h : graph.node? id = some node) : node ∈ graph.nodes ∧ node.id = id :=
  ⟨List.mem_of_find?_eq_some h, by simpa using List.find?_some h⟩

theorem mem_of_edgeFrom? {graph : Graph α} {source : String} {slot : Nat} {edge : Edge}
    (h : graph.edgeFrom? source slot = some edge) :
    edge ∈ graph.edges ∧ edge.source = source ∧ edge.slot = slot :=
  ⟨List.mem_of_find?_eq_some h, by simpa using List.find?_some h⟩

theorem lastNode?_eq_none_iff {graph : Graph α} {id : String} :
    graph.lastNode? id = none ↔ ∀ node ∈ graph.nodes, node.id ≠ id := by
  simp [lastNode?]

theorem node?_eq_none_iff {graph : Graph α} {id : String} :
    graph.node? id = none ↔ ∀ node ∈ graph.nodes, node.id ≠ id := by
  simp [node?]

theorem edgeFrom?_eq_none_iff {graph : Graph α} {source : String} {slot : Nat} :
    graph.edgeFrom? source slot = none ↔
      ∀ edge ∈ graph.edges, edge.source = source → edge.slot ≠ slot := by
  simp [edgeFrom?]

theorem incoming?_eq_none_iff {graph : Graph α} {target : String} :
    graph.incoming? target = none ↔ ∀ edge ∈ graph.edges, edge.target ≠ target := by
  simp [incoming?]

end Graph

/-! ## Members that are found alone -/

theorem find?_key_eq_some_iff {β κ : Type} [BEq κ] [LawfulBEq κ] {key : β → κ} {entries : List β}
    (h : (entries.map key).Nodup) {k : κ} {entry : β} :
    entries.find? (fun other => key other == k) = some entry ↔ entry ∈ entries ∧ key entry = k := by
  constructor
  · intro hfound
    exact ⟨List.mem_of_find?_eq_some hfound, by simpa using List.find?_some hfound⟩
  · rintro ⟨hmem, rfl⟩
    induction entries with
    | nil => cases hmem
    | cons first rest ih =>
        rw [List.map_cons, List.nodup_cons] at h
        rcases List.mem_cons.mp hmem with rfl | hmem
        · simp
        · have hne : key first ≠ key entry := by
            intro heq
            exact h.1 (heq ▸ List.mem_map_of_mem hmem)
          rw [List.find?_cons_of_neg (by simpa using hne)]
          exact ih h.2 hmem

theorem lookup_eq_some_iff_mem {κ ν : Type} [BEq κ] [LawfulBEq κ] {entries : List (κ × ν)}
    (h : (entries.map Prod.fst).Nodup) {k : κ} {v : ν} :
    entries.lookup k = some v ↔ (k, v) ∈ entries := by
  induction entries with
  | nil => simp
  | cons entry rest ih =>
      rw [List.map_cons, List.nodup_cons] at h
      rw [List.lookup_cons, List.mem_cons]
      by_cases hk : k = entry.1
      · subst hk
        have hnew : (entry.1, v) ∉ rest := fun hmem => h.1 (List.mem_map.mpr ⟨_, hmem, rfl⟩)
        simp [hnew, Prod.ext_iff, eq_comm]
      · simp [beq_eq_false_iff_ne.mpr hk, ih h.2, Prod.ext_iff, hk]

theorem nodup_map_reverse {β κ : Type} {key : β → κ} {entries : List β}
    (h : (entries.map key).Nodup) : (entries.reverse.map key).Nodup := by
  rw [List.map_reverse]
  exact List.nodup_reverse.mpr h

theorem find?_reverse_of_nodup {β κ : Type} [BEq κ] [LawfulBEq κ] {key : β → κ} {entries : List β}
    (h : (entries.map key).Nodup) (k : κ) :
    entries.reverse.find? (fun entry => key entry == k) =
      entries.find? fun entry => key entry == k := by
  apply Option.ext
  intro entry
  rw [find?_key_eq_some_iff (nodup_map_reverse h), find?_key_eq_some_iff h, List.mem_reverse]

namespace Graph

variable {α : Type}

theorem lastNode?_eq_some_iff {graph : Graph α} (h : (graph.nodes.map Node.id).Nodup) {id : String}
    {node : Node α} : graph.lastNode? id = some node ↔ node ∈ graph.nodes ∧ node.id = id := by
  rw [lastNode?, find?_key_eq_some_iff (nodup_map_reverse h), List.mem_reverse]

theorem edgeFrom?_eq_some_iff {graph : Graph α} (h : (graph.edges.map outlet).Nodup)
    {source : String} {slot : Nat} {edge : Edge} :
    graph.edgeFrom? source slot = some edge ↔
      edge ∈ graph.edges ∧ edge.source = source ∧ edge.slot = slot := by
  have hfind : graph.edges.find? (fun other => outlet other == (source, slot)) = some edge ↔
      edge ∈ graph.edges ∧ outlet edge = (source, slot) :=
    find?_key_eq_some_iff h
  rw [outlet, Prod.mk.injEq] at hfind
  exact hfind

theorem lastEdgeFrom?_eq_some_iff {graph : Graph α} (h : (graph.edges.map outlet).Nodup)
    {source : String} {slot : Nat} {edge : Edge} :
    graph.lastEdgeFrom? source slot = some edge ↔
      edge ∈ graph.edges ∧ edge.source = source ∧ edge.slot = slot := by
  have hfind : graph.edges.reverse.find? (fun other => outlet other == (source, slot)) = some edge ↔
      edge ∈ graph.edges.reverse ∧ outlet edge = (source, slot) :=
    find?_key_eq_some_iff (nodup_map_reverse h)
  rw [List.mem_reverse, outlet, Prod.mk.injEq] at hfind
  exact hfind

theorem lastNode?_of_nodup {graph : Graph α} (h : (graph.nodes.map Node.id).Nodup) (id : String) :
    graph.lastNode? id = graph.node? id :=
  find?_reverse_of_nodup h id

theorem lastEdgeFrom?_of_nodup {graph : Graph α} (h : (graph.edges.map outlet).Nodup)
    (source : String) (slot : Nat) :
    graph.lastEdgeFrom? source slot = graph.edgeFrom? source slot := by
  apply Option.ext
  intro edge
  rw [lastEdgeFrom?_eq_some_iff h, edgeFrom?_eq_some_iff h]

end Graph

/-! ## The first and the last of several -/

section

variable {β : Type} {p : β → Prop} {entries : List β}

/-- The answer is the first entry of a list with a property, or none has it. -/
def FirstWith (p : β → Prop) (entries : List β) : Option β → Prop
  | some entry =>
    ∃ before after, entries = before ++ entry :: after ∧ p entry ∧ ∀ other ∈ before, ¬ p other
  | none => ∀ entry ∈ entries, ¬ p entry

/-- The answer is the last entry of a list with a property, or none has it. -/
def LastWith (p : β → Prop) (entries : List β) : Option β → Prop
  | some entry =>
    ∃ before after, entries = before ++ entry :: after ∧ p entry ∧ ∀ other ∈ after, ¬ p other
  | none => ∀ entry ∈ entries, ¬ p entry

theorem find?_eq_iff_firstWith {test : β → Bool} (htest : ∀ entry, test entry = true ↔ p entry)
    {answer : Option β} : entries.find? test = answer ↔ FirstWith p entries answer := by
  cases answer with
  | none => simp only [List.find?_eq_none, htest, FirstWith]
  | some entry =>
      simp only [List.find?_eq_some_iff_append, Bool.not_eq_true', ← Bool.not_eq_true, htest,
        FirstWith]
      constructor
      · rintro ⟨hentry, before, after, hentries, hbefore⟩
        exact ⟨before, after, hentries, hentry, hbefore⟩
      · rintro ⟨before, after, hentries, hentry, hbefore⟩
        exact ⟨hentry, before, after, hentries, hbefore⟩

/-- What is met first from behind is the last. -/
theorem FirstWith.of_reverse {answer : Option β} (h : FirstWith p entries.reverse answer) :
    LastWith p entries answer := by
  cases answer with
  | none => exact fun entry hentry => h entry (List.mem_reverse.mpr hentry)
  | some entry =>
      obtain ⟨before, after, hentries, hentry, hbefore⟩ := h
      refine ⟨after.reverse, before.reverse, ?_, hentry, ?_⟩
      · rw [← List.reverse_reverse entries, hentries]
        simp
      · exact fun other hother => hbefore other (List.mem_reverse.mp hother)

end

namespace Graph

variable {α : Type}

/-- What the lookups of a graph answer: those of its index the last of several, the plain ones the
first, and both the same where ids and outlets are not repeated. -/
structure LookupsExact (graph : Graph α) : Prop where
  index_node : ∀ id, LastWith (fun node => node.id = id) graph.nodes (graph.index.node? id)
  index_edge : ∀ source slot, LastWith (fun edge => edge.source = source ∧ edge.slot = slot)
    graph.edges (graph.index.edgeFrom? source slot)
  plain_node : ∀ id, FirstWith (fun node => node.id = id) graph.nodes (graph.node? id)
  plain_edge : ∀ source slot, FirstWith (fun edge => edge.source = source ∧ edge.slot = slot)
    graph.edges (graph.edgeFrom? source slot)
  same_node : (graph.nodes.map Node.id).Nodup → ∀ id, graph.index.node? id = graph.node? id
  same_edge : (graph.edges.map outlet).Nodup →
    ∀ source slot, graph.index.edgeFrom? source slot = graph.edgeFrom? source slot

theorem lookups_exact (graph : Graph α) : graph.LookupsExact where
  index_node id := by
    rw [index_node?]
    exact ((find?_eq_iff_firstWith fun _ => beq_iff_eq).mp rfl).of_reverse
  index_edge source slot := by
    rw [index_edgeFrom?]
    exact ((find?_eq_iff_firstWith fun _ => by simp).mp rfl).of_reverse
  plain_node id := (find?_eq_iff_firstWith fun _ => beq_iff_eq).mp rfl
  plain_edge source slot := (find?_eq_iff_firstWith fun _ => by simp).mp rfl
  same_node h id := (graph.index_node? id).trans (lastNode?_of_nodup h id)
  same_edge h source slot :=
    (graph.index_edgeFrom? source slot).trans (lastEdgeFrom?_of_nodup h source slot)

/-- Two operations, the second plugged into the first, and an edge that hangs from the second. -/
def hanging (first second : String) : Graph Nat where
  nodes := [(first, "not"), (second, "and")].map fun entry =>
    ⟨entry.1, Key.ofNat 0, .other, ⟨0, 0⟩, ⟨0, 0⟩, [⟨0, "operand", true⟩], .operation entry.2 []⟩
  edges := [.link first 0 second, .link second 0 "c"]
  roots := [first]

/-- Two ids are told apart, and so are two slots of one index. -/
theorem hanging_lookups :
    ((hanging "a" "b").nodes.map Node.id).Nodup ∧ ((hanging "a" "b").edges.map outlet).Nodup ∧
      (∀ id, (hanging "a" "b").index.node? id = (hanging "a" "b").node? id) ∧
      ∀ source slot,
        (hanging "a" "b").index.edgeFrom? source slot = (hanging "a" "b").edgeFrom? source slot :=
  have hids : ((hanging "a" "b").nodes.map Node.id).Nodup := by decide
  have houtlets : ((hanging "a" "b").edges.map outlet).Nodup := by decide
  ⟨hids, houtlets, (lookups_exact _).same_node hids, (lookups_exact _).same_edge houtlets⟩

/-- Under one id the index has the second operation and its edge, where the lists have the first. -/
example :
    ((hanging "a" "a").node? "a").bind Node.name? = some "not" ∧
      ((hanging "a" "a").index.node? "a").bind Node.name? = some "and" ∧
      ((hanging "a" "a").edgeFrom? "a" 0).map Edge.target = some "a" ∧
      ((hanging "a" "a").index.edgeFrom? "a" 0).map Edge.target = some "c" :=
  ⟨rfl, rfl, rfl, rfl⟩

end Graph

end RuleGraph
