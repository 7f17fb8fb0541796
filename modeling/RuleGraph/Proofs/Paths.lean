import Mathlib.Data.List.Nodup
import Mathlib.Data.List.Perm.Subperm
import Mathlib.Logic.Relation
import RuleGraph.Graph.Reach

/-!
# Paths of edges

`Graph.Leads` is the relation that both searches compute: a path of edges, possibly without edges.
`Graph.Route` lists the ids on such a path, of any steps.

The scans for the nodes below a node add only targets of edges, each of them once, so that their
number is bounded; what they end with is closed under edges, and is therefore exactly what the start
leads to, whatever the order of the edges and however they are wired. The search in depth ends
because each visit takes an edge or a pending id away, and then answers whether there is a path.
-/

namespace RuleGraph

namespace Graph

variable {α : Type}

def Wired (graph : Graph α) (source target : String) : Prop :=
  ∃ edge ∈ graph.edges, edge.source = source ∧ edge.target = target

def Leads (graph : Graph α) : String → String → Prop :=
  Relation.ReflTransGen graph.Wired

theorem Leads.mono {graph larger : Graph α} (hedges : ∀ edge ∈ graph.edges, edge ∈ larger.edges)
    {source target : String} (h : graph.Leads source target) : larger.Leads source target := by
  induction h with
  | refl => exact Relation.ReflTransGen.refl
  | tail _ hstep ih =>
      obtain ⟨edge, hedge, hsource, htarget⟩ := hstep
      exact ih.tail ⟨edge, hedges edge hedge, hsource, htarget⟩

/-- A list of ids, each one step after the one before it. -/
inductive Route (step : String → String → Prop) : List String → String → String → Prop
  | single (id : String) : Route step [id] id id
  | cons {ids : List String} {source next target : String} (hstep : step source next)
      (hrest : Route step ids next target) : Route step (source :: ids) source target

namespace Route

variable {step : String → String → Prop} {ids : List String} {source target : String}

theorem source_mem (h : Route step ids source target) : source ∈ ids := by
  cases h <;> exact List.mem_cons_self

theorem concat {next : String} (h : Route step ids source target) (hstep : step target next) :
    Route step (ids ++ [next]) source next := by
  induction h with
  | single id => exact .cons hstep (.single next)
  | cons hfirst _ ih => exact .cons hfirst (ih hstep)

theorem reflTransGen (h : Route step ids source target) :
    Relation.ReflTransGen step source target := by
  induction h with
  | single id => exact .refl
  | cons hstep _ ih => exact .head hstep ih

end Route

/-! ## Scans -/

theorem mem_scan_of_mem (edges : List Edge) {found : List String} {id : String} (h : id ∈ found) :
    id ∈ edges.foldl follow found := by
  induction edges generalizing found with
  | nil => exact h
  | cons edge rest ih => exact ih (mem_follow.mpr (Or.inl h))

theorem target_mem_scan {edges : List Edge} {found : List String} {edge : Edge}
    (hedge : edge ∈ edges) (hsource : edge.source ∈ found) :
    edge.target ∈ edges.foldl follow found := by
  induction edges generalizing found with
  | nil => cases hedge
  | cons first rest ih =>
      rcases List.mem_cons.mp hedge with rfl | hedge
      · exact mem_scan_of_mem rest (mem_follow.mpr (Or.inr ⟨hsource, rfl⟩))
      · exact ih hedge (mem_follow.mpr (Or.inl hsource))

theorem scan_induct {P : String → Prop} {edges : List Edge} {found : List String}
    (hfound : ∀ id ∈ found, P id)
    (hedges : ∀ edge ∈ edges, P edge.source → P edge.target) :
    ∀ id ∈ edges.foldl follow found, P id := by
  induction edges generalizing found with
  | nil => exact hfound
  | cons edge rest ih =>
      apply ih
      · intro id hid
        rcases mem_follow.mp hid with hid | ⟨hsource, rfl⟩
        · exact hfound id hid
        · exact hedges edge List.mem_cons_self (hfound _ hsource)
      · intro other hother
        exact hedges other (List.mem_cons_of_mem _ hother)

theorem follow_suffix (found : List String) (edge : Edge) : found <:+ follow found edge := by
  unfold follow
  split
  · exact List.suffix_cons _ _
  · exact List.suffix_refl _

theorem scan_suffix (edges : List Edge) (found : List String) :
    found <:+ edges.foldl follow found := by
  induction edges generalizing found with
  | nil => exact List.suffix_refl _
  | cons edge rest ih => exact (follow_suffix found edge).trans (ih _)

theorem nodup_follow {found : List String} (h : found.Nodup) (edge : Edge) :
    (follow found edge).Nodup := by
  unfold follow
  split
  · rename_i hadd
    exact List.nodup_cons.mpr ⟨hadd.2, h⟩
  · exact h

theorem nodup_scan (edges : List Edge) {found : List String} (h : found.Nodup) :
    (edges.foldl follow found).Nodup := by
  induction edges generalizing found with
  | nil => exact h
  | cons edge rest ih => exact ih (nodup_follow h edge)

/-! ## Rounds of scans -/

theorem spread_induct {P : String → Prop} {edges : List Edge}
    (hedges : ∀ edge ∈ edges, P edge.source → P edge.target) (fuel : Nat) {found : List String}
    (hfound : ∀ id ∈ found, P id) : ∀ id ∈ spread edges fuel found, P id := by
  induction fuel generalizing found with
  | zero => exact hfound
  | succ fuel ih =>
      rw [spread]
      split
      · exact hfound
      · exact ih (scan_induct hfound hedges)

theorem mem_spread_of_mem (edges : List Edge) (fuel : Nat) {found : List String} {id : String}
    (h : id ∈ found) : id ∈ spread edges fuel found := by
  induction fuel generalizing found with
  | zero => exact h
  | succ fuel ih =>
      rw [spread]
      split
      · exact h
      · exact ih (mem_scan_of_mem edges h)

/-- Every round but the last finds an id that was not found before, and there is nothing to find but
the start and the targets of edges. Enough rounds therefore leave no edge that leads out. -/
theorem spread_closed {edges : List Edge} (start : String) (fuel : Nat) {found : List String}
    (hnodup : found.Nodup) (hfound : found ⊆ start :: edges.map Edge.target)
    (hfuel : edges.length < found.length + fuel) {edge : Edge} (hedge : edge ∈ edges)
    (hsource : edge.source ∈ spread edges fuel found) :
    edge.target ∈ spread edges fuel found := by
  induction fuel generalizing found with
  | zero =>
      -- nothing is left to find: the list is as long as all there is
      have hall : found.Perm (start :: edges.map Edge.target) := by
        apply (hnodup.subperm hfound).perm_of_length_le
        rw [List.length_cons, List.length_map]
        omega
      apply hall.symm.subset
      exact List.mem_cons_of_mem _ (List.mem_map_of_mem hedge)
  | succ fuel ih =>
      rw [spread] at hsource ⊢
      split at hsource
      · rename_i hlength
        rw [if_pos hlength]
        have hsame : found = edges.foldl follow found :=
          (scan_suffix edges found).eq_of_length hlength.symm
        rw [hsame]
        exact target_mem_scan hedge hsource
      · rename_i hlength
        rw [if_neg hlength]
        have hle : found.length ≤ (edges.foldl follow found).length :=
          (scan_suffix edges found).length_le
        refine ih (nodup_scan edges hnodup) ?_ (by omega) hsource
        apply scan_induct (fun id hid => hfound hid)
        intro other hother _
        exact List.mem_cons_of_mem _ (List.mem_map_of_mem hother)

/-! ## All that is below -/

theorem self_mem_below (graph : Graph α) (id : String) : id ∈ graph.below id :=
  mem_spread_of_mem _ _ List.mem_cons_self

theorem target_mem_below {graph : Graph α} {id : String} {edge : Edge} (hedge : edge ∈ graph.edges)
    (hsource : edge.source ∈ graph.below id) : edge.target ∈ graph.below id := by
  refine spread_closed id _ (List.nodup_singleton id) ?_ ?_ hedge hsource
  · intro other hother
    exact List.mem_cons.mpr (Or.inl (List.mem_singleton.mp hother))
  · rw [List.length_singleton]
    omega

/-- The nodes below a node are those that a path of edges leads to. -/
theorem mem_below {graph : Graph α} {start id : String} :
    id ∈ graph.below start ↔ graph.Leads start id := by
  constructor
  · intro h
    refine spread_induct (P := graph.Leads start) ?_ _ ?_ id h
    · intro edge hedge hsource
      exact hsource.tail ⟨edge, hedge, rfl, rfl⟩
    · intro other hother
      rw [List.mem_singleton.mp hother]
      exact Relation.ReflTransGen.refl
  · intro h
    induction h with
    | refl => exact self_mem_below graph start
    | tail _ hstep ih =>
        obtain ⟨edge, hedge, hsource, rfl⟩ := hstep
        exact target_mem_below hedge (hsource ▸ ih)

/-! ## The search in depth -/

def unvisited (edges : List Edge) (seen : List String) : List Edge :=
  edges.filter fun edge => edge.source ∉ seen

theorem mem_targets {graph : Graph α} {source target : String} :
    target ∈ targets graph.edges source ↔ graph.Wired source target := by
  simp [targets, Wired, and_assoc]

theorem length_unvisited_cons (edges : List Edge) {seen : List String} {id : String}
    (h : id ∉ seen) :
    (targets edges id).length + (unvisited edges (id :: seen)).length =
      (unvisited edges seen).length := by
  induction edges with
  | nil => rfl
  | cons edge rest ih =>
      simp only [targets, unvisited, List.length_map, List.filter_cons] at ih ⊢
      by_cases hsource : edge.source = id
      · simp [hsource, h] at ih ⊢
        omega
      · by_cases hseen : edge.source ∈ seen
        · simp [hsource, hseen] at ih ⊢
          omega
        · simp [hsource, hseen] at ih ⊢
          omega

@[simp] theorem search_nil (edges : List Edge) (goal : String) (fuel : Nat) (seen : List String) :
    search edges goal fuel seen [] = some false := by
  cases fuel <;> rfl

/-- A visit takes away a pending id, or an id and its edges for which their targets are pending. -/
theorem exists_search (edges : List Edge) (goal : String) (fuel : Nat) {seen pending : List String}
    (hfuel : pending.length + (unvisited edges seen).length ≤ fuel) :
    ∃ found, search edges goal fuel seen pending = some found := by
  induction fuel generalizing seen pending with
  | zero =>
      cases pending with
      | nil => exact ⟨false, search_nil ..⟩
      | cons id rest => simp at hfuel
  | succ fuel ih =>
      cases pending with
      | nil => exact ⟨false, search_nil ..⟩
      | cons id rest =>
          rw [List.length_cons] at hfuel
          rw [search]
          split
          · exact ⟨true, rfl⟩
          · split
            · exact ih (by omega)
            · rename_i hseen
              apply ih
              have hfewer := length_unvisited_cons edges hseen
              rw [List.length_append, List.length_reverse]
              omega

theorem leads_of_search {graph : Graph α} {goal : String} (fuel : Nat) {seen pending : List String}
    (h : search graph.edges goal fuel seen pending = some true) :
    ∃ id ∈ pending, graph.Leads id goal := by
  induction fuel generalizing seen pending with
  | zero => cases pending <;> simp [search] at h
  | succ fuel ih =>
      cases pending with
      | nil => simp at h
      | cons id rest =>
          rw [search] at h
          split at h
          · rename_i hgoal
            exact ⟨id, List.mem_cons_self, hgoal ▸ Relation.ReflTransGen.refl⟩
          · split at h
            · obtain ⟨other, hother, hleads⟩ := ih h
              exact ⟨other, List.mem_cons_of_mem _ hother, hleads⟩
            · obtain ⟨other, hother, hleads⟩ := ih h
              rcases List.mem_append.mp hother with htarget | hrest
              · have hwired := mem_targets.mp (List.mem_reverse.mp htarget)
                exact ⟨id, List.mem_cons_self, hleads.head hwired⟩
              · exact ⟨other, List.mem_cons_of_mem _ hrest, hleads⟩

/-- How far a search is: the goal was not met, and the targets of what was visited were visited or
are pending. -/
structure Searched (graph : Graph α) (goal : String) (seen pending : List String) : Prop where
  unmet : goal ∉ seen
  followed : ∀ source ∈ seen, ∀ target, graph.Wired source target →
    target ∈ seen ∨ target ∈ pending

theorem Searched.drop {graph : Graph α} {goal id : String} {seen pending : List String}
    (h : graph.Searched goal seen (id :: pending)) (hid : id ∈ seen) :
    graph.Searched goal seen pending where
  unmet := h.unmet
  followed := by
    intro source hsource target hstep
    rcases h.followed source hsource target hstep with hseen | hpending
    · exact Or.inl hseen
    · rcases List.mem_cons.mp hpending with rfl | hrest
      · exact Or.inl hid
      · exact Or.inr hrest

theorem Searched.visit {graph : Graph α} {goal id : String} {seen pending : List String}
    (h : graph.Searched goal seen (id :: pending)) (hid : id ≠ goal) :
    graph.Searched goal (id :: seen) ((targets graph.edges id).reverse ++ pending) where
  unmet := by simp [hid.symm, h.unmet]
  followed := by
    intro source hsource target hstep
    rcases List.mem_cons.mp hsource with rfl | hseen
    · exact Or.inr (by simp [mem_targets.mpr hstep])
    · rcases h.followed source hseen target hstep with hmem | hpending
      · exact Or.inl (List.mem_cons_of_mem _ hmem)
      · rcases List.mem_cons.mp hpending with rfl | hrest
        · exact Or.inl List.mem_cons_self
        · exact Or.inr (List.mem_append_right _ hrest)

/-- Once nothing is pending, no path leads out of what was visited. -/
theorem Searched.not_leads {graph : Graph α} {goal id : String} {seen : List String}
    (h : graph.Searched goal seen []) (hid : id ∈ seen) : ¬ graph.Leads id goal := by
  intro hleads
  apply h.unmet
  have hclosed := h.followed
  clear h
  induction hleads with
  | refl => exact hid
  | tail _ hstep ih => exact (hclosed _ ih _ hstep).resolve_right List.not_mem_nil

/-- A search that ends without the goal has met all that its start leads to. -/
theorem Searched.not_leads_of_search {graph : Graph α} {goal : String} (fuel : Nat)
    {seen pending : List String} (h : graph.Searched goal seen pending)
    (hsearch : search graph.edges goal fuel seen pending = some false) {id : String}
    (hid : id ∈ seen ∨ id ∈ pending) : ¬ graph.Leads id goal := by
  induction fuel generalizing seen pending with
  | zero =>
      cases pending with
      | nil => exact h.not_leads (by simpa using hid)
      | cons first rest => simp [search] at hsearch
  | succ fuel ih =>
      cases pending with
      | nil => exact h.not_leads (by simpa using hid)
      | cons first rest =>
          rw [search] at hsearch
          split at hsearch
          · cases hsearch
          · rename_i hgoal
            split at hsearch
            · rename_i hfirst
              apply ih (h.drop hfirst) hsearch
              rcases hid with hid | hid
              · exact Or.inl hid
              · rcases List.mem_cons.mp hid with rfl | hrest
                · exact Or.inl hfirst
                · exact Or.inr hrest
            · apply ih (h.visit hgoal) hsearch
              rcases hid with hid | hid
              · exact Or.inl (List.mem_cons_of_mem _ hid)
              · rcases List.mem_cons.mp hid with rfl | hrest
                · exact Or.inl List.mem_cons_self
                · exact Or.inr (List.mem_append_right _ hrest)

/-- One visit more than there are edges is enough for an answer. -/
theorem exists_search_start (graph : Graph α) (source goal : String) :
    ∃ found, search graph.edges goal (graph.edges.length + 1) [] [source] = some found := by
  apply exists_search
  have hall : (unvisited graph.edges []).length ≤ graph.edges.length := List.length_filter_le _ _
  rw [List.length_singleton]
  omega

/-- The search answers whether a path of edges leads to the goal. -/
theorem search_eq_some_iff {graph : Graph α} {source goal : String} {fuel : Nat} {found : Bool}
    (h : search graph.edges goal fuel [] [source] = some found) :
    found = true ↔ graph.Leads source goal := by
  constructor
  · intro hfound
    obtain ⟨id, hid, hleads⟩ := leads_of_search fuel (hfound ▸ h)
    exact List.mem_singleton.mp hid ▸ hleads
  · intro hleads
    have hstart : graph.Searched goal [] [source] := ⟨by simp, by simp⟩
    cases found with
    | true => rfl
    | false => exact absurd hleads (hstart.not_leads_of_search fuel h (by simp))

theorem reaches_iff {graph : Graph α} {source target : String} :
    graph.reaches source target = true ↔ graph.Leads source target := by
  obtain ⟨found, hfound⟩ := exists_search_start graph source target
  rw [reaches, hfound, Option.getD_some, search_eq_some_iff hfound]

instance (graph : Graph α) (source target : String) : Decidable (graph.Leads source target) :=
  decidable_of_iff (graph.reaches source target = true) reaches_iff

end Graph
end RuleGraph
