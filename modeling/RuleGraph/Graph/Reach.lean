import RuleGraph.Graph.Basic

/-!
# Reachability

The nodes below a node: those that a path of edges, possibly without edges, leads to. The set is
grown by scanning all edges again and again until a scan adds nothing; each scan but the last adds
the target of some edge, so that there are at most as many scans as edges.

Whether one node leads to another is found by a search in depth, which ends as soon as the other is
met. Each visit follows the edges of a node for the first time, or does no more than to drop what
such an edge left pending, so that one visit more than there are edges is enough.
-/

namespace RuleGraph

namespace Graph

variable {α : Type}

/-- The ids with the target of an edge whose source is among them. -/
def follow (found : List String) (edge : Edge) : List String :=
  if edge.source ∈ found ∧ edge.target ∉ found then edge.target :: found else found

theorem mem_follow {found : List String} {edge : Edge} {id : String} :
    id ∈ follow found edge ↔ id ∈ found ∨ edge.source ∈ found ∧ edge.target = id := by
  unfold follow
  split
  · rename_i h
    constructor
    · intro hmem
      rcases List.mem_cons.mp hmem with rfl | hid
      · exact Or.inr ⟨h.1, rfl⟩
      · exact Or.inl hid
    · rintro (hid | ⟨_, rfl⟩)
      · exact List.mem_cons_of_mem _ hid
      · exact List.mem_cons_self
  · rename_i h
    constructor
    · exact Or.inl
    · rintro (hid | ⟨hsource, rfl⟩)
      · exact hid
      · exact Decidable.byContradiction fun hnot => h ⟨hsource, hnot⟩

/-- Scans edges until a scan adds nothing, at most `fuel` times. -/
def spread (edges : List Edge) : Nat → List String → List String
  | 0, found => found
  | fuel + 1, found =>
    let next := edges.foldl follow found
    if next.length = found.length then found else spread edges fuel next

/-- The ids that a path of edges leads to from a given one, that one included. -/
def below (graph : Graph α) (id : String) : List String :=
  spread graph.edges graph.edges.length [id]

def targets (edges : List Edge) (source : String) : List String :=
  (edges.filter fun edge => edge.source == source).map Edge.target

/-- Visits what is pending, the latest first, until the goal is met; an id that was not seen before
leaves the targets of its edges pending. There is no answer if `fuel` visits are not enough. -/
def search (edges : List Edge) (goal : String) : Nat → List String → List String → Option Bool
  | _, _, [] => some false
  | 0, _, _ :: _ => none
  | fuel + 1, seen, id :: pending =>
    if id = goal then some true
    else if id ∈ seen then search edges goal fuel seen pending
    else search edges goal fuel (id :: seen) ((targets edges id).reverse ++ pending)

def reaches (graph : Graph α) (source target : String) : Bool :=
  (search graph.edges target (graph.edges.length + 1) [] [source]).getD false

end Graph

end RuleGraph
