import Mathlib.Algebra.Order.Ring.Rat
import Mathlib.Tactic.Linarith
import RuleGraph.Proofs.Drawing
import RuleGraph.Proofs.Paths
import RuleGraph.Registry.Standard

/-!
# Space between boxes

In exact arithmetic, and with no negative measure, a drawing keeps its boxes apart. All boxes of a
subtree stand to the right of and below its anchor, so that a column of subtrees that start below
one another stays clear of the operation to its left, and two boxes that do not stand above one
another in the tree belong to two subtrees of one column, however far below its top they are.
Doubles round, so that none of this is claimed of them.
-/

namespace RuleGraph

/-- Exact lengths. The layout asks for the greatest of some lengths only where there is one. -/
instance : Scalar ℚ where
  times n x := n * x
  greatest
    | [] => 0
    | x :: xs => xs.foldl max x

theorem le_foldl_max {x first : ℚ} {xs : List ℚ} (h : x ≤ first ∨ x ∈ xs) :
    x ≤ xs.foldl max first := by
  induction xs generalizing first with
  | nil => exact h.resolve_right List.not_mem_nil
  | cons second rest ih =>
      apply ih
      rcases h with hle | hmem
      · exact Or.inl (hle.trans (le_max_left first second))
      · rcases List.mem_cons.mp hmem with rfl | hmem
        · exact Or.inl (le_max_right first x)
        · exact Or.inr hmem

theorem le_greatest {x : ℚ} {xs : List ℚ} (h : x ∈ xs) : x ≤ Scalar.greatest xs := by
  cases xs with
  | nil => cases h
  | cons first rest => exact le_foldl_max ((List.mem_cons.mp h).imp_left le_of_eq)

/-! ## Boxes -/

/-- No measure is negative. The anchor of the first box may be anywhere. -/
structure LayoutConfig.Nonneg (config : LayoutConfig ℚ) : Prop where
  nodeWidth : 0 ≤ config.nodeWidth
  headerHeight : 0 ≤ config.headerHeight
  slotRowHeight : 0 ≤ config.slotRowHeight
  dividerHeight : 0 ≤ config.dividerHeight
  horizontalPadding : 0 ≤ config.horizontalPadding
  verticalPadding : 0 ≤ config.verticalPadding

/-- What a node covers of the plane. -/
structure Box where
  position : Position ℚ
  size : Size ℚ

namespace Box

def right (box : Box) : ℚ :=
  box.position.x + box.size.width

def bottom (box : Box) : ℚ :=
  box.position.y + box.size.height

/-- One of the boxes ends before the other one starts, to the right or further down. -/
def Apart (box other : Box) : Prop :=
  box.right ≤ other.position.x ∨ other.right ≤ box.position.x ∨
    box.bottom ≤ other.position.y ∨ other.bottom ≤ box.position.y

end Box

def Node.box (node : Node ℚ) : Box :=
  ⟨node.position, node.size⟩

def Layout.box (layout : Layout ℚ) (placement : Placement ℚ) : Box :=
  ⟨placement.position, layout.size placement.expression⟩

/-! ## The order of paths -/

/-- The paths part, the first one to an earlier position. -/
def Earlier (path other : List Nat) : Prop :=
  ∃ common i j rest others, i < j ∧ path = common ++ i :: rest ∧ other = common ++ j :: others

theorem Earlier.cons {path other : List Nat} (h : Earlier path other) (position : Nat) :
    Earlier (position :: path) (position :: other) := by
  obtain ⟨common, i, j, rest, others, hlt, rfl, rfl⟩ := h
  exact ⟨position :: common, i, j, rest, others, hlt, rfl, rfl⟩

/-- Whatever the paths lead on to, they have parted. -/
theorem Earlier.append {path other : List Nat} (h : Earlier path other) (below beyond : List Nat) :
    Earlier (path ++ below) (other ++ beyond) := by
  obtain ⟨common, i, j, rest, others, hlt, rfl, rfl⟩ := h
  exact ⟨common, i, j, rest ++ below, others ++ beyond, hlt, by simp, by simp⟩

theorem Earlier.lt {path other : List Nat} (h : Earlier path other) : path < other := by
  obtain ⟨common, i, j, rest, others, hlt, rfl, rfl⟩ := h
  induction common with
  | nil => exact List.Lex.rel hlt
  | cons position common ih => exact List.Lex.cons ih

theorem lt_append {path below : List Nat} (h : below ≠ []) : path < path ++ below := by
  induction path with
  | nil =>
      cases below with
      | nil => exact absurd rfl h
      | cons position rest => exact List.Lex.nil
  | cons position path ih => exact List.Lex.cons ih

theorem Earlier.not_prefix {path other : List Nat} (h : Earlier path other) :
    ¬ path <+: other := by
  obtain ⟨common, i, j, rest, others, hlt, rfl, rfl⟩ := h
  rw [List.prefix_append_right_inj, List.cons_prefix_cons]
  omega

/-! ## Spreads -/

/-- The box at a path keeps its distance from a box that is drawn after it: horizontally from one
further down the path, vertically from one that the path parts from. -/
def Spread (config : LayoutConfig ℚ) (path : List Nat) (box : Box) (other : List Nat)
    (otherBox : Box) : Prop :=
  ((∃ below, below ≠ [] ∧ other = path ++ below) ∧
      box.right + config.horizontalPadding ≤ otherBox.position.x) ∨
    (Earlier path other ∧ box.bottom + config.verticalPadding ≤ otherBox.position.y)

theorem Spread.cons {config : LayoutConfig ℚ} {path other : List Nat} {box otherBox : Box}
    (h : Spread config path box other otherBox) (position : Nat) :
    Spread config (position :: path) box (position :: other) otherBox := by
  rcases h with ⟨⟨below, hbelow, rfl⟩, hright⟩ | ⟨hearlier, hbottom⟩
  · exact Or.inl ⟨⟨below, hbelow, rfl⟩, hright⟩
  · exact Or.inr ⟨hearlier.cons position, hbottom⟩

theorem Spread.lt {config : LayoutConfig ℚ} {path other : List Nat} {box otherBox : Box}
    (h : Spread config path box other otherBox) : path < other := by
  rcases h with ⟨⟨below, hbelow, rfl⟩, _⟩ | ⟨hearlier, _⟩
  · exact lt_append hbelow
  · exact hearlier.lt

theorem Spread.apart {config : LayoutConfig ℚ} (hconfig : config.Nonneg) {path other : List Nat}
    {box otherBox : Box} (h : Spread config path box other otherBox) : box.Apart otherBox := by
  rcases h with ⟨_, hright⟩ | ⟨_, hbottom⟩
  · exact Or.inl ((le_add_of_nonneg_right hconfig.horizontalPadding).trans hright)
  · exact Or.inr (Or.inr (Or.inl ((le_add_of_nonneg_right hconfig.verticalPadding).trans hbottom)))

namespace Layout

variable {layout : Layout ℚ} {base : String} {x y : ℚ} {position : Nat}
  {placements first others : List (Placement ℚ)}

/-- Both placements are below a node, and their boxes keep their distance. -/
def Spaced (layout : Layout ℚ) (base : String) (placement other : Placement ℚ) : Prop :=
  ∃ path otherPath, placement.id = idBelow base path ∧ other.id = idBelow base otherPath ∧
    Spread layout.config path (layout.box placement) otherPath (layout.box other)

theorem Spaced.up {placement other : Placement ℚ}
    (h : layout.Spaced (childId base position) placement other) :
    layout.Spaced base placement other := by
  obtain ⟨path, otherPath, hid, hother, hspread⟩ := h
  exact ⟨position :: path, position :: otherPath, hid, hother, hspread.cons position⟩

/-- The placements fill the plane to the right of and below an anchor, from the node with an id on.
-/
structure Fits (layout : Layout ℚ) (id : String) (anchor : Position ℚ)
    (placements : List (Placement ℚ)) : Prop where
  right_of : ∀ placement ∈ placements, anchor.x ≤ placement.position.x
  below : ∀ placement ∈ placements, anchor.y ≤ placement.position.y
  named : ∀ placement ∈ placements, ∃ path, placement.id = idBelow id path
  spaced : placements.Pairwise (layout.Spaced id)

/-- The placements fill a column from a height on, with the subtrees at the positions of a node from
one position on. -/
structure Stacked (layout : Layout ℚ) (base : String) (x y : ℚ) (position : Nat)
    (placements : List (Placement ℚ)) : Prop where
  right_of : ∀ placement ∈ placements, x ≤ placement.position.x
  below : ∀ placement ∈ placements, y ≤ placement.position.y
  named : ∀ placement ∈ placements, ∃ i path, position ≤ i ∧ placement.id = idBelow base (i :: path)
  spaced : placements.Pairwise (layout.Spaced base)

theorem Stacked.nil : layout.Stacked base x y position [] :=
  ⟨by simp, by simp, by simp, List.Pairwise.nil⟩

theorem Stacked.of_succ (h : layout.Stacked base x y (position + 1) placements) :
    layout.Stacked base x y position placements := by
  refine ⟨h.right_of, h.below, ?_, h.spaced⟩
  intro placement hplacement
  obtain ⟨i, path, hle, hid⟩ := h.named placement hplacement
  exact ⟨i, path, by omega, hid⟩

theorem le_bottom {placement : Placement ℚ} (h : placement ∈ placements) :
    (layout.box placement).bottom ≤ layout.bottom placements :=
  le_greatest (List.mem_map_of_mem h)

theorem size_height_nonneg (h : layout.config.Nonneg) (e : Expression) :
    0 ≤ (layout.size e).height := by
  have hheader := h.headerHeight
  have hrows : 0 ≤ (((e.slots layout.registry).length : ℕ) : ℚ) * layout.config.slotRowHeight :=
    mul_nonneg (Nat.cast_nonneg _) h.slotRowHeight
  have hdivider : 0 ≤ if 0 < (e.slots layout.registry).length then layout.config.dividerHeight
      else 0 := by
    split
    · exact h.dividerHeight
    · exact le_refl 0
  change 0 ≤ layout.config.headerHeight +
    (((e.slots layout.registry).length : ℕ) : ℚ) * layout.config.slotRowHeight + ite _ _ _
  exact add_nonneg (add_nonneg hheader hrows) hdivider

/-- A subtree is put on top of a column that starts below all of it. -/
theorem Stacked.append (h : layout.config.Nonneg) (hne : first ≠ [])
    (hfirst : layout.Fits (childId base position) ⟨x, y⟩ first)
    (hothers : layout.Stacked base x (layout.bottom first + layout.config.verticalPadding)
      (position + 1) others) :
    layout.Stacked base x y position (first ++ others) := by
  have hnext : y ≤ layout.bottom first + layout.config.verticalPadding := by
    obtain ⟨top, htop⟩ := List.exists_mem_of_ne_nil first hne
    have hbelow := hfirst.below top htop
    have hheight := size_height_nonneg h top.expression
    have hbottom : top.position.y + (layout.size top.expression).height ≤ layout.bottom first :=
      le_bottom htop
    have hpadding := h.verticalPadding
    linarith
  constructor
  · intro placement hplacement
    rcases List.mem_append.mp hplacement with hmem | hmem
    · exact hfirst.right_of placement hmem
    · exact hothers.right_of placement hmem
  · intro placement hplacement
    rcases List.mem_append.mp hplacement with hmem | hmem
    · exact hfirst.below placement hmem
    · exact hnext.trans (hothers.below placement hmem)
  · intro placement hplacement
    rcases List.mem_append.mp hplacement with hmem | hmem
    · obtain ⟨path, hid⟩ := hfirst.named placement hmem
      exact ⟨position, path, le_refl _, hid⟩
    · obtain ⟨i, path, hle, hid⟩ := hothers.named placement hmem
      exact ⟨i, path, by omega, hid⟩
  · refine List.pairwise_append.mpr ⟨hfirst.spaced.imp Spaced.up, hothers.spaced, ?_⟩
    intro placement hmem other hother
    obtain ⟨path, hid⟩ := hfirst.named placement hmem
    obtain ⟨i, otherPath, hle, hotherId⟩ := hothers.named other hother
    refine ⟨position :: path, i :: otherPath, hid, hotherId, Or.inr ⟨?_, ?_⟩⟩
    · exact ⟨[], position, i, path, otherPath, by omega, rfl, rfl⟩
    · have hbottom : (layout.box placement).bottom ≤ layout.bottom first := le_bottom hmem
      exact (add_le_add_left hbottom _).trans (hothers.below other hother)

/-! ## Subtrees -/

theorem placeArguments_stacked (h : layout.config.Nonneg) {arguments : List Argument}
    (hfits : ∀ a ∈ arguments, ∀ id anchor,
      layout.Fits id anchor (layout.placeArgument id anchor a).placements)
    (parent : String) (column y : ℚ) (position : Nat) :
    layout.Stacked parent column y position
      (layout.placeArguments parent column y position arguments).placements := by
  induction arguments generalizing y position with
  | nil => exact .nil
  | cons first rest ih =>
      have hrest := ih fun a ha => hfits a (List.mem_cons_of_mem _ ha)
      cases first with
      | literal value => exact (hrest y (position + 1)).of_succ
      | nested name arguments =>
          have hfirst := hfits _ List.mem_cons_self (childId parent position) ⟨column, y⟩
          exact .append h (List.cons_ne_nil _ _) hfirst (hrest _ (position + 1))

/-- The operation stands at its anchor, or further down where its first nested operation does; the
column of its nested operations starts behind its right edge. -/
theorem placeArgument_fits (h : layout.config.Nonneg) (a : Argument) (id : String)
    (anchor : Position ℚ) :
    layout.Fits id anchor (layout.placeArgument id anchor a).placements := by
  induction a generalizing id anchor with
  | literal value => exact ⟨by simp [placeArgument], by simp [placeArgument],
      by simp [placeArgument], List.Pairwise.nil⟩
  | nested name arguments ih =>
      have hcolumn := placeArguments_stacked h ih id
        (anchor.x + (layout.size ⟨name, arguments⟩).width + layout.config.horizontalPadding)
        anchor.y 0
      have hwidth : 0 ≤ (layout.size ⟨name, arguments⟩).width := h.nodeWidth
      have hpadding := h.horizontalPadding
      rw [placeArgument]
      dsimp only
      generalize (layout.placeArguments id _ anchor.y 0 arguments).placements = column at hcolumn
      constructor
      · intro placement hplacement
        rcases List.mem_cons.mp hplacement with rfl | hmem
        · exact le_refl anchor.x
        · have hright := hcolumn.right_of placement hmem
          linarith
      · intro placement hplacement
        rcases List.mem_cons.mp hplacement with rfl | hmem
        · cases column with
          | nil => exact le_refl anchor.y
          | cons first rest => exact hcolumn.below first List.mem_cons_self
        · exact hcolumn.below placement hmem
      · intro placement hplacement
        rcases List.mem_cons.mp hplacement with rfl | hmem
        · exact ⟨[], rfl⟩
        · obtain ⟨i, path, _, hid⟩ := hcolumn.named placement hmem
          exact ⟨i :: path, hid⟩
      · refine List.pairwise_cons.mpr ⟨?_, hcolumn.spaced⟩
        intro placement hmem
        obtain ⟨i, path, _, hid⟩ := hcolumn.named placement hmem
        refine ⟨[], i :: path, rfl, hid, Or.inl ⟨⟨i :: path, List.cons_ne_nil _ _, rfl⟩, ?_⟩⟩
        exact hcolumn.right_of placement hmem

theorem placeAll_stacked (h : layout.config.Nonneg) (document : Document) (y : ℚ) (index : Nat) :
    layout.Stacked rootId layout.config.origin.x y index
      (layout.placeAll y index document).placements := by
  induction document generalizing y index with
  | nil => exact .nil
  | cons e rest ih =>
      have hfirst := placeArgument_fits h (.ofExpression e) (childId rootId index)
        ⟨layout.config.origin.x, y⟩
      exact .append h (List.cons_ne_nil _ _) hfirst (ih _ (index + 1))

/-! ## Drawings -/

/-- The nodes of a drawing keep their distance, each from all that are listed after it. -/
theorem pairwise_nodes_document (h : layout.config.Nonneg) (keys : Nat → Key)
    (document : Document) :
    (layout.document keys document).nodes.Pairwise fun a b =>
      ∃ path other, a.id = idOfPath path ∧ b.id = idOfPath other ∧
        Spread layout.config path a.box other b.box := by
  by_cases hempty : document = []
  · subst hempty
    exact List.pairwise_singleton _ _
  · have hspaced := (placeAll_stacked h document layout.config.origin.y 0).spaced
    rw [document_of_ne_nil hempty, nodes, List.pairwise_map]
    rw [← List.zipIdx_map_fst 0 (layout.placeAll layout.config.origin.y 0 document).placements,
      List.pairwise_map] at hspaced
    exact hspaced

/-- Whichever of two nodes is listed first, its path is the smaller one. -/
theorem spread_of_lt (h : layout.config.Nonneg) {keys : Nat → Key} {document : Document}
    {a b : Node ℚ} (ha : a ∈ (layout.document keys document).nodes)
    (hb : b ∈ (layout.document keys document).nodes) {path other : List Nat}
    (hid : a.id = idOfPath path) (hother : b.id = idOfPath other) (hlt : path < other) :
    Spread layout.config path a.box other b.box := by
  have hpairs := List.pairwise_iff_getElem.mp (pairwise_nodes_document h keys document)
  obtain ⟨i, hi, rfl⟩ := List.getElem_of_mem ha
  obtain ⟨j, hj, rfl⟩ := List.getElem_of_mem hb
  rcases Nat.lt_trichotomy i j with hij | rfl | hji
  · obtain ⟨p, q, hp, hq, hspread⟩ := hpairs i j hi hj hij
    rw [hid, idOfPath_inj] at hp
    rw [hother, idOfPath_inj] at hq
    rwa [hp, hq]
  · rw [hid, idOfPath_inj] at hother
    exact absurd (hother ▸ hlt) (List.lt_irrefl path)
  · obtain ⟨q, p, hq, hp, hspread⟩ := hpairs j i hj hi hji
    rw [hid, idOfPath_inj] at hp
    rw [hother, idOfPath_inj] at hq
    rw [← hp, ← hq] at hspread
    exact absurd hspread.lt (List.lt_asymm hlt)

/-! ## Ancestors -/

end Layout

/-- A node stands above another one: a path of edges, at least one of them, leads down to it. -/
def Graph.Above {α : Type} (graph : Graph α) : String → String → Prop :=
  Relation.TransGen graph.Wired

namespace Layout

section Ancestors

variable {α : Type} [Scalar α] {layout : Layout α} {keys : Nat → Key} {document : Document}

theorem wired_document {path : List Nat} {target : String} :
    (layout.document keys document).Wired (idOfPath path) target ↔
      ∃ position, (path, position) ∈ document.wires ∧ target = idOfPath (path ++ [position]) := by
  rw [Graph.Wired, edges_document]
  constructor
  · rintro ⟨edge, hedge, hsource, rfl⟩
    obtain ⟨⟨source, position⟩, hwire, rfl⟩ := List.mem_map.mp hedge
    obtain rfl : source = path := idOfPath_inj.mp hsource
    exact ⟨position, hwire, rfl⟩
  · rintro ⟨position, hwire, rfl⟩
    exact ⟨_, List.mem_map_of_mem hwire, rfl, rfl⟩

theorem exists_of_leads_document {path : List Nat} {id : String}
    (h : (layout.document keys document).Leads (idOfPath path) id) :
    ∃ below, id = idOfPath (path ++ below) := by
  induction h with
  | refl => exact ⟨[], by rw [List.append_nil]⟩
  | tail _ hstep ih =>
      obtain ⟨below, rfl⟩ := ih
      obtain ⟨position, _, rfl⟩ := wired_document.mp hstep
      exact ⟨below ++ [position], by rw [List.append_assoc]⟩

theorem exists_of_above_document {path : List Nat} {id : String}
    (h : (layout.document keys document).Above (idOfPath path) id) :
    ∃ below, below ≠ [] ∧ id = idOfPath (path ++ below) := by
  obtain ⟨next, hstep, hleads⟩ := Relation.TransGen.head'_iff.mp h
  obtain ⟨position, _, rfl⟩ := wired_document.mp hstep
  obtain ⟨below, rfl⟩ := exists_of_leads_document hleads
  exact ⟨position :: below, List.cons_ne_nil _ _, by rw [List.append_assoc]; rfl⟩

/-- An operation stands above all that are nested in it. -/
theorem above_document {path below : List Nat} {e : Expression} (hpath : path ≠ [])
    (hbelow : below ≠ []) (h : document.at? (path ++ below) = some (.ofExpression e)) :
    (layout.document keys document).Above (idOfPath path) (idOfPath (path ++ below)) := by
  induction below using List.reverseRecOn generalizing e with
  | nil => exact absurd rfl hbelow
  | append_singleton below position ih =>
      rw [← List.append_assoc] at h ⊢
      have hne : path ++ below ≠ [] := by simp [hpath]
      have hstep : (layout.document keys document).Wired (idOfPath (path ++ below))
          (idOfPath (path ++ below ++ [position])) :=
        wired_document.mpr ⟨position, Document.mem_wires.mpr ⟨hne, e, h⟩, rfl⟩
      by_cases hlast : below = []
      · subst hlast
        rw [List.append_nil] at hstep ⊢
        exact Relation.TransGen.single hstep
      · obtain ⟨parent, hparent, _⟩ := Document.at?_concat_eq_some hne h
        exact (ih hlast hparent).tail hstep

end Ancestors

end Layout

/-! ## Spread out drawings -/

/-- The boxes of a drawing keep their distances. -/
structure Graph.SpreadOut (graph : Graph ℚ) (config : LayoutConfig ℚ) : Prop where
  /-- The nodes are listed depth first and from left to right: paths are compared lexically. -/
  depth_first : graph.nodes.Pairwise fun a b =>
    ∃ path other, a.id = idOfPath path ∧ b.id = idOfPath other ∧ path < other
  /-- Whatever stands below a node starts behind its right edge. -/
  right_of_above : ∀ a ∈ graph.nodes, ∀ b ∈ graph.nodes, graph.Above a.id b.id →
    a.box.right + config.horizontalPadding ≤ b.position.x
  /-- The whole subtree of a node ends above the whole subtree of any node that is listed later,
  unless that node stands below it. -/
  below_earlier : graph.nodes.Pairwise fun a b => ¬ graph.Above a.id b.id →
    ∀ c ∈ graph.nodes, graph.Leads a.id c.id → ∀ d ∈ graph.nodes, graph.Leads b.id d.id →
      c.bottom + config.verticalPadding ≤ d.position.y
  /-- No two boxes overlap. -/
  apart : graph.nodes.Pairwise fun a b => a.box.Apart b.box

namespace Layout

variable {layout : Layout ℚ} {keys : Nat → Key} {document : Document}

theorem right_of_above_document (h : layout.config.Nonneg) {a b : Node ℚ}
    (ha : a ∈ (layout.document keys document).nodes)
    (hb : b ∈ (layout.document keys document).nodes)
    (habove : (layout.document keys document).Above a.id b.id) :
    a.box.right + layout.config.horizontalPadding ≤ b.position.x := by
  obtain ⟨path, hid⟩ := exists_path_of_mem_nodes_document ha
  rw [hid] at habove
  obtain ⟨below, hbelow, hother⟩ := exists_of_above_document habove
  rcases spread_of_lt h ha hb hid hother (lt_append hbelow) with ⟨_, hright⟩ | ⟨hearlier, _⟩
  · exact hright
  · exact absurd (List.prefix_append path below) hearlier.not_prefix

theorem below_earlier_document (h : layout.config.Nonneg) {path other : List Nat}
    (hearlier : Earlier path other) {c d : Node ℚ}
    (hc : c ∈ (layout.document keys document).nodes)
    (hd : d ∈ (layout.document keys document).nodes)
    (hleads : (layout.document keys document).Leads (idOfPath path) c.id)
    (hothers : (layout.document keys document).Leads (idOfPath other) d.id) :
    c.bottom + layout.config.verticalPadding ≤ d.position.y := by
  obtain ⟨below, hcid⟩ := exists_of_leads_document hleads
  obtain ⟨beyond, hdid⟩ := exists_of_leads_document hothers
  have hparted := hearlier.append below beyond
  rcases spread_of_lt h hc hd hcid hdid hparted.lt with ⟨⟨rest, _, hlonger⟩, _⟩ | ⟨_, hbottom⟩
  · exact absurd (hlonger ▸ List.prefix_append _ rest) hparted.not_prefix
  · exact hbottom

theorem earlier_of_not_above (hne : document ≠ []) {a b : Node ℚ}
    (ha : a ∈ (layout.document keys document).nodes)
    (hb : b ∈ (layout.document keys document).nodes) {path other : List Nat}
    (hid : a.id = idOfPath path) (hother : b.id = idOfPath other)
    (hspread : Spread layout.config path a.box other b.box)
    (habove : ¬ (layout.document keys document).Above a.id b.id) : Earlier path other := by
  rcases hspread with ⟨⟨below, hbelow, rfl⟩, _⟩ | ⟨hearlier, _⟩
  · obtain ⟨top, _, htop, _, _, rfl⟩ := mem_nodes_document hne ha
    obtain ⟨found, e, hat, _, _, rfl⟩ := mem_nodes_document hne hb
    obtain rfl : top = path := idOfPath_inj.mp hid
    obtain rfl : found = top ++ below := idOfPath_inj.mp hother
    have hpath : top ≠ [] := by
      rintro rfl
      cases htop
    exact absurd (above_document hpath hbelow hat) habove
  · exact hearlier

/-- In exact arithmetic a drawing keeps its boxes apart, whatever it draws. -/
theorem spreadOut_document (layout : Layout ℚ) (h : layout.config.Nonneg) (keys : Nat → Key)
    (document : Document) : (layout.document keys document).SpreadOut layout.config := by
  have hpairs := pairwise_nodes_document h keys document
  constructor
  · refine hpairs.imp ?_
    rintro a b ⟨path, other, hid, hother, hspread⟩
    exact ⟨path, other, hid, hother, hspread.lt⟩
  · intro a ha b hb
    exact right_of_above_document h ha hb
  · by_cases hempty : document = []
    · subst hempty
      exact List.pairwise_singleton _ _
    · refine hpairs.imp_of_mem ?_
      rintro a b ha hb ⟨path, other, hid, hother, hspread⟩ habove c hc hleads d hd hothers
      have hearlier := earlier_of_not_above hempty ha hb hid hother hspread habove
      rw [hid] at hleads
      rw [hother] at hothers
      exact below_earlier_document h hearlier hc hd hleads hothers
  · refine hpairs.imp ?_
    rintro a b ⟨_, _, _, _, hspread⟩
    exact hspread.apart h

/-- The standard measures as exact lengths. -/
def exact : Layout ℚ :=
  ⟨Registry.standard, ⟨250, 40, 28, 8, 80, 40, ⟨0, 0⟩⟩⟩

/-- Two conditions. The box of the first one has three slots and is taller than the box of its
nested operation, to the right of it. -/
def tall : Document :=
  [⟨"IF", [.nested "getContext" [], .literal (.text "yes"), .literal (.text "no")]⟩,
    ⟨"not", [.nested "isDefined" [.literal (.text "key")]]⟩]

/-- The second condition is drawn below the box of the first one, not just below what is nested
there.
-/
theorem spreadOut_tall :
    exact.config.Nonneg ∧ (exact.document Key.ofNat tall).SpreadOut exact.config ∧
      (exact.document Key.ofNat tall).nodes.map (fun node => (node.id, node.position)) =
        [("root.0", ⟨0, 0⟩), ("root.0.0", ⟨330, 0⟩), ("root.1", ⟨0, 172⟩),
          ("root.1.0", ⟨330, 172⟩)] := by
  have hconfig : exact.config.Nonneg := by
    constructor <;> decide
  exact ⟨hconfig, spreadOut_document exact hconfig Key.ofNat tall, by decide +kernel⟩

end Layout

end RuleGraph
