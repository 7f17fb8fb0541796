import Mathlib.Data.List.Induction
import RuleGraph.Graph.Id

/-!
# Laws of path ids

Writing a position behind a separator loses nothing: the digits of a position never contain the
separator, so that the last separator of a text is where the position starts. Child ids, edge ids
and the ids of whole paths are therefore injective, whatever characters the id in front contains.
-/

namespace RuleGraph

/-- What stands behind the last of several separators is determined, and so is what stands before.
-/
theorem append_separator_inj {c : Char} {xs ys ds es : List Char} (hds : c ∉ ds) (hes : c ∉ es)
    (h : xs ++ c :: ds = ys ++ c :: es) : xs = ys ∧ ds = es := by
  rcases List.append_eq_append_iff.mp h with ⟨zs, hys, hrest⟩ | ⟨zs, hxs, hrest⟩
  · cases zs with
    | nil => simpa [hys] using hrest
    | cons z zs =>
        have htail : ds = zs ++ c :: es := (List.cons.inj hrest).2
        exact absurd (by simp [htail]) hds
  · cases zs with
    | nil => simpa [hxs, eq_comm] using hrest
    | cons z zs =>
        have htail : es = zs ++ c :: ds := (List.cons.inj hrest).2
        exact absurd (by simp [htail]) hes

theorem not_mem_toList_toString {c : Char} (hc : c.isDigit = false) (n : Nat) :
    c ∉ (toString n).toList := by
  intro hmem
  rw [Nat.toString_eq_repr, Nat.toList_repr] at hmem
  have hdigit := Nat.isDigit_of_mem_toDigits (by decide) (by decide) hmem
  rw [hc] at hdigit
  exact Bool.noConfusion hdigit

/-- A number behind a separator determines both the number and the text before the separator. -/
theorem numbered_inj {c : Char} (hc : c.isDigit = false) {a b : String} {i j : Nat}
    (h : a.toList ++ c :: (toString i).toList = b.toList ++ c :: (toString j).toList) :
    a = b ∧ i = j := by
  obtain ⟨hid, hdigits⟩ :=
    append_separator_inj (not_mem_toList_toString hc i) (not_mem_toList_toString hc j) h
  refine ⟨String.toList_inj.mp hid, ?_⟩
  rw [Nat.toString_eq_repr, Nat.toString_eq_repr, Nat.toList_repr, Nat.toList_repr] at hdigits
  have hvalue : Nat.ofDigitChars 10 (Nat.toDigits 10 i) 0 =
      Nat.ofDigitChars 10 (Nat.toDigits 10 j) 0 := by
    rw [hdigits]
  rwa [Nat.ofDigitChars_ten_toDigits, Nat.ofDigitChars_ten_toDigits] at hvalue

theorem toList_childId (parent : String) (position : Nat) :
    (childId parent position).toList = parent.toList ++ '.' :: (toString position).toList := by
  simp [childId]

theorem toList_edgeId (source : String) (slot : Nat) :
    (edgeId source slot).toList = source.toList ++ '-' :: (toString slot).toList := by
  simp [edgeId]

theorem childId_inj {a b : String} {i j : Nat} : childId a i = childId b j ↔ a = b ∧ i = j := by
  constructor
  · intro h
    have hchars := congrArg String.toList h
    rw [toList_childId, toList_childId] at hchars
    exact numbered_inj (by decide) hchars
  · rintro ⟨rfl, rfl⟩
    rfl

theorem edgeId_inj {a b : String} {i j : Nat} : edgeId a i = edgeId b j ↔ a = b ∧ i = j := by
  constructor
  · intro h
    have hchars := congrArg String.toList h
    rw [toList_edgeId, toList_edgeId] at hchars
    exact numbered_inj (by decide) hchars
  · rintro ⟨rfl, rfl⟩
    rfl

/-- No two edges, and no two children, share an id. -/
theorem edgeId_childId_injective : Function.Injective2 edgeId ∧ Function.Injective2 childId :=
  ⟨fun _ _ _ _ => edgeId_inj.mp, fun _ _ _ _ => childId_inj.mp⟩

/-- The id at the end of a path that starts at a node. -/
def idBelow (base : String) (path : List Nat) : String :=
  path.foldl childId base

@[simp] theorem idBelow_nil (base : String) : idBelow base [] = base :=
  rfl

@[simp] theorem idBelow_rootId (path : List Nat) : idBelow rootId path = idOfPath path :=
  rfl

theorem idBelow_concat (base : String) (path : List Nat) (position : Nat) :
    idBelow base (path ++ [position]) = childId (idBelow base path) position := by
  rw [idBelow, List.foldl_append]
  rfl

theorem idBelow_append (base : String) (path below : List Nat) :
    idBelow base (path ++ below) = idBelow (idBelow base path) below :=
  List.foldl_append

theorem length_lt_childId (parent : String) (position : Nat) :
    parent.toList.length < (childId parent position).toList.length := by
  rw [toList_childId, List.length_append, List.length_cons]
  omega

theorem prefix_idBelow (base : String) (path : List Nat) :
    base.toList <+: (idBelow base path).toList := by
  induction path generalizing base with
  | nil => exact List.prefix_refl _
  | cons position path ih =>
      have hchild : base.toList <+: (childId base position).toList := by
        rw [toList_childId]
        exact List.prefix_append _ _
      exact hchild.trans (ih _)

theorem idBelow_concat_ne (base : String) (path : List Nat) (position : Nat) :
    idBelow base (path ++ [position]) ≠ base := by
  intro h
  have hlength := length_lt_childId (idBelow base path) position
  rw [← idBelow_concat, h] at hlength
  have hbase := (prefix_idBelow base path).length_le
  omega

theorem idBelow_inj {base : String} {p q : List Nat} : idBelow base p = idBelow base q ↔ p = q := by
  constructor
  · intro h
    induction p using List.reverseRecOn generalizing q with
    | nil =>
        rcases List.eq_nil_or_concat q with rfl | ⟨q, j, rfl⟩
        · rfl
        · rw [List.concat_eq_append] at h
          exact absurd h.symm (idBelow_concat_ne base q j)
    | append_singleton p i ih =>
        rcases List.eq_nil_or_concat q with rfl | ⟨q, j, rfl⟩
        · exact absurd h (idBelow_concat_ne base p i)
        · rw [List.concat_eq_append] at h ⊢
          rw [idBelow_concat, idBelow_concat, childId_inj] at h
          rw [ih h.1, h.2]
  · rintro rfl
    rfl

theorem idOfPath_inj {p q : List Nat} : idOfPath p = idOfPath q ↔ p = q :=
  idBelow_inj

/-! ## Numerals -/

theorem value_toString (n : Nat) :
    (toString n).toList.foldl (fun n c => n * 10 + (c.toNat - '0'.toNat)) 0 = n := by
  simp only [Nat.mul_comm _ 10]
  rw [← Nat.ofDigitChars_eq_foldl, Nat.toString_eq_repr, Nat.toList_repr,
    Nat.ofDigitChars_ten_toDigits]

theorem head?_toDigits_ne {n : Nat} (h : 0 < n) : (Nat.toDigits 10 n).head? ≠ some '0' := by
  induction n using Nat.strongRecOn with
  | ind n ih =>
      rcases Nat.lt_or_ge n 10 with hlt | hge
      · rw [Nat.toDigits_of_lt_base hlt, List.head?_cons, Ne, Option.some.injEq,
          Nat.digitChar_eq_zero]
        omega
      · have hhigher := ih (n / 10) (by omega) (by omega)
        rw [Nat.toDigits_of_base_le (by decide) hge, List.head?_append]
        cases hdigits : Nat.toDigits 10 (n / 10) with
        | nil => exact absurd hdigits Nat.toDigits_ne_nil
        | cons c rest =>
            rw [hdigits] at hhigher
            exact hhigher

end RuleGraph
