import Mathlib.Data.List.Forall2
import Mathlib.Tactic.Choose

/-!
# Computations one after another

Computations that may fail, carried out for the members of a list in order: all of them succeed, or
the first error is the error of the whole. Either is turned into a statement about the single
members.
-/

namespace RuleGraph

theorem bind_eq_ok {ε β γ : Type} {x : Except ε β} {f : β → Except ε γ} {c : γ} :
    (x >>= f) = .ok c ↔ ∃ b, x = .ok b ∧ f b = .ok c := by
  cases x with
  | error e =>
      constructor
      · intro h
        cases h
      · intro h
        obtain ⟨b, hb, _⟩ := h
        cases hb
  | ok b =>
      constructor
      · intro h
        exact ⟨b, rfl, h⟩
      · intro h
        obtain ⟨b', hb, hf⟩ := h
        cases hb
        exact hf

theorem bind_eq_error {ε β γ : Type} {x : Except ε β} {f : β → Except ε γ} {e : ε} :
    (x >>= f) = .error e ↔ x = .error e ∨ ∃ b, x = .ok b ∧ f b = .error e := by
  cases x with
  | error e' => simp [bind, Except.bind]
  | ok b => simp [bind, Except.bind]

theorem mapM_eq_ok {ε β γ : Type} {f : β → Except ε γ} {entries : List β} {results : List γ} :
    entries.mapM f = .ok results ↔ List.Forall₂ (fun x y => f x = .ok y) entries results := by
  induction entries generalizing results with
  | nil =>
      rw [List.mapM_nil, List.forall₂_nil_left_iff]
      constructor
      · intro h
        cases h
        rfl
      · intro h
        rw [h]
        rfl
  | cons x rest ih =>
      rw [List.mapM_cons, bind_eq_ok, List.forall₂_cons_left_iff]
      constructor
      · intro h
        obtain ⟨y, hy, hrest⟩ := h
        obtain ⟨ys, hys, hresults⟩ := bind_eq_ok.mp hrest
        cases hresults
        exact ⟨y, ys, hy, ih.mp hys, rfl⟩
      · intro h
        obtain ⟨y, ys, hy, hys, hresults⟩ := h
        rw [hresults]
        exact ⟨y, hy, bind_eq_ok.mpr ⟨ys, ih.mpr hys, rfl⟩⟩

theorem exists_ok_of_mapM_eq_ok {ε β γ : Type} {f : β → Except ε γ} {entries : List β}
    {results : List γ} (h : entries.mapM f = .ok results) {x : β} (hx : x ∈ entries) :
    ∃ y, f x = .ok y := by
  rw [mapM_eq_ok] at h
  induction h with
  | nil => cases hx
  | cons hfirst _ ih =>
      rcases List.mem_cons.mp hx with rfl | hrest
      · exact ⟨_, hfirst⟩
      · exact ih hrest

theorem mapM_congr_of_mem {ε β γ : Type} {f g : β → Except ε γ} {entries : List β}
    (h : ∀ x ∈ entries, f x = g x) : entries.mapM f = entries.mapM g := by
  induction entries with
  | nil => rfl
  | cons x rest ih =>
      rw [List.mapM_cons, List.mapM_cons, h x List.mem_cons_self,
        ih fun y hy => h y (List.mem_cons_of_mem _ hy)]

/-- Where each entry has a result, there is a list of the results. -/
theorem exists_results {β γ : Type} {P : Nat → β → γ → Prop} {entries : List β}
    (h : ∀ (i : Nat) (x : β), entries[i]? = some x → ∃ y, P i x y) :
    ∃ results : List γ, results.length = entries.length ∧
      ∀ (i : Nat) (y : γ), results[i]? = some y → ∃ x, entries[i]? = some x ∧ P i x y := by
  choose result hresult using fun i : Fin entries.length =>
    h i entries[i] (List.getElem?_eq_getElem i.isLt)
  refine ⟨List.ofFn result, List.length_ofFn, ?_⟩
  intro i y hy
  obtain ⟨hi, rfl⟩ := List.getElem?_eq_some_iff.mp hy
  rw [List.length_ofFn] at hi
  rw [List.getElem_ofFn]
  exact ⟨entries[i], List.getElem?_eq_getElem hi, hresult ⟨i, hi⟩⟩

theorem map_results {β γ : Type} {f : γ → β} {entries : List β} {results : List γ}
    (hlength : results.length = entries.length)
    (h : ∀ (i : Nat) (y : γ), results[i]? = some y → entries[i]? = some (f y)) :
    results.map f = entries := by
  apply List.ext_getElem?
  intro i
  rw [List.getElem?_map]
  cases hy : results[i]? with
  | some y => exact (h i y hy).symm
  | none =>
      rw [List.getElem?_eq_none_iff] at hy
      exact (List.getElem?_eq_none (hlength ▸ hy)).symm

theorem mapM_range_eq_ok {ε β : Type} {f : Nat → Except ε β} {count : Nat} {results : List β} :
    (List.range count).mapM f = .ok results ↔
      results.length = count ∧ ∀ i y, results[i]? = some y → f i = .ok y := by
  rw [mapM_eq_ok, List.forall₂_iff_get]
  constructor
  · intro h
    obtain ⟨hlength, hall⟩ := h
    refine ⟨by rw [← hlength, List.length_range], ?_⟩
    intro i y hy
    obtain ⟨hi, rfl⟩ := List.getElem?_eq_some_iff.mp hy
    have hvalue := hall i (hlength ▸ hi) hi
    simpa using hvalue
  · intro h
    obtain ⟨hlength, hall⟩ := h
    refine ⟨by rw [hlength, List.length_range], ?_⟩
    intro i hi hi'
    have hvalue := hall i (results.get ⟨i, hi'⟩) (List.getElem?_eq_getElem hi')
    simpa using hvalue

theorem mapM_zipIdx_eq_ok {ε β γ : Type} {f : β × Nat → Except ε γ} {entries : List β}
    {results : List γ} :
    entries.zipIdx.mapM f = .ok results ↔
      results.length = entries.length ∧
        ∀ (i : Nat) (x : β) (y : γ), entries[i]? = some x → results[i]? = some y →
          f (x, i) = .ok y := by
  rw [mapM_eq_ok, List.forall₂_iff_get]
  constructor
  · intro h
    obtain ⟨hlength, hall⟩ := h
    rw [List.length_zipIdx] at hlength
    refine ⟨hlength.symm, ?_⟩
    intro i x y hx hy
    obtain ⟨hi, rfl⟩ := List.getElem?_eq_some_iff.mp hx
    obtain ⟨hi', rfl⟩ := List.getElem?_eq_some_iff.mp hy
    have hvalue := hall i (by rwa [List.length_zipIdx]) hi'
    simpa using hvalue
  · intro h
    obtain ⟨hlength, hall⟩ := h
    refine ⟨by rw [hlength, List.length_zipIdx], ?_⟩
    intro i hi hi'
    rw [List.length_zipIdx] at hi
    have hvalue := hall i _ _ (List.getElem?_eq_getElem hi) (List.getElem?_eq_getElem hi')
    simpa using hvalue

theorem mapM_eq_error {ε β γ : Type} {f : β → Except ε γ} {before after : List β} {x : β} {e : ε}
    (hbefore : ∀ y ∈ before, ∃ c, f y = .ok c) (hfails : f x = .error e) :
    (before ++ x :: after).mapM f = .error e := by
  induction before with
  | nil =>
      rw [List.nil_append, List.mapM_cons, hfails]
      rfl
  | cons y rest ih =>
      obtain ⟨c, hc⟩ := hbefore y List.mem_cons_self
      have hrest := ih fun z hz => hbefore z (List.mem_cons_of_mem _ hz)
      rw [List.cons_append, List.mapM_cons, hc, hrest]
      rfl

theorem mapM_range_eq_error {ε β : Type} {f : Nat → Except ε β} {count i : Nat} {e : ε}
    (hi : i < count) (hbefore : ∀ j, j < i → ∃ b, f j = .ok b) (hfails : f i = .error e) :
    (List.range count).mapM f = .error e := by
  obtain ⟨k, rfl⟩ : ∃ k, count = i + (k + 1) := ⟨count - i - 1, by omega⟩
  rw [List.range_add, List.range_succ_eq_map, List.map_cons]
  exact mapM_eq_error (fun j hj => hbefore j (List.mem_range.mp hj)) hfails

/-- The first error is the error of the whole. -/
theorem mapM_range_eq_error_iff {ε β : Type} {f : Nat → Except ε β} {count : Nat} {e : ε} :
    (List.range count).mapM f = .error e ↔
      ∃ i < count, (∀ j < i, ∃ b, f j = .ok b) ∧ f i = .error e := by
  constructor
  · intro h
    induction count with
    | zero => cases h
    | succ count ih =>
        rw [List.range_succ, List.mapM_append] at h
        rcases bind_eq_error.mp h with hfirst | ⟨results, hresults, hlast⟩
        · obtain ⟨i, hi, hfails⟩ := ih hfirst
          exact ⟨i, Nat.lt_succ_of_lt hi, hfails⟩
        · have hbefore : ∀ j < count, ∃ b, f j = .ok b :=
            fun j hj => exists_ok_of_mapM_eq_ok hresults (List.mem_range.mpr hj)
          refine ⟨count, Nat.lt_succ_self _, hbefore, ?_⟩
          rcases bind_eq_error.mp hlast with hsingle | ⟨_, _, hpure⟩
          · rw [List.mapM_cons] at hsingle
            rcases bind_eq_error.mp hsingle with hfails | ⟨_, _, hpure⟩
            · exact hfails
            · cases hpure
          · cases hpure
  · rintro ⟨i, hi, hbefore, hfails⟩
    exact mapM_range_eq_error hi hbefore hfails

/-! ## Computations that are observed alike -/

theorem bind_map_congr {ε β β' γ γ' δ ζ : Type} {x : Except ε β} {x' : Except ε β'}
    {f : β → Except ε γ} {f' : β' → Except ε γ'} {p : β → δ} {p' : β' → δ} {q : γ → ζ} {q' : γ' → ζ}
    (hx : x.map p = x'.map p') (hf : ∀ b b', p b = p' b' → (f b).map q = (f' b').map q') :
    (x >>= f).map q = (x' >>= f').map q' := by
  cases x with
  | error e =>
      cases x' with
      | error e' =>
          cases hx
          rfl
      | ok b' => cases hx
  | ok b =>
      cases x' with
      | error e' => cases hx
      | ok b' => exact hf b b' (Except.ok.inj hx)

theorem mapM_map_congr {ε β γ γ' δ : Type} {f : β → Except ε γ} {f' : β → Except ε γ'} {p : γ → δ}
    {p' : γ' → δ} {entries : List β} (h : ∀ x ∈ entries, (f x).map p = (f' x).map p') :
    (entries.mapM f).map (List.map p) = (entries.mapM f').map (List.map p') := by
  induction entries with
  | nil => rfl
  | cons x rest ih =>
      rw [List.mapM_cons, List.mapM_cons]
      refine bind_map_congr (h x List.mem_cons_self) fun y y' hy => ?_
      refine bind_map_congr (ih fun z hz => h z (List.mem_cons_of_mem _ hz)) fun ys ys' hys => ?_
      exact congrArg Except.ok (List.cons_eq_cons.mpr ⟨hy, hys⟩)

/-! ## Related lists -/

theorem exists_of_forall₂ {β γ : Type} {R : β → γ → Prop} {items : List β} {found : List γ}
    (h : List.Forall₂ R items found) : ∀ y ∈ found, ∃ x ∈ items, R x y := by
  induction h with
  | nil => exact fun _ hb => absurd hb List.not_mem_nil
  | @cons item b items found hfirst _ ih =>
      refine List.forall_mem_cons.mpr ⟨⟨item, List.mem_cons_self, hfirst⟩, ?_⟩
      intro other hother
      obtain ⟨source, hsource, hdenotes⟩ := ih other hother
      exact ⟨source, List.mem_cons_of_mem _ hsource, hdenotes⟩

end RuleGraph
