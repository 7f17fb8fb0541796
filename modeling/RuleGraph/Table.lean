/-!
# Tables

Finite maps as lists of pairs. `put` replaces the value of a key that is already there and appends
the pair otherwise, so that a table built by `put` has each key once.
-/

namespace RuleGraph

abbrev Table (κ ν : Type) : Type :=
  List (κ × ν)

namespace Table

variable {κ ν : Type} [DecidableEq κ]

def get? : Table κ ν → κ → Option ν
  | [], _ => none
  | (k, v) :: rest, key => if k = key then some v else get? rest key

/-- The table with a value for a key, in place of the one it had. -/
def put : Table κ ν → κ → ν → Table κ ν
  | [], key, value => [(key, value)]
  | (k, v) :: rest, key, value =>
    if k = key then (key, value) :: rest else (k, v) :: put rest key value

@[simp] theorem get?_nil (key : κ) : get? ([] : Table κ ν) key = none :=
  rfl

theorem get?_put (table : Table κ ν) (key other : κ) (value : ν) :
    get? (put table key value) other = if key = other then some value else get? table other := by
  induction table with
  | nil => simp [put, get?]
  | cons entry rest ih =>
      obtain ⟨k, v⟩ := entry
      by_cases hk : k = key
      · subst hk
        by_cases ho : k = other <;> simp [put, get?, ho]
      · by_cases ho : k = other
        · subst ho
          simp [put, get?, hk, Ne.symm hk]
        · simp [put, get?, hk, ho, ih]

/-- A new key goes to the end. -/
theorem put_of_forall_ne {table : Table κ ν} {key : κ} (h : ∀ entry ∈ table, entry.1 ≠ key)
    (value : ν) : put table key value = table ++ [(key, value)] := by
  induction table with
  | nil => rfl
  | cons entry rest ih =>
      obtain ⟨k, v⟩ := entry
      rw [put, if_neg (h (k, v) List.mem_cons_self),
        ih fun other hother => h other (List.mem_cons_of_mem _ hother)]
      rfl

@[simp] theorem get?_put_self (table : Table κ ν) (key : κ) (value : ν) :
    get? (put table key value) key = some value := by
  simp [get?_put]

end Table

end RuleGraph
