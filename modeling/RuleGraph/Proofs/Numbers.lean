import RuleGraph.Proofs.Doubles
import RuleGraph.Proofs.Grammar

/-!
# Numbers of documents

Every number of a JSON text is a number: reading never makes a not-a-number. A document that is read
therefore equals itself, entry by entry, and all its operations have names.
-/

namespace RuleGraph

/-! ## Numerals -/

theorem Numeral.isNaN_scaled {steps : Nat} {x y : Float} {exponent : Int} (hx : x.isNaN = false)
    (h : scaled steps x exponent = some y) : y.isNaN = false := by
  induction steps generalizing x exponent with
  | zero =>
      cases h
      exact hx
  | succ steps ih =>
      rw [scaled] at h
      split at h
      · rename_i hexponent
        split at h
        · dsimp only at h
          split at h
          · rename_i hfinite
            cases h
            exact isNaN_of_isFinite hfinite
          · cases h
        · cases h
          exact isNaN_div hx (isProper_power hexponent)
      · split at h
        · cases h
          exact hx
        · split at h
          · cases h
          · exact ih (isNaN_div hx (isProper_power (Nat.le_refl 308))) h

theorem Numeral.isNaN_magnitude {numeral : Numeral} {x : Float} (h : numeral.magnitude = some x) :
    x.isNaN = false := by
  unfold magnitude at h
  dsimp only at h
  split at h
  · exact isNaN_scaled (isNaN_toFloat _) h
  · split at h
    · split at h
      · cases h
      · cases h
        decide
    · exact isNaN_scaled (isNaN_toFloat _) h

theorem Numeral.isNaN_value {numeral : Numeral} {n : Number} (h : numeral.value = some n) :
    n.toFloat.isNaN = false := by
  unfold value at h
  split at h
  · dsimp only at h
    split at h
    · cases h
      exact isNaN_neg (isNaN_toFloat _)
    · cases h
      exact isNaN_toFloat _
  · obtain ⟨x, hx, rfl⟩ := Option.map_eq_some_iff.mp h
    have hsize := isNaN_magnitude hx
    rw [Number.toFloat]
    split
    · exact isNaN_neg hsize
    · exact hsize

/-! ## Texts -/

/-- Each number of the text that has a value is a number. -/
inductive RawJson.Numeric : RawJson → Prop
  | null : Numeric .null
  | bool (value : Bool) : Numeric (.bool value)
  | number {value : Option Number} (h : ∀ n, value = some n → n.toFloat.isNaN = false) :
      Numeric (.number value)
  | string (value : Option String) : Numeric (.string value)
  | array {items : List RawJson} (h : ∀ item ∈ items, Numeric item) : Numeric (.array items)
  | object {members : List (Option String × RawJson)} (h : ∀ member ∈ members, Numeric member.2) :
      Numeric (.object members)

namespace RawJson

/-- With so much fuel, all that the readers find is numeric. -/
structure ReadsNumeric (fuel : Nat) : Prop where
  value : ∀ cs v rest, readValue fuel cs = some (v, rest) → v.Numeric
  items : ∀ cs items rest, readItems fuel cs = some (items, rest) → ∀ item ∈ items, item.Numeric
  members : ∀ cs members rest, readMembers fuel cs = some (members, rest) →
    ∀ member ∈ members, member.2.Numeric

namespace ReadsNumeric

variable {fuel : Nat} {cs rest : List Char}

theorem readValue (ih : ReadsNumeric fuel) {v : RawJson}
    (h : RawJson.readValue (fuel + 1) cs = some (v, rest)) : v.Numeric := by
  rw [RawJson.readValue] at h
  split at h
  · cases h
    exact .null
  · cases h
    exact .bool _
  · cases h
    exact .bool _
  · obtain ⟨found, _, hfound⟩ := Option.bind_eq_some_iff.mp h
    cases hfound
    exact .string _
  · split at h
    · cases h
      exact .array fun _ hitem => absurd hitem List.not_mem_nil
    · obtain ⟨found, hitems, hfound⟩ := Option.bind_eq_some_iff.mp h
      cases hfound
      exact .array (ih.items _ _ _ hitems)
  · split at h
    · cases h
      exact .object fun _ hmember => absurd hmember List.not_mem_nil
    · obtain ⟨found, hmembers, hfound⟩ := Option.bind_eq_some_iff.mp h
      cases hfound
      exact .object (ih.members _ _ _ hmembers)
  · obtain ⟨found, _, hfound⟩ := Option.bind_eq_some_iff.mp h
    cases hfound
    exact .number fun _ hvalue => Numeral.isNaN_value hvalue

theorem readItems (ih : ReadsNumeric fuel) {items : List RawJson}
    (h : RawJson.readItems (fuel + 1) cs = some (items, rest)) : ∀ item ∈ items, item.Numeric := by
  rw [RawJson.readItems] at h
  obtain ⟨first, hfirst, hmore⟩ := Option.bind_eq_some_iff.mp h
  have hitem := ih.value _ _ _ hfirst
  dsimp only at hmore
  split at hmore
  · obtain ⟨others, hothers, hfound⟩ := Option.bind_eq_some_iff.mp hmore
    cases hfound
    exact List.forall_mem_cons.mpr ⟨hitem, ih.items _ _ _ hothers⟩
  · cases hmore
    exact List.forall_mem_singleton.mpr hitem
  · cases hmore

theorem readMembers (ih : ReadsNumeric fuel) {members : List (Option String × RawJson)}
    (h : RawJson.readMembers (fuel + 1) cs = some (members, rest)) :
    ∀ member ∈ members, member.2.Numeric := by
  rw [RawJson.readMembers] at h
  split at h
  · obtain ⟨name, _, hname⟩ := Option.bind_eq_some_iff.mp h
    dsimp only at hname
    split at hname
    · obtain ⟨first, hfirst, hmore⟩ := Option.bind_eq_some_iff.mp hname
      have hitem := ih.value _ _ _ hfirst
      split at hmore
      · obtain ⟨others, hothers, hfound⟩ := Option.bind_eq_some_iff.mp hmore
        cases hfound
        exact List.forall_mem_cons.mpr ⟨hitem, ih.members _ _ _ hothers⟩
      · cases hmore
        exact List.forall_mem_singleton.mpr hitem
      · cases hmore
    · cases hname
  · cases h

end ReadsNumeric

theorem readsNumeric (fuel : Nat) : ReadsNumeric fuel := by
  induction fuel with
  | zero =>
      exact ⟨fun _ _ _ h => (nomatch h), fun _ _ _ h => (nomatch h), fun _ _ _ h => (nomatch h)⟩
  | succ fuel ih =>
      exact ⟨fun _ _ _ => ih.readValue, fun _ _ _ => ih.readItems, fun _ _ _ => ih.readMembers⟩

theorem numeric_parse? {text : String} {v : RawJson} (h : parse? text = some v) : v.Numeric := by
  unfold parse? at h
  obtain ⟨found, hfound, hrest⟩ := Option.bind_eq_some_iff.mp h
  dsimp only at hrest
  split at hrest
  · cases hrest
    exact (readsNumeric _).value _ _ _ hfound
  · cases hrest

end RawJson

/-! ## Values -/

inductive Json.Numeric : Json → Prop
  | null : Numeric .null
  | bool (value : Bool) : Numeric (.bool value)
  | number {value : Number} (h : value.toFloat.isNaN = false) : Numeric (.number value)
  | string (value : String) : Numeric (.string value)
  | array {items : List Json} (h : ∀ item ∈ items, Numeric item) : Numeric (.array items)
  | object {members : List (String × Json)} (h : ∀ member ∈ members, Numeric member.2) :
      Numeric (.object members)

theorem lastOfEach_subset (members : List (String × Json)) : lastOfEach members ⊆ members := by
  induction members with
  | nil => exact List.Subset.refl _
  | cons member rest ih =>
      rw [lastOfEach]
      split
      · exact List.subset_cons_of_subset _ ih
      · exact List.cons_subset_cons _ ih

namespace RawJson

theorem numeric_values? {items : List RawJson} {depth : Nat} {found : List Json}
    (hitems : ∀ item ∈ items, ∀ v, item.value? depth = some v → v.Numeric)
    (h : values? depth items = some found) : ∀ v ∈ found, v.Numeric := by
  induction items generalizing found with
  | nil =>
      cases h
      exact fun _ hv => absurd hv List.not_mem_nil
  | cons item rest ih =>
      rw [values?] at h
      obtain ⟨v, hv, hmore⟩ := Option.bind_eq_some_iff.mp h
      obtain ⟨others, hothers, hfound⟩ := Option.bind_eq_some_iff.mp hmore
      cases hfound
      exact List.forall_mem_cons.mpr ⟨hitems item List.mem_cons_self v hv,
        ih (fun other hother => hitems other (List.mem_cons_of_mem _ hother)) hothers⟩

theorem numeric_memberValues? {members : List (Option String × RawJson)} {depth : Nat}
    {found : List (String × Json)}
    (hmembers : ∀ member ∈ members, ∀ v, member.2.value? depth = some v → v.Numeric)
    (h : memberValues? depth members = some found) : ∀ member ∈ found, member.2.Numeric := by
  induction members generalizing found with
  | nil =>
      cases h
      exact fun _ hv => absurd hv List.not_mem_nil
  | cons member rest ih =>
      rw [memberValues?] at h
      obtain ⟨name, _, hvalue⟩ := Option.bind_eq_some_iff.mp h
      obtain ⟨v, hv, hmore⟩ := Option.bind_eq_some_iff.mp hvalue
      obtain ⟨others, hothers, hfound⟩ := Option.bind_eq_some_iff.mp hmore
      cases hfound
      exact List.forall_mem_cons.mpr ⟨hmembers member List.mem_cons_self v hv,
        ih (fun other hother => hmembers other (List.mem_cons_of_mem _ hother)) hothers⟩

theorem Numeric.value? {raw : RawJson} (hraw : raw.Numeric) {depth : Nat} {v : Json}
    (h : raw.value? depth = some v) : v.Numeric := by
  induction hraw generalizing depth v with
  | null =>
      cases h
      exact .null
  | bool value =>
      cases h
      exact .bool value
  | number hvalue =>
      rw [RawJson.value?] at h
      obtain ⟨n, hn, rfl⟩ := Option.map_eq_some_iff.mp h
      exact .number (hvalue n hn)
  | string value =>
      rw [RawJson.value?] at h
      obtain ⟨s, _, rfl⟩ := Option.map_eq_some_iff.mp h
      exact .string s
  | array _ ih =>
      cases depth with
      | zero => cases h
      | succ depth =>
          rw [RawJson.value?] at h
          obtain ⟨items, hitems, rfl⟩ := Option.map_eq_some_iff.mp h
          exact .array (numeric_values? (fun item hitem v hv => ih item hitem hv) hitems)
  | object _ ih =>
      cases depth with
      | zero => cases h
      | succ depth =>
          rw [RawJson.value?] at h
          obtain ⟨members, hmembers, rfl⟩ := Option.map_eq_some_iff.mp h
          have hall := numeric_memberValues? (fun member hmember v hv => ih member hmember hv)
            hmembers
          exact .object fun member hmember => hall member (lastOfEach_subset _ hmember)

end RawJson

theorem Json.numeric_parse? {text : String} {v : Json} (h : parse? text = some v) : v.Numeric := by
  obtain ⟨raw, hraw, hvalue⟩ := Option.bind_eq_some_iff.mp h
  exact (RawJson.numeric_parse? hraw).value? hvalue

/-! ## Documents -/

/-- All operations have names, and all numbers are numbers. -/
def Argument.Orderly (a : Argument) : Prop :=
  "" ∉ a.names ∧ a.same a = true

def OrderlyAll (arguments : List Argument) : Prop :=
  "" ∉ Argument.namesAll arguments ∧ Argument.sameAll arguments arguments = true

theorem orderlyAll_nil : OrderlyAll [] :=
  ⟨List.not_mem_nil, rfl⟩

theorem OrderlyAll.cons {a : Argument} {arguments : List Argument} (ha : a.Orderly)
    (harguments : OrderlyAll arguments) : OrderlyAll (a :: arguments) := by
  refine ⟨?_, ?_⟩
  · rw [Argument.namesAll, List.mem_append, not_or]
    exact ⟨ha.1, harguments.1⟩
  · rw [Argument.sameAll, ha.2, harguments.2]
    rfl

theorem OrderlyAll.nested {name : String} {arguments : List Argument} (hname : name ≠ "")
    (harguments : OrderlyAll arguments) : (Argument.nested name arguments).Orderly := by
  refine ⟨?_, ?_⟩
  · rw [Argument.names, List.mem_cons, not_or]
    exact ⟨Ne.symm hname, harguments.1⟩
  · rw [Argument.same, beq_self_eq_true, harguments.2]
    rfl

theorem orderlyAll_of_forall {arguments : List Argument} (h : ∀ a ∈ arguments, a.Orderly) :
    OrderlyAll arguments := by
  induction arguments with
  | nil => exact orderlyAll_nil
  | cons a rest ih =>
      exact .cons (h a List.mem_cons_self) (ih fun other hother =>
        h other (List.mem_cons_of_mem _ hother))

/-- What a value without not-a-number denotes is orderly. -/
theorem carries_orderly : Carries Json.Numeric Argument.Orderly where
  item := by
    intro items h
    cases h with
    | array hitems => exact hitems
  member := by
    intro members h
    cases h with
    | object hmembers => exact hmembers
  number := by
    intro n h
    cases h with
    | number hnumber => exact ⟨List.not_mem_nil, beq_self_of_number hnumber⟩
  text s := ⟨List.not_mem_nil, beq_self_eq_true s⟩
  nested _ _ hname harguments := (orderlyAll_of_forall harguments).nested hname

def Document.Orderly (document : Document) : Prop :=
  ∀ e ∈ document, (Argument.ofExpression e).Orderly

theorem Document.orderly_ofJson {v : Json} {document : Document} (hv : v.Numeric)
    (h : Document.ofJson v = .ok document) : document.Orderly :=
  carries_orderly.document (ofJson_eq_ok.mp h) hv

theorem Document.orderly_ofJsonUnder {policy : Policy} {v : Json} {document : Document}
    (hv : v.Numeric) (h : Document.ofJsonUnder policy v = .ok document) : document.Orderly :=
  orderly_ofJson hv (ofJsonUnder_eq_ok.mp h).1

/-- An orderly document equals itself, and its operations have names. -/
theorem Document.Orderly.same_self {document : Document} (h : document.Orderly) :
    Document.same document document = true := by
  induction document with
  | nil => rfl
  | cons e rest ih =>
      have he := (h e List.mem_cons_self).2
      rw [Argument.ofExpression, Argument.same] at he
      rw [Document.same, Expression.same, he, ih fun other hother =>
        h other (List.mem_cons_of_mem _ hother)]
      rfl

theorem Document.Orderly.names {document : Document} (h : document.Orderly) :
    ∀ e ∈ document, "" ∉ e.names :=
  fun e he => (h e he).1

end RuleGraph
