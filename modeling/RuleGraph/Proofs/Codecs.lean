import Mathlib
import RuleGraph.Codec

/-!
# Lawful codecs

A codec is lawful if it reads back what it writes, and if more bytes behind those it has read change
nothing but the rest. What is written then is read back in front of any bytes, and no proper prefix
of it is read at all. All codecs are put together from lawful ones, and the ways to put them
together are lawful.
-/

namespace RuleGraph

namespace Codec

variable {α β : Type}

/-- The codec reads back what it writes, and leaves unread what is behind. -/
structure Lawful (codec : Codec α) : Prop where
  decode_encode : ∀ {value bytes}, codec.encode value = some bytes →
    codec.decode bytes = some (value, [])
  decode_append : ∀ {bytes value rest}, codec.decode bytes = some (value, rest) →
    ∀ more, codec.decode (bytes ++ more) = some (value, rest ++ more)

namespace Lawful

variable {codec : Codec α} {value : α} {bytes : Bytes}

theorem decode_encode_append (h : codec.Lawful) (hencode : codec.encode value = some bytes)
    (rest : Bytes) : codec.decode (bytes ++ rest) = some (value, rest) :=
  h.decode_append (h.decode_encode hencode) rest

theorem decode_eq_none (h : codec.Lawful) (hencode : codec.encode value = some bytes)
    {start : Bytes} (hstart : start <+: bytes) (hne : start ≠ bytes) :
    codec.decode start = none := by
  obtain ⟨tail, rfl⟩ := hstart
  cases hdecode : codec.decode start with
  | none => rfl
  | some found =>
      obtain ⟨other, rest⟩ := found
      -- reading the whole would leave the tail over
      have hwhole := h.decode_append hdecode tail
      rw [h.decode_encode hencode] at hwhole
      have hrest : rest ++ tail = [] := (Prod.mk.inj (Option.some.inj hwhole)).2.symm
      have htail : tail = [] := (List.append_eq_nil_iff.mp hrest).2
      exact absurd (by rw [htail, List.append_nil]) hne

end Lawful

/-! ## Numbers -/

theorem takeLittleEndian_littleEndian {width n : Nat} (h : n < 256 ^ width) :
    takeLittleEndian width (littleEndian width n) = some (n, []) := by
  induction width generalizing n with
  | zero =>
      have hzero : n = 0 := by simpa using h
      simp [littleEndian, takeLittleEndian, hzero]
  | succ width ih =>
      have hhigh : n / 256 < 256 ^ width := by
        rw [Nat.div_lt_iff_lt_mul (by decide), ← Nat.pow_succ]
        exact h
      simp [littleEndian, takeLittleEndian, ih hhigh]
      omega

theorem takeLittleEndian_append {width n : Nat} {bytes rest : Bytes}
    (h : takeLittleEndian width bytes = some (n, rest)) (more : Bytes) :
    takeLittleEndian width (bytes ++ more) = some (n, rest ++ more) := by
  induction width generalizing n bytes with
  | zero =>
      simp [takeLittleEndian] at h
      simp [takeLittleEndian, h]
  | succ width ih =>
      cases bytes with
      | nil => cases h
      | cons byte bytes =>
          simp only [takeLittleEndian, Option.bind_eq_bind, Option.bind_eq_some_iff] at h
          obtain ⟨⟨high, found⟩, hhigh, hn⟩ := h
          cases hn
          simp [takeLittleEndian, ih hhigh]

theorem decodeNat_append {widest n : Nat} {bytes rest : Bytes}
    (h : decodeNat widest bytes = some (n, rest)) (more : Bytes) :
    decodeNat widest (bytes ++ more) = some (n, rest ++ more) := by
  cases bytes with
  | nil => cases h
  | cons first bytes =>
      simp only [decodeNat] at h
      simp only [List.cons_append, decodeNat]
      split_ifs at h ⊢
      · cases h
        rfl
      · exact takeLittleEndian_append h more
      · exact takeLittleEndian_append h more
      · exact takeLittleEndian_append h more

theorem decodeNat_encodeNat {widest n : Nat} (hn : n < UInt64.size)
    (hwidest : n < 4294967296 ∨ 8 ≤ widest) : decodeNat widest (encodeNat n) = some (n, []) := by
  unfold UInt64.size at hn
  unfold encodeNat
  split_ifs with hbyte htwo hfour
  · have hsmall : n % 256 = n := Nat.mod_eq_of_lt (by omega)
    simp [decodeNat, hsmall, hbyte]
  · exact takeLittleEndian_littleEndian (by omega)
  · exact takeLittleEndian_littleEndian (by omega)
  · have hwide : 8 ≤ widest := by omega
    have height : takeLittleEndian 8 (littleEndian 8 n) = some (n, []) :=
      takeLittleEndian_littleEndian hn
    simp [decodeNat, hwide, height]

theorem nat_lawful : nat.Lawful where
  decode_encode := by
    intro n bytes h
    simp only [nat, Option.ite_none_right_eq_some, Option.some.injEq] at h
    obtain ⟨hn, rfl⟩ := h
    exact decodeNat_encodeNat hn (Or.inr (Nat.le_refl 8))
  decode_append := decodeNat_append

theorem variantIndex_lawful : variantIndex.Lawful where
  decode_encode := by
    intro n bytes h
    simp only [variantIndex, Option.ite_none_right_eq_some, Option.some.injEq] at h
    obtain ⟨hn, rfl⟩ := h
    exact decodeNat_encodeNat (Nat.lt_trans hn (by decide)) (Or.inl hn)
  decode_append := decodeNat_append

theorem bool_lawful : bool.Lawful where
  decode_encode := by
    intro b bytes h
    cases h
    cases b <;> rfl
  decode_append := by
    intro bytes b rest h more
    simp only [bool] at h
    split at h <;> cases h <;> rfl

theorem byte_lawful : byte.Lawful where
  decode_encode := by
    intro b bytes h
    cases h
    rfl
  decode_append := by
    intro bytes b rest h more
    cases bytes with
    | nil => cases h
    | cons first bytes =>
        cases h
        rfl

/-- The eight bytes of a word, the least significant first. -/
def word : Codec UInt64 where
  encode w := some (littleEndian 8 w.toNat)
  decode bytes := (takeLittleEndian 8 bytes).map fun found => (UInt64.ofNat found.1, found.2)

theorem word_lawful : word.Lawful where
  decode_encode := by
    intro w bytes h
    cases h
    have hword : takeLittleEndian 8 (littleEndian 8 w.toNat) = some (w.toNat, []) :=
      takeLittleEndian_littleEndian w.toNat_lt
    simp [word, hword]
  decode_append := by
    intro bytes w rest h more
    simp only [word, Option.map_eq_some_iff] at h
    obtain ⟨⟨n, found⟩, hn, heq⟩ := h
    cases heq
    simp [word, takeLittleEndian_append hn]

/-! ## Composition -/

theorem pair_lawful {first : Codec α} {second : Codec β} (hfirst : first.Lawful)
    (hsecond : second.Lawful) : (pair first second).Lawful where
  decode_encode := by
    intro value bytes h
    simp only [pair, Option.bind_eq_bind, Option.bind_eq_some_iff, Option.some.injEq] at h
    obtain ⟨head, hhead, tail, htail, rfl⟩ := h
    simp [pair, hfirst.decode_encode_append hhead, hsecond.decode_encode htail]
  decode_append := by
    intro bytes value rest h more
    simp only [pair, Option.bind_eq_bind, Option.bind_eq_some_iff, Option.some.injEq] at h
    obtain ⟨⟨head, middle⟩, hhead, ⟨tail, last⟩, htail, heq⟩ := h
    cases heq
    simp [pair, hfirst.decode_append hhead, hsecond.decode_append htail]

theorem via_lawful {codec : Codec α} {toParts : β → α} {ofParts? : α → Option β}
    (hcodec : codec.Lawful) (hparts : ∀ value, ofParts? (toParts value) = some value) :
    (codec.via toParts ofParts?).Lawful where
  decode_encode := by
    intro value bytes h
    simp [via, hcodec.decode_encode h, hparts]
  decode_append := by
    intro bytes value rest h more
    simp only [via, Option.bind_eq_bind, Option.bind_eq_some_iff, Option.some.injEq] at h
    obtain ⟨⟨parts, found⟩, hparts, other, hother, heq⟩ := h
    cases heq
    simp [via, hcodec.decode_append hparts, hother]

theorem option_lawful {codec : Codec α} (hcodec : codec.Lawful) : (option codec).Lawful where
  decode_encode := by
    intro value bytes h
    cases value with
    | none =>
        cases h
        rfl
    | some value =>
        simp only [option, Option.map_eq_some_iff] at h
        obtain ⟨tail, htail, rfl⟩ := h
        simp [option, hcodec.decode_encode htail]
  decode_append := by
    intro bytes value rest h more
    simp only [option] at h
    split at h
    · cases h
      rfl
    · simp only [Option.map_eq_some_iff] at h
      obtain ⟨⟨found, last⟩, hfound, heq⟩ := h
      cases heq
      simp [option, hcodec.decode_append hfound]
    · cases h

theorem either_lawful {first : Codec α} {second : Codec β} (hfirst : first.Lawful)
    (hsecond : second.Lawful) : (either first second).Lawful where
  decode_encode := by
    intro value bytes h
    cases value with
    | inl value =>
        simp only [either, Option.bind_eq_bind, Option.bind_eq_some_iff, Option.some.injEq] at h
        obtain ⟨tag, htag, tail, htail, rfl⟩ := h
        simp [either, variantIndex_lawful.decode_encode_append htag, hfirst.decode_encode htail]
    | inr value =>
        simp only [either, Option.bind_eq_bind, Option.bind_eq_some_iff, Option.some.injEq] at h
        obtain ⟨tag, htag, tail, htail, rfl⟩ := h
        simp [either, variantIndex_lawful.decode_encode_append htag, hsecond.decode_encode htail]
  decode_append := by
    intro bytes value rest h more
    simp only [either, Option.bind_eq_bind, Option.bind_eq_some_iff] at h
    obtain ⟨⟨tag, middle⟩, htag, h⟩ := h
    have hmore := variantIndex_lawful.decode_append htag more
    dsimp only at h
    split_ifs at h with hzero hone
    · simp only [Option.map_eq_some_iff] at h
      obtain ⟨⟨found, last⟩, hfound, heq⟩ := h
      cases heq
      simp [either, hmore, hzero, hfirst.decode_append hfound]
    · simp only [Option.map_eq_some_iff] at h
      obtain ⟨⟨found, last⟩, hfound, heq⟩ := h
      cases heq
      simp [either, hmore, hone, hsecond.decode_append hfound]

theorem decodeMany_encodeAll {codec : Codec α} (hcodec : codec.Lawful) {values : List α}
    {bytes : Bytes} (h : encodeAll codec values = some bytes) :
    decodeMany codec values.length bytes = some (values, []) := by
  induction values generalizing bytes with
  | nil =>
      cases h
      rfl
  | cons value values ih =>
      simp only [encodeAll, Option.bind_eq_bind, Option.bind_eq_some_iff, Option.some.injEq] at h
      obtain ⟨head, hhead, tail, htail, rfl⟩ := h
      simp [decodeMany, hcodec.decode_encode_append hhead, ih htail]

theorem decodeMany_append {codec : Codec α} (hcodec : codec.Lawful) {count : Nat} {bytes : Bytes}
    {values : List α} {rest : Bytes} (h : decodeMany codec count bytes = some (values, rest))
    (more : Bytes) : decodeMany codec count (bytes ++ more) = some (values, rest ++ more) := by
  induction count generalizing bytes values with
  | zero =>
      simp [decodeMany] at h
      simp [decodeMany, h]
  | succ count ih =>
      simp only [decodeMany, Option.bind_eq_bind, Option.bind_eq_some_iff, Option.some.injEq] at h
      obtain ⟨⟨value, middle⟩, hvalue, ⟨others, last⟩, hothers, heq⟩ := h
      cases heq
      simp [decodeMany, hcodec.decode_append hvalue, ih hothers]

theorem list_lawful {codec : Codec α} (hcodec : codec.Lawful) : (list codec).Lawful where
  decode_encode := by
    intro values bytes h
    simp only [list, Option.bind_eq_bind, Option.bind_eq_some_iff, Option.some.injEq] at h
    obtain ⟨count, hcount, tail, htail, rfl⟩ := h
    simp [list, nat_lawful.decode_encode_append hcount, decodeMany_encodeAll hcodec htail]
  decode_append := by
    intro bytes values rest h more
    simp only [list, Option.bind_eq_bind, Option.bind_eq_some_iff] at h
    obtain ⟨⟨count, middle⟩, hcount, h⟩ := h
    simp [list, nat_lawful.decode_append hcount, decodeMany_append hcodec h]

theorem toList_loop_eq (data : ByteArray) (i : Nat) (front : Bytes) :
    ByteArray.toList.loop data i front = front.reverse ++ data.data.toList.drop i := by
  fun_induction ByteArray.toList.loop data i front with
  | case1 i front hlt ih =>
      have hi : i < data.data.toList.length := by simpa using hlt
      rw [ih, List.drop_eq_getElem_cons hi]
      simp [ByteArray.get!, hlt]
  | case2 i front hge =>
      have hnil : data.data.toList.drop i = [] := List.drop_eq_nil_iff.mpr (by simpa using hge)
      simp [hnil]

theorem toList_eq (data : ByteArray) : data.toList = data.data.toList := by
  simp [ByteArray.toList, toList_loop_eq]

theorem text_lawful : text.Lawful := by
  refine via_lawful (list_lawful byte_lawful) ?_
  intro s
  have hbytes : (⟨s.toUTF8.toList.toArray⟩ : ByteArray) = s.toByteArray := by
    rw [toList_eq]
    rfl
  rw [hbytes, String.fromUTF8?, dif_pos s.isValidUTF8]
  rfl

/-! ## What can be written -/

@[simp] theorem isSome_encode_nat {n : Nat} : (nat.encode n).isSome ↔ n < UInt64.size := by
  simp [nat]

@[simp] theorem isSome_encode_pair {first : Codec α} {second : Codec β} {value : α × β} :
    ((pair first second).encode value).isSome ↔
      (first.encode value.1).isSome ∧ (second.encode value.2).isSome := by
  simp only [pair]
  cases first.encode value.1 <;> cases second.encode value.2 <;> simp

@[simp] theorem isSome_encode_via {codec : Codec α} {toParts : β → α} {ofParts? : α → Option β}
    {value : β} : ((codec.via toParts ofParts?).encode value).isSome ↔
      (codec.encode (toParts value)).isSome :=
  Iff.rfl

@[simp] theorem isSome_encode_option {codec : Codec α} {value : Option α} :
    ((option codec).encode value).isSome ↔ ∀ x, value = some x → (codec.encode x).isSome := by
  cases value <;> simp [option]

@[simp] theorem isSome_encode_either {first : Codec α} {second : Codec β} {value : α ⊕ β} :
    ((either first second).encode value).isSome ↔
      (∀ x, value = .inl x → (first.encode x).isSome) ∧
        (∀ y, value = .inr y → (second.encode y).isSome) := by
  cases value with
  | inl x => cases hx : first.encode x <;> simp [either, variantIndex, hx]
  | inr y => cases hy : second.encode y <;> simp [either, variantIndex, hy]

theorem isSome_encodeAll {codec : Codec α} {values : List α} :
    (encodeAll codec values).isSome ↔ ∀ value ∈ values, (codec.encode value).isSome := by
  induction values with
  | nil => simp [encodeAll]
  | cons value values ih =>
      simp only [encodeAll, List.forall_mem_cons, ← ih]
      cases codec.encode value <;> cases encodeAll codec values <;> simp

@[simp] theorem isSome_encode_list {codec : Codec α} {values : List α} :
    ((list codec).encode values).isSome ↔
      values.length < UInt64.size ∧ ∀ value ∈ values, (codec.encode value).isSome := by
  rw [← isSome_encode_nat, ← isSome_encodeAll]
  simp only [list]
  cases nat.encode values.length <;> cases encodeAll codec values <;> simp

@[simp] theorem isSome_encode_text {s : String} :
    (text.encode s).isSome ↔ s.utf8ByteSize < UInt64.size := by
  simp [text, byte, toList_eq]

end Codec

end RuleGraph
