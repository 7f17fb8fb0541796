/-!
# Byte codecs

A codec writes values as bytes and reads them back from the front of a byte list, returning the
rest. Codecs of larger values are put together from codecs of their parts. Writing fails for numbers
that do not fit; reading fails where the bytes end too early or name nothing.

Integers take one byte up to 250. The bytes 251, 252 and 253 announce two, four and eight bytes with
the least significant first; a longer form than needed is read as well.
-/

namespace RuleGraph

abbrev Bytes : Type :=
  List UInt8

/-- A way to write values as bytes and to read them back. -/
structure Codec (α : Type) where
  encode : α → Option Bytes
  decode : Bytes → Option (α × Bytes)

namespace Codec

variable {α β γ : Type}

/-- A number in so many bytes, the least significant first. -/
def littleEndian : Nat → Nat → Bytes
  | 0, _ => []
  | width + 1, n => UInt8.ofNat (n % 256) :: littleEndian width (n / 256)

@[simp] theorem length_littleEndian (width n : Nat) : (littleEndian width n).length = width := by
  induction width generalizing n with
  | zero => rfl
  | succ width ih => rw [littleEndian, List.length_cons, ih]

def takeLittleEndian : Nat → Bytes → Option (Nat × Bytes)
  | 0, bytes => some (0, bytes)
  | _ + 1, [] => none
  | width + 1, byte :: rest => do
    let (high, rest) ← takeLittleEndian width rest
    some (byte.toNat + 256 * high, rest)

/-- A natural number in the shortest form. -/
def encodeNat (n : Nat) : Bytes :=
  if n ≤ 250 then [UInt8.ofNat n]
  else if n < 65536 then 251 :: littleEndian 2 n
  else if n < 4294967296 then 252 :: littleEndian 4 n
  else 253 :: littleEndian 8 n

/-- A natural number in any form of at most `widest` bytes behind its announcement. -/
def decodeNat (widest : Nat) : Bytes → Option (Nat × Bytes)
  | [] => none
  | first :: rest =>
    if first.toNat ≤ 250 then some (first.toNat, rest)
    else if first = 251 then takeLittleEndian 2 rest
    else if first = 252 then takeLittleEndian 4 rest
    else if first = 253 ∧ 8 ≤ widest then takeLittleEndian 8 rest
    else none

def nat : Codec Nat where
  encode n := if n < UInt64.size then some (encodeNat n) else none
  decode := decodeNat 8

/-- The numbers of variants, of which there are always few. -/
def variantIndex : Codec Nat where
  encode n := if n < 4294967296 then some (encodeNat n) else none
  decode := decodeNat 4

def bool : Codec Bool where
  encode b := some [if b then 1 else 0]
  decode
    | 0 :: rest => some (false, rest)
    | 1 :: rest => some (true, rest)
    | _ => none

def float : Codec Float where
  encode x := some (littleEndian 8 x.toBits.toNat)
  decode bytes := (takeLittleEndian 8 bytes).map fun found =>
    (Float.ofBits (UInt64.ofNat found.1), found.2)

def pair (first : Codec α) (second : Codec β) : Codec (α × β) where
  encode value := do
    let head ← first.encode value.1
    let tail ← second.encode value.2
    some (head ++ tail)
  decode bytes := do
    let (head, rest) ← first.decode bytes
    let (tail, rest) ← second.decode rest
    some ((head, tail), rest)

/-- Values of one type by way of another; reading may refuse. -/
def via (codec : Codec α) (toParts : β → α) (ofParts? : α → Option β) : Codec β where
  encode value := codec.encode (toParts value)
  decode bytes := do
    let (parts, rest) ← codec.decode bytes
    let value ← ofParts? parts
    some (value, rest)

/-- Nothing or a value, behind a byte that tells which. -/
def option (codec : Codec α) : Codec (Option α) where
  encode
    | none => some [0]
    | some value => (codec.encode value).map fun bytes => 1 :: bytes
  decode
    | 0 :: rest => some (none, rest)
    | 1 :: rest => (codec.decode rest).map fun found => (some found.1, found.2)
    | _ => none

/-- The first or the second kind of value, behind the number of the variant. -/
def either (first : Codec α) (second : Codec β) : Codec (α ⊕ β) where
  encode
    | .inl value => do
      let tag ← variantIndex.encode 0
      let bytes ← first.encode value
      some (tag ++ bytes)
    | .inr value => do
      let tag ← variantIndex.encode 1
      let bytes ← second.encode value
      some (tag ++ bytes)
  decode bytes := do
    let (tag, rest) ← variantIndex.decode bytes
    if tag = 0 then (first.decode rest).map fun found => (.inl found.1, found.2)
    else if tag = 1 then (second.decode rest).map fun found => (.inr found.1, found.2)
    else none

/-- All values of a list, without their number. -/
def encodeAll (codec : Codec α) : List α → Option Bytes
  | [] => some []
  | value :: rest => do
    let head ← codec.encode value
    let tail ← encodeAll codec rest
    some (head ++ tail)

def decodeMany (codec : Codec α) : Nat → Bytes → Option (List α × Bytes)
  | 0, bytes => some ([], bytes)
  | count + 1, bytes => do
    let (value, rest) ← codec.decode bytes
    let (values, rest) ← decodeMany codec count rest
    some (value :: values, rest)

def list (codec : Codec α) : Codec (List α) where
  encode values := do
    let count ← nat.encode values.length
    let bytes ← encodeAll codec values
    some (count ++ bytes)
  decode bytes := do
    let (count, rest) ← nat.decode bytes
    decodeMany codec count rest

def byte : Codec UInt8 where
  encode b := some [b]
  decode
    | [] => none
    | b :: rest => some (b, rest)

def text : Codec String :=
  (list byte).via (fun s => s.toUTF8.toList) fun bytes => String.fromUTF8? ⟨bytes.toArray⟩

end Codec

end RuleGraph
