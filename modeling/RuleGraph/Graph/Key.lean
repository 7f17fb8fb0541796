import RuleGraph.Json.Reader

/-!
# Node keys

A key is sixteen bytes that stay with a node when its id changes. As text a key is written in groups
of hexadecimal digits; more spellings are read.
-/

namespace RuleGraph

/-- Sixteen bytes that identify a node. -/
structure Key where
  bytes : List UInt8
  length_eq : bytes.length = 16
  deriving DecidableEq

namespace Key

def ofBytes? (bytes : List UInt8) : Option Key :=
  if h : bytes.length = 16 then some ⟨bytes, h⟩ else none

theorem ofBytes?_bytes (key : Key) : ofBytes? key.bytes = some key := by
  simp [ofBytes?, key.length_eq]

/-- The last bytes of a number, so many of them, the most significant first. -/
def bigEndian : Nat → Nat → List UInt8
  | 0, _ => []
  | width + 1, n => bigEndian width (n / 256) ++ [UInt8.ofNat (n % 256)]

theorem length_bigEndian (width n : Nat) : (bigEndian width n).length = width := by
  induction width generalizing n with
  | zero => rfl
  | succ width ih => simp [bigEndian, ih]

/-- The key that is a number modulo `2 ^ 128`. -/
def ofNat (n : Nat) : Key :=
  ⟨bigEndian 16 n, length_bigEndian 16 n⟩

def byteDigits (byte : UInt8) : List Char :=
  [Nat.digitChar (byte.toNat / 16), Nat.digitChar (byte.toNat % 16)]

def toText (key : Key) : String :=
  let digits := fun (start count : Nat) => ((key.bytes.drop start).take count).flatMap byteDigits
  String.ofList ("-".toList.intercalate
    [digits 0 4, digits 4 2, digits 6 2, digits 8 2, digits 10 6])

/-- Bytes from pairs of hexadecimal digits, of either case. -/
def bytesOfDigits? : List Char → Option (List UInt8)
  | [] => some []
  | [_] => none
  | high :: low :: rest => do
    let high ← RawJson.hexDigit? high
    let low ← RawJson.hexDigit? low
    let bytes ← bytesOfDigits? rest
    some (UInt8.ofNat (high * 16 + low) :: bytes)

def ofDigits? (digits : List Char) : Option Key :=
  (bytesOfDigits? digits).bind ofBytes?

def ofGroups? (cs : List Char) : Option Key :=
  if cs.length = 36 ∧ [8, 13, 18, 23].all (fun place => cs[place]? == some '-') then
    ofDigits? (cs.take 8 ++ (cs.drop 9).take 4 ++ (cs.drop 14).take 4 ++ (cs.drop 19).take 4 ++
      cs.drop 24)
  else none

/-- A key from text: digits in groups, also within braces or behind `urn:uuid:` in letters of either
case, or without groups. -/
def ofText? (text : String) : Option Key :=
  let cs := text.toList
  let urn := "urn:uuid:".toList
  if cs.length = 32 then ofDigits? cs
  else if cs.length = 38 ∧ cs.head? = some '\x7b' ∧ cs.getLast? = some '\x7d' then
    ofGroups? ((cs.drop 1).take 36)
  else if cs.length = 45 ∧ (cs.take 9).map Char.toLower = urn then ofGroups? (cs.drop 9)
  else ofGroups? cs

end Key

end RuleGraph
