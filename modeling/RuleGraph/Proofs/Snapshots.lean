import RuleGraph.Proofs.Codecs
import RuleGraph.Snapshot

/-!
# Snapshots are exact

A graph whose lengths and slot indices fit into words has a snapshot. The snapshot is read back as
the graph, whatever bytes are behind it, and no proper prefix of it is read. All of this holds of
bit patterns in place of doubles too, of which doubles tell only one not-a-number.
-/

namespace RuleGraph

namespace Codec

variable {α β γ δ : Type}

/-! ## Values by way of others -/

/-- Values of one type by way of another, all of whose values stand for some. -/
def map (codec : Codec α) (toParts : β → α) (ofParts : α → β) : Codec β :=
  codec.via toParts fun parts => some (ofParts parts)

theorem codec_ext {first second : Codec α} (hencode : ∀ value, first.encode value =
    second.encode value) (hdecode : ∀ bytes, first.decode bytes = second.decode bytes) :
    first = second := by
  cases first
  cases second
  congr
  · exact funext hencode
  · exact funext hdecode

@[simp] theorem encode_map (codec : Codec α) (toParts : β → α) (ofParts : α → β) (value : β) :
    (codec.map toParts ofParts).encode value = codec.encode (toParts value) :=
  rfl

@[simp] theorem decode_map (codec : Codec α) (toParts : β → α) (ofParts : α → β) (bytes : Bytes) :
    (codec.map toParts ofParts).decode bytes =
      (codec.decode bytes).map fun found => (ofParts found.1, found.2) := by
  simp only [map, via]
  cases codec.decode bytes <;> rfl

theorem via_eq_map {codec : Codec α} {toParts : β → α} {ofParts? : α → Option β} {ofParts : α → β}
    (h : ∀ parts, ofParts? parts = some (ofParts parts)) :
    codec.via toParts ofParts? = codec.map toParts ofParts := by
  rw [map, funext h]

theorem map_lawful {codec : Codec α} {toParts : β → α} {ofParts : α → β} (hcodec : codec.Lawful)
    (hparts : ∀ value, ofParts (toParts value) = value) : (codec.map toParts ofParts).Lawful :=
  via_lawful hcodec fun value => congrArg some (hparts value)

theorem map_id (codec : Codec α) : codec.map id id = codec := by
  apply codec_ext <;> simp

theorem map_map (codec : Codec α) (f : β → α) (g : α → β) (h : γ → β) (k : β → γ) :
    (codec.map f g).map h k = codec.map (f ∘ h) (k ∘ g) := by
  apply codec_ext
  · simp
  · intro bytes
    cases hdecode : codec.decode bytes <;> simp [hdecode]

theorem pair_map (first : Codec α) (second : Codec γ) (f : β → α) (g : α → β) (h : δ → γ)
    (k : γ → δ) : pair (first.map f g) (second.map h k) =
      (pair first second).map (Prod.map f h) (Prod.map g k) := by
  apply codec_ext
  · simp [pair]
  · intro bytes
    cases hfirst : first.decode bytes with
    | none => simp [pair, hfirst]
    | some found => cases hsecond : second.decode found.2 <;> simp [pair, hfirst, hsecond]

theorem pair_map_right (first : Codec α) (second : Codec γ) (h : δ → γ) (k : γ → δ) :
    pair first (second.map h k) = (pair first second).map (Prod.map id h) (Prod.map id k) := by
  rw [← pair_map, map_id]

theorem option_map (codec : Codec α) (f : β → α) (g : α → β) :
    option (codec.map f g) = (option codec).map (Option.map f) (Option.map g) := by
  apply codec_ext
  · intro value
    cases value <;> rfl
  · intro bytes
    simp only [decode_map, option]
    split
    · rfl
    · cases codec.decode _ <;> rfl
    · rfl

theorem either_map (first : Codec α) (second : Codec γ) (f : β → α) (g : α → β) (h : δ → γ)
    (k : γ → δ) : either (first.map f g) (second.map h k) =
      (either first second).map (Sum.map f h) (Sum.map g k) := by
  apply codec_ext
  · intro value
    cases value <;> rfl
  · intro bytes
    simp only [decode_map, either]
    cases variantIndex.decode bytes with
    | none => rfl
    | some found =>
        dsimp
        split_ifs
        · cases first.decode found.2 <;> rfl
        · cases second.decode found.2 <;> rfl
        · rfl

theorem encodeAll_map (codec : Codec α) (f : β → α) (g : α → β) (values : List β) :
    encodeAll (codec.map f g) values = encodeAll codec (values.map f) := by
  induction values with
  | nil => rfl
  | cons value values ih => simp [encodeAll, ih]

theorem decodeMany_map (codec : Codec α) (f : β → α) (g : α → β) (count : Nat) (bytes : Bytes) :
    decodeMany (codec.map f g) count bytes =
      (decodeMany codec count bytes).map fun found => (found.1.map g, found.2) := by
  induction count generalizing bytes with
  | zero => rfl
  | succ count ih =>
      simp only [decodeMany, decode_map, ih]
      cases codec.decode bytes with
      | none => rfl
      | some found => cases hmore : decodeMany codec count found.2 <;> simp [hmore]

theorem list_map (codec : Codec α) (f : β → α) (g : α → β) :
    list (codec.map f g) = (list codec).map (List.map f) (List.map g) := by
  apply codec_ext
  · intro values
    simp [list, encodeAll_map]
  · intro bytes
    simp only [decode_map, list, decodeMany_map]
    cases nat.decode bytes <;> rfl

end Codec

/-! ## Bit patterns -/

/-- A literal, a double by its bits. -/
abbrev LiteralBits : Type :=
  UInt64 ⊕ String

abbrev ContentBits : Type :=
  (String × List (Option LiteralBits)) ⊕ LiteralBits

abbrev NodeBits : Type :=
  String × Key × NodeKind × (UInt64 × UInt64) × (UInt64 × UInt64) × List Slot × ContentBits

abbrev GraphBits : Type :=
  List NodeBits × List Edge × List String

def Literal.bits : Literal → LiteralBits
  | .number x => .inl x.toBits
  | .text s => .inr s

def Literal.ofBits : LiteralBits → Literal
  | .inl w => .number (Float.ofBits w)
  | .inr s => .text s

def Content.bits : Content → ContentBits
  | .operation name inline => .inl (name, inline.map (Option.map Literal.bits))
  | .constant value => .inr value.bits

def Content.ofBits : ContentBits → Content
  | .inl (name, inline) => .operation name (inline.map (Option.map Literal.ofBits))
  | .inr value => .constant (.ofBits value)

def Node.bits (n : Node Float) : NodeBits :=
  (n.id, n.key, n.kind, (n.position.x.toBits, n.position.y.toBits),
    (n.size.width.toBits, n.size.height.toBits), n.slots, n.content.bits)

def Node.ofBits : NodeBits → Node Float
  | (id, key, kind, (x, y), (width, height), slots, content) =>
    ⟨id, key, kind, ⟨.ofBits x, .ofBits y⟩, ⟨.ofBits width, .ofBits height⟩, slots, .ofBits content⟩

def Graph.bits (g : Graph Float) : GraphBits :=
  (g.nodes.map Node.bits, g.edges, g.roots)

def Graph.ofBits : GraphBits → Graph Float
  | (nodes, edges, roots) => ⟨nodes.map Node.ofBits, edges, roots⟩

@[simp] theorem Literal.ofBits_bits (value : Literal) : ofBits value.bits = value := by
  cases value <;> simp [bits, ofBits]

@[simp] theorem Content.ofBits_bits (content : Content) : ofBits content.bits = content := by
  cases content <;> simp [bits, ofBits, Function.comp_def]

@[simp] theorem Node.ofBits_bits (node : Node Float) : ofBits node.bits = node := by
  simp [bits, ofBits]

@[simp] theorem Graph.ofBits_bits (graph : Graph Float) : ofBits graph.bits = graph := by
  simp [bits, ofBits, Function.comp_def]

namespace Codec

def literalBits : Codec LiteralBits :=
  either word text

def contentBits : Codec ContentBits :=
  either (pair text (list (option literalBits))) literalBits

def nodeBits : Codec NodeBits :=
  pair text (pair key (pair kind
    (pair (pair word word) (pair (pair word word) (pair (list slot) contentBits)))))

def graphBits : Codec GraphBits :=
  pair (list nodeBits) (pair (list edge) (list text))

theorem float_eq : float = word.map Float.toBits Float.ofBits := by
  apply codec_ext
  · intro x
    rfl
  · intro bytes
    simp only [decode_map, float, word]
    cases takeLittleEndian 8 bytes <;> rfl

theorem literal_eq : literal = literalBits.map Literal.bits Literal.ofBits := by
  have heither : either float text =
      literalBits.map (Sum.map Float.toBits id) (Sum.map Float.ofBits id) := by
    rw [literalBits, ← either_map, float_eq, map_id]
  have hliteral : literal = (either float text).map
      (fun value => match value with
        | .number x => .inl x
        | .text s => .inr s)
      (Sum.elim Literal.number Literal.text) :=
    via_eq_map fun parts => by cases parts <;> rfl
  rw [hliteral, heither, map_map]
  congr 1
  · funext value
    cases value <;> rfl
  · funext parts
    cases parts <;> rfl

theorem position_eq : position = (pair word word).map
    (fun p => (p.x.toBits, p.y.toBits)) (fun w => ⟨.ofBits w.1, .ofBits w.2⟩) := by
  have hposition : position = (pair float float).map (fun p => (p.x, p.y)) fun parts =>
      ⟨parts.1, parts.2⟩ := rfl
  rw [hposition, float_eq, pair_map, map_map]
  rfl

theorem size_eq : size = (pair word word).map
    (fun s => (s.width.toBits, s.height.toBits)) (fun w => ⟨.ofBits w.1, .ofBits w.2⟩) := by
  have hsize : size = (pair float float).map (fun s => (s.width, s.height)) fun parts =>
      ⟨parts.1, parts.2⟩ := rfl
  rw [hsize, float_eq, pair_map, map_map]
  rfl

theorem content_eq : content = contentBits.map Content.bits Content.ofBits := by
  have hcontent : content = (either (pair text (list (option literal))) literal).map
      (fun value => match value with
        | .operation name inline => .inl (name, inline)
        | .constant value => .inr value)
      (Sum.elim (fun operation => .operation operation.1 operation.2) .constant) :=
    via_eq_map fun parts => by cases parts <;> rfl
  rw [hcontent, literal_eq, option_map, list_map, pair_map_right, either_map, map_map]
  congr 1
  · funext value
    cases value <;> rfl
  · funext parts
    cases parts <;> rfl

theorem node_eq : node = nodeBits.map Node.bits Node.ofBits := by
  have hnode : node = (pair text (pair key (pair kind (pair position (pair size
      (pair (list slot) content)))))).map
        (fun n => (n.id, n.key, n.kind, n.position, n.size, n.slots, n.content))
        fun parts => ⟨parts.1, parts.2.1, parts.2.2.1, parts.2.2.2.1, parts.2.2.2.2.1,
          parts.2.2.2.2.2.1, parts.2.2.2.2.2.2⟩ := rfl
  rw [hnode, content_eq, position_eq, size_eq, pair_map_right (list slot), pair_map, pair_map,
    pair_map_right, pair_map_right, pair_map_right, map_map]
  rfl

theorem graph_eq : graph = graphBits.map Graph.bits Graph.ofBits := by
  have hgraph : graph = (pair (list node) (pair (list edge) (list text))).map
      (fun g => (g.nodes, g.edges, g.roots)) fun parts => ⟨parts.1, parts.2.1, parts.2.2⟩ := rfl
  rw [hgraph, node_eq, list_map, ← map_id (pair (list edge) (list text)), pair_map, map_map]
  rfl

/-! ## Laws -/

theorem key_lawful : key.Lawful :=
  via_lawful (list_lawful byte_lawful) Key.ofBytes?_bytes

theorem kind_lawful : kind.Lawful :=
  via_lawful variantIndex_lawful fun kind => by cases kind <;> rfl

theorem slot_lawful : slot.Lawful :=
  via_lawful (pair_lawful nat_lawful (pair_lawful text_lawful bool_lawful)) fun _ => rfl

theorem edge_lawful : edge.Lawful := by
  have hend : (pair nat text).Lawful := pair_lawful nat_lawful text_lawful
  exact via_lawful (pair_lawful text_lawful (pair_lawful text_lawful hend)) fun _ => rfl

theorem literalBits_lawful : literalBits.Lawful :=
  either_lawful word_lawful text_lawful

theorem contentBits_lawful : contentBits.Lawful :=
  either_lawful (pair_lawful text_lawful (list_lawful (option_lawful literalBits_lawful)))
    literalBits_lawful

theorem nodeBits_lawful : nodeBits.Lawful := by
  have hpoint : (pair word word).Lawful := pair_lawful word_lawful word_lawful
  have hboxed := pair_lawful hpoint (pair_lawful hpoint
    (pair_lawful (list_lawful slot_lawful) contentBits_lawful))
  exact pair_lawful text_lawful (pair_lawful key_lawful (pair_lawful kind_lawful hboxed))

theorem graphBits_lawful : graphBits.Lawful :=
  pair_lawful (list_lawful nodeBits_lawful)
    (pair_lawful (list_lawful edge_lawful) (list_lawful text_lawful))

theorem graph_lawful : graph.Lawful := by
  rw [graph_eq]
  exact map_lawful graphBits_lawful Graph.ofBits_bits

end Codec

/-! ## Graphs that fit -/

/-- A text is shorter than a word can count. -/
def Literal.Fits : Literal → Prop
  | .number _ => True
  | .text s => s.utf8ByteSize < UInt64.size

def Content.Fits : Content → Prop
  | .operation name inline => name.utf8ByteSize < UInt64.size ∧ inline.length < UInt64.size ∧
      ∀ value, some value ∈ inline → value.Fits
  | .constant value => value.Fits

@[mk_iff]
structure Slot.Fits (slot : Slot) : Prop where
  index : slot.index < UInt64.size
  label : slot.label.utf8ByteSize < UInt64.size

@[mk_iff]
structure Node.Fits (node : Node Float) : Prop where
  id : node.id.utf8ByteSize < UInt64.size
  slotCount : node.slots.length < UInt64.size
  slots : ∀ slot ∈ node.slots, slot.Fits
  content : node.content.Fits

@[mk_iff]
structure Edge.Fits (edge : Edge) : Prop where
  id : edge.id.utf8ByteSize < UInt64.size
  source : edge.source.utf8ByteSize < UInt64.size
  slot : edge.slot < UInt64.size
  target : edge.target.utf8ByteSize < UInt64.size

/-- All lengths and slot indices of a graph fit into words. -/
@[mk_iff]
structure Graph.Fits (graph : Graph Float) : Prop where
  nodeCount : graph.nodes.length < UInt64.size
  nodes : ∀ node ∈ graph.nodes, node.Fits
  edgeCount : graph.edges.length < UInt64.size
  edges : ∀ edge ∈ graph.edges, edge.Fits
  rootCount : graph.roots.length < UInt64.size
  roots : ∀ root ∈ graph.roots, root.utf8ByteSize < UInt64.size

namespace Codec

@[simp] theorem isSome_encode_key (k : Key) : (key.encode k).isSome := by
  simp [key, byte, k.length_eq, UInt64.size]

@[simp] theorem isSome_encode_kind (k : NodeKind) : (kind.encode k).isSome := by
  cases k <;> rfl

@[simp] theorem isSome_encode_slot {s : Slot} : (slot.encode s).isSome ↔ s.Fits := by
  simp [slot, bool, Slot.fits_iff]

@[simp] theorem isSome_encode_edge {e : Edge} : (edge.encode e).isSome ↔ e.Fits := by
  simp [edge, Edge.fits_iff]

@[simp] theorem isSome_encode_literalBits {w : LiteralBits} :
    (literalBits.encode w).isSome ↔ (Literal.ofBits w).Fits := by
  cases w <;> simp [literalBits, word, Literal.ofBits, Literal.Fits]

theorem isSome_encode_inline {inline : List (Option LiteralBits)} :
    (∀ entry ∈ inline, ((option literalBits).encode entry).isSome) ↔
      ∀ value, some value ∈ inline.map (Option.map Literal.ofBits) → value.Fits := by
  simp only [isSome_encode_option, isSome_encode_literalBits, List.mem_map, Option.map_eq_some_iff]
  constructor
  · rintro h value ⟨entry, hentry, w, rfl, rfl⟩
    exact h _ hentry w rfl
  · rintro h entry hentry w rfl
    exact h _ ⟨some w, hentry, w, rfl, rfl⟩

@[simp] theorem isSome_encode_contentBits {w : ContentBits} :
    (contentBits.encode w).isSome ↔ (Content.ofBits w).Fits := by
  cases w with
  | inl operation =>
      simp only [contentBits, isSome_encode_either, Sum.inl.injEq, forall_eq', reduceCtorEq,
        false_implies, implies_true, and_true, isSome_encode_pair, isSome_encode_text,
        isSome_encode_list, isSome_encode_inline, Content.ofBits, Content.Fits, List.length_map]
  | inr value => simp [contentBits, Content.ofBits, Content.Fits]

@[simp] theorem isSome_encode_nodeBits {w : NodeBits} :
    (nodeBits.encode w).isSome ↔ (Node.ofBits w).Fits := by
  obtain ⟨id, key, kind, position, size, slots, content⟩ := w
  simp [nodeBits, word, Node.ofBits, Node.fits_iff, and_assoc]

theorem isSome_encode_graphBits {w : GraphBits} :
    (graphBits.encode w).isSome ↔ (Graph.ofBits w).Fits := by
  simp only [graphBits, isSome_encode_pair, isSome_encode_list, isSome_encode_nodeBits,
    isSome_encode_edge, isSome_encode_text, Graph.fits_iff, Graph.ofBits, List.length_map,
    List.forall_mem_map, and_assoc]

end Codec

namespace Graph

theorem ofBytes_eq_ok {graph : Graph Float} {bytes rest : Bytes}
    (h : Codec.graph.decode bytes = some (graph, rest)) : ofBytes bytes = .ok graph := by
  simp [ofBytes, h]

/-- A snapshot of a graph that fits into words exists, is read back as the graph in front of any
bytes, and no proper prefix of it is read. It is what is written for the bit patterns of the graph;
and any bit patterns that make up a graph of such lengths are written and read back in this way. -/
theorem snapshot_exact :
    (∀ graph : Graph Float, graph.Fits → ∃ bytes, graph.toBytes = .ok bytes ∧
      (∀ rest, ofBytes (bytes ++ rest) = .ok graph) ∧
      ∀ start, start <+: bytes → start ≠ bytes →
        ∃ reason, ofBytes start = .error (.decode reason)) ∧
    Codec.graph = Codec.graphBits.map bits ofBits ∧
    ∀ w : GraphBits, (ofBits w).Fits → ∃ bytes, Codec.graphBits.encode w = some bytes ∧
      (∀ rest, Codec.graphBits.decode (bytes ++ rest) = some (w, rest)) ∧
      ∀ start, start <+: bytes → start ≠ bytes → Codec.graphBits.decode start = none := by
  refine ⟨?_, Codec.graph_eq, ?_⟩
  · intro graph hfits
    have hsome : (Codec.graph.encode graph).isSome := by
      rw [Codec.graph_eq, Codec.encode_map, Codec.isSome_encode_graphBits, ofBits_bits]
      exact hfits
    obtain ⟨bytes, hencode⟩ := Option.isSome_iff_exists.mp hsome
    refine ⟨bytes, by simp [toBytes, hencode], ?_, ?_⟩
    · intro rest
      exact ofBytes_eq_ok (Codec.graph_lawful.decode_encode_append hencode rest)
    · intro start hstart hne
      have hnone := Codec.graph_lawful.decode_eq_none hencode hstart hne
      exact ⟨_, by rw [ofBytes, hnone]⟩
  · intro w hfits
    obtain ⟨bytes, hencode⟩ := Option.isSome_iff_exists.mp
      (Codec.isSome_encode_graphBits.mpr hfits)
    exact ⟨bytes, hencode, Codec.graphBits_lawful.decode_encode_append hencode,
      fun _ => Codec.graphBits_lawful.decode_eq_none hencode⟩

/-- A graph whose edge and root lead nowhere, and a constant with a not-a-number that doubles do not
tell from others. -/
theorem snapshot_exact_dangling :
    let graph : Graph Float := ⟨[], [.link "a" 3 "b"], ["nowhere"]⟩
    let node : NodeBits := ("c", Key.ofNat 0, .constantNumber, (0x8000000000000000, 0), (0, 0), [],
      .inr (.inl 0x7ff0000000000001))
    (graph.Fits ∧ ∃ bytes, graph.toBytes = .ok bytes ∧
      ∀ rest, ofBytes (bytes ++ rest) = .ok graph) ∧
    (ofBits ([node], [], [])).Fits ∧ ∃ bytes, Codec.graphBits.encode ([node], [], []) = some bytes ∧
      ∀ rest, Codec.graphBits.decode (bytes ++ rest) = some (([node], [], []), rest) := by
  intro graph node
  obtain ⟨hgraphs, _, hbits⟩ := snapshot_exact
  have hgraph : graph.Fits := by
    simp [graph, fits_iff, Edge.fits_iff, Edge.link]
    decide
  have hnode : (ofBits ([node], [], [])).Fits := by
    simp [node, ofBits, fits_iff, Node.ofBits, Node.fits_iff, Content.ofBits, Literal.ofBits,
      Content.Fits, Literal.Fits]
    decide
  obtain ⟨bytes, hwritten, hread, _⟩ := hgraphs graph hgraph
  obtain ⟨raw, hencode, hdecode, _⟩ := hbits _ hnode
  exact ⟨⟨hgraph, bytes, hwritten, hread⟩, hnode, raw, hencode, hdecode⟩

end Graph

end RuleGraph
