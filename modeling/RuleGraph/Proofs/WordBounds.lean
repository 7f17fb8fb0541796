import RuleGraph.Proofs.Forms
import RuleGraph.Proofs.Nesting
import RuleGraph.Proofs.Snapshots

/-!
# Words of a snapshot

Whatever bytes a snapshot consists of, the graph that is read from them could be written: its
lengths and slot indices are words. A slot may be at the last word, however, and one more than that
is none. To rebuild an operation with such a slot, and to write a literal at its position, has no
answer; everywhere else the counts stay in range, every slot is read and every literal that is
written has its place.
-/

namespace RuleGraph

namespace Codec

variable {α β : Type}

/-- What the codec reads it can write. -/
def Closed (codec : Codec α) : Prop :=
  ∀ bytes value rest, codec.decode bytes = some (value, rest) → (codec.encode value).isSome

theorem takeLittleEndian_lt {width n : Nat} {bytes rest : Bytes}
    (h : takeLittleEndian width bytes = some (n, rest)) : n < 256 ^ width := by
  induction width generalizing n bytes with
  | zero =>
      cases h
      decide
  | succ width ih =>
      cases bytes with
      | nil => cases h
      | cons byte bytes =>
          simp only [takeLittleEndian, Option.bind_eq_bind, Option.bind_eq_some_iff] at h
          obtain ⟨⟨high, found⟩, hhigh, hn⟩ := h
          cases hn
          have hbyte : byte.toNat < 256 := byte.toNat_lt
          have hbound := ih hhigh
          rw [Nat.pow_succ]
          omega

theorem nat_closed : nat.Closed := by
  intro bytes n rest h
  rw [isSome_encode_nat]
  cases bytes with
  | nil => cases h
  | cons first bytes =>
      simp only [nat, decodeNat] at h
      split_ifs at h with hsmall
      · cases h
        exact Nat.lt_of_le_of_lt hsmall (by decide)
      · exact Nat.lt_trans (takeLittleEndian_lt h) (by decide)
      · exact Nat.lt_trans (takeLittleEndian_lt h) (by decide)
      · exact takeLittleEndian_lt h

theorem pair_closed {first : Codec α} {second : Codec β} (hfirst : first.Closed)
    (hsecond : second.Closed) : (pair first second).Closed := by
  intro bytes value rest h
  simp only [pair, Option.bind_eq_bind, Option.bind_eq_some_iff, Option.some.injEq] at h
  obtain ⟨⟨head, middle⟩, hhead, ⟨tail, last⟩, htail, heq⟩ := h
  cases heq
  exact isSome_encode_pair.mpr ⟨hfirst _ _ _ hhead, hsecond _ _ _ htail⟩

theorem via_closed {codec : Codec α} {toParts : β → α} {ofParts? : α → Option β}
    (hcodec : codec.Closed) (hparts : ∀ parts value, ofParts? parts = some value →
      toParts value = parts) : (codec.via toParts ofParts?).Closed := by
  intro bytes value rest h
  simp only [via, Option.bind_eq_bind, Option.bind_eq_some_iff, Option.some.injEq] at h
  obtain ⟨⟨parts, found⟩, hread, other, hother, heq⟩ := h
  cases heq
  rw [isSome_encode_via, hparts parts value hother]
  exact hcodec _ _ _ hread

theorem option_closed {codec : Codec α} (hcodec : codec.Closed) : (option codec).Closed := by
  intro bytes value rest h
  simp only [option] at h
  split at h
  · cases h
    rfl
  · obtain ⟨⟨found, last⟩, hfound, heq⟩ := Option.map_eq_some_iff.mp h
    cases heq
    simpa using hcodec _ _ _ hfound
  · cases h

theorem either_closed {first : Codec α} {second : Codec β} (hfirst : first.Closed)
    (hsecond : second.Closed) : (either first second).Closed := by
  intro bytes value rest h
  simp only [either, Option.bind_eq_bind, Option.bind_eq_some_iff] at h
  obtain ⟨⟨tag, middle⟩, _, h⟩ := h
  dsimp only at h
  split_ifs at h
  · obtain ⟨⟨found, last⟩, hfound, heq⟩ := Option.map_eq_some_iff.mp h
    cases heq
    simpa using hfirst _ _ _ hfound
  · obtain ⟨⟨found, last⟩, hfound, heq⟩ := Option.map_eq_some_iff.mp h
    cases heq
    simpa using hsecond _ _ _ hfound

theorem closed_decodeMany {codec : Codec α} (hcodec : codec.Closed) {count : Nat}
    {bytes rest : Bytes} {values : List α}
    (h : decodeMany codec count bytes = some (values, rest)) :
    values.length = count ∧ ∀ value ∈ values, (codec.encode value).isSome := by
  induction count generalizing bytes values with
  | zero =>
      cases h
      exact ⟨rfl, fun _ hvalue => nomatch hvalue⟩
  | succ count ih =>
      simp only [decodeMany, Option.bind_eq_bind, Option.bind_eq_some_iff, Option.some.injEq] at h
      obtain ⟨⟨value, middle⟩, hvalue, ⟨others, last⟩, hothers, heq⟩ := h
      cases heq
      obtain ⟨hlength, hall⟩ := ih hothers
      exact ⟨congrArg Nat.succ hlength, List.forall_mem_cons.mpr ⟨hcodec _ _ _ hvalue, hall⟩⟩

theorem list_closed {codec : Codec α} (hcodec : codec.Closed) : (list codec).Closed := by
  intro bytes values rest h
  simp only [list, Option.bind_eq_bind, Option.bind_eq_some_iff] at h
  obtain ⟨⟨count, middle⟩, hcount, h⟩ := h
  obtain ⟨hlength, hall⟩ := closed_decodeMany hcodec h
  rw [isSome_encode_list, hlength]
  exact ⟨isSome_encode_nat.mp (nat_closed _ _ _ hcount), hall⟩

theorem text_closed : text.Closed := by
  refine via_closed (list_closed fun _ _ _ _ => rfl) ?_
  intro parts s h
  rw [toList_eq]
  unfold String.fromUTF8? at h
  split at h
  · cases h
    rfl
  · cases h

theorem slot_closed : slot.Closed := by
  refine via_closed (pair_closed nat_closed (pair_closed text_closed fun _ _ _ _ => rfl)) ?_
  rintro ⟨index, label, required⟩ _ h
  cases h
  rfl

theorem edge_closed : edge.Closed := by
  refine via_closed (pair_closed text_closed
    (pair_closed text_closed (pair_closed nat_closed text_closed))) ?_
  rintro ⟨id, source, slot, target⟩ _ h
  cases h
  rfl

theorem literalBits_closed : literalBits.Closed :=
  either_closed (fun _ _ _ _ => rfl) text_closed

theorem contentBits_closed : contentBits.Closed :=
  either_closed (pair_closed text_closed (list_closed (option_closed literalBits_closed)))
    literalBits_closed

theorem nodeBits_closed : nodeBits.Closed := by
  have hword : word.Closed := fun _ _ _ _ => rfl
  have hpoint := pair_closed hword hword
  have hboxed := pair_closed hpoint (pair_closed hpoint
    (pair_closed (list_closed slot_closed) contentBits_closed))
  exact pair_closed text_closed (pair_closed (fun _ key _ _ => isSome_encode_key key)
    (pair_closed (fun _ kind _ _ => isSome_encode_kind kind) hboxed))

theorem graphBits_closed : graphBits.Closed :=
  pair_closed (list_closed nodeBits_closed)
    (pair_closed (list_closed edge_closed) (list_closed text_closed))

end Codec

namespace Graph

/-- Whatever bytes a graph is read from, its lengths and slot indices are words. -/
theorem fits_of_ofBytes {bytes : Bytes} {graph : Graph Float} (h : ofBytes bytes = .ok graph) :
    graph.Fits := by
  unfold ofBytes at h
  split at h
  · rename_i found rest hdecode
    cases h
    rw [Codec.graph_eq, Codec.decode_map] at hdecode
    obtain ⟨⟨bits, last⟩, hbits, heq⟩ := Option.map_eq_some_iff.mp hdecode
    cases heq
    exact Codec.isSome_encode_graphBits.mp (Codec.graphBits_closed _ _ _ hbits)
  · cases h

end Graph

/-! ## Positions of nodes that fit -/

namespace Node

/-- The operation has a slot at the last word, so that one more than its index is no word. -/
def Overruns {α : Type} (node : Node α) : Prop :=
  node.content.isConstant = false ∧ ∃ slot ∈ node.slots, slot.index + 1 = UInt64.size

variable {node : Node Float} {name : String} {inline : List (Option Literal)}

theorem Fits.length_inline_lt (h : node.Fits) (hcontent : node.content = .operation name inline) :
    inline.length < UInt64.size := by
  have hfits := h.content
  rw [hcontent] at hfits
  exact hfits.2.1

theorem isConstant_eq_false (hcontent : node.content = .operation name inline) :
    node.content.isConstant = false := by
  rw [hcontent]
  rfl

theorem Fits.overflows_iff (h : node.Fits) (hcontent : node.content = .operation name inline) :
    overflows node.slots inline = true ↔ node.Overruns := by
  have hlength := h.length_inline_lt hcontent
  constructor
  · intro hoverflows
    obtain ⟨slot, hslot, hbeyond⟩ := List.any_eq_true.mp hoverflows
    have hword := (h.slots slot hslot).index
    rw [Bool.and_eq_true, decide_eq_true_eq, decide_eq_true_eq] at hbeyond
    exact ⟨isConstant_eq_false hcontent, slot, hslot, by omega⟩
  · rintro ⟨_, slot, hslot, hlast⟩
    refine List.any_eq_true.mpr ⟨slot, hslot, ?_⟩
    rw [Bool.and_eq_true, decide_eq_true_eq, decide_eq_true_eq]
    omega

/-- Rebuilding reads the positions of all slots unless one of them is at the last word. -/
theorem Fits.reads_slots_iff (h : node.Fits) (hoperation : node.content.isConstant = false) :
    (∀ slot ∈ node.slots, node.Reads slot.index) ↔ ¬ node.Overruns := by
  obtain ⟨name, inline, hcontent⟩ := exists_operation hoperation
  rw [← h.overflows_iff hcontent, Bool.not_eq_true]
  constructor
  · intro hreads
    rw [overflows_eq_false_iff]
    intro slot hslot
    obtain ⟨_, _, hsame, hcounted, _⟩ := hreads slot hslot
    cases hcontent.symm.trans hsame
    exact overflows_eq_false_iff.mp hcounted slot hslot
  · intro hcounted slot hslot
    exact ⟨name, inline, hcontent, hcounted, index_lt_argumentCount hslot inline⟩

theorem setInline?_eq_none_iff (hcontent : node.content = .operation name inline) {index : Nat}
    {value : Option Literal} : node.setInline? index value = none ↔
      inline.length ≤ index ∧ ¬ ((node.slot? index).isSome = true ∧ index + 1 < UInt64.size) := by
  unfold setInline?
  rw [hcontent]
  dsimp only
  split
  · simp only [reduceCtorEq, false_iff]
    omega
  · split
    · simp_all
    · simp_all

/-- There is no room for the position where the operation has a slot there and it is the last
word. -/
theorem Fits.stops_inline_iff (h : node.Fits) (index : Nat) (value : Option Literal) :
    (node.setInline? index value = none ∧ (node.inlineError index).stops = true) ↔
      index + 1 = UInt64.size ∧ node.Overruns := by
  cases hcontent : node.content with
  | constant literal => simp [inlineError, Overruns, EditError.stops, hcontent, Content.isConstant]
  | operation name inline =>
      have hlength := h.length_inline_lt hcontent
      constructor
      · rintro ⟨hnone, hstops⟩
        have hsome : (node.slot? index).isSome = true := by
          by_contra hslot
          simp [inlineError, hslot, EditError.stops] at hstops
        obtain ⟨slot, hslot, rfl⟩ := exists_slot hsome
        have hword := (h.slots slot hslot).index
        have hlast : ¬ slot.index + 1 < UInt64.size :=
          fun hroom => ((setInline?_eq_none_iff hcontent).mp hnone).2 ⟨hsome, hroom⟩
        exact ⟨by omega, isConstant_eq_false hcontent, slot, hslot, by omega⟩
      · rintro ⟨hlast, _, slot, hslot, hslotLast⟩
        obtain rfl : slot.index = index := by omega
        have hsome := slot?_isSome hslot
        refine ⟨(setInline?_eq_none_iff hcontent).mpr ⟨by omega, by omega⟩, ?_⟩
        rw [inlineError, if_pos ⟨isConstant_eq_false hcontent, hsome⟩]
        rfl

end Node

namespace Graph

open Relation

/-- What is known of a graph with all its lengths and slot indices in words. -/
structure InRange (graph : Graph Float) : Prop where
  fits : graph.Fits
  /-- The positions of all slots of an operation are read, unless one of them is the last word. -/
  reads : ∀ node ∈ graph.nodes, node.content.isConstant = false →
    ((∀ slot ∈ node.slots, node.Reads slot.index) ↔ ¬ node.Overruns)
  /-- Rebuilding stops at no other operation than one with a slot at the last word. -/
  stops_rebuild : ∀ id e, graph.rebuild id = .error e → e.stops = true →
    ∃ node, ReflTransGen graph.Takes id node.id ∧ graph.lastNode? node.id = some node ∧
      node.Overruns ∧ e = .overflow node.id
  /-- It does stop there, unless the operation has no name. -/
  overflow_rebuild : ∀ node name inline, graph.lastNode? node.id = some node →
    node.content = .operation name inline → name ≠ "" →
      (graph.rebuild node.id = .error (.overflow node.id) ↔ node.Overruns)
  /-- To write a literal stops at the last word, where an operation has a slot, and only there. -/
  stops_setInline : ∀ id index value,
    (∃ e, graph.setInline id index value = .error e ∧ e.stops = true) ↔
      index + 1 = UInt64.size ∧ (value.any fun literal => !literal.isFinite) = false ∧
        ∃ node, graph.node? id = some node ∧ node.Overruns
  /-- What is written into an operation is found at its position. -/
  holds_setInline : ∀ id index value next node, graph.setInline id index value = .ok next →
    graph.node? id = some node → node.content.isConstant = false →
      ∃ changed, next.node? id = some changed ∧ changed.HoldsAt index value

variable {graph : Graph Float}

theorem rebuild_of_overflows {node : Node Float} {name : String} {inline : List (Option Literal)}
    (hnode : graph.lastNode? node.id = some node)
    (hcontent : node.content = .operation name inline) (hname : name ≠ "")
    (hoverflows : overflows node.slots inline = true) :
    graph.rebuild node.id = .error (.overflow node.id) := by
  refine rebuild_eq_error_iff.mpr (unfoldRoot_eq_error.mpr (Or.inr ⟨node, hnode, Or.inr ⟨?_, ?_⟩⟩))
  · exact Node.isConstant_eq_false hcontent
  · rw [nestingBound, GraphIndex.unfold, hcontent]
    dsimp only
    rw [if_neg List.not_mem_nil, if_neg hname, if_pos hoverflows]

theorem Fits.stops_setInline_iff (h : graph.Fits) {id : String} {index : Nat}
    {value : Option Literal} :
    (∃ e, graph.setInline id index value = .error e ∧ e.stops = true) ↔
      index + 1 = UInt64.size ∧ (value.any fun literal => !literal.isFinite) = false ∧
        ∃ node, graph.node? id = some node ∧ node.Overruns := by
  rw [setInline]
  cases hfinite : value.any fun literal => !literal.isFinite with
  | true => simp [EditError.stops]
  | false =>
      cases hnode : graph.node? id with
      | none => simp [EditError.stops]
      | some node =>
          have hfits := h.nodes node (mem_of_node? hnode).1
          simp only [Bool.false_eq_true, if_false, Option.some.injEq, exists_eq_left', true_and]
          rw [← hfits.stops_inline_iff index value]
          cases node.setInline? index value <;> simp

theorem Fits.inRange (h : graph.Fits) : graph.InRange where
  fits := h
  reads node hnode := (h.nodes node hnode).reads_slots_iff
  stops_rebuild id e herror hstops := by
    have hjustified := justifies_of_rebuild herror
    cases e with
    | overflow id =>
        obtain ⟨node, name, inline, hmeets, rfl, hoverflows⟩ := hjustified
        have hfits := h.nodes node (mem_of_lastNode? hmeets.last).1
        exact ⟨node, hmeets.reached, hmeets.last,
          (hfits.overflows_iff hmeets.content).mp hoverflows, rfl⟩
    | _ => cases hstops
  overflow_rebuild node name inline hnode hcontent hname := by
    have hfits := h.nodes node (mem_of_lastNode? hnode).1
    rw [← hfits.overflows_iff hcontent]
    constructor
    · intro herror
      obtain ⟨other, _, _, hmeets, hid, hoverflows⟩ := justifies_of_rebuild herror
      have hlast := hmeets.last
      rw [hid, hnode] at hlast
      cases hlast
      cases hcontent.symm.trans hmeets.content
      exact hoverflows
    · exact rebuild_of_overflows hnode hcontent hname
  stops_setInline _ _ _ := h.stops_setInline_iff
  holds_setInline id index value next node hnext hnode hoperation := by
    obtain ⟨found, changed, hfound, _, hchanged, rfl⟩ := setInline_eq_ok hnext
    cases hnode.symm.trans hfound
    obtain ⟨name, inline, hcontent⟩ := Node.exists_operation hoperation
    have hsame : changed.id = id := by
      obtain ⟨_, _, rfl, _⟩ := Node.setInline?_eq_some hchanged
      exact (mem_of_node? hnode).2
    exact ⟨changed, find?_replaceFirst hnode (beq_iff_eq.mpr hsame),
      Node.holdsAt_setInline? hcontent hchanged⟩

/-- The lengths and slot indices of a graph that is read from any bytes are words. No addition
overflows where it is rebuilt or a literal is written into it, except at an operation with a slot at
the last word. -/
theorem ofBytes_inRange {bytes : Bytes} (h : ofBytes bytes = .ok graph) : graph.InRange :=
  (fits_of_ofBytes h).inRange

/-- One operation with one slot, which must be filled and is not. -/
def slotAt (index : Nat) : Graph Float :=
  ⟨[⟨"a", Key.ofNat 0, .other, ⟨.ofBits 0, .ofBits 0⟩, ⟨.ofBits 0, .ofBits 0⟩,
    [⟨index, "x", true⟩], .operation "not" []⟩], [], ["a"]⟩

/-- The bytes of a graph with one slot, those of the slot index given. -/
def slotAtBytes (index : Bytes) : Bytes :=
  [1, 1, 97, 16] ++ List.replicate 16 0 ++ [7] ++ List.replicate 32 0 ++ [1] ++ index ++
    [1, 120, 1, 0, 3, 110, 111, 116, 0, 0, 1, 1, 97]

/-- The second position is read, so that nothing at it is noticed, and it holds what is written
there. -/
theorem ofBytes_slotAt :
    ofBytes (slotAtBytes [1]) = .ok (slotAt 1) ∧
      (∀ node ∈ (slotAt 1).nodes, ¬ node.Overruns ∧ node.Reads 1) ∧
      (slotAt 1).document = .error (.missingRequiredSlot "a" 1 "x") ∧
      ∃ next changed, (slotAt 1).setInline "a" 1 (some (.text "v")) = .ok next ∧
        next.node? "a" = some changed ∧ changed.HoldsAt 1 (some (.text "v")) := by
  have hread : ofBytes (slotAtBytes [1]) = .ok (slotAt 1) := rfl
  have hrange := ofBytes_inRange hread
  refine ⟨hread, ?_, rfl, ?_⟩
  · intro node hnode
    cases List.mem_singleton.mp hnode
    refine ⟨?_, (hrange.reads _ hnode rfl).mpr ?_ ⟨1, "x", true⟩ List.mem_cons_self⟩ <;>
      simp [Node.Overruns, UInt64.size]
  · obtain ⟨changed, hchanged, hholds⟩ :=
      hrange.holds_setInline "a" 1 (some (.text "v")) _ _ rfl rfl rfl
    exact ⟨_, changed, rfl, hchanged, hholds⟩

/-- At the last word there is no answer: neither to what the document is nor to an edit that writes
a literal there. -/
theorem ofBytes_slotAt_last :
    ofBytes (slotAtBytes [253, 255, 255, 255, 255, 255, 255, 255, 255]) =
        .ok (slotAt (UInt64.size - 1)) ∧
      (slotAt (UInt64.size - 1)).document = .error (.overflow "a") ∧
      (slotAt (UInt64.size - 1)).setInline "a" (UInt64.size - 1) (some (.text "v")) =
        .error (.overflow "a" (UInt64.size - 1)) :=
  ⟨rfl, rfl, rfl⟩

end Graph

end RuleGraph
