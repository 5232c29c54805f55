import Mathlib

/-!
# The type of a BTI trie node

`sstables/trie/bti_node_sink.cc`: before a trie node is written, `choose_node_type` picks one of sixteen
on-disk layouts for it.  A node without children is `PAYLOAD_ONLY`; a node with one child takes a dedicated
single type; for more children the writer compares the leanest sparse type (transition bytes and pointers) with
the leanest dense type (one pointer per byte value between the first and the last transition) that hold the
largest offset to a child.  The pointer width comes from `max_offset_from_child`, which estimates the offsets to
children not yet written from the sizes of the branches after them.

* `chooseNodeType_encodes`: the chosen type can hold the node: its kind fits the children, it has room for the
  payload, and its pointers are as wide as the largest offset.
* `chooseNodeType_minimal_of_single`: for one child the chosen type is the smallest that can hold the node.
* `chooseNodeType_le_add_six`: for more children it is at most six bytes larger than the smallest.
* `chooseNodeType_not_minimal`: the comparison adds 16 and 24, the node headers in bits, to sizes in bytes, so it
  picks a sparse type up to six bytes larger than the dense one, ties included.
-/

namespace Scylla.Sstables.Trie

/-! ### The node types -/

/-- `node_type`; `NODE_TYPE_COUNT` is not a valid value and is left out. -/
inductive NodeType where
  | payloadOnly
  | singleNopayload4
  | single8
  | singleNopayload12
  | single16
  | sparse8
  | sparse12
  | sparse16
  | sparse24
  | sparse40
  | dense12
  | dense16
  | dense24
  | dense32
  | dense40
  | longDense
  deriving DecidableEq, Repr

/-- `bits_per_pointer_arr`: the bits of one child offset. -/
def bitsPerPointerArr : NodeType → Nat
  | .payloadOnly => 0
  | .singleNopayload4 => 4
  | .single8 => 8
  | .singleNopayload12 => 12
  | .single16 => 16
  | .sparse8 => 8
  | .sparse12 => 12
  | .sparse16 => 16
  | .sparse24 => 24
  | .sparse40 => 40
  | .dense12 => 12
  | .dense16 => 16
  | .dense24 => 24
  | .dense32 => 32
  | .dense40 => 40
  | .longDense => 64

/-- `div_ceil` of `utils/div_ceil.hh`. -/
def divCeil (dividend divisor : Nat) : Nat := (dividend + divisor - 1) / divisor

/-! ### Nodes -/

/-- `trie_payload`: a 4-bit header, zero for no payload, and at most 20 bytes, present exactly when the header
is not zero, as its constructor asserts.  The bytes themselves are not read here. -/
structure TriePayload where
  payloadBits : Nat
  payloadSize : Nat
  bits_lt : payloadBits < 16
  size_le : payloadSize ≤ 20
  size_eq_zero_iff : payloadSize = 0 ↔ payloadBits = 0

/-- What choosing a node's type reads of a child: its position once written (`_pos`), the first byte of its
transition, the length of its transition chain, and the expected sizes of its node and of its branch. -/
structure Child where
  pos : Option Nat
  transition : UInt8
  transitionLength : Nat
  nodeSize : Nat
  branchSize : Nat
  deriving DecidableEq, Repr

/-- What choosing a node's type reads of a `writer_node`: its payload and its children, ordered by the first byte
of their transitions. -/
structure WriterNode where
  payload : TriePayload
  children : List Child
  sorted : (children.map (·.transition.toNat)).Pairwise (· < ·)

/-- `x.get_children().front()->transition()` -/
def WriterNode.firstTransition (x : WriterNode) : Nat := (x.children.head?.map (·.transition.toNat)).getD 0

/-- `x.get_children().back()->transition()` -/
def WriterNode.lastTransition (x : WriterNode) : Nat := (x.children.getLast?.map (·.transition.toNat)).getD 0

/-- The loop of `max_offset_from_child` over the children from the last one: `offset` is the size of the branches
after the current child, `result` the largest offset so far. -/
def maxOffsetFromChildLoop (xpos : Nat) : List Child → Nat → Nat → Nat
  | [], _, result => result
  | c :: cs, offset, result =>
    let result := match c.pos with
      | some pos => max result (xpos - pos)
      | none =>
        -- The topmost node of the chain above an unwritten child: a `SINGLE_NOPAYLOAD_4` of two bytes, or for a
        -- chain of two a `SINGLE_NOPAYLOAD_12` of three bytes above a body of 19 bytes or more.
        let delta :=
          if c.transitionLength > 2 then offset + 2
          else if c.transitionLength = 2 then offset + (if c.nodeSize < 19 then 2 else 3)
          else offset + c.nodeSize
        max result delta
    maxOffsetFromChildLoop xpos cs (offset + c.nodeSize + c.branchSize) result

def maxOffsetFromChild (x : WriterNode) (xpos : Nat) : Nat := maxOffsetFromChildLoop xpos x.children.reverse 0 0

/-! ### The choice -/

/-- `widths_lookup`: for a bit width of the largest offset, the index of the leanest type in `singles`,
`sparses` and `denses`.  A width is at most 64, so the default is never read. -/
def widthsLookup : List Nat :=
  [0,
   0, 0, 0, 0,
   1, 1, 1, 1,
   2, 2, 2, 2,
   3, 3, 3, 3,
   4, 4, 4, 4,
   4, 4, 4, 4,
   5, 5, 5, 5,
   5, 5, 5, 5,
   6, 6, 6, 6,
   6, 6, 6, 6,
   7, 7, 7, 7,
   7, 7, 7, 7,
   7, 7, 7, 7,
   7, 7, 7, 7,
   7, 7, 7, 7,
   7, 7, 7, 7]

def singles : List NodeType :=
  [.singleNopayload4, .single8, .singleNopayload12, .single16, .dense24, .dense32, .dense40, .longDense]

def sparses : List NodeType := [.sparse8, .sparse8, .sparse12, .sparse16, .sparse24, .sparse40, .sparse40, .longDense]

def denses : List NodeType := [.dense12, .dense12, .dense12, .dense16, .dense24, .dense32, .dense40, .longDense]

/-- `choose_node_type_impl`; `std::bit_width` is `Nat.size`. -/
def chooseNodeTypeImpl (x : WriterNode) (xpos : Nat) : NodeType :=
  let nChildren := x.children.length
  if nChildren = 0 then .payloadOnly
  else
    let maxOffset := maxOffsetFromChild x xpos
    let widthIdx := widthsLookup.getD maxOffset.size 7
    if nChildren = 1 then
      let hasPayload := x.payload.payloadBits ≠ 0
      -- `SINGLE_NOPAYLOAD_4` and `SINGLE_NOPAYLOAD_12` cannot hold a payload.
      if hasPayload ∧ (widthIdx = 0 ∨ widthIdx = 2) then singles.getD (widthIdx + 1) .longDense
      else singles.getD widthIdx .longDense
    else
      let denseSpan := 1 + x.lastTransition - x.firstTransition
      let sparseSize := 16 + divCeil ((bitsPerPointerArr (sparses.getD widthIdx .longDense) + 8) * nChildren) 8
      let denseSize := 24 + divCeil (bitsPerPointerArr (denses.getD widthIdx .longDense) * denseSpan) 8
      if sparseSize < denseSize then sparses.getD widthIdx .longDense else denses.getD widthIdx .longDense

/-- `choose_node_type` only logs the result of `choose_node_type_impl`. -/
def chooseNodeType (x : WriterNode) (xpos : Nat) : NodeType := chooseNodeTypeImpl x xpos

/-! ### Sizes -/

/-- `bti_node_sink::size_sparse` -/
def sizeSparse (x : WriterNode) (bitsPerPointer : Nat) : Nat :=
  2 + divCeil (x.children.length * (8 + bitsPerPointer)) 8 + x.payload.payloadSize

/-- `bti_node_sink::size_dense` -/
def sizeDense (x : WriterNode) (bitsPerPointer : Nat) : Nat :=
  3 + divCeil (bitsPerPointer * (1 + x.lastTransition - x.firstTransition)) 8 + x.payload.payloadSize

/-- `bti_node_sink::serialized_size_body_type` -/
def serializedSizeBodyType (x : WriterNode) : NodeType → Nat
  | .payloadOnly => 1 + x.payload.payloadSize
  | .singleNopayload4 => 2
  | .single8 => 3 + x.payload.payloadSize
  | .singleNopayload12 => 3
  | .single16 => 4 + x.payload.payloadSize
  | .sparse8 => sizeSparse x 8
  | .sparse12 => sizeSparse x 12
  | .sparse16 => sizeSparse x 16
  | .sparse24 => sizeSparse x 24
  | .sparse40 => sizeSparse x 40
  | .dense12 => sizeDense x 12
  | .dense16 => sizeDense x 16
  | .dense24 => sizeDense x 24
  | .dense32 => sizeDense x 32
  | .dense40 => sizeDense x 40
  | .longDense => sizeDense x 64

/-- `bti_node_sink::serialized_size_body` -/
def serializedSizeBody (x : WriterNode) (xpos : Nat) : Nat := serializedSizeBodyType x (chooseNodeType x xpos)

/-! ### Which types can hold a node -/

/-- What a node type points to. -/
inductive NodeKind where
  | payloadOnly
  | single
  | sparse
  | dense
  deriving DecidableEq, Repr

def NodeType.kind : NodeType → NodeKind
  | .payloadOnly => .payloadOnly
  | .singleNopayload4 | .single8 | .singleNopayload12 | .single16 => .single
  | .sparse8 | .sparse12 | .sparse16 | .sparse24 | .sparse40 => .sparse
  | .dense12 | .dense16 | .dense24 | .dense32 | .dense40 | .longDense => .dense

/-- `SINGLE_NOPAYLOAD_4` and `SINGLE_NOPAYLOAD_12` have no payload bits. -/
def NodeType.allowsPayload : NodeType → Bool
  | .singleNopayload4 | .singleNopayload12 => false
  | _ => true

/-- A node type can hold `x` written at `xpos`: it has pointers, one only if `x` has one child, room for the
payload if `x` has one, and pointers as wide as the largest offset to a child. -/
structure Encodes (x : WriterNode) (xpos : Nat) (t : NodeType) : Prop where
  kind_ne : t.kind ≠ .payloadOnly
  single : t.kind = .single → x.children.length = 1
  payload : x.payload.payloadBits ≠ 0 → t.allowsPayload = true
  width : (maxOffsetFromChild x xpos).size ≤ bitsPerPointerArr t

instance (x : WriterNode) (xpos : Nat) (t : NodeType) : Decidable (Encodes x xpos t) :=
  decidable_of_iff (t.kind ≠ .payloadOnly ∧ (t.kind = .single → x.children.length = 1) ∧
      (x.payload.payloadBits ≠ 0 → t.allowsPayload = true) ∧ (maxOffsetFromChild x xpos).size ≤ bitsPerPointerArr t)
    ⟨fun ⟨a, b, c, d⟩ => ⟨a, b, c, d⟩, fun ⟨a, b, c, d⟩ => ⟨a, b, c, d⟩⟩

theorem allowsPayload_of_kind {t : NodeType} (h : t.kind = .sparse ∨ t.kind = .dense) : t.allowsPayload = true := by
  cases t <;> simp_all [NodeType.kind, NodeType.allowsPayload]

/-! ### The tables -/

/-- `width_idx` for the largest offset to a child of `x` at `xpos`. -/
def WriterNode.widthIdx (x : WriterNode) (xpos : Nat) : Nat := widthsLookup.getD (maxOffsetFromChild x xpos).size 7

/-- The dedicated single types, with the fallbacks that hold a payload. -/
def singleChoice (widthIdx : Nat) (hasPayload : Bool) : NodeType :=
  if hasPayload = true ∧ (widthIdx = 0 ∨ widthIdx = 2) then singles.getD (widthIdx + 1) .longDense
  else singles.getD widthIdx .longDense

/-- For every width, the single choice has pointers that wide and room for a payload where one is needed. -/
theorem singleChoice_table : ∀ w < 65, ∀ hasPayload : Bool,
    (singleChoice (widthsLookup.getD w 7) hasPayload).kind ≠ .payloadOnly ∧
    w ≤ bitsPerPointerArr (singleChoice (widthsLookup.getD w 7) hasPayload) ∧
    (hasPayload = true → (singleChoice (widthsLookup.getD w 7) hasPayload).allowsPayload = true) := by
  decide

/-- For every width, the sparse and dense types at its index have pointers that wide; the dense one is dense and
the sparse one sparse, except at the last index, where both are `LONG_DENSE`. -/
theorem sparses_denses_table : ∀ w < 65,
    w ≤ bitsPerPointerArr (sparses.getD (widthsLookup.getD w 7) .longDense) ∧
    w ≤ bitsPerPointerArr (denses.getD (widthsLookup.getD w 7) .longDense) ∧
    (denses.getD (widthsLookup.getD w 7) .longDense).kind = .dense ∧
    ((sparses.getD (widthsLookup.getD w 7) .longDense).kind = .sparse ∨
      sparses.getD (widthsLookup.getD w 7) .longDense = denses.getD (widthsLookup.getD w 7) .longDense) := by
  decide

/-- No sparse type that holds a width is narrower than the one at its index. -/
theorem sparses_least (t : NodeType) (ht : t.kind = .sparse) : ∀ w < 65, w ≤ bitsPerPointerArr t →
    (sparses.getD (widthsLookup.getD w 7) .longDense).kind = .sparse ∧
      bitsPerPointerArr (sparses.getD (widthsLookup.getD w 7) .longDense) ≤ bitsPerPointerArr t := by
  cases t <;> cases ht <;> decide

/-- No dense type that holds a width is narrower than the one at its index. -/
theorem denses_least (t : NodeType) (ht : t.kind = .dense) : ∀ w < 65, w ≤ bitsPerPointerArr t →
    bitsPerPointerArr (denses.getD (widthsLookup.getD w 7) .longDense) ≤ bitsPerPointerArr t := by
  cases t <;> cases ht <;> decide


/-- The size of a type for a node with one child, less the payload bytes. -/
def singleBase : NodeType → Nat
  | .payloadOnly => 1
  | .singleNopayload4 => 2
  | .single8 => 3
  | .singleNopayload12 => 3
  | .single16 => 4
  | .sparse8 => 2 + divCeil 16 8
  | .sparse12 => 2 + divCeil 20 8
  | .sparse16 => 2 + divCeil 24 8
  | .sparse24 => 2 + divCeil 32 8
  | .sparse40 => 2 + divCeil 48 8
  | .dense12 => 3 + divCeil 12 8
  | .dense16 => 3 + divCeil 16 8
  | .dense24 => 3 + divCeil 24 8
  | .dense32 => 3 + divCeil 32 8
  | .dense40 => 3 + divCeil 40 8
  | .longDense => 3 + divCeil 64 8

/-- No type that holds a width and, if needed, a payload is smaller than the single choice for it. -/
theorem singleChoice_least (t : NodeType) : ∀ w < 65, ∀ hasPayload : Bool, t.kind ≠ .payloadOnly →
    w ≤ bitsPerPointerArr t → (hasPayload = true → t.allowsPayload = true) →
      singleBase (singleChoice (widthsLookup.getD w 7) hasPayload) ≤ singleBase t := by
  cases t <;> decide


/-! ### Sizes by kind -/

theorem serializedSizeBodyType_of_sparse (x : WriterNode) {t : NodeType} (ht : t.kind = .sparse) :
    serializedSizeBodyType x t = sizeSparse x (bitsPerPointerArr t) := by
  cases t <;> cases ht <;> rfl

theorem serializedSizeBodyType_of_dense (x : WriterNode) {t : NodeType} (ht : t.kind = .dense) :
    serializedSizeBodyType x t = sizeDense x (bitsPerPointerArr t) := by
  cases t <;> cases ht <;> rfl

theorem divCeil_mono {a b : Nat} (h : a ≤ b) (d : Nat) : divCeil a d ≤ divCeil b d :=
  Nat.div_le_div_right (by omega)

theorem sizeSparse_mono (x : WriterNode) {b b' : Nat} (h : b ≤ b') : sizeSparse x b ≤ sizeSparse x b' := by
  have := divCeil_mono (Nat.mul_le_mul_left x.children.length (Nat.add_le_add_left h 8)) 8
  unfold sizeSparse
  omega

theorem sizeDense_mono (x : WriterNode) {b b' : Nat} (h : b ≤ b') : sizeDense x b ≤ sizeDense x b' := by
  have := divCeil_mono (Nat.mul_le_mul_right (1 + x.lastTransition - x.firstTransition) h) 8
  unfold sizeDense
  omega

/-- With one child the dense span is one, and a type's size is its base and the payload if it holds one. -/
theorem serializedSizeBodyType_of_length_one {x : WriterNode} (h : x.children.length = 1) (t : NodeType) :
    serializedSizeBodyType x t = singleBase t + (if t.allowsPayload then x.payload.payloadSize else 0) := by
  obtain ⟨c, hc⟩ := List.length_eq_one_iff.1 h
  have hspan : 1 + x.lastTransition - x.firstTransition = 1 := by
    simp [WriterNode.lastTransition, WriterNode.firstTransition, hc]
  cases t <;> simp only [serializedSizeBodyType, sizeSparse, sizeDense, singleBase, NodeType.allowsPayload, h, hspan,
    if_true, Bool.false_eq_true, if_false]

/-! ### The choice -/

theorem chooseNodeType_of_length_one {x : WriterNode} (h : x.children.length = 1) (xpos : Nat) :
    chooseNodeType x xpos = singleChoice (x.widthIdx xpos) (decide (x.payload.payloadBits ≠ 0)) := by
  simp [chooseNodeType, chooseNodeTypeImpl, h, singleChoice, WriterNode.widthIdx]

theorem chooseNodeType_of_two_le {x : WriterNode} (h : 2 ≤ x.children.length) (xpos : Nat) :
    chooseNodeType x xpos =
      if 16 + divCeil ((bitsPerPointerArr (sparses.getD (x.widthIdx xpos) .longDense) + 8) * x.children.length) 8 <
          24 + divCeil (bitsPerPointerArr (denses.getD (x.widthIdx xpos) .longDense) *
            (1 + x.lastTransition - x.firstTransition)) 8
      then sparses.getD (x.widthIdx xpos) .longDense else denses.getD (x.widthIdx xpos) .longDense := by
  simp only [chooseNodeType, chooseNodeTypeImpl, if_neg (show x.children.length ≠ 0 by omega),
    if_neg (show x.children.length ≠ 1 by omega)]
  rfl

/-- The width of the largest offset of a 64-bit word indexes `widths_lookup`. -/
theorem size_maxOffsetFromChild_lt {x : WriterNode} {xpos : Nat} (hw : maxOffsetFromChild x xpos < 2 ^ 64) :
    (maxOffsetFromChild x xpos).size < 65 :=
  Nat.lt_succ_of_le (Nat.size_le.2 hw)

/-- A sparse or dense type as wide as the largest offset holds a node. -/
theorem encodes_of_kind {x : WriterNode} {xpos : Nat} {t : NodeType} (hk : t.kind = .sparse ∨ t.kind = .dense)
    (hw : (maxOffsetFromChild x xpos).size ≤ bitsPerPointerArr t) : Encodes x xpos t where
  kind_ne := by rcases hk with h | h <;> simp [h]
  single := by rcases hk with h | h <;> simp [h]
  payload := fun _ => allowsPayload_of_kind hk
  width := hw

/-- A type that holds a node with several children is sparse or dense. -/
theorem kind_of_encodes {x : WriterNode} {xpos : Nat} {t : NodeType} (h2 : 2 ≤ x.children.length)
    (ht : Encodes x xpos t) : t.kind = .sparse ∨ t.kind = .dense := by
  have hne := ht.kind_ne
  have hs := ht.single
  cases h : t.kind
  · exact absurd h hne
  · have := hs h
    omega
  · exact .inl rfl
  · exact .inr rfl

theorem chooseNodeType_encodes (x : WriterNode) (xpos : Nat) (hx : x.children ≠ [])
    (hw : maxOffsetFromChild x xpos < 2 ^ 64) : Encodes x xpos (chooseNodeType x xpos) := by
  have hs := size_maxOffsetFromChild_lt hw
  have hn : 0 < x.children.length := List.length_pos_iff.2 hx
  rcases (show x.children.length = 1 ∨ 2 ≤ x.children.length by omega) with h1 | h2
  · -- One child: a dedicated single type, or the one after it when there is a payload.
    obtain ⟨hk, hwid, hpay⟩ := singleChoice_table _ hs (decide (x.payload.payloadBits ≠ 0))
    rw [chooseNodeType_of_length_one h1]
    exact ⟨hk, fun _ => h1, fun hb => hpay (by simpa using hb), hwid⟩
  · obtain ⟨hws, hwd, hkd, hks⟩ := sparses_denses_table _ hs
    rw [chooseNodeType_of_two_le h2]
    split
    · rcases hks with hks | hks
      · exact encodes_of_kind (.inl hks) hws
      · exact encodes_of_kind (.inr (hks ▸ hkd)) hws
    · exact encodes_of_kind (.inr hkd) hwd


theorem chooseNodeType_minimal_of_single (x : WriterNode) (xpos : Nat) (h1 : x.children.length = 1)
    (hw : maxOffsetFromChild x xpos < 2 ^ 64) (t : NodeType) (ht : Encodes x xpos t) :
    serializedSizeBody x xpos ≤ serializedSizeBodyType x t := by
  have hs := size_maxOffsetFromChild_lt hw
  have hbase := singleChoice_least t _ hs (decide (x.payload.payloadBits ≠ 0)) ht.kind_ne ht.width
    (fun hb => ht.payload (by simpa using hb))
  obtain ⟨-, -, hpay⟩ := singleChoice_table _ hs (decide (x.payload.payloadBits ≠ 0))
  rw [serializedSizeBody, chooseNodeType_of_length_one h1, serializedSizeBodyType_of_length_one h1,
    serializedSizeBodyType_of_length_one h1]
  unfold WriterNode.widthIdx
  by_cases hb : x.payload.payloadBits = 0
  · -- No payload: no payload bytes either, and the bases compare.
    have hp : x.payload.payloadSize = 0 := x.payload.size_eq_zero_iff.2 hb
    simp only [hp, ite_self, Nat.add_zero]
    exact hbase
  · -- A payload: both types hold it.
    rw [hpay (by simpa using hb), ht.payload hb]
    simp only [if_true]
    omega


/-- The size of the sparse candidate, in the terms the chooser compares. -/
theorem serializedSizeBodyType_sparse_eq (x : WriterNode) {t : NodeType} (ht : t.kind = .sparse) :
    serializedSizeBodyType x t = 2 + divCeil ((bitsPerPointerArr t + 8) * x.children.length) 8 + x.payload.payloadSize := by
  rw [serializedSizeBodyType_of_sparse x ht, sizeSparse, Nat.mul_comm, Nat.add_comm 8]

/-- For several children the chosen type is at most six bytes larger than any type that holds the node: the
comparison adds 16 and 24 to the pointer bytes where the nodes add 2 and 3. -/
theorem chooseNodeType_le_add_six (x : WriterNode) (xpos : Nat) (h2 : 2 ≤ x.children.length)
    (hw : maxOffsetFromChild x xpos < 2 ^ 64) (t : NodeType) (ht : Encodes x xpos t) :
    serializedSizeBody x xpos ≤ serializedSizeBodyType x t + 6 := by
  have hs := size_maxOffsetFromChild_lt hw
  obtain ⟨-, -, hkd, hks⟩ := sparses_denses_table _ hs
  rw [serializedSizeBody, chooseNodeType_of_two_le h2]
  unfold WriterNode.widthIdx
  rcases kind_of_encodes h2 ht with htk | htk
  · -- A sparse type is no smaller than the sparse candidate, and that one no smaller than the dense one when
    -- the chooser prefers the dense one.
    obtain ⟨hsk, hsb⟩ := sparses_least t htk _ hs ht.width
    generalize sparses.getD (widthsLookup.getD (maxOffsetFromChild x xpos).size 7) .longDense = s at *
    generalize denses.getD (widthsLookup.getD (maxOffsetFromChild x xpos).size 7) .longDense = d at *
    have hst := sizeSparse_mono x hsb
    rw [← serializedSizeBodyType_of_sparse x hsk, ← serializedSizeBodyType_of_sparse x htk,
      serializedSizeBodyType_sparse_eq x hsk] at hst
    split_ifs with hlt
    · rw [serializedSizeBodyType_sparse_eq x hsk]
      omega
    · rw [serializedSizeBodyType_of_dense x hkd, sizeDense]
      omega
  · -- A dense type is no smaller than the dense candidate; the sparse one is chosen only while its pointer
    -- bytes are fewer than the dense ones and eight.
    have hdb := denses_least t htk _ hs ht.width
    generalize sparses.getD (widthsLookup.getD (maxOffsetFromChild x xpos).size 7) .longDense = s at *
    generalize denses.getD (widthsLookup.getD (maxOffsetFromChild x xpos).size 7) .longDense = d at *
    have hdt := sizeDense_mono x hdb
    rw [← serializedSizeBodyType_of_dense x hkd, ← serializedSizeBodyType_of_dense x htk] at hdt
    have hD := serializedSizeBodyType_of_dense x hkd
    rw [sizeDense] at hD
    split_ifs with hlt
    · rcases hks with hks | rfl
      · rw [serializedSizeBodyType_sparse_eq x hks]
        omega
      · omega
    · omega

/-- A node without payload whose two children, on the transitions `a` and `b`, were written at `p₁` and `p₂`. -/
def twoWrittenChildren (p₁ p₂ : Nat) : WriterNode :=
  ⟨⟨0, 0, by decide, by decide, by decide⟩, [⟨some p₁, 0x61, 1, 0, 0⟩, ⟨some p₂, 0x62, 1, 0, 0⟩], by simp⟩

/-- Two adjacent children written 5000 and 1000 bytes before the node: the largest offset has 13 bits, and
`SPARSE_16` of 8 bytes is chosen although `DENSE_16` of 7 bytes holds the node.  With offsets of 10 and 5 bytes
the sizes tie at 6, and `SPARSE_8` is chosen over `DENSE_12`, against the comment that prefers the dense type. -/
theorem chooseNodeType_not_minimal :
    chooseNodeType (twoWrittenChildren 5000 9000) 10000 = .sparse16 ∧
      serializedSizeBodyType (twoWrittenChildren 5000 9000) .sparse16 = 8 ∧
      Encodes (twoWrittenChildren 5000 9000) 10000 .dense16 ∧
      serializedSizeBodyType (twoWrittenChildren 5000 9000) .dense16 = 7 ∧
    chooseNodeType (twoWrittenChildren 90 95) 100 = .sparse8 ∧
      serializedSizeBodyType (twoWrittenChildren 90 95) .sparse8 = 6 ∧
      Encodes (twoWrittenChildren 90 95) 100 .dense12 ∧
      serializedSizeBodyType (twoWrittenChildren 90 95) .dense12 = 6 := by
  decide

end Scylla.Sstables.Trie
