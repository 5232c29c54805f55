import Scylla.Lib.Packing

/-!
# The offsets of compressed chunks

The compression info of an sstable lists the file offset of every compressed chunk.
`segmented_offsets` packs them: `grouped_offsets` offsets form a segment, an absolute offset
relative to the bucket's base followed by offsets relative to it, each given just the bits its
maximum needs; segments fill buckets of `bucket_size` bytes, read and written through
little-endian 64-bit windows.  A `state` remembers where the last index visited lies so that
sequential access only increments it (`update_position_trackers`).

* `State.updatePositionTrackers_tracks`: whatever indexes were visited before, the state ends
  where the direct computation puts the index, so `at` answers the same for every state.
* `parseOffsets_fails`: offsets 128 apart for chunks of 64 bytes make `push_back` throw, and a
  chunk size whose base offsets need 30 bits makes `at` answer a wrong offset.
-/

namespace Scylla.Sstables

open Packing

/-! ## Parameters -/

/-- bucket_size, in bytes. -/
def bucketSize : Nat := 4096

/-- bucket_info -/
structure BucketInfo where
  chunkSizeLog2 : Nat
  bestDataSizeLog2 : Nat
  segmentsPerBucket : Nat
  deriving DecidableEq, Repr

/-- segment_info -/
structure SegmentInfo where
  dataSizeLog2 : Nat
  chunkSizeLog2 : Nat
  groupedOffsets : Nat
  deriving DecidableEq, Repr

/-- bucket_infos: for each chunk size, the size of a segment's base offset that lets a bucket
cover the most data, and the number of segments of a bucket. -/
def bucketInfos : List BucketInfo :=
  [⟨4, 16, 817⟩, ⟨5, 17, 527⟩, ⟨6, 18, 605⟩, ⟨7, 19, 474⟩, ⟨8, 20, 380⟩, ⟨9, 21, 311⟩,
    ⟨10, 22, 289⟩, ⟨11, 23, 270⟩, ⟨12, 23, 255⟩, ⟨13, 24, 240⟩, ⟨14, 25, 227⟩, ⟨15, 26, 215⟩,
    ⟨16, 27, 204⟩, ⟨17, 28, 194⟩, ⟨18, 29, 185⟩, ⟨19, 30, 177⟩, ⟨20, 31, 170⟩, ⟨21, 32, 163⟩,
    ⟨22, 33, 157⟩, ⟨23, 34, 151⟩, ⟨24, 35, 146⟩, ⟨25, 36, 141⟩, ⟨26, 37, 136⟩, ⟨27, 38, 131⟩,
    ⟨28, 38, 128⟩, ⟨29, 39, 124⟩, ⟨30, 40, 120⟩]

/-- The entries of segment_infos that params_for_chunk_size can select: the one for the best data
size of each entry of bucket_infos. -/
def segmentInfos : List SegmentInfo :=
  [⟨16, 4, 4⟩, ⟨17, 5, 6⟩, ⟨18, 6, 5⟩, ⟨19, 7, 6⟩, ⟨20, 8, 7⟩, ⟨21, 9, 8⟩, ⟨22, 10, 8⟩,
    ⟨23, 11, 8⟩, ⟨23, 12, 8⟩, ⟨24, 13, 8⟩, ⟨25, 14, 8⟩, ⟨26, 15, 8⟩, ⟨27, 16, 8⟩, ⟨28, 17, 8⟩,
    ⟨29, 18, 8⟩, ⟨30, 19, 8⟩, ⟨31, 20, 8⟩, ⟨32, 21, 8⟩, ⟨33, 22, 8⟩, ⟨34, 23, 8⟩, ⟨35, 24, 8⟩,
    ⟨36, 25, 8⟩, ⟨37, 26, 8⟩, ⟨38, 27, 8⟩, ⟨38, 28, 8⟩, ⟨39, 29, 8⟩, ⟨40, 30, 8⟩]

/-- params_for_chunk_size -/
def paramsForChunkSize (chunkSize : Nat) : BucketInfo × SegmentInfo :=
  let chunkSizeLog2 := log2ceil 32 chunkSize
  match bucketInfos.find? (·.chunkSizeLog2 = chunkSizeLog2) with
  | none =>
    -- The source's fallback; its segment_info is written with the first two fields in the order
    -- of bucket_info.
    let dataSize := 16
    (⟨chunkSizeLog2, dataSize, (8 * bucketSize - 56) / dataSize⟩, ⟨chunkSizeLog2, dataSize, 1⟩)
  | some b =>
    match segmentInfos.find? fun si =>
        si.dataSizeLog2 = b.bestDataSizeLog2 ∧ si.chunkSizeLog2 = b.chunkSizeLog2 with
    | some s => (b, s)
    -- Unreachable: every entry of bucket_infos has its segment_info (`find_segmentInfos`).
    | none => (b, ⟨b.bestDataSizeLog2, b.chunkSizeLog2, 1⟩)

theorem find_segmentInfos :
    ∀ b ∈ bucketInfos, ∃ s ∈ segmentInfos,
      s.dataSizeLog2 = b.bestDataSizeLog2 ∧ s.chunkSizeLog2 = b.chunkSizeLog2 := by
  decide

/-! ## Bits -/

inductive MaskType where
  | set
  | clear
  deriving DecidableEq, Repr

/-- make_mask: `size_bits` ones shifted by `offset`.  The shifts are of an int: the model wraps
them to 32 bits, as C++20 does for the shift by `offset`, and takes the count of `1 << size_bits`
modulo 32 as x86 does where the source is undefined (`size_bits` of 32 or more).  The int is then
converted to uint64_t, which extends its sign. -/
def makeMask (sizeBits offset : Nat) (t : MaskType) : UInt64 :=
  let mask : Int32 := (((1 : Int32) <<< sizeBits.toInt32) - 1) <<< offset.toInt32
  let mask : UInt64 := mask.toInt64.toUInt64
  match t with
  | .set => mask
  | .clear => ~~~mask

/-- bit_displacement -/
structure BitDisplacement where
  shift : UInt64
  mask : UInt64

def displacementFor (prefixBits sizeBits : Nat) (t : MaskType) : BitDisplacement :=
  ⟨prefixBits.toUInt64, makeMask sizeBits prefixBits t⟩

/-- seastar::read_le<uint64_t> at byte `offsetByte` of a bucket's storage. -/
def readLe (st offsetByte : Nat) : UInt64 := (getBits st (8 * offsetByte) 64).toUInt64

/-- seastar::write_le of a uint64_t at byte `offsetByte` of a bucket's storage. -/
def writeLe (st offsetByte : Nat) (v : UInt64) : Nat := setBits st (8 * offsetByte) 64 v.toNat

/-! ## Segmented offsets -/

/-- A bucket: the offset its segments are relative to, and its bucket_size bytes, byte `k` in
bits `8k` to `8k + 7`.  The source allocates the bytes uninitialized; the model starts them at 0. -/
structure Bucket where
  baseOffset : UInt64
  bits : Nat
  deriving DecidableEq, Repr

instance : Inhabited Bucket := ⟨⟨0, 0⟩⟩

/-- compression::segmented_offsets::state -/
structure State where
  currentIndex : Nat := 0
  currentBucketIndex : Nat := 0
  currentBucketSegmentIndex : Nat := 0
  currentSegmentRelativeIndex : Nat := 0
  currentSegmentOffsetBits : Nat := 0
  deriving DecidableEq, Repr

/-- The errors of the offsets. -/
inductive CompressError where
  | invalidArgument (msg : String)
  | outOfRange (msg : String)
  | malformedSstable (msg : String)
  deriving DecidableEq, Repr

/-- compression::segmented_offsets -/
structure SegmentedOffsets where
  chunkSize : Nat := 0
  segmentBaseOffsetSizeBits : Nat := 0
  segmentedOffsetSizeBits : Nat := 0
  segmentSizeBits : Nat := 0
  segmentsPerBucket : Nat := 0
  groupedOffsets : Nat := 0
  lastWrittenOffset : UInt64 := 0
  size : Nat := 0
  storage : List Bucket := []
  deriving DecidableEq, Repr

namespace State

/-- Where the direct computation puts an index: its segment, that segment's place in its bucket and
the index's place in its segment. -/
def ofIndex (index segmentSizeBits segmentsPerBucket groupedOffsets : Nat) : State :=
  let currentSegmentIndex := index / groupedOffsets
  let currentBucketSegmentIndex := currentSegmentIndex % segmentsPerBucket
  { currentIndex := index
    currentBucketSegmentIndex
    currentSegmentRelativeIndex := index % groupedOffsets
    currentBucketIndex := currentSegmentIndex / segmentsPerBucket
    currentSegmentOffsetBits := (currentBucketSegmentIndex % segmentsPerBucket) * segmentSizeBits }

/-- state::update_position_trackers: recompute the position of a new index, or step it to the
next one. -/
def updatePositionTrackers (s : State) (index segmentSizeBits segmentsPerBucket groupedOffsets : Nat) :
    State :=
  -- For index 0 the source's index - 1 wraps to SIZE_MAX, which no current index equals.
  if s.currentIndex + 1 ≠ index then ofIndex index segmentSizeBits segmentsPerBucket groupedOffsets
  else
    let s := { s with currentIndex := s.currentIndex + 1,
                      currentSegmentRelativeIndex := s.currentSegmentRelativeIndex + 1 }
    -- Crossed segment boundary.
    if s.currentSegmentRelativeIndex = groupedOffsets then
      let s := { s with currentBucketSegmentIndex := s.currentBucketSegmentIndex + 1,
                        currentSegmentRelativeIndex := 0 }
      -- Crossed bucket boundary.
      if s.currentBucketSegmentIndex = segmentsPerBucket then
        { s with currentBucketIndex := s.currentBucketIndex + 1, currentBucketSegmentIndex := 0,
                 currentSegmentOffsetBits := 0 }
      else { s with currentSegmentOffsetBits := s.currentSegmentOffsetBits + segmentSizeBits }
    else s

variable {segmentSizeBits segmentsPerBucket groupedOffsets : Nat}

/-- Stepping from the direct position of `j` to `j + 1` gives the direct position of `j + 1`: the
place in the segment steps or carries into the segment, which steps or carries into the bucket. -/
theorem updatePositionTrackers_ofIndex (hb : 0 < segmentsPerBucket) (hg : 0 < groupedOffsets)
    (j index : Nat) :
    (ofIndex j segmentSizeBits segmentsPerBucket groupedOffsets).updatePositionTrackers index
        segmentSizeBits segmentsPerBucket groupedOffsets =
      ofIndex index segmentSizeBits segmentsPerBucket groupedOffsets := by
  unfold updatePositionTrackers
  by_cases hi : j + 1 = index
  · subst hi
    rw [if_neg (by simp [ofIndex])]
    by_cases hr : j % groupedOffsets + 1 = groupedOffsets
    · obtain ⟨hq, hm⟩ := add_one_div_of_eq hr
      have hs := Nat.mod_lt (j / groupedOffsets) hb
      by_cases hc : j / groupedOffsets % segmentsPerBucket + 1 = segmentsPerBucket
      · -- The last segment of its bucket: the next index starts the next bucket.
        obtain ⟨hq', hm'⟩ := add_one_div_of_eq hc
        simp [ofIndex, hr, hc, hq, hm, hq', hm']
      · obtain ⟨hq', hm'⟩ := add_one_div_of_lt (by omega : j / groupedOffsets % segmentsPerBucket + 1 < segmentsPerBucket)
        simp [ofIndex, hr, hc, hq, hm, hq', hm', Nat.add_mul]
    · have hlt : j % groupedOffsets + 1 < groupedOffsets := by
        have := Nat.mod_lt j hg
        omega
      obtain ⟨hq, hm⟩ := add_one_div_of_lt hlt
      simp [ofIndex, hr, hq, hm]
  · rw [if_pos (by simpa [ofIndex] using hi)]

theorem default_eq_ofIndex : ({} : State) = ofIndex 0 segmentSizeBits segmentsPerBucket groupedOffsets := by
  simp [ofIndex]

end State

namespace SegmentedOffsets

/-- segmented_offsets::read -/
def read (so : SegmentedOffsets) (bucketIndex offsetBits sizeBits : Nat) : UInt64 :=
  let offsetByte := offsetBits / 8
  let value := readLe (so.storage.getD bucketIndex default).bits offsetByte
  let displacement := displacementFor (offsetBits % 8) sizeBits .set
  (value &&& displacement.mask) >>> displacement.shift

/-- segmented_offsets::write -/
def write (so : SegmentedOffsets) (bucketIndex offsetBits sizeBits : Nat) (value : UInt64) :
    Except CompressError SegmentedOffsets :=
  let offsetByte := offsetBits / 8
  let b := so.storage.getD bucketIndex default
  let oldValue := readLe b.bits offsetByte
  let displacement := displacementFor (offsetBits % 8) sizeBits .clear
  let value := value <<< displacement.shift
  if (~~~displacement.mask ||| value) ≠ ~~~displacement.mask then
    throw (.invalidArgument "write: to-be-written value would overflow the allocated bits")
  else
    let value := value ||| (oldValue &&& displacement.mask)
    pure { so with storage := so.storage.set bucketIndex { b with bits := writeLe b.bits offsetByte value } }

/-- segmented_offsets::init -/
def init (so : SegmentedOffsets) (chunkSize : Nat) : Except CompressError SegmentedOffsets :=
  if chunkSize = 0 then throw (.malformedSstable "Segmented offsets chunk size is zero.")
  else
    let params := paramsForChunkSize chunkSize
    let groupedOffsets := params.2.groupedOffsets
    let segmentBaseOffsetSizeBits := params.2.dataSizeLog2
    -- The product is computed in uint32_t.
    let segmentedOffsetSizeBits := log2ceil 32 ((chunkSize + 64) * (groupedOffsets - 1) % 2 ^ 32)
    pure { so with
      chunkSize
      groupedOffsets
      segmentBaseOffsetSizeBits
      segmentedOffsetSizeBits
      segmentSizeBits := segmentBaseOffsetSizeBits + (groupedOffsets - 1) * segmentedOffsetSizeBits
      segmentsPerBucket := params.1.segmentsPerBucket }

/-- The state after positioning it at an index. -/
def track (so : SegmentedOffsets) (s : State) (i : Nat) : State :=
  s.updatePositionTrackers i so.segmentSizeBits so.segmentsPerBucket so.groupedOffsets

/-- The offset at a position of the state: the segment's base, plus the relative offset unless
the position starts the segment. -/
def offsetAt (so : SegmentedOffsets) (s : State) : UInt64 :=
  let bucketBaseOffset := (so.storage.getD s.currentBucketIndex default).baseOffset
  let segmentBaseOffset :=
    bucketBaseOffset + so.read s.currentBucketIndex s.currentSegmentOffsetBits so.segmentBaseOffsetSizeBits
  if s.currentSegmentRelativeIndex = 0 then segmentBaseOffset
  else
    segmentBaseOffset +
      so.read s.currentBucketIndex
        (s.currentSegmentOffsetBits + so.segmentBaseOffsetSizeBits +
          (s.currentSegmentRelativeIndex - 1) * so.segmentedOffsetSizeBits)
        so.segmentedOffsetSizeBits

/-- segmented_offsets::at, with the state the accessor keeps. -/
def at' (so : SegmentedOffsets) (i : Nat) (s : State) : Except CompressError (UInt64 × State) :=
  if i ≥ so.size then throw (.outOfRange ("at: index " ++ toString i ++ " is out of range"))
  else
    let s := so.track s i
    pure (so.offsetAt s, s)

/-- segmented_offsets::push_back, with the state the writer keeps. -/
def pushBack (so : SegmentedOffsets) (offset : UInt64) (s : State) :
    Except CompressError (SegmentedOffsets × State) := do
  let s := so.track s so.size
  let so := if s.currentBucketIndex = so.storage.length
    then { so with storage := so.storage ++ [⟨so.lastWrittenOffset, 0⟩] } else so
  let bucketBaseOffset := (so.storage.getD s.currentBucketIndex default).baseOffset
  let so ← if s.currentSegmentRelativeIndex = 0 then
      so.write s.currentBucketIndex s.currentSegmentOffsetBits so.segmentBaseOffsetSizeBits
        (offset - bucketBaseOffset)
    else
      let segmentBaseOffset := bucketBaseOffset +
        so.read s.currentBucketIndex s.currentSegmentOffsetBits so.segmentBaseOffsetSizeBits
      so.write s.currentBucketIndex
        (s.currentSegmentOffsetBits + so.segmentBaseOffsetSizeBits +
          (s.currentSegmentRelativeIndex - 1) * so.segmentedOffsetSizeBits)
        so.segmentedOffsetSizeBits (offset - segmentBaseOffset)
  pure ({ so with lastWrittenOffset := offset, size := so.size + 1 }, s)

/-- Pushing offsets through one writer. -/
def pushAll (so : SegmentedOffsets) (s : State) : List UInt64 → Except CompressError (SegmentedOffsets × State)
  | [] => pure (so, s)
  | o :: os => do
    let (so, s) ← so.pushBack o s
    pushAll so s os

/-- The state an accessor is left in by a sequence of at calls; one that throws leaves it as it is. -/
def visit (so : SegmentedOffsets) (s : State) : List Nat → State
  | [] => s
  | i :: is =>
    match so.at' i s with
    | .ok (_, s) => so.visit s is
    | .error _ => so.visit s is

theorem at'_of_lt {so : SegmentedOffsets} {i : Nat} (h : i < so.size) (s : State) :
    so.at' i s = .ok (so.offsetAt (so.track s i), so.track s i) := by
  simp only [at', ge_iff_le, Nat.not_le.2 h, if_false]
  rfl

theorem at'_of_ge {so : SegmentedOffsets} {i : Nat} (h : so.size ≤ i) (s : State) :
    so.at' i s = .error (.outOfRange ("at: index " ++ toString i ++ " is out of range")) := by
  simp only [at', ge_iff_le, h, if_true]
  rfl

section Tracking

variable {so : SegmentedOffsets} (hb : 0 < so.segmentsPerBucket) (hg : 0 < so.groupedOffsets)
include hb hg

theorem track_ofIndex (j i : Nat) :
    so.track (.ofIndex j so.segmentSizeBits so.segmentsPerBucket so.groupedOffsets) i =
      .ofIndex i so.segmentSizeBits so.segmentsPerBucket so.groupedOffsets :=
  State.updatePositionTrackers_ofIndex hb hg j i

/-- An accessor left at a direct position stays at one, whatever indexes it visits. -/
theorem visit_ofIndex (j : Nat) (is : List Nat) :
    ∃ k, so.visit (.ofIndex j so.segmentSizeBits so.segmentsPerBucket so.groupedOffsets) is =
      .ofIndex k so.segmentSizeBits so.segmentsPerBucket so.groupedOffsets := by
  induction is generalizing j with
  | nil => exact ⟨j, rfl⟩
  | cons i is ih =>
    rcases Nat.lt_or_ge i so.size with hi | hi
    · rw [visit, at'_of_lt hi, track_ofIndex hb hg]
      exact ih i
    · rw [visit, at'_of_ge hi]
      exact ih j

/-- segmented_offsets::at answers the same, and leaves the accessor in the same state, whatever
indexes the accessor visited before. -/
theorem at'_visit (is : List Nat) (i : Nat) : so.at' i (so.visit {} is) = so.at' i {} := by
  obtain ⟨k, hk⟩ := visit_ofIndex hb hg 0 is
  rw [State.default_eq_ofIndex, hk]
  unfold at'
  rw [track_ofIndex hb hg, track_ofIndex hb hg]

end Tracking

end SegmentedOffsets

/-- parse(compression) for the offsets of CompressionInfo: init for the chunk length, then every
offset pushed through one writer. -/
def parseOffsets (chunkLen : Nat) (offsets : List UInt64) : Except CompressError SegmentedOffsets := do
  let so ← ({} : SegmentedOffsets).init chunkLen
  let (so, _) ← so.pushAll {} offsets
  pure so

/-- Offsets 128 apart for chunks of 64 bytes: the fifth lies 512 above its segment's base, which
the 9 bits log2ceil((64 + 64) * 4) gives relative offsets cannot hold, and push_back throws.  Chunks
of 270000 bytes give base offsets of 30 bits; the third segment's base lies 2 bits into its byte,
so make_mask overflows its int and the mask reaches into the next offset: at(16) adds 2^30 to it. -/
theorem parseOffsets_fails :
    parseOffsets 64 [0, 128, 256, 384, 512] =
        throw (.invalidArgument "write: to-be-written value would overflow the allocated bits") ∧
      ((parseOffsets 270000 ((List.range 18).map Nat.toUInt64)).bind fun so => so.at' 16 {}).map Prod.fst =
        pure (2 ^ 30 + 16) := by
  decide +kernel

/-- What locate reads of compression: the chunk length, the offsets and the compressed file's
length. -/
structure Compression where
  chunkLen : Nat
  offsets : SegmentedOffsets
  compressedFileLength : UInt64

/-- compression::chunk_and_offset -/
structure ChunkAndOffset where
  chunkStart : UInt64
  chunkLen : UInt64
  offset : Nat
  deriving DecidableEq, Repr

/-- compression::locate, with the state of the accessor. -/
def Compression.locate (c : Compression) (position : UInt64) (s : State) :
    Except CompressError (ChunkAndOffset × State) := do
  let ucl := c.chunkLen
  let chunkIndex := position.toNat / ucl
  let chunkOffset := position.toNat % ucl
  let (chunkStart, s) ← c.offsets.at' chunkIndex s
  let (chunkEnd, s) ← if chunkIndex + 1 = c.offsets.size then pure (c.compressedFileLength, s)
    else c.offsets.at' (chunkIndex + 1) s
  pure (⟨chunkStart, chunkEnd - chunkStart, chunkOffset⟩, s)

end Scylla.Sstables
