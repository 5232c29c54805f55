import Mathlib
import Scylla.Lib.Intervals

/-!
# Reassembling fragmented commitlog entries

An entry too large for one segment is written as a stream of fragments, each with the stream id,
its offset in the entry and the count of bytes that remain after it.  Replay may read the fragments
in any order and interleaved with other streams'.  read_entry keeps, per stream id, the pieces read
so far sorted by offset, joins the last two while they touch, and hands the entry to the consumer once
a single piece from offset 0 with nothing remaining is left.

* `FragmentStream`: the fragments the writer emits for one entry, tiling it from offset 0.
* `FragmentStream.Reassembling`: what read_entry keeps for a stream, kept by every read
  (`readFragment_own`, `readFragment_other`).
* `replay_reassembles`: for any duplicate-free sequence of fragments of streams with distinct ids,
  the consumer gets each stream's entry exactly at the read that completes it and nothing at the
  stream's other reads, and the stream's state is gone from then on.
-/

namespace Scylla.Commitlog

open Intervals

/-- commitlog::buffer_and_replay_position -/
structure BufferAndReplayPosition (β ρ : Type) where
  buffer : List β
  position : ρ
  deriving DecidableEq, Repr

/-- replay_state::impl::entry_fragment: the bytes of a stream from `offset` to `endPos` (`end`) and the count
remaining after them. -/
structure EntryFragment (β ρ : Type) where
  offset : Nat
  rem : Nat
  endPos : Nat
  rpbuf : BufferAndReplayPosition β ρ
  deriving DecidableEq, Repr

/-- replay_state: the pieces collected so far for each stream id. -/
structure ReplayState (β ρ : Type) where
  fragmentState : UInt32 → List (EntryFragment β ρ)

/-- A fragmented entry as read_entry parses it: the id, offset and remaining count of its header, its
data, and the replay position it is read at. -/
structure FragmentedEntry (β ρ : Type) where
  id : UInt32
  off : Nat
  rem : Nat
  data : List β
  rp : ρ
  deriving DecidableEq, Repr

variable {β ρ : Type}

instance : EmptyCollection (ReplayState β ρ) := ⟨⟨fun _ => []⟩⟩

/-- The entry_fragment read_entry builds from a fragmented entry. -/
def FragmentedEntry.toFragment (e : FragmentedEntry β ρ) : EntryFragment β ρ :=
  ⟨e.off, e.rem, e.off + e.data.length, ⟨e.data, e.rp⟩⟩

/-- The join lambda of read_entry: `f2` continues `f1`. -/
def EntryFragment.join (f1 f2 : EntryFragment β ρ) : EntryFragment β ρ :=
  { f1 with rem := f2.rem, endPos := f2.endPos, rpbuf := { f1.rpbuf with buffer := f1.rpbuf.buffer ++ f2.rpbuf.buffer } }

/-- The joining loop of read_entry on the pieces listed from the back: join the last two while the
earlier one ends where the last one begins. -/
def collapseBack : List (EntryFragment β ρ) → List (EntryFragment β ρ)
  | [] => []
  | [f] => [f]
  | f2 :: f1 :: rest => if f1.endPos ≠ f2.offset then f2 :: f1 :: rest else collapseBack (f1.join f2 :: rest)
termination_by l => l.length

/-- The joining loop of read_entry over frag_states, whose back is the end of the list. -/
def collapse (fragStates : List (EntryFragment β ρ)) : List (EntryFragment β ρ) :=
  (collapseBack fragStates.reverse).reverse

/-- std::ranges::sort(frag_states, std::less(), std::mem_fn(&entry_fragment::offset)) -/
def sortByOffset (fragStates : List (EntryFragment β ρ)) : List (EntryFragment β ρ) :=
  fragStates.mergeSort fun a b => decide (a.offset ≤ b.offset)

/-- The delivery test of read_entry: a single piece from offset 0 with nothing remaining. -/
def completeEntry : List (EntryFragment β ρ) → Option (BufferAndReplayPosition β ρ)
  | [f] => if f.rem = 0 ∧ f.offset = 0 then some f.rpbuf else none
  | _ => none

/-- read_entry on a fragmented entry: store the fragment with its stream's, sort, join what touches at
the back, and hand a complete entry to the consumer, erasing the stream's state. -/
def readFragment (st : ReplayState β ρ) (e : FragmentedEntry β ρ) :
    ReplayState β ρ × Option (BufferAndReplayPosition β ρ) :=
  let fragStates := collapse (sortByOffset (st.fragmentState e.id ++ [e.toFragment]))
  match completeEntry fragStates with
  | some rpbuf => (⟨Function.update st.fragmentState e.id []⟩, some rpbuf)
  | none => (⟨Function.update st.fragmentState e.id fragStates⟩, none)

/-- read_log_file over the fragments of one original shard's segments with one shared replay_state:
the state after them, and what each read handed to the consumer. -/
def replay (st : ReplayState β ρ) :
    List (FragmentedEntry β ρ) → ReplayState β ρ × List (Option (BufferAndReplayPosition β ρ))
  | [] => (st, [])
  | e :: es =>
    let r := readFragment st e
    let rest := replay r.1 es
    (rest.1, r.2 :: rest.2)

/-- The fragments the oversized-entry writer emits for one entry of `size` bytes: they tile the entry
from offset 0, and each carries the stream's id and the count of bytes after it. -/
structure FragmentStream (β ρ : Type) where
  id : UInt32
  size : Nat
  fragments : List (FragmentedEntry β ρ)
  size_pos : 0 < size
  tiles : Tiles FragmentedEntry.off (fun e => e.off + e.data.length) 0 size fragments
  id_eq : ∀ e ∈ fragments, e.id = id
  rem_eq : ∀ e ∈ fragments, e.rem = size - (e.off + e.data.length)

namespace FragmentStream

variable (s : FragmentStream β ρ)

theorem fragments_ne_nil : s.fragments ≠ [] := by
  intro h
  have ht := s.tiles
  rw [h] at ht
  exact absurd ht (Nat.ne_of_lt s.size_pos)

/-- What the consumer is to get for a stream: its payloads in offset order, at the replay position
of its fragment at offset 0. -/
def entry : BufferAndReplayPosition β ρ :=
  ⟨(s.fragments.map (·.data)).flatten, (s.fragments.head s.fragments_ne_nil).rp⟩

/-- A piece of `s` as read_entry keeps it: a non-empty run of the entry's bytes with the count
remaining after it, at the replay position of the fragment it starts with. -/
structure IsPiece (f : EntryFragment β ρ) : Prop where
  offset_lt : f.offset < f.endPos
  end_le : f.endPos ≤ s.size
  rem_eq : f.rem = s.size - f.endPos
  buffer_eq : f.rpbuf.buffer = slice s.entry.buffer f.offset f.endPos
  position_eq : ∃ e ∈ s.fragments, e.off = f.offset ∧ e.rp = f.rpbuf.position

variable {s}

theorem length_entry : s.entry.buffer.length = s.size := by
  have h := s.tiles.eq_slice.1
  rw [Nat.sub_zero] at h
  exact h

theorem covers_fragments_iff {x : Nat} :
    Covers FragmentedEntry.off (fun e => e.off + e.data.length) s.fragments x ↔ x < s.size := by
  rw [s.tiles.covers_iff]
  omega

theorem fragments_apart : s.fragments.Pairwise (Apart FragmentedEntry.off fun e => e.off + e.data.length) :=
  s.tiles.ascending.pairwise_apart

/-- Two fragments of a stream sharing a point are the same fragment. -/
theorem eq_of_mem_of_mem {e e' : FragmentedEntry β ρ} (he : e ∈ s.fragments) (he' : e' ∈ s.fragments)
    {x : Nat} (hx : e.off ≤ x ∧ x < e.off + e.data.length) (hx' : e'.off ≤ x ∧ x < e'.off + e'.data.length) :
    e = e' := by
  by_contra hne
  have h := s.fragments_apart.forall he he' hne
  simp only [Apart] at h
  omega

theorem isPiece_toFragment {e : FragmentedEntry β ρ} (he : e ∈ s.fragments) : s.IsPiece e.toFragment := by
  obtain ⟨_, hlt, hle⟩ := s.tiles.bounds.2 e he
  refine ⟨hlt, hle, s.rem_eq e he, ?_, ⟨e, he, rfl, rfl⟩⟩
  have hslice := s.tiles.eq_slice.2 e he
  simp only [Nat.sub_zero] at hslice
  exact hslice

theorem IsPiece.join {f1 f2 : EntryFragment β ρ} (h1 : s.IsPiece f1) (h2 : s.IsPiece f2)
    (h : f1.endPos = f2.offset) : s.IsPiece (f1.join f2) := by
  have := h1.offset_lt
  have := h2.offset_lt
  refine ⟨by simp only [EntryFragment.join]; omega, h2.end_le, h2.rem_eq, ?_, h1.position_eq⟩
  simp only [EntryFragment.join]
  rw [h1.buffer_eq, h2.buffer_eq, h, slice_append_slice _ (by omega) (by omega)]

/-- The piece of `s` from offset 0 with nothing remaining is its entry. -/
theorem IsPiece.rpbuf_eq_entry {f : EntryFragment β ρ} (hf : s.IsPiece f) (h0 : f.offset = 0)
    (hrem : f.rem = 0) : f.rpbuf = s.entry := by
  have hend : f.endPos = s.size := by
    have := hf.end_le
    have := hf.rem_eq
    omega
  obtain ⟨e, he, hoff, hrp⟩ := hf.position_eq
  have hhead : e = s.fragments.head s.fragments_ne_nil := s.tiles.eq_head s.fragments_ne_nil he (hoff.trans h0)
  have hbuf : f.rpbuf.buffer = s.entry.buffer := by
    rw [hf.buffer_eq, h0, hend, ← length_entry, slice_zero_length]
  show f.rpbuf = ⟨s.entry.buffer, (s.fragments.head s.fragments_ne_nil).rp⟩
  rw [← hbuf, ← hhead, hrp]

end FragmentStream

/-! ## Joining and sorting pieces -/

section Pieces

variable {s : FragmentStream β ρ}

/-- Pieces listed from the back: each ends at or before the start of the one listed before it. -/
abbrev Descending (l : List (EntryFragment β ρ)) : Prop := l.Pairwise fun g f => f.endPos ≤ g.offset

theorem covers_join {f1 f2 : EntryFragment β ρ} (h1 : f1.offset ≤ f1.endPos) (h2 : f2.offset ≤ f2.endPos)
    (h : f1.endPos = f2.offset) (rest : List (EntryFragment β ρ)) {x : Nat} :
    Covers EntryFragment.offset EntryFragment.endPos (f1.join f2 :: rest) x ↔
      Covers EntryFragment.offset EntryFragment.endPos (f2 :: f1 :: rest) x := by
  have hx : (f1.offset ≤ x ∧ x < f2.endPos) ↔ (f2.offset ≤ x ∧ x < f2.endPos) ∨ (f1.offset ≤ x ∧ x < f1.endPos) := by
    omega
  simp only [covers_cons, EntryFragment.join]
  rw [hx, or_assoc]

/-- The joining loop keeps pieces of `s`, their order and the bytes they cover. -/
theorem collapseBack_spec {l : List (EntryFragment β ρ)} (hp : ∀ f ∈ l, s.IsPiece f) (hd : Descending l) :
    (∀ f ∈ collapseBack l, s.IsPiece f) ∧ Descending (collapseBack l) ∧
      ∀ x, Covers EntryFragment.offset EntryFragment.endPos (collapseBack l) x ↔
        Covers EntryFragment.offset EntryFragment.endPos l x := by
  induction l using collapseBack.induct with
  | case1 =>
    rw [collapseBack]
    exact ⟨hp, hd, fun _ => Iff.rfl⟩
  | case2 f =>
    rw [collapseBack]
    exact ⟨hp, hd, fun _ => Iff.rfl⟩
  | case3 f2 f1 rest hne =>
    rw [collapseBack, if_pos hne]
    exact ⟨hp, hd, fun _ => Iff.rfl⟩
  | case4 f2 f1 rest heq ih =>
    -- The last two touch: they are joined, and the loop goes on with the joined piece at the back.
    rw [collapseBack, if_neg heq]
    have htouch : f1.endPos = f2.offset := not_not.1 heq
    have hp1 := hp f1 (by simp)
    have hp2 := hp f2 (by simp)
    unfold Descending at hd
    rw [List.pairwise_cons, List.pairwise_cons] at hd
    have hp' : ∀ f ∈ f1.join f2 :: rest, s.IsPiece f := by
      intro f hf
      rcases List.mem_cons.1 hf with rfl | hf
      · exact hp1.join hp2 htouch
      · exact hp f (by simp [hf])
    have hd' : Descending (f1.join f2 :: rest) := List.Pairwise.cons (fun r hr => hd.2.1 r hr) hd.2.2
    obtain ⟨h₁, h₂, h₃⟩ := ih hp' hd'
    exact ⟨h₁, h₂, fun x => (h₃ x).trans
      (covers_join hp1.offset_lt.le hp2.offset_lt.le htouch rest)⟩

/-- When each piece listed from the back ends where the one listed before it begins, the joining
loop leaves a single piece. -/
theorem collapseBack_singleton {l : List (EntryFragment β ρ)} (hne : l ≠ [])
    (hc : l.IsChain fun g f => f.endPos = g.offset) : ∃ f, collapseBack l = [f] := by
  induction l using collapseBack.induct with
  | case1 => exact absurd rfl hne
  | case2 f => exact ⟨f, by rw [collapseBack]⟩
  | case3 f2 f1 rest hne' =>
    exact absurd (List.isChain_cons_cons.1 hc).1 hne'
  | case4 f2 f1 rest heq ih =>
    rw [collapseBack, if_neg heq]
    refine ih (List.cons_ne_nil _ _) ?_
    -- The joined piece starts where `f1` did, so the chain goes on.
    have hc' := (List.isChain_cons_cons.1 hc).2
    cases rest with
    | nil => exact List.isChain_singleton _
    | cons r rest =>
      exact List.IsChain.cons_cons (List.isChain_cons_cons.1 hc').1 (List.isChain_cons_cons.1 hc').2

theorem collapse_spec {l : List (EntryFragment β ρ)} (hp : ∀ f ∈ l, s.IsPiece f)
    (ha : Ascending EntryFragment.offset EntryFragment.endPos l) :
    (∀ f ∈ collapse l, s.IsPiece f) ∧ Ascending EntryFragment.offset EntryFragment.endPos (collapse l) ∧
      ∀ x, Covers EntryFragment.offset EntryFragment.endPos (collapse l) x ↔
        Covers EntryFragment.offset EntryFragment.endPos l x := by
  have hd : Descending l.reverse := List.pairwise_reverse.2 ha
  obtain ⟨h₁, h₂, h₃⟩ := collapseBack_spec (fun f hf => hp f (List.mem_reverse.1 hf)) hd
  refine ⟨fun f hf => h₁ f (List.mem_reverse.1 hf), List.pairwise_reverse.2 h₂, fun x => ?_⟩
  rw [collapse, covers_perm (List.reverse_perm _), h₃, covers_perm (List.reverse_perm _)]

theorem collapse_singleton {l : List (EntryFragment β ρ)} {m n : Nat}
    (ht : Tiles EntryFragment.offset EntryFragment.endPos m n l) (hne : l ≠ []) : ∃ f, collapse l = [f] := by
  obtain ⟨f, hf⟩ := collapseBack_singleton (List.reverse_ne_nil_iff.2 hne)
    (List.isChain_reverse.2 ht.isChain)
  exact ⟨f, by rw [collapse, hf, List.reverse_singleton]⟩

/-- Sorting pieces that are pairwise apart by offset makes them ascending. -/
theorem sortByOffset_spec {l : List (EntryFragment β ρ)} (hne : ∀ f ∈ l, f.offset < f.endPos)
    (hd : l.Pairwise (Apart EntryFragment.offset EntryFragment.endPos)) :
    (sortByOffset l).Perm l ∧ Ascending EntryFragment.offset EntryFragment.endPos (sortByOffset l) := by
  have hperm := List.mergeSort_perm l fun a b => decide (a.offset ≤ b.offset)
  have hsorted : (sortByOffset l).Pairwise fun a b => decide (a.offset ≤ b.offset) = true :=
    List.pairwise_mergeSort (fun a b c hab hbc => by simp only [decide_eq_true_eq] at *; omega)
      (fun a b => by simp only [Bool.or_eq_true, decide_eq_true_eq]; omega) l
  refine ⟨hperm, ascending_of_sorted (hsorted.imp fun h => of_decide_eq_true h)
    ((hperm.pairwise_iff Apart.symm).2 hd) fun f hf => hne f (hperm.mem_iff.1 hf)⟩

end Pieces

/-! ## What read_entry keeps for a stream -/

private theorem subset_append_singleton_iff {α : Type} {l p : List α} {e : α} (hn : e ∉ l) :
    l ⊆ p ++ [e] ↔ l ⊆ p := by
  refine ⟨fun h x hx => (List.mem_append.1 (h hx)).resolve_right fun h' => ?_,
    fun h x hx => List.mem_append_left _ (h hx)⟩
  exact hn (List.mem_singleton.1 h' ▸ hx)

namespace FragmentStream

variable (s : FragmentStream β ρ)

/-- What read_entry keeps for `s` after the reads `p`: pieces of `s`, ascending, covering exactly the
fragments of `s` among the reads. -/
structure Stored (p : List (FragmentedEntry β ρ)) (l : List (EntryFragment β ρ)) : Prop where
  isPiece : ∀ f ∈ l, s.IsPiece f
  ascending : Ascending EntryFragment.offset EntryFragment.endPos l
  covers_iff : ∀ x, Covers EntryFragment.offset EntryFragment.endPos l x ↔
    ∃ e ∈ s.fragments, e ∈ p ∧ e.off ≤ x ∧ x < e.off + e.data.length

/-- read_entry's state for `s` after the reads `p`: erased once every fragment of `s` is read, and
the pieces read so far before that. -/
structure Reassembling (p : List (FragmentedEntry β ρ)) (st : ReplayState β ρ) : Prop where
  erased : s.fragments ⊆ p → st.fragmentState s.id = []
  stored : ¬ s.fragments ⊆ p → s.Stored p (st.fragmentState s.id)

variable {s}

theorem Stored.collapse {p : List (FragmentedEntry β ρ)} {l : List (EntryFragment β ρ)} (h : s.Stored p l) :
    s.Stored p (collapse l) := by
  obtain ⟨h₁, h₂, h₃⟩ := collapse_spec h.isPiece h.ascending
  exact ⟨h₁, h₂, fun x => (h₃ x).trans (h.covers_iff x)⟩

theorem Stored.append_of_not_mem {p : List (FragmentedEntry β ρ)} {l : List (EntryFragment β ρ)}
    {e : FragmentedEntry β ρ} (h : s.Stored p l) (hn : e ∉ s.fragments) : s.Stored (p ++ [e]) l := by
  refine ⟨h.isPiece, h.ascending, fun x => (h.covers_iff x).trans ?_⟩
  constructor
  · rintro ⟨e', he', hp', hx⟩
    exact ⟨e', he', List.mem_append_left _ hp', hx⟩
  · rintro ⟨e', he', hp', hx⟩
    refine ⟨e', he', (List.mem_append.1 hp').resolve_right fun h' => ?_, hx⟩
    exact hn (List.mem_singleton.1 h' ▸ he')

/-- A fragment of `s` not read before is apart from every piece kept for `s`. -/
theorem Stored.apart_toFragment {p : List (FragmentedEntry β ρ)} {l : List (EntryFragment β ρ)}
    {e : FragmentedEntry β ρ} (h : s.Stored p l) (he : e ∈ s.fragments) (hp : e ∉ p) :
    ∀ f ∈ l, Apart EntryFragment.offset EntryFragment.endPos f e.toFragment := by
  intro f hf
  refine apart_of_disjoint (h.isPiece f hf).offset_lt (s.isPiece_toFragment he).offset_lt
    fun x h₁ h₂ hx => ?_
  -- A byte of `e` under a piece lies in a fragment read before, which can only be `e`.
  obtain ⟨e', he', hp', hx'⟩ := (h.covers_iff x).1 ⟨f, hf, hx⟩
  have heq := s.eq_of_mem_of_mem he' he hx' ⟨h₁, h₂⟩
  exact hp (heq ▸ hp')

/-- Storing a fragment of `s` not read before and sorting keeps the pieces of `s`. -/
theorem Stored.insert {p : List (FragmentedEntry β ρ)} {l : List (EntryFragment β ρ)}
    {e : FragmentedEntry β ρ} (h : s.Stored p l) (he : e ∈ s.fragments) (hp : e ∉ p) :
    s.Stored (p ++ [e]) (sortByOffset (l ++ [e.toFragment])) := by
  have hpiece : ∀ f ∈ l ++ [e.toFragment], s.IsPiece f := by
    intro f hf
    rcases List.mem_append.1 hf with hf | hf
    · exact h.isPiece f hf
    · rw [List.mem_singleton.1 hf]
      exact s.isPiece_toFragment he
  have hapart : (l ++ [e.toFragment]).Pairwise (Apart EntryFragment.offset EntryFragment.endPos) :=
    List.pairwise_append.2 ⟨h.ascending.pairwise_apart, List.pairwise_singleton _ _,
      fun f hf g hg => List.mem_singleton.1 hg ▸ h.apart_toFragment he hp f hf⟩
  obtain ⟨hperm, hasc⟩ := sortByOffset_spec (fun f hf => (hpiece f hf).offset_lt) hapart
  refine ⟨fun f hf => hpiece f (hperm.mem_iff.1 hf), hasc, fun x => ?_⟩
  rw [covers_perm hperm, covers_append, h.covers_iff, covers_singleton]
  constructor
  · rintro (⟨e', he', hp', hx⟩ | hx)
    · exact ⟨e', he', List.mem_append_left _ hp', hx⟩
    · exact ⟨e, he, List.mem_append_right _ (List.mem_singleton_self e), hx⟩
  · rintro ⟨e', he', hp', hx⟩
    rcases List.mem_append.1 hp' with hp' | hp'
    · exact Or.inl ⟨e', he', hp', hx⟩
    · rw [List.mem_singleton.1 hp'] at hx
      exact Or.inr hx

/-- Once every fragment of `s` has been read, the kept pieces join into its entry. -/
theorem Stored.completeEntry_collapse {p : List (FragmentedEntry β ρ)} {l : List (EntryFragment β ρ)}
    (h : s.Stored p l) (hc : s.fragments ⊆ p) : completeEntry (Commitlog.collapse l) = some s.entry := by
  have hcov : ∀ x, Covers EntryFragment.offset EntryFragment.endPos l x ↔ 0 ≤ x ∧ x < s.size := by
    intro x
    rw [h.covers_iff]
    constructor
    · rintro ⟨e, he, -, hx⟩
      exact ⟨Nat.zero_le x, covers_fragments_iff.1 ⟨e, he, hx⟩⟩
    · rintro ⟨-, hx⟩
      obtain ⟨e, he, hx⟩ := covers_fragments_iff.2 hx
      exact ⟨e, he, hc he, hx⟩
  -- The pieces tile the entry, so the joining loop leaves one piece.
  have ht := tiles_of_covers h.ascending (fun f hf => (h.isPiece f hf).offset_lt) s.size_pos hcov
  have hne : l ≠ [] := by
    rintro rfl
    exact absurd ht (Nat.ne_of_lt s.size_pos)
  obtain ⟨f, hf⟩ := collapse_singleton ht hne
  have hs := h.collapse
  rw [hf] at hs
  have hpf := hs.isPiece f (List.mem_singleton_self f)
  have hcov' : ∀ x, f.offset ≤ x ∧ x < f.endPos ↔ 0 ≤ x ∧ x < s.size := fun x =>
    covers_singleton.symm.trans ((hs.covers_iff x).trans ((h.covers_iff x).symm.trans (hcov x)))
  have h0 : f.offset = 0 := by
    have := (hcov' 0).2 ⟨Nat.le_refl 0, s.size_pos⟩
    omega
  have hrem : f.rem = 0 := by
    have := (hcov' (s.size - 1)).2 ⟨Nat.zero_le _, by have := s.size_pos; omega⟩
    have := hpf.end_le
    rw [hpf.rem_eq]
    omega
  rw [hf, completeEntry, if_pos ⟨hrem, h0⟩, hpf.rpbuf_eq_entry h0 hrem]

/-- Before every fragment of `s` has been read, no kept piece is its entry. -/
theorem Stored.completeEntry_eq_none {p : List (FragmentedEntry β ρ)} {l : List (EntryFragment β ρ)}
    (h : s.Stored p l) (hc : ¬ s.fragments ⊆ p) : completeEntry l = none := by
  unfold completeEntry
  split
  · next f =>
    rw [if_neg]
    rintro ⟨hrem, h0⟩
    -- A piece from offset 0 with nothing remaining covers every fragment, so all were read.
    have hpf := h.isPiece f (List.mem_singleton_self f)
    have hend : f.endPos = s.size := by
      have := hpf.end_le
      have := hpf.rem_eq
      omega
    refine hc fun e he => ?_
    obtain ⟨_, hlt, hle⟩ := s.tiles.bounds.2 e he
    obtain ⟨e', he', hp', hx'⟩ := (h.covers_iff e.off).1 (covers_singleton.2 ⟨by omega, by omega⟩)
    have heq := s.eq_of_mem_of_mem he' he hx' ⟨Nat.le_refl _, hlt⟩
    exact heq ▸ hp'
  · rfl

theorem reassembling_empty : s.Reassembling [] ∅ := by
  refine ⟨fun h => absurd (h (List.head_mem s.fragments_ne_nil)) List.not_mem_nil, fun _ => ?_⟩
  refine ⟨fun f hf => absurd hf List.not_mem_nil, List.Pairwise.nil, fun x => ?_⟩
  simp only [List.not_mem_nil, false_and, and_false, exists_false, iff_false]
  exact not_covers_nil x

/-! ## One read -/

theorem fragmentState_readFragment_of_ne (st : ReplayState β ρ) (e : FragmentedEntry β ρ) {i : UInt32}
    (h : i ≠ e.id) : (readFragment st e).1.fragmentState i = st.fragmentState i := by
  unfold readFragment
  dsimp only
  split <;> exact Function.update_of_ne h _ _

/-- A read of another stream's fragment leaves what is kept for `s` as it was. -/
theorem readFragment_other {p : List (FragmentedEntry β ρ)} {st : ReplayState β ρ}
    {e : FragmentedEntry β ρ} (h : s.Reassembling p st) (hid : e.id ≠ s.id) :
    s.Reassembling (p ++ [e]) (readFragment st e).1 := by
  have hn : e ∉ s.fragments := fun he => hid (s.id_eq e he)
  have hsub := subset_append_singleton_iff (p := p) hn
  have hst := fragmentState_readFragment_of_ne st e (Ne.symm hid)
  refine ⟨fun hc => ?_, fun hc => ?_⟩
  · rw [hst]
    exact h.erased (hsub.1 hc)
  · rw [hst]
    exact (h.stored (mt hsub.2 hc)).append_of_not_mem hn

variable [DecidableEq β] [DecidableEq ρ]

/-- A read of a fragment of `s` not read before hands `s`'s entry to the consumer exactly when it
completes `s`, and erases the state of `s` then. -/
theorem readFragment_own {p : List (FragmentedEntry β ρ)} {st : ReplayState β ρ}
    {e : FragmentedEntry β ρ} (h : s.Reassembling p st) (he : e ∈ s.fragments) (hp : e ∉ p) :
    s.Reassembling (p ++ [e]) (readFragment st e).1 ∧
      (readFragment st e).2 = if s.fragments ⊆ p ++ [e] then some s.entry else none := by
  have hsorted := (h.stored fun hsub => hp (hsub he)).insert he hp
  unfold readFragment
  dsimp only
  rw [s.id_eq e he]
  by_cases hc : s.fragments ⊆ p ++ [e]
  · rw [hsorted.completeEntry_collapse hc, if_pos hc]
    exact ⟨⟨fun _ => Function.update_self .., fun h' => absurd hc h'⟩, rfl⟩
  · rw [hsorted.collapse.completeEntry_eq_none hc, if_neg hc]
    refine ⟨⟨fun h' => absurd h' hc, fun _ => ?_⟩, rfl⟩
    show s.Stored (p ++ [e]) (Function.update st.fragmentState s.id _ s.id)
    rw [Function.update_self]
    exact hsorted.collapse

end FragmentStream

/-! ## Whole replays -/

/-- In a duplicate-free list, an element at position `k` lies in a prefix only if the prefix reaches
past `k`. -/
private theorem lt_of_mem_take {α : Type} {reads : List α} (hnd : reads.Nodup) {k n : Nat} {e : α}
    (hk : reads[k]? = some e) (he : e ∈ reads.take n) : k < n := by
  obtain ⟨j, hj, hje⟩ := List.mem_take_iff_getElem.1 he
  have hjk : j = k := by
    have hj' : j < reads.length := by omega
    refine (List.getElem?_inj hj' hnd).1 ?_
    rw [hk, List.getElem?_eq_getElem hj', hje]
  omega

/-- In a duplicate-free list holding every element of a non-empty `l`, exactly one position holds an
element of `l` and ends a prefix holding all of `l`. -/
private theorem existsUnique_completing {α : Type} [DecidableEq α] {l reads : List α} (hnd : reads.Nodup)
    (hne : l ≠ []) (hsub : l ⊆ reads) : ∃! k, ∃ e ∈ l, reads[k]? = some e ∧ l ⊆ reads.take (k + 1) := by
  have hex : ∃ n, l ⊆ reads.take n := ⟨reads.length, by rw [List.take_length]; exact hsub⟩
  -- The shortest prefix holding all of `l` ends at the completing position.
  have hn0 : Nat.find hex ≠ 0 := by
    intro h0
    have hs := Nat.find_spec hex
    rw [h0, List.take_zero] at hs
    exact hne (List.eq_nil_of_subset_nil hs)
  have hnlen : Nat.find hex ≤ reads.length :=
    Nat.find_min' hex (by rw [List.take_length]; exact hsub)
  obtain ⟨k, hk⟩ : ∃ k, Nat.find hex = k + 1 := ⟨Nat.find hex - 1, by omega⟩
  have hklen : k < reads.length := by omega
  have hmem : reads[k] ∈ l := by
    by_contra hnot
    refine Nat.find_min hex (show k < Nat.find hex by omega) fun x hx => ?_
    have hx' := Nat.find_spec hex hx
    rw [hk, List.take_add_one, List.getElem?_eq_getElem hklen] at hx'
    rcases List.mem_append.1 hx' with h | h
    · exact h
    · exact absurd (List.mem_singleton.1 h ▸ hx) hnot
  refine ⟨k, ⟨reads[k], hmem, List.getElem?_eq_getElem hklen, hk ▸ Nat.find_spec hex⟩, ?_⟩
  -- Two completing positions each lie in the prefix the other ends.
  rintro k' ⟨e', he', hk', hc'⟩
  have h₁ := lt_of_mem_take hnd hk' (hk ▸ Nat.find_spec hex he')
  have h₂ := lt_of_mem_take hnd (List.getElem?_eq_getElem hklen) (hc' hmem)
  omega

section Run

variable [DecidableEq β] [DecidableEq ρ] {ss : List (FragmentStream β ρ)}

/-- A replay from a state where each stream's invariant holds for the reads `p`, over further reads
of fragments of the streams: every stream's invariant holds after it, and each read of a fragment of
a stream hands that stream's entry to the consumer exactly when it completes the stream. -/
theorem replay_spec (hid : (ss.map (·.id)).Nodup) (q : List (FragmentedEntry β ρ)) :
    ∀ (p : List (FragmentedEntry β ρ)) (st : ReplayState β ρ), (p ++ q).Nodup →
      (∀ e ∈ q, ∃ s ∈ ss, e ∈ s.fragments) → (∀ s ∈ ss, s.Reassembling p st) →
      (∀ s ∈ ss, s.Reassembling (p ++ q) (replay st q).1) ∧
      ∀ s ∈ ss, ∀ (k : Nat) e, q[k]? = some e → e ∈ s.fragments →
        (replay st q).2[k]? = some (if s.fragments ⊆ p ++ q.take (k + 1) then some s.entry else none) := by
  induction q with
  | nil =>
    intro p st _ _ h
    exact ⟨by simpa [replay] using h, fun _ _ k e hk => by simp at hk⟩
  | cons e q ih =>
    intro p st hnd hin h
    obtain ⟨s₀, hs₀, he₀⟩ := hin e List.mem_cons_self
    have hp : e ∉ p := fun hp => (List.nodup_append.1 hnd).2.2 e hp e List.mem_cons_self rfl
    -- Only the stream holding `e` has the id of `e`.
    have hown : ∀ s ∈ ss, e.id = s.id → s = s₀ := fun s hs hid' =>
      List.inj_on_of_nodup_map hid hs hs₀ (hid'.symm.trans (s₀.id_eq e he₀))
    have hstep : ∀ s ∈ ss, s.Reassembling (p ++ [e]) (readFragment st e).1 := by
      intro s hs
      by_cases hid' : e.id = s.id
      · obtain rfl := hown s hs hid'
        exact (FragmentStream.readFragment_own (h s hs) he₀ hp).1
      · exact FragmentStream.readFragment_other (h s hs) hid'
    obtain ⟨ih₁, ih₂⟩ := ih (p ++ [e]) (readFragment st e).1 (by simpa using hnd)
      (fun e' he' => hin e' (List.mem_cons_of_mem _ he')) hstep
    refine ⟨fun s hs => by simpa [replay] using ih₁ s hs, fun s hs k e' hk he' => ?_⟩
    cases k with
    | zero =>
      have hee : e = e' := by simpa using hk
      subst hee
      obtain rfl := hown s hs (s.id_eq e he')
      show some (readFragment st e).2 = _
      rw [(FragmentStream.readFragment_own (h s hs) he' hp).2]
      simp
    | succ k =>
      have hprefix : p ++ [e] ++ q.take (k + 1) = p ++ (e :: q).take (k + 1 + 1) := by simp
      show (replay (readFragment st e).1 q).2[k]? = _
      rw [ih₂ s hs k e' (by simpa using hk) he', hprefix]

/-- Replaying fragments of streams with distinct ids, in any order, each read at most once: a read
of a stream's fragment hands the consumer the stream's entry if it completes the stream and nothing
otherwise; a stream whose fragments are all read is handed over exactly once; and a stream's state
is erased once all its fragments are read. -/
theorem replay_reassembles (ss : List (FragmentStream β ρ)) (hid : (ss.map (·.id)).Nodup)
    (reads : List (FragmentedEntry β ρ)) (hnd : reads.Nodup)
    (hin : ∀ e ∈ reads, ∃ s ∈ ss, e ∈ s.fragments) :
    (∀ s ∈ ss, ∀ (k : Nat) e, reads[k]? = some e → e ∈ s.fragments →
      (replay ∅ reads).2[k]? = some (if s.fragments ⊆ reads.take (k + 1) then some s.entry else none)) ∧
    (∀ s ∈ ss, s.fragments ⊆ reads →
      ∃! k : Nat, ∃ e ∈ s.fragments, reads[k]? = some e ∧ (replay ∅ reads).2[k]? = some (some s.entry)) ∧
    (∀ s ∈ ss, ∀ n, s.fragments ⊆ reads.take n → (replay ∅ (reads.take n)).1.fragmentState s.id = []) := by
  have hinit : ∀ s ∈ ss, s.Reassembling [] ∅ := fun s _ => FragmentStream.reassembling_empty
  have hout := (replay_spec hid reads [] ∅ (by simpa using hnd) hin hinit).2
  simp only [List.nil_append] at hout
  refine ⟨hout, fun s hs hsub => ?_, fun s hs n hc => ?_⟩
  · -- The completing position is the one read handing the entry over.
    obtain ⟨k, ⟨e, he, hk, hc⟩, huniq⟩ := existsUnique_completing hnd s.fragments_ne_nil hsub
    refine ⟨k, ⟨e, he, hk, by rw [hout s hs k e hk he, if_pos hc]⟩, ?_⟩
    rintro k' ⟨e', he', hk', hout'⟩
    refine huniq k' ⟨e', he', hk', ?_⟩
    by_contra hc'
    rw [hout s hs k' e' hk' he', if_neg hc'] at hout'
    exact absurd hout' (by simp)
  · have hrun := (replay_spec hid (reads.take n) [] ∅ (by simpa using hnd.sublist (List.take_sublist n reads))
      (fun e he => hin e (List.mem_of_mem_take he)) hinit).1 s hs
    exact hrun.erased (by simpa using hc)

/-- An entry of five bytes written as two fragments. -/
def fiveBytes : FragmentStream Nat Nat where
  id := 1
  size := 5
  fragments := [⟨1, 0, 3, [10, 11], 100⟩, ⟨1, 2, 0, [12, 13, 14], 101⟩]
  size_pos := by decide
  tiles := by decide
  id_eq := by decide
  rem_eq := by decide

/-- An entry of two bytes written as one fragment. -/
def twoBytes : FragmentStream Nat Nat where
  id := 2
  size := 2
  fragments := [⟨2, 0, 0, [20, 21], 200⟩]
  size_pos := by decide
  tiles := by decide
  id_eq := by decide
  rem_eq := by decide

/-- The second fragment of `fiveBytes` read first, then `twoBytes`, then the first fragment of
`fiveBytes`: one read hands `fiveBytes` over. -/
theorem replay_reassembles_interleaved :
    ([fiveBytes, twoBytes].map (·.id)).Nodup ∧
      ([⟨1, 2, 0, [12, 13, 14], 101⟩, ⟨2, 0, 0, [20, 21], 200⟩, ⟨1, 0, 3, [10, 11], 100⟩] :
        List (FragmentedEntry Nat Nat)).Nodup ∧
      (∀ e ∈ ([⟨1, 2, 0, [12, 13, 14], 101⟩, ⟨2, 0, 0, [20, 21], 200⟩, ⟨1, 0, 3, [10, 11], 100⟩] :
        List (FragmentedEntry Nat Nat)), ∃ s ∈ [fiveBytes, twoBytes], e ∈ s.fragments) ∧
      ∃! k : Nat, ∃ e ∈ fiveBytes.fragments,
        ([⟨1, 2, 0, [12, 13, 14], 101⟩, ⟨2, 0, 0, [20, 21], 200⟩, ⟨1, 0, 3, [10, 11], 100⟩] :
          List (FragmentedEntry Nat Nat))[k]? = some e ∧
        (replay ∅ [⟨1, 2, 0, [12, 13, 14], 101⟩, ⟨2, 0, 0, [20, 21], 200⟩, ⟨1, 0, 3, [10, 11], 100⟩]).2[k]? =
          some (some fiveBytes.entry) :=
  ⟨by decide, by decide, by decide,
    (replay_reassembles [fiveBytes, twoBytes] (by decide) _ (by decide) (by decide)).2.1 fiveBytes
      List.mem_cons_self (by decide)⟩

end Run

end Scylla.Commitlog
