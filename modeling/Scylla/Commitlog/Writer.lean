import Scylla.Commitlog.Replay

/-!
# Writing an oversized entry as fragments

segment_manager writes an entry larger than max_mutation_size as a stream of fragments: each lap of
its loop takes the room left in the current segment and writes as much of the rest of the entry as
fits, with the entry's offset and the count of bytes still to write in the fragment's header.

* `writeFragments_tiles`: when every lap finds room and the laps reach the end of the entry, the
  fragments tile the entry, and their payloads are the entry's bytes.
* `FragmentStream.ofWrite`, `entry_ofWrite`: such a write is a `FragmentStream`, whose reassembled
  entry is the entry written, at the replay position of the first lap.
-/

namespace Scylla.Commitlog

open Intervals

variable {β ρ : Type}

/-- The fragment loop of the oversized-entry writer from offset `off`, over the laps that wrote a
fragment: the room `avail` each found and the replay position it wrote at. -/
def writeFragments (id : UInt32) (data : List β) : Nat → List (Nat × ρ) → List (FragmentedEntry β ρ)
  | _, [] => []
  | off, (avail, rp) :: laps =>
    if off < data.length then
      let maxWrite := data.length - off
      let toWrite := min avail maxWrite
      let rem := maxWrite - toWrite
      ⟨id, off, rem, (data.drop off).take toWrite, rp⟩ :: writeFragments id data (off + toWrite) laps
    else []

section Write

variable {id : UInt32} {data : List β}

theorem writeFragments_of_lt {off avail : Nat} {rp : ρ} {laps : List (Nat × ρ)} (h : off < data.length) :
    writeFragments id data off ((avail, rp) :: laps) =
      ⟨id, off, data.length - off - min avail (data.length - off),
        (data.drop off).take (min avail (data.length - off)), rp⟩ ::
        writeFragments id data (off + min avail (data.length - off)) laps := by
  rw [writeFragments, if_pos h]

theorem writeFragments_of_ge {off : Nat} {laps : List (Nat × ρ)} (h : data.length ≤ off) :
    writeFragments id data off laps = [] := by
  cases laps with
  | nil => rfl
  | cons l laps => rw [writeFragments, if_neg (Nat.not_lt.2 h)]

/-- From offset `off`, laps that each find room and together reach the end of the entry write
fragments tiling the rest of it, carrying its bytes in order, the id and the count left after each. -/
theorem writeFragments_tiles (laps : List (Nat × ρ)) (hpos : ∀ l ∈ laps, 0 < l.1) :
    ∀ off, off ≤ data.length → data.length ≤ off + (laps.map Prod.fst).sum →
      Tiles FragmentedEntry.off (fun e => e.off + e.data.length) off data.length
          (writeFragments id data off laps) ∧
        ((writeFragments id data off laps).map (·.data)).flatten = data.drop off ∧
        ∀ e ∈ writeFragments id data off laps,
          e.id = id ∧ e.rem = data.length - (e.off + e.data.length) := by
  induction laps with
  | nil =>
    intro off h₁ h₂
    simp only [List.map_nil, List.sum_nil, Nat.add_zero] at h₂
    have hoff : off = data.length := Nat.le_antisymm h₁ h₂
    subst hoff
    simp [writeFragments, Tiles]
  | cons l laps ih =>
    obtain ⟨avail, rp⟩ := l
    intro off h₁ h₂
    by_cases hlt : off < data.length
    · -- A lap writes `toWrite` bytes, at least one, and the rest of the laps go on after them.
      rw [writeFragments_of_lt hlt]
      have ha : 0 < avail := hpos (avail, rp) List.mem_cons_self
      simp only [List.map_cons, List.sum_cons] at h₂
      obtain ⟨ht, hdata, hfrag⟩ := ih (fun l hl => hpos l (List.mem_cons_of_mem _ hl))
        (off + min avail (data.length - off)) (by omega) (by omega)
      have hlen : ((data.drop off).take (min avail (data.length - off))).length =
          min avail (data.length - off) := by
        simp only [List.length_take, List.length_drop]
        omega
      refine ⟨⟨rfl, by simp only [hlen]; omega, by simpa only [hlen] using ht⟩, ?_, ?_⟩
      · rw [List.map_cons, List.flatten_cons, hdata]
        show (data.drop off).take _ ++ _ = _
        rw [← List.drop_drop, List.take_append_drop]
      · intro e he
        rcases List.mem_cons.1 he with rfl | he
        · refine ⟨rfl, ?_⟩
          simp only [hlen]
          omega
        · exact hfrag e he
    · rw [writeFragments_of_ge (Nat.not_lt.1 hlt)]
      have hoff : off = data.length := by omega
      subst hoff
      simp [Tiles]

end Write

/-- The stream the writer emits for a non-empty entry when every lap finds room and the laps reach
the end of the entry. -/
def FragmentStream.ofWrite (id : UInt32) (data : List β) (laps : List (Nat × ρ)) (hne : data ≠ [])
    (hpos : ∀ l ∈ laps, 0 < l.1) (hlaps : data.length ≤ (laps.map Prod.fst).sum) : FragmentStream β ρ where
  id := id
  size := data.length
  fragments := writeFragments id data 0 laps
  size_pos := List.length_pos_iff.2 hne
  tiles := (writeFragments_tiles laps hpos 0 (Nat.zero_le _) (by omega)).1
  id_eq e he := ((writeFragments_tiles laps hpos 0 (Nat.zero_le _) (by omega)).2.2 e he).1
  rem_eq e he := ((writeFragments_tiles laps hpos 0 (Nat.zero_le _) (by omega)).2.2 e he).2

/-- Reassembling what the writer wrote gives back the entry, at the replay position of the first
lap. -/
theorem entry_ofWrite (id : UInt32) (data : List β) (avail : Nat) (rp : ρ) (laps : List (Nat × ρ))
    (hne : data ≠ []) (hpos : ∀ l ∈ (avail, rp) :: laps, 0 < l.1)
    (hlaps : data.length ≤ (((avail, rp) :: laps).map Prod.fst).sum) :
    (FragmentStream.ofWrite id data ((avail, rp) :: laps) hne hpos hlaps).entry = ⟨data, rp⟩ := by
  have hdata := (@writeFragments_tiles β ρ id data ((avail, rp) :: laps) hpos 0 (Nat.zero_le _)
    (by omega)).2.1
  rw [List.drop_zero] at hdata
  -- The first lap writes the fragment at offset 0.
  have hhead : ∀ h : writeFragments id data 0 ((avail, rp) :: laps) ≠ [],
      ((writeFragments id data 0 ((avail, rp) :: laps)).head h).rp = rp := by
    rw [writeFragments_of_lt (List.length_pos_iff.2 hne)]
    intro h
    rfl
  dsimp only [FragmentStream.entry, FragmentStream.ofWrite]
  rw [hdata, hhead]

end Scylla.Commitlog
