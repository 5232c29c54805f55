import Mathlib

/-!
# Escaping zeros in byte-comparable encodings

`types/comparable_bytes.cc`: a variable-length value is made byte comparable by escaping its zero bytes, so that
a separator byte below `0xFE` can follow it.  `escape_zeros` writes `ESCAPE` (0x00) for the first zero of a run,
`ESCAPED_0_CONT` (0xFE) for every further zero and `ESCAPED_0_DONE` (0xFF) before the next non-zero byte, and
ends with `ESCAPE`, or `ESCAPED_0_CONT` after a trailing zero.  `unescape_zeros` undoes it and stops at the first
byte of the escaped state that is neither 0xFE nor 0xFF.

Both read a `managed_bytes_view`, a list of non-empty fragments, in chunks of at most 1024 bytes of the current
fragment, carry the escaped state from chunk to chunk, and stage each chunk's output in a fixed buffer.

* `escapeZeros_eq`: for every fragmentation, `escape_zeros` writes `escape v` for the bytes `v` of the view:
  the per-byte transducer `escapeRun` and the final byte.
* `length_escapeChunkLoop_le`: a chunk of at most 1024 bytes never fills more than the 1536 bytes of the buffer.
* `unescapeZeros_escape`: `unescape_zeros` on `escape v`, a separator below 0xFE and anything after it, in any
  fragmentation, writes `v` and leaves the view at the separator.
* `length_unescapeChunkLoop_le`: a chunk never decodes to more than the 1024 bytes of the buffer of
  `unescape_zeros`.

The transducers `escapeRun` and `unescapeRun` say what the two functions are for, byte by byte; the loops are
related to them by one lemma each for a chunk (`escapeChunkLoop_eq`, `unescapeChunkLoop_eq`) and for the view
(`escapeZerosLoop_eq`, `unescapeZerosLoop_eq`).
-/

namespace Scylla

/-! ### Views -/

/-- A `managed_bytes_view`: the fragments it has left, none of them empty. -/
structure ManagedBytesView where
  fragments : List (List UInt8)
  nonempty : ∀ f ∈ fragments, f ≠ []

namespace ManagedBytesView

/-- The bytes of the view. -/
def bytes (v : ManagedBytesView) : List UInt8 := v.fragments.flatten

def empty (v : ManagedBytesView) : Bool := v.fragments.isEmpty

def currentFragment (v : ManagedBytesView) : List UInt8 := v.fragments.headD []

/-- The loop of `remove_prefix`: whole fragments go while `n` covers them, then a prefix of the current one. -/
def removePrefixAux : List (List UInt8) → Nat → List (List UInt8)
  | [], _ => []
  | f :: fs, n => if f.length ≤ n ∧ 0 < n then removePrefixAux fs (n - f.length) else f.drop n :: fs

theorem removePrefixAux_nonempty :
    ∀ (fs : List (List UInt8)) (n : Nat), (∀ f ∈ fs, f ≠ []) → ∀ f ∈ removePrefixAux fs n, f ≠ []
  | [], _, _ => by simp [removePrefixAux]
  | f :: fs, n, h => by
    unfold removePrefixAux
    split
    · exact removePrefixAux_nonempty fs _ fun g hg => h g (List.mem_cons_of_mem f hg)
    · rename_i hn
      intro g hg
      rcases List.mem_cons.1 hg with rfl | hg
      · -- Less than the whole fragment goes, or none of it.
        have hf := h f List.mem_cons_self
        have : n < f.length ∨ n = 0 := by
          have := List.length_pos_iff.2 hf
          omega
        rcases this with hlt | rfl
        · simpa [List.drop_eq_nil_iff] using hlt
        · simpa using hf
      · exact h g (List.mem_cons_of_mem f hg)

/-- `remove_prefix`. -/
def removePrefix (v : ManagedBytesView) (n : Nat) : ManagedBytesView :=
  ⟨removePrefixAux v.fragments n, removePrefixAux_nonempty v.fragments n v.nonempty⟩

theorem empty_iff (v : ManagedBytesView) : v.empty = true ↔ v.bytes = [] := by
  constructor
  · intro h
    simp [bytes, List.isEmpty_iff.1 h]
  · intro h
    simp only [empty, List.isEmpty_iff]
    rw [bytes, List.flatten_eq_nil_iff] at h
    cases hf : v.fragments with
    | nil => rfl
    | cons f fs => exact absurd (h f (by simp [hf])) (v.nonempty f (by simp [hf]))

/-- The view's bytes are its current fragment and the fragments after it. -/
theorem bytes_eq (v : ManagedBytesView) : v.bytes = v.currentFragment ++ (v.fragments.tail).flatten := by
  cases hf : v.fragments with
  | nil => simp [bytes, currentFragment, hf]
  | cons f fs => simp [bytes, currentFragment, hf]

/-- Removing at most the current fragment drops as many bytes. -/
theorem bytes_removePrefix (v : ManagedBytesView) {n : Nat} (hn : n ≤ v.currentFragment.length) :
    (v.removePrefix n).bytes = v.bytes.drop n := by
  cases hf : v.fragments with
  | nil => simp [removePrefix, removePrefixAux, bytes, hf]
  | cons f fs =>
    simp only [currentFragment, hf, List.headD_cons] at hn
    simp only [removePrefix, bytes, hf, removePrefixAux]
    split
    · -- The whole fragment goes.
      rename_i h
      have hn' : n = f.length := by omega
      subst hn'
      rw [Nat.sub_self]
      cases fs with
      | nil => simp [removePrefixAux]
      | cons g gs =>
        have hg : g ≠ [] := v.nonempty g (by simp [hf])
        simp only [removePrefixAux, List.flatten_cons]
        rw [if_neg (by omega), List.drop_zero, List.drop_left, List.flatten_cons]
    · simp [List.drop_append_of_le_length hn]

theorem currentFragment_ne_nil (v : ManagedBytesView) (h : v.empty = false) : v.currentFragment ≠ [] := by
  cases hf : v.fragments with
  | nil => simp [empty, hf] at h
  | cons f fs => simpa [currentFragment, hf] using v.nonempty f (by simp [hf])

/-- A prefix of the current fragment, and the view without it. -/
theorem bytes_eq_take_append (v : ManagedBytesView) {n : Nat} (hn : n ≤ v.currentFragment.length) :
    v.bytes = v.currentFragment.take n ++ (v.removePrefix n).bytes := by
  rw [v.bytes_removePrefix hn, v.bytes_eq, List.drop_append_of_le_length hn, ← List.append_assoc,
    List.take_append_drop]

end ManagedBytesView

/-! ### The code -/

def ESCAPE : UInt8 := 0x00

def ESCAPED_0_CONT : UInt8 := 0xFE

def ESCAPED_0_DONE : UInt8 := 0xFF

def maxChunkSize : Nat := 1024

/-- `buffer_size` of `escape_zeros`: half as much again as a chunk. -/
def bufferSize : Nat := maxChunkSize / 2 * 3

/-- `std::min(chunk.find...(…, pos), chunk_size)`: the first index from `pos` on whose byte satisfies `p`, or
the chunk's size. -/
def findFrom (p : UInt8 → Bool) (chunk : List UInt8) (pos : Nat) : Nat := pos + (chunk.drop pos).findIdx p

/-- The inner loop of `escape_zeros` over a chunk with a zero, with `fuel` iterations left: the escaped state
and the bytes written to `buffer`. -/
def escapeChunkLoop (currChunk : List UInt8) : Nat → Nat → Bool → List UInt8 → Bool × List UInt8
  | 0, _, escaped, buffer => (escaped, buffer)
  | fuel + 1, currChunkPos, escaped, buffer =>
    if currChunkPos = currChunk.length then (escaped, buffer)
    else if escaped then
      -- One `ESCAPED_0_CONT` for each zero in the input.
      let nextNonZeroByte := findFrom (· != ESCAPE) currChunk currChunkPos
      let currSeqLength := nextNonZeroByte - currChunkPos
      let (buffer, currChunkPos) :=
        if 0 < currSeqLength then (buffer ++ List.replicate currSeqLength ESCAPED_0_CONT, nextNonZeroByte)
        else (buffer, currChunkPos)
      if currChunkPos ≠ currChunk.length then
        -- The run ends before the end of the chunk.
        escapeChunkLoop currChunk fuel currChunkPos false (buffer ++ [ESCAPED_0_DONE])
      else escapeChunkLoop currChunk fuel currChunkPos escaped buffer
    else if currChunk[currChunkPos]? = some ESCAPE then
      escapeChunkLoop currChunk fuel (currChunkPos + 1) true (buffer ++ [ESCAPE])
    else
      -- The run of non-zero bytes, as it is.
      let nextZeroByte := findFrom (· == ESCAPE) currChunk currChunkPos
      escapeChunkLoop currChunk fuel nextZeroByte escaped
        (buffer ++ (currChunk.drop currChunkPos).take (nextZeroByte - currChunkPos))

/-- The outer loop of `escape_zeros` with `fuel` chunks left: the output and the escaped state. -/
def escapeZerosLoop : Nat → ManagedBytesView → Bool → List UInt8 → List UInt8 × Bool
  | 0, _, escaped, out => (out, escaped)
  | fuel + 1, v, escaped, out =>
    if v.empty then (out, escaped)
    else
      let currChunkSize := min maxChunkSize v.currentFragment.length
      let currChunk := v.currentFragment.take currChunkSize
      let v := v.removePrefix currChunkSize
      if !currChunk.contains ESCAPE then
        -- No zero in the chunk: end a run of the previous chunk, then the chunk as it is.
        let (out, escaped) := if escaped then (out ++ [ESCAPED_0_DONE], false) else (out, escaped)
        escapeZerosLoop fuel v escaped (out ++ currChunk)
      else
        let (escaped, buffer) := escapeChunkLoop currChunk (2 * currChunkSize + 1) 0 escaped []
        escapeZerosLoop fuel v escaped (out ++ buffer)

/-- `escape_zeros`, appending to `out`; the view is consumed.  Every chunk takes at least one byte, so the view's
size bounds the chunks. -/
def escapeZeros (v : ManagedBytesView) (out : List UInt8) : List UInt8 :=
  let (out, escaped) := escapeZerosLoop (v.bytes.length + 1) v false out
  out ++ [if escaped then ESCAPED_0_CONT else ESCAPE]

/-- The inner loop of `unescape_zeros` over a chunk, with `fuel` iterations left: the bytes written to `buffer`,
and the escaped state at the end of the chunk or the position of the byte it stops at. -/
def unescapeChunkLoop (currChunk : List UInt8) : Nat → Nat → Bool → List UInt8 → List UInt8 × (Bool ⊕ Nat)
  | 0, _, escaped, buffer => (buffer, .inl escaped)
  | fuel + 1, currChunkPos, escaped, buffer =>
    if currChunkPos = currChunk.length then (buffer, .inl escaped)
    else if escaped then
      let b := currChunk.getD currChunkPos 0
      if b = ESCAPED_0_CONT then
        -- As many zeros as there are `ESCAPED_0_CONT`s.
        let endOfEscapeCont := findFrom (· != ESCAPED_0_CONT) currChunk currChunkPos
        let currSeqLength := endOfEscapeCont - currChunkPos
        if 0 < currSeqLength then
          unescapeChunkLoop currChunk fuel endOfEscapeCont escaped (buffer ++ List.replicate currSeqLength ESCAPE)
        else unescapeChunkLoop currChunk fuel currChunkPos escaped buffer
      else if b = ESCAPED_0_DONE then
        unescapeChunkLoop currChunk fuel (currChunkPos + 1) false (buffer ++ [ESCAPE])
      else
        -- A separator or a terminator: the component ends here.
        (buffer, .inr currChunkPos)
    else if currChunk[currChunkPos]? = some ESCAPE then
      unescapeChunkLoop currChunk fuel (currChunkPos + 1) true buffer
    else
      let nextZeroByte := findFrom (· == ESCAPE) currChunk currChunkPos
      unescapeChunkLoop currChunk fuel nextZeroByte escaped
        (buffer ++ (currChunk.drop currChunkPos).take (nextZeroByte - currChunkPos))

/-- The outer loop of `unescape_zeros` with `fuel` chunks left: the output and the view left. -/
def unescapeZerosLoop : Nat → ManagedBytesView → Bool → List UInt8 → List UInt8 × ManagedBytesView
  | 0, v, _, out => (out, v)
  | fuel + 1, v, escaped, out =>
    if v.empty then (out, v)
    else
      let currChunkSize := min maxChunkSize v.currentFragment.length
      let currChunk := v.currentFragment.take currChunkSize
      match unescapeChunkLoop currChunk (2 * currChunkSize + 1) 0 escaped [] with
      | (buffer, .inr currChunkPos) => (out ++ buffer, v.removePrefix currChunkPos)
      | (buffer, .inl escaped) => unescapeZerosLoop fuel (v.removePrefix currChunkSize) escaped (out ++ buffer)

/-- `unescape_zeros`, appending to `out`: the output and the view left. -/
def unescapeZeros (v : ManagedBytesView) (out : List UInt8) : List UInt8 × ManagedBytesView :=
  unescapeZerosLoop (v.bytes.length + 1) v false out

/-! ### The transducers -/

/-- What escaping writes for `l` from the escaped state `escaped` (the byte before was a zero), without the
final byte. -/
def escapeRun : Bool → List UInt8 → List UInt8
  | _, [] => []
  | escaped, b :: bs =>
    if b = ESCAPE then (if escaped then ESCAPED_0_CONT else ESCAPE) :: escapeRun true bs
    else if escaped then ESCAPED_0_DONE :: b :: escapeRun false bs
    else b :: escapeRun false bs

/-- The escaped state after `l`. -/
def endsEscaped : Bool → List UInt8 → Bool
  | escaped, [] => escaped
  | _, b :: bs => endsEscaped (decide (b = ESCAPE)) bs

/-- The escaping of `v`: the run of the transducer and the final byte. -/
def escape (v : List UInt8) : List UInt8 :=
  escapeRun false v ++ [if endsEscaped false v then ESCAPED_0_CONT else ESCAPE]

theorem escapeRun_append (escaped : Bool) (l₁ l₂ : List UInt8) :
    escapeRun escaped (l₁ ++ l₂) = escapeRun escaped l₁ ++ escapeRun (endsEscaped escaped l₁) l₂ := by
  induction l₁ generalizing escaped with
  | nil => rfl
  | cons b bs ih =>
    by_cases hb : b = ESCAPE
    · simp [escapeRun, endsEscaped, hb, ih]
    · cases escaped <;> simp [escapeRun, endsEscaped, hb, ih]

theorem endsEscaped_append (escaped : Bool) (l₁ l₂ : List UInt8) :
    endsEscaped escaped (l₁ ++ l₂) = endsEscaped (endsEscaped escaped l₁) l₂ := by
  induction l₁ generalizing escaped with
  | nil => rfl
  | cons b bs ih => exact ih _

/-- After a byte, the state no longer depends on the one before. -/
theorem endsEscaped_cons (escaped escaped' : Bool) (b : UInt8) (bs : List UInt8) :
    endsEscaped escaped (b :: bs) = endsEscaped escaped' (b :: bs) := rfl

/-- Inside a run, every zero is an `ESCAPED_0_CONT`. -/
theorem escapeRun_true_of_zeros {l : List UInt8} (hl : ∀ b ∈ l, b = ESCAPE) :
    escapeRun true l = List.replicate l.length ESCAPED_0_CONT ∧ endsEscaped true l = true := by
  induction l with
  | nil => simp [escapeRun, endsEscaped]
  | cons b bs ih =>
    obtain ⟨h₁, h₂⟩ := ih fun c hc => hl c (List.mem_cons_of_mem b hc)
    have hb := hl b List.mem_cons_self
    simp [escapeRun, endsEscaped, hb, h₁, h₂, List.replicate_succ]

/-- Outside a run, non-zero bytes are written as they are. -/
theorem escapeRun_false_of_nonzeros {l : List UInt8} (hl : ∀ b ∈ l, b ≠ ESCAPE) :
    escapeRun false l = l ∧ endsEscaped false l = false := by
  induction l with
  | nil => simp [escapeRun, endsEscaped]
  | cons b bs ih =>
    obtain ⟨h₁, h₂⟩ := ih fun c hc => hl c (List.mem_cons_of_mem b hc)
    have hb := hl b List.mem_cons_self
    simp [escapeRun, endsEscaped, hb, h₁, h₂]

/-- A non-zero byte after a run is preceded by `ESCAPED_0_DONE`. -/
theorem escapeRun_true_cons {b : UInt8} (hb : b ≠ ESCAPE) (bs : List UInt8) :
    escapeRun true (b :: bs) = ESCAPED_0_DONE :: escapeRun false (b :: bs) := by
  simp [escapeRun, hb]

/-- One byte more for every zero run that a non-zero byte ends, and such bytes are never adjacent: at most half
as much again as the input, and one more if a run is open at the start. -/
theorem two_mul_length_escapeRun_le (escaped : Bool) (l : List UInt8) :
    2 * (escapeRun escaped l).length ≤ 3 * l.length + (if escaped then 1 else 0) := by
  induction l generalizing escaped with
  | nil => simp [escapeRun]
  | cons b bs ih =>
    have ht := ih true
    have hf := ih false
    simp only [if_true, Bool.false_eq_true, if_false, Nat.add_zero] at ht hf
    by_cases hb : b = ESCAPE
    · cases escaped <;> simp [escapeRun, hb] <;> omega
    · cases escaped <;> simp [escapeRun, hb] <;> omega

/-- What unescaping writes for `l` from the escaped state `escaped`, and either the state after `l` or the bytes
from the one it stops at. -/
def unescapeRun : Bool → List UInt8 → List UInt8 × (Bool ⊕ List UInt8)
  | escaped, [] => ([], .inl escaped)
  | false, b :: bs =>
    if b = ESCAPE then unescapeRun true bs
    else (b :: (unescapeRun false bs).1, (unescapeRun false bs).2)
  | true, b :: bs =>
    if b = ESCAPED_0_CONT then (ESCAPE :: (unescapeRun true bs).1, (unescapeRun true bs).2)
    else if b = ESCAPED_0_DONE then (ESCAPE :: (unescapeRun false bs).1, (unescapeRun false bs).2)
    else ([], .inr (b :: bs))

theorem unescapeRun_false_escape (bs : List UInt8) : unescapeRun false (ESCAPE :: bs) = unescapeRun true bs := by
  simp [unescapeRun]

theorem unescapeRun_false_cons {b : UInt8} (hb : b ≠ ESCAPE) (bs : List UInt8) :
    unescapeRun false (b :: bs) = (b :: (unescapeRun false bs).1, (unescapeRun false bs).2) := by
  simp [unescapeRun, hb]

theorem unescapeRun_true_cont (bs : List UInt8) :
    unescapeRun true (ESCAPED_0_CONT :: bs) = (ESCAPE :: (unescapeRun true bs).1, (unescapeRun true bs).2) := by
  simp [unescapeRun]

theorem unescapeRun_true_done (bs : List UInt8) :
    unescapeRun true (ESCAPED_0_DONE :: bs) = (ESCAPE :: (unescapeRun false bs).1, (unescapeRun false bs).2) := by
  simp [unescapeRun, ESCAPED_0_DONE, ESCAPED_0_CONT]

/-- In the escaped state any other byte ends the component. -/
theorem unescapeRun_true_stop {b : UInt8} (hc : b ≠ ESCAPED_0_CONT) (hd : b ≠ ESCAPED_0_DONE) (bs : List UInt8) :
    unescapeRun true (b :: bs) = ([], .inr (b :: bs)) := by
  simp [unescapeRun, hc, hd]

/-- Unescaping what escaping wrote, then its final byte and a separator: the bytes, after the zero of a run that
is open at the start, and a stop at the separator. -/
theorem unescapeRun_escapeRun (sep : UInt8) (hsep : sep.toNat < 0xFE) (rest : List UInt8) :
    ∀ (escaped : Bool) (v : List UInt8),
      unescapeRun escaped (escapeRun escaped v ++ (if endsEscaped escaped v then ESCAPED_0_CONT else ESCAPE) ::
          sep :: rest) = ((if escaped then [ESCAPE] else []) ++ v, .inr (sep :: rest)) := by
  have hc : sep ≠ ESCAPED_0_CONT := fun h => by simp [h, ESCAPED_0_CONT] at hsep
  have hd : sep ≠ ESCAPED_0_DONE := fun h => by simp [h, ESCAPED_0_DONE] at hsep
  intro escaped v
  induction v generalizing escaped with
  | nil =>
    cases escaped
    · simp only [escapeRun, endsEscaped, Bool.false_eq_true, if_false, List.nil_append, unescapeRun_false_escape,
        unescapeRun_true_stop hc hd]
    · simp only [escapeRun, endsEscaped, if_true, List.nil_append, unescapeRun_true_cont,
        unescapeRun_true_stop hc hd, List.cons_append]
  | cons b bs ih =>
    by_cases hb : b = ESCAPE
    · -- A zero: `ESCAPE` opens a run, `ESCAPED_0_CONT` continues one.
      subst hb
      cases escaped
      · simp only [escapeRun, endsEscaped, if_true, decide_true, Bool.false_eq_true, if_false, List.cons_append,
          unescapeRun_false_escape, ih true, List.nil_append]
      · simp only [escapeRun, endsEscaped, if_true, decide_true, List.cons_append, unescapeRun_true_cont, ih true,
          List.nil_append]
    · -- A non-zero byte, after `ESCAPED_0_DONE` if it ends a run.
      cases escaped
      · simp only [escapeRun, endsEscaped, hb, decide_false, if_false, Bool.false_eq_true, List.cons_append,
          unescapeRun_false_cons hb, ih false, List.nil_append]
      · simp only [escapeRun, endsEscaped, hb, decide_false, if_false, if_true, List.cons_append,
          unescapeRun_true_done, unescapeRun_false_cons hb, ih false, Bool.false_eq_true, List.nil_append]

theorem unescapeRun_escape (v : List UInt8) (sep : UInt8) (hsep : sep.toNat < 0xFE) (rest : List UInt8) :
    unescapeRun false (escape v ++ sep :: rest) = (v, .inr (sep :: rest)) := by
  simpa [escape] using unescapeRun_escapeRun sep hsep rest false v


/-- A run of `ESCAPED_0_CONT`s is as many zeros. -/
theorem unescapeRun_true_of_conts {l : List UInt8} (hl : ∀ b ∈ l, b = ESCAPED_0_CONT) (l' : List UInt8) :
    unescapeRun true (l ++ l') =
      (List.replicate l.length ESCAPE ++ (unescapeRun true l').1, (unescapeRun true l').2) := by
  induction l with
  | nil => simp
  | cons b bs ih =>
    rw [hl b List.mem_cons_self, List.cons_append, unescapeRun_true_cont,
      ih fun x hx => hl x (List.mem_cons_of_mem b hx)]
    simp [List.replicate_succ]

/-- A run of non-zero bytes outside a run of zeros is copied. -/
theorem unescapeRun_false_of_nonzeros {l : List UInt8} (hl : ∀ b ∈ l, b ≠ ESCAPE) (l' : List UInt8) :
    unescapeRun false (l ++ l') = (l ++ (unescapeRun false l').1, (unescapeRun false l').2) := by
  induction l with
  | nil => simp
  | cons b bs ih =>
    rw [List.cons_append, unescapeRun_false_cons (hl b List.mem_cons_self),
      ih fun x hx => hl x (List.mem_cons_of_mem b hx)]
    simp

/-- Unescaping a concatenation: the second part is read from the state the first ends in, unless the first
stops. -/
theorem unescapeRun_append (escaped : Bool) (l₁ l₂ : List UInt8) :
    unescapeRun escaped (l₁ ++ l₂) = (unescapeRun escaped l₁).2.elim
      (fun e => ((unescapeRun escaped l₁).1 ++ (unescapeRun e l₂).1, (unescapeRun e l₂).2))
      (fun r => ((unescapeRun escaped l₁).1, .inr (r ++ l₂))) := by
  induction l₁ generalizing escaped with
  | nil => simp [unescapeRun]
  | cons b bs ih =>
    -- Every step but the stop writes at most a byte and goes on from the state it reaches.
    cases escaped
    · by_cases hb : b = ESCAPE
      · subst hb
        rw [List.cons_append, unescapeRun_false_escape, unescapeRun_false_escape, ih]
      · rw [List.cons_append, unescapeRun_false_cons hb, unescapeRun_false_cons hb, ih]
        rcases unescapeRun false bs with ⟨w, _ | _⟩ <;> rfl
    · by_cases hc : b = ESCAPED_0_CONT
      · subst hc
        rw [List.cons_append, unescapeRun_true_cont, unescapeRun_true_cont, ih]
        rcases unescapeRun true bs with ⟨w, _ | _⟩ <;> rfl
      by_cases hd : b = ESCAPED_0_DONE
      · subst hd
        rw [List.cons_append, unescapeRun_true_done, unescapeRun_true_done, ih]
        rcases unescapeRun false bs with ⟨w, _ | _⟩ <;> rfl
      · rw [List.cons_append, unescapeRun_true_stop hc hd, unescapeRun_true_stop hc hd]
        rfl

/-- Unescaping stops at a suffix of its input. -/
theorem unescapeRun_suffix : ∀ {escaped : Bool} {l r : List UInt8}, (unescapeRun escaped l).2 = .inr r → r <:+ l
  | _, [], _, h => by simp [unescapeRun] at h
  | false, b :: bs, r, h => by
    by_cases hb : b = ESCAPE
    · subst hb
      rw [unescapeRun_false_escape] at h
      exact (unescapeRun_suffix h).trans (List.suffix_cons _ bs)
    · rw [unescapeRun_false_cons hb] at h
      exact (unescapeRun_suffix h).trans (List.suffix_cons _ bs)
  | true, b :: bs, r, h => by
    by_cases hc : b = ESCAPED_0_CONT
    · subst hc
      rw [unescapeRun_true_cont] at h
      exact (unescapeRun_suffix h).trans (List.suffix_cons _ bs)
    by_cases hd : b = ESCAPED_0_DONE
    · subst hd
      rw [unescapeRun_true_done] at h
      exact (unescapeRun_suffix h).trans (List.suffix_cons _ bs)
    · rw [unescapeRun_true_stop hc hd, Sum.inr.injEq] at h
      exact h ▸ List.suffix_refl _

/-- Unescaping writes at most a byte for each byte it reads. -/
theorem length_unescapeRun_le : ∀ (escaped : Bool) (l : List UInt8), (unescapeRun escaped l).1.length ≤ l.length
  | _, [] => by simp [unescapeRun]
  | false, b :: bs => by
    by_cases hb : b = ESCAPE
    · subst hb
      rw [unescapeRun_false_escape]
      exact (length_unescapeRun_le true bs).trans (Nat.le_succ _)
    · simpa [unescapeRun_false_cons hb] using length_unescapeRun_le false bs
  | true, b :: bs => by
    by_cases hc : b = ESCAPED_0_CONT
    · subst hc
      simpa [unescapeRun_true_cont] using length_unescapeRun_le true bs
    by_cases hd : b = ESCAPED_0_DONE
    · subst hd
      simpa [unescapeRun_true_done] using length_unescapeRun_le false bs
    · simp [unescapeRun_true_stop hc hd]

/-! ### Runs in a chunk -/

section Runs

variable {p : UInt8 → Bool} {c : List UInt8} {pos : Nat}

theorem findFrom_sub (p : UInt8 → Bool) (c : List UInt8) (pos : Nat) :
    findFrom p c pos - pos = (c.drop pos).findIdx p := by
  simp [findFrom]

/-- The bytes from `pos` on are a run up to `findFrom`, then the rest of the chunk. -/
theorem drop_eq_run_append (p : UInt8 → Bool) (c : List UInt8) (pos : Nat) :
    c.drop pos = (c.drop pos).take (findFrom p c pos - pos) ++ c.drop (findFrom p c pos) := by
  rw [findFrom_sub, findFrom, ← List.drop_drop, List.take_append_drop]

/-- No byte of the run satisfies `p`. -/
theorem not_of_mem_run {b : UInt8} (h : b ∈ (c.drop pos).take (findFrom p c pos - pos)) : p b = false := by
  rw [findFrom_sub] at h
  exact List.false_of_mem_take_findIdx h

theorem le_findFrom : pos ≤ findFrom p c pos := Nat.le_add_right _ _

@[simp]
theorem length_run (p : UInt8 → Bool) (c : List UInt8) (pos : Nat) :
    ((c.drop pos).take (findFrom p c pos - pos)).length = findFrom p c pos - pos := by
  rw [List.length_take_of_le]
  rw [findFrom_sub]
  exact List.findIdx_le_length

theorem findFrom_le_length (h : pos ≤ c.length) : findFrom p c pos ≤ c.length := by
  have : (c.drop pos).findIdx p ≤ (c.drop pos).length := List.findIdx_le_length
  simp only [List.length_drop] at this
  simp only [findFrom]
  omega

/-- A run that stops before the end of the chunk stops at a byte that satisfies `p`. -/
theorem drop_findFrom {b : UInt8} {r : List UInt8} (h : c.drop (findFrom p c pos) = b :: r) : p b = true := by
  have hlt : (c.drop pos).findIdx p < (c.drop pos).length := by
    have := congrArg List.length h
    simp only [List.length_drop, List.length_cons, findFrom] at this ⊢
    omega
  have hget := List.findIdx_getElem (w := hlt)
  rw [List.getElem_drop] at hget
  have hhead := congrArg List.head? h
  have hidx : findFrom p c pos < c.length := by
    rw [List.length_drop] at hlt
    simp only [findFrom]
    omega
  rw [List.head?_drop, List.getElem?_eq_getElem hidx] at hhead
  simp only [findFrom, List.head?_cons, Option.some.injEq] at hhead
  rwa [hhead] at hget

/-- A run that starts with a byte failing `p` is not empty. -/
theorem lt_findFrom {b : UInt8} {r : List UInt8} (h : c.drop pos = b :: r) (hb : p b = false) :
    pos < findFrom p c pos := by
  simp [findFrom, h, List.findIdx_cons, hb]

end Runs


/-! ### `escape_zeros` -/

/-- Writing a run of zeros only when it is not empty is writing it always. -/
theorem ite_pos_sub {q pos : Nat} (h : pos ≤ q) (buffer : List UInt8) :
    (if 0 < q - pos then (buffer ++ List.replicate (q - pos) ESCAPED_0_CONT, q) else (buffer, pos)) =
      (buffer ++ List.replicate (q - pos) ESCAPED_0_CONT, q) := by
  split
  · rfl
  · obtain rfl : q = pos := by omega
    simp

/-- The inner loop writes the transducer's run over the rest of the chunk, given one iteration per byte left
and per open run. -/
theorem escapeChunkLoop_eq (chunk : List UInt8) :
    ∀ (fuel pos : Nat) (escaped : Bool) (buffer : List UInt8), pos ≤ chunk.length →
      2 * (chunk.length - pos) + (if escaped then 1 else 0) ≤ fuel →
      escapeChunkLoop chunk fuel pos escaped buffer =
        (endsEscaped escaped (chunk.drop pos), buffer ++ escapeRun escaped (chunk.drop pos))
  | 0, pos, escaped, buffer, hpos, hfuel => by
    have hend : chunk.drop pos = [] := List.drop_eq_nil_of_le (by omega)
    have he : escaped = false := by cases escaped <;> simp_all
    simp [escapeChunkLoop, hend, he, endsEscaped, escapeRun]
  | fuel + 1, pos, escaped, buffer, hpos, hfuel => by
    rw [escapeChunkLoop]
    by_cases hend : pos = chunk.length
    · rw [if_pos hend, List.drop_eq_nil_of_le (by omega)]
      simp [endsEscaped, escapeRun]
    rw [if_neg hend]
    obtain ⟨b, r, hbr⟩ : ∃ b r, chunk.drop pos = b :: r :=
      List.ne_nil_iff_exists_cons.1 (by rw [Ne, List.drop_eq_nil_iff]; omega)
    have hget : chunk[pos]? = some b := by rw [← List.head?_drop, hbr]; rfl
    cases escaped
    · simp only [Bool.false_eq_true, if_false]
      by_cases hb : b = ESCAPE
      · -- A zero opens a run.
        subst hb
        rw [if_pos hget, escapeChunkLoop_eq chunk fuel (pos + 1) true _ (by omega) (by simp; omega),
          ← List.drop_drop, hbr]
        simp [escapeRun, endsEscaped]
      · -- A run of non-zero bytes up to the next zero.
        rw [if_neg (by rw [hget]; simpa using hb)]
        have hlt : pos < findFrom (· == ESCAPE) chunk pos := lt_findFrom hbr (by simpa using hb)
        rw [escapeChunkLoop_eq chunk fuel _ false _ (findFrom_le_length hpos) (by simp; omega)]
        have hsplit := drop_eq_run_append (· == ESCAPE) chunk pos
        obtain ⟨hrun, hrun'⟩ := escapeRun_false_of_nonzeros (l := (chunk.drop pos).take (findFrom (· == ESCAPE) chunk pos - pos))
          (fun x hx => by simpa using not_of_mem_run hx)
        conv_rhs => rw [hsplit, escapeRun_append, endsEscaped_append, hrun, hrun']
        simp
    · simp only [if_true] at hfuel ⊢
      -- The zeros of the run, one `ESCAPED_0_CONT` each.
      have hsplit := drop_eq_run_append (· != ESCAPE) chunk pos
      obtain ⟨hrun, hrun'⟩ := escapeRun_true_of_zeros (l := (chunk.drop pos).take (findFrom (· != ESCAPE) chunk pos - pos))
        (fun x hx => by simpa using not_of_mem_run hx)
      have hk := findFrom_le_length (p := (· != ESCAPE)) hpos
      have hkpos : pos ≤ findFrom (· != ESCAPE) chunk pos := le_findFrom
      rw [ite_pos_sub hkpos buffer]
      dsimp only
      conv_rhs => rw [hsplit, escapeRun_append, endsEscaped_append, hrun, hrun', length_run]
      by_cases hkend : findFrom (· != ESCAPE) chunk pos = chunk.length
      · -- The run reaches the end of the chunk and stays open.
        rw [if_neg (not_not.2 hkend), escapeChunkLoop_eq chunk fuel _ true _ hk (by rw [hkend]; simp; omega), hkend,
          List.drop_length]
        simp [endsEscaped, escapeRun]
      · -- A non-zero byte ends it.
        rw [if_pos hkend, escapeChunkLoop_eq chunk fuel _ false _ hk (by simp only [Bool.false_eq_true, if_false]; omega)]
        obtain ⟨b', r', hbr'⟩ : ∃ b r, chunk.drop (findFrom (· != ESCAPE) chunk pos) = b :: r :=
          List.ne_nil_iff_exists_cons.1 (by rw [Ne, List.drop_eq_nil_iff]; omega)
        have hb' : b' ≠ ESCAPE := by simpa using drop_findFrom hbr'
        rw [hbr', escapeRun_true_cons hb', endsEscaped_cons true false]
        simp

/-- A chunk of at most 1024 bytes fills at most the 1536 bytes of the buffer. -/
theorem length_escapeChunkLoop_le (chunk : List UInt8) (hc : chunk.length ≤ maxChunkSize) (escaped : Bool) :
    (escapeChunkLoop chunk (2 * chunk.length + 1) 0 escaped []).2.length ≤ bufferSize := by
  rw [escapeChunkLoop_eq chunk _ 0 escaped [] (Nat.zero_le _) (by split <;> omega)]
  have := two_mul_length_escapeRun_le escaped chunk
  simp only [List.drop_zero, List.nil_append, maxChunkSize, bufferSize] at this hc ⊢
  split at this <;> omega


/-- A chunk without zeros ends a run of the chunk before and is written as it is. -/
theorem escapeRun_of_nonzeros {l : List UInt8} (hne : l ≠ []) (hl : ∀ b ∈ l, b ≠ ESCAPE) (escaped : Bool) :
    escapeRun escaped l = (if escaped then [ESCAPED_0_DONE] else []) ++ l ∧ endsEscaped escaped l = false := by
  obtain ⟨b, bs, rfl⟩ := List.exists_cons_of_ne_nil hne
  obtain ⟨h₁, h₂⟩ := escapeRun_false_of_nonzeros hl
  cases escaped
  · exact ⟨by simpa using h₁, h₂⟩
  · refine ⟨?_, by rw [endsEscaped_cons true false, h₂]⟩
    rw [escapeRun_true_cons (hl b List.mem_cons_self), h₁]
    rfl

/-- The outer loop of escaping runs the transducer over the whole view. -/
theorem escapeZerosLoop_eq : ∀ (fuel : Nat) (v : ManagedBytesView) (escaped : Bool) (out : List UInt8),
    v.bytes.length < fuel →
    escapeZerosLoop fuel v escaped out = (out ++ escapeRun escaped v.bytes, endsEscaped escaped v.bytes)
  | 0, _, _, _, h => absurd h (Nat.not_lt_zero _)
  | fuel + 1, v, escaped, out, hfuel => by
    by_cases he : v.empty = true
    · simp [escapeZerosLoop, he, (ManagedBytesView.empty_iff v).1 he, escapeRun, endsEscaped]
    · -- One chunk of the current fragment, then the rest of the view.
      have hne : v.currentFragment ≠ [] := v.currentFragment_ne_nil (by simpa using he)
      have hkle : min maxChunkSize v.currentFragment.length ≤ v.currentFragment.length := Nat.min_le_right _ _
      have hkpos : 0 < min maxChunkSize v.currentFragment.length := by
        have := List.length_pos_iff.2 hne
        simp only [maxChunkSize]
        omega
      have hsplit := v.bytes_eq_take_append hkle
      have hrest : (v.removePrefix (min maxChunkSize v.currentFragment.length)).bytes.length < fuel := by
        have := congrArg List.length hsplit
        simp only [List.length_append, List.length_take] at this
        omega
      have ih := fun e o => escapeZerosLoop_eq fuel _ e o hrest
      simp only [escapeZerosLoop, he, Bool.false_eq_true, if_false]
      rw [hsplit, escapeRun_append, endsEscaped_append]
      have hlen : (v.currentFragment.take (min maxChunkSize v.currentFragment.length)).length =
          min maxChunkSize v.currentFragment.length := List.length_take_of_le hkle
      generalize v.currentFragment.take (min maxChunkSize v.currentFragment.length) = chunk at hlen ⊢
      split
      · -- No zero in the chunk: the fast path.
        rename_i hz
        have hnz : ∀ b ∈ chunk, b ≠ ESCAPE := by
          intro b hb h
          subst h
          simp [hb] at hz
        have hcne : chunk ≠ [] := List.ne_nil_of_length_pos (by omega)
        obtain ⟨h₁, h₂⟩ := escapeRun_of_nonzeros hcne hnz escaped
        rw [h₁, h₂]
        cases escaped <;> simp [ih]
      · rw [escapeChunkLoop_eq chunk _ 0 escaped [] (Nat.zero_le _) (by split <;> omega), ih]
        simp


/-- For every fragmentation of the view, escaping writes the escaping of its bytes. -/
theorem escapeZeros_eq (v : ManagedBytesView) (out : List UInt8) : escapeZeros v out = out ++ escape v.bytes := by
  simp [escapeZeros, escapeZerosLoop_eq _ v false out (Nat.lt_succ_self _), escape]

-- The first example of the source's comment, split inside the run of zeros.
example : escapeZeros ⟨[[0x41, 0x00], [0x00, 0x42]], by decide⟩ [] = [0x41, 0x00, 0xFE, 0xFF, 0x42, 0x00] := by
  decide


/-! ### `unescape_zeros` -/

/-- The inner loop of unescaping runs the transducer over the rest of the chunk, and stops where it stops, given
one iteration per byte left. -/
theorem unescapeChunkLoop_eq (chunk : List UInt8) :
    ∀ (fuel pos : Nat) (escaped : Bool) (buffer : List UInt8), pos ≤ chunk.length → chunk.length - pos ≤ fuel →
      unescapeChunkLoop chunk fuel pos escaped buffer =
        (buffer ++ (unescapeRun escaped (chunk.drop pos)).1,
          (unescapeRun escaped (chunk.drop pos)).2.map id fun r => chunk.length - r.length)
  | 0, pos, escaped, buffer, hpos, hfuel => by
    rw [List.drop_eq_nil_of_le (by omega)]
    simp [unescapeChunkLoop, unescapeRun]
  | fuel + 1, pos, escaped, buffer, hpos, hfuel => by
    rw [unescapeChunkLoop]
    by_cases hend : pos = chunk.length
    · rw [if_pos hend, List.drop_eq_nil_of_le (by omega)]
      simp [unescapeRun]
    rw [if_neg hend]
    obtain ⟨b, r, hbr⟩ : ∃ b r, chunk.drop pos = b :: r :=
      List.ne_nil_iff_exists_cons.1 (by rw [Ne, List.drop_eq_nil_iff]; omega)
    have hget : chunk[pos]? = some b := by rw [← List.head?_drop, hbr]; rfl
    cases escaped
    · simp only [Bool.false_eq_true, if_false]
      by_cases hb : b = ESCAPE
      · -- A zero opens a run.
        subst hb
        rw [if_pos hget, unescapeChunkLoop_eq chunk fuel (pos + 1) true _ (by omega) (by omega),
          ← List.drop_drop, hbr]
        simp [unescapeRun_false_escape]
      · -- A run of non-zero bytes up to the next zero.
        rw [if_neg (by rw [hget]; simpa using hb)]
        have hlt : pos < findFrom (· == ESCAPE) chunk pos := lt_findFrom hbr (by simpa using hb)
        rw [unescapeChunkLoop_eq chunk fuel _ false _ (findFrom_le_length hpos) (by omega)]
        conv_rhs => rw [drop_eq_run_append (· == ESCAPE) chunk pos,
          unescapeRun_false_of_nonzeros (fun x hx => by simpa using not_of_mem_run hx)]
        simp
    · have hgetD : chunk.getD pos 0 = b := by simp [List.getD_eq_getElem?_getD, hget]
      simp only [if_true]
      rw [hgetD]
      by_cases hc : b = ESCAPED_0_CONT
      · -- The zeros of the run, one for each `ESCAPED_0_CONT`.
        subst hc
        have hlt : pos < findFrom (· != ESCAPED_0_CONT) chunk pos := lt_findFrom hbr (by simp)
        rw [if_pos rfl, if_pos (by omega),
          unescapeChunkLoop_eq chunk fuel _ true _ (findFrom_le_length hpos) (by omega)]
        conv_rhs => rw [drop_eq_run_append (· != ESCAPED_0_CONT) chunk pos,
          unescapeRun_true_of_conts (fun x hx => by simpa using not_of_mem_run hx), length_run]
        simp
      rw [if_neg hc]
      by_cases hd : b = ESCAPED_0_DONE
      · -- The end of the run.
        subst hd
        rw [if_pos rfl, unescapeChunkLoop_eq chunk fuel (pos + 1) false _ (by omega) (by omega),
          ← List.drop_drop, hbr]
        simp [unescapeRun_true_done]
      · -- Any other byte stops the component at `pos`.
        have hlen := congrArg List.length hbr
        rw [if_neg hd, hbr, unescapeRun_true_stop hc hd]
        simp only [List.length_drop, List.length_cons] at hlen
        simp only [List.append_nil, Sum.map_inr, List.length_cons, Prod.mk.injEq, Sum.inr.injEq, true_and]
        omega


/-- The outer loop of unescaping runs the transducer over the whole view and leaves the view at the byte it stops
at, or empty. -/
theorem unescapeZerosLoop_eq : ∀ (fuel : Nat) (v : ManagedBytesView) (escaped : Bool) (out : List UInt8),
    v.bytes.length < fuel →
    (unescapeZerosLoop fuel v escaped out).1 = out ++ (unescapeRun escaped v.bytes).1 ∧
      (unescapeZerosLoop fuel v escaped out).2.bytes = (unescapeRun escaped v.bytes).2.elim (fun _ => []) id
  | 0, _, _, _, h => absurd h (Nat.not_lt_zero _)
  | fuel + 1, v, escaped, out, hfuel => by
    by_cases he : v.empty = true
    · have hb := (ManagedBytesView.empty_iff v).1 he
      simp [unescapeZerosLoop, he, hb, unescapeRun]
    · -- One chunk of the current fragment, then the rest of the view unless the chunk stops.
      have hne : v.currentFragment ≠ [] := v.currentFragment_ne_nil (by simpa using he)
      have hkle : min maxChunkSize v.currentFragment.length ≤ v.currentFragment.length := Nat.min_le_right _ _
      have hsplit := v.bytes_eq_take_append hkle
      have hrest : (v.removePrefix (min maxChunkSize v.currentFragment.length)).bytes.length < fuel := by
        have hl := congrArg List.length hsplit
        have hpos := List.length_pos_iff.2 hne
        simp only [List.length_append, List.length_take, maxChunkSize] at hl ⊢
        omega
      have ih := fun e o => unescapeZerosLoop_eq fuel _ e o hrest
      have hlen : (v.currentFragment.take (min maxChunkSize v.currentFragment.length)).length =
          min maxChunkSize v.currentFragment.length := List.length_take_of_le hkle
      simp only [unescapeZerosLoop, he, Bool.false_eq_true, if_false]
      rw [unescapeChunkLoop_eq _ _ 0 escaped [] (Nat.zero_le _) (by omega), List.drop_zero, List.nil_append]
      have hdrop : ∀ n ≤ v.currentFragment.length, (v.removePrefix n).bytes = v.bytes.drop n :=
        fun n hn => v.bytes_removePrefix hn
      rw [hsplit, unescapeRun_append]
      generalize v.currentFragment.take (min maxChunkSize v.currentFragment.length) = chunk at hsplit hlen ⊢
      rcases hq : unescapeRun escaped chunk with ⟨w, e | r⟩
      · -- The chunk ends in state e: the loop goes on with the rest of the view.
        obtain ⟨h₁, h₂⟩ := ih e (out ++ w)
        exact ⟨by simp [h₁], h₂⟩
      · -- The chunk stops at the suffix r: the view is left there.
        have hsuf : r <:+ chunk := unescapeRun_suffix (by rw [hq])
        have hr := hsuf.length_le
        refine ⟨by simp, ?_⟩
        simp only [Sum.map_inr, Sum.elim_inr, id]
        rw [hdrop _ (by omega), hsplit, List.drop_append_of_le_length (by omega), ← List.suffix_iff_eq_drop.1 hsuf]


/-- For every fragmentation, unescaping the escaping of `v` and a separator below `0xFE` writes `v` and leaves the
view at the separator. -/
theorem unescapeZeros_escape (v : List UInt8) (sep : UInt8) (hsep : sep.toNat < 0xFE) (rest : List UInt8)
    (w : ManagedBytesView) (hw : w.bytes = escape v ++ sep :: rest) (out : List UInt8) :
    (unescapeZeros w out).1 = out ++ v ∧ (unescapeZeros w out).2.bytes = sep :: rest := by
  obtain ⟨h₁, h₂⟩ := unescapeZerosLoop_eq (w.bytes.length + 1) w false out (Nat.lt_succ_self _)
  simp only [unescapeZeros]
  rw [h₁, h₂, hw, unescapeRun_escape v sep hsep rest]
  exact ⟨rfl, rfl⟩

/-- The 1024 bytes of the buffer of `unescape_zeros` hold what a chunk decodes to. -/
theorem length_unescapeChunkLoop_le (chunk : List UInt8) (hc : chunk.length ≤ maxChunkSize) (escaped : Bool) :
    (unescapeChunkLoop chunk (2 * chunk.length + 1) 0 escaped []).1.length ≤ maxChunkSize := by
  rw [unescapeChunkLoop_eq chunk _ 0 escaped [] (Nat.zero_le _) (by omega), List.drop_zero, List.nil_append]
  exact (length_unescapeRun_le escaped chunk).trans hc


/-- Escaping does not depend on the fragmentation of the view and runs the transducer; no chunk overflows the
buffer; and unescaping the escaping, then a separator, in any fragmentation, gives back the bytes and stops at
the separator. -/
theorem escapeZeros_fragmentation_roundTrip :
    (∀ (w : ManagedBytesView) (out : List UInt8), escapeZeros w out = out ++ escape w.bytes) ∧
    (∀ (w₁ w₂ : ManagedBytesView) (out : List UInt8), w₁.bytes = w₂.bytes →
      escapeZeros w₁ out = escapeZeros w₂ out) ∧
    (∀ (chunk : List UInt8) (escaped : Bool), chunk.length ≤ maxChunkSize →
      (escapeChunkLoop chunk (2 * chunk.length + 1) 0 escaped []).2.length ≤ bufferSize) ∧
    (∀ (v : List UInt8) (sep : UInt8) (rest out : List UInt8) (w : ManagedBytesView), sep.toNat < 0xFE →
      w.bytes = escape v ++ sep :: rest →
      (unescapeZeros w out).1 = out ++ v ∧ (unescapeZeros w out).2.bytes = sep :: rest) := by
  refine ⟨escapeZeros_eq, fun w₁ w₂ out h => ?_, fun chunk escaped hc => length_escapeChunkLoop_le chunk hc escaped,
    fun v sep rest out w hsep hw => unescapeZeros_escape v sep hsep rest w hw out⟩
  rw [escapeZeros_eq, escapeZeros_eq, h]

/-- The bytes 41 00 00 42, escaped as 41 00 FE FF 42 00 and split inside the run of zeros, unescape from two
fragments. -/
theorem escapeZeros_fragmentation_roundTrip_example :
    (unescapeZeros ⟨[[0x41, 0x00, 0xFE], [0xFF, 0x42, 0x00, 0x01]], by decide⟩ []).1 = [0x41, 0x00, 0x00, 0x42] :=
  (escapeZeros_fragmentation_roundTrip.2.2.2 [0x41, 0x00, 0x00, 0x42] 0x01 [] [] _ (by decide) (by decide)).1

end Scylla
