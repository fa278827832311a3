import Mathlib.Tactic.Ring
import Mathlib.Order.Basic

/-!
# Piece arithmetic

The grid of `src/piece.zig`: a file of `fileSize` bytes is cut into pieces of `pieceSize` bytes,
the last one short. Counts and indices are `u32` in the source and clamp at `maxU32` instead of
wrapping; a byte range saturates at `maxU64`.

* `Piece.len_pos_iff` — a piece holds bytes exactly when it starts below the file's end.
* `Piece.lt_count_iff` — every index the count admits holds bytes.
* `Piece.mem_cover` — a byte of a range lies in a piece the range's cover names.
* `Piece.span_of_mem_fullCover` — a fully covered piece lies inside the range.
* `Piece.mem_cover_iff`, `Piece.mem_fullCover_iff` — **the covers are exact**, at every limit.
-/

namespace ModelFs

/-- `std.math.maxInt(u32)`. -/
def maxU32 : Nat := 2 ^ 32 - 1

/-- `std.math.maxInt(u64)`. -/
def maxU64 : Nat := 2 ^ 64 - 1

/-- Zig's `+|` on `u64`. -/
def satAdd (a b : Nat) : Nat := min (a + b) maxU64

namespace Piece

def divCeil (n d : Nat) : Nat := n / d + if n % d ≠ 0 then 1 else 0

/-- Piece count for a file, clamped at `maxU32`. -/
def count (fileSize pieceSize : Nat) : Nat :=
  if fileSize = 0 ∨ pieceSize = 0 then 0 else min (divCeil fileSize pieceSize) maxU32

/-- The address of piece `idx`. The source's `u64` product of two `u32` cannot wrap. -/
def offset (idx pieceSize : Nat) : Nat := idx * pieceSize

def len (fileSize idx pieceSize : Nat) : Nat :=
  if fileSize ≤ offset idx pieceSize then 0
  else min (fileSize - offset idx pieceSize) pieceSize

/-- The piece a byte falls in. A power-of-two grid shifts (`popCount == 1`), any other divides. -/
def indexAt (fileOff pieceSize : Nat) : Nat :=
  if pieceSize = 0 then 0
  else
    let idx := if 2 ^ pieceSize.log2 = pieceSize then fileOff >>> pieceSize.log2
      else fileOff / pieceSize
    min idx maxU32

/-- Exclusive end of the byte range the bitfield can name. -/
def trackedEnd (fileSize pieceSize : Nat) : Nat :=
  let n := count fileSize pieceSize
  if n = 0 then 0 else offset (n - 1) pieceSize + len fileSize (n - 1) pieceSize

/-- Byte window `[off, off + len)`. -/
structure Span where
  off : Nat
  len : Nat
  deriving DecidableEq, Repr

/-- Pieces `[start, stop)`. -/
structure Cover where
  start : Nat
  stop : Nat
  deriving DecidableEq, Repr

def rangeTracked (span : Span) (fileSize pieceSize : Nat) : Bool :=
  if span.len = 0 ∨ fileSize ≤ span.off then true
  else min (satAdd span.off span.len) fileSize ≤ trackedEnd fileSize pieceSize

/-- Pieces overlapping `span`. -/
def cover (span : Span) (fileSize pieceSize : Nat) : Cover :=
  if span.len = 0 ∨ pieceSize = 0 ∨ fileSize ≤ span.off then ⟨0, 0⟩
  else
    let lastByte := min (satAdd span.off span.len) fileSize - 1
    ⟨indexAt span.off pieceSize, min (indexAt lastByte pieceSize + 1) maxU32⟩

/-- Pieces fully contained in `span`. -/
def fullCover (span : Span) (pieceSize : Nat) : Cover :=
  if span.len = 0 ∨ pieceSize = 0 then ⟨0, 0⟩
  else
    let first := divCeil span.off pieceSize
    let stop := satAdd span.off span.len / pieceSize
    if stop ≤ first then ⟨0, 0⟩ else ⟨min first maxU32, min stop maxU32⟩

/-! ## Lengths and counts -/

variable {fileSize pieceSize idx : Nat}

theorem len_le (fileSize idx pieceSize : Nat) : len fileSize idx pieceSize ≤ pieceSize := by
  unfold len
  split_ifs <;> omega

theorem len_pos_iff (hps : 0 < pieceSize) :
    0 < len fileSize idx pieceSize ↔ offset idx pieceSize < fileSize := by
  unfold len
  split_ifs <;> omega

theorem offset_add_len_le (h : offset idx pieceSize < fileSize) :
    offset idx pieceSize + len fileSize idx pieceSize ≤ fileSize := by
  unfold len
  split_ifs <;> omega

/-- A byte of piece `idx` is below the file's end and inside the piece's span. -/
theorem lt_offset_add_len_iff {o : Nat} :
    o < offset idx pieceSize + len fileSize idx pieceSize ∧ offset idx pieceSize ≤ o ↔
      o < fileSize ∧ offset idx pieceSize ≤ o ∧ o < offset idx pieceSize + pieceSize := by
  unfold len
  split_ifs <;> omega

theorem divCeil_mul_ge {n d : Nat} (hd : 0 < d) : n ≤ divCeil n d * d := by
  have hsplit := Nat.div_add_mod n d
  have hmod := Nat.mod_lt n hd
  unfold divCeil
  split_ifs with h
  · rw [Nat.add_mul, Nat.mul_comm (n / d) d]
    omega
  · rw [Nat.add_zero, Nat.mul_comm (n / d) d]
    omega

theorem lt_divCeil_iff {i n d : Nat} (hd : 0 < d) : i < divCeil n d ↔ i * d < n := by
  have hsplit := Nat.div_add_mod n d
  have hmod := Nat.mod_lt n hd
  have hquot : i ≤ n / d ↔ i * d ≤ n := Nat.le_div_iff_mul_le hd
  have hexact : i < n / d ↔ (i + 1) * d ≤ n := Nat.le_div_iff_mul_le hd
  unfold divCeil
  split_ifs with h
  · constructor
    · intro hi
      rcases Nat.lt_or_ge (i * d) n with hlt | hge
      · exact hlt
      · have heq : i * d = n := le_antisymm (hquot.mp (by omega)) hge
        exact absurd (by rw [← heq]; exact Nat.mul_mod_left i d) h
    · intro hi
      have := hquot.mpr hi.le
      omega
  · rw [Nat.add_zero, hexact]
    have hn : n = n / d * d := by rw [Nat.mul_comm]; omega
    constructor
    · intro hi
      rw [Nat.add_mul] at hi
      omega
    · intro hi
      have hlt : i < n / d := by
        rw [hn] at hi
        exact Nat.lt_of_mul_lt_mul_right hi
      exact hexact.mp hlt

theorem lt_count_iff (hps : 0 < pieceSize) :
    idx < count fileSize pieceSize ↔ offset idx pieceSize < fileSize ∧ idx < maxU32 := by
  unfold count offset
  split_ifs with h
  · have hz : fileSize = 0 := by omega
    simp [hz]
  · rw [lt_min_iff, lt_divCeil_iff hps]

theorem count_le_maxU32 (fileSize pieceSize : Nat) : count fileSize pieceSize ≤ maxU32 := by
  unfold count
  split_ifs <;> omega

/-! ## Indices and covers -/

theorem indexAt_eq (fileOff pieceSize : Nat) :
    indexAt fileOff pieceSize = min (fileOff / pieceSize) maxU32 := by
  unfold indexAt
  split_ifs with h0 hpow
  · simp [h0]
  · rw [Nat.shiftRight_eq_div_pow, hpow]
  · rfl

theorem offset_le_iff {o : Nat} (hps : 0 < pieceSize) :
    offset idx pieceSize ≤ o ↔ idx ≤ o / pieceSize := (Nat.le_div_iff_mul_le hps).symm

theorem mem_piece_iff {o : Nat} (hps : 0 < pieceSize) :
    offset idx pieceSize ≤ o ∧ o < offset idx pieceSize + pieceSize ↔ o / pieceSize = idx := by
  have hlo : offset idx pieceSize ≤ o ↔ idx ≤ o / pieceSize := offset_le_iff hps
  have hhi : offset (idx + 1) pieceSize ≤ o ↔ idx + 1 ≤ o / pieceSize := offset_le_iff hps
  have hnext : offset (idx + 1) pieceSize = offset idx pieceSize + pieceSize := by
    unfold offset; ring
  omega

/-- Every byte of a clipped range lies in a piece its cover names, while the bitfield can name
that piece at all. -/
theorem mem_cover {span : Span} {o : Nat} (hps : 0 < pieceSize) (hlo : span.off ≤ o)
    (hhi : o < satAdd span.off span.len) (hsize : o < fileSize) (hnamed : o / pieceSize < maxU32) :
    (cover span fileSize pieceSize).start ≤ o / pieceSize ∧
      o / pieceSize < (cover span fileSize pieceSize).stop := by
  have hlen : span.len ≠ 0 := by
    intro h
    rw [satAdd, h] at hhi
    omega
  unfold cover
  rw [if_neg (by omega)]
  have hfirst : span.off / pieceSize ≤ o / pieceSize := Nat.div_le_div_right hlo
  have hlast : o / pieceSize ≤ (min (satAdd span.off span.len) fileSize - 1) / pieceSize :=
    Nat.div_le_div_right (by omega)
  simp only [indexAt_eq]
  omega

/-- **The cover is exact.** It names the pieces the bitfield can name that share a byte with the
clipped range. -/
theorem mem_cover_iff {span : Span} (hps : 0 < pieceSize) (hsize : fileSize ≤ maxU64) :
    (cover span fileSize pieceSize).start ≤ idx ∧ idx < (cover span fileSize pieceSize).stop ↔
      idx < count fileSize pieceSize ∧ ∃ o,
        (offset idx pieceSize ≤ o ∧ o < offset idx pieceSize + len fileSize idx pieceSize) ∧
          span.off ≤ o ∧ o < min (span.off + span.len) fileSize := by
  rw [lt_count_iff hps]
  by_cases hempty : span.len = 0 ∨ pieceSize = 0 ∨ fileSize ≤ span.off
  · have hcover : cover span fileSize pieceSize = ⟨0, 0⟩ := if_pos hempty
    rw [hcover]
    constructor
    · rintro ⟨-, h⟩
      exact absurd h (Nat.not_lt_zero _)
    · rintro ⟨-, o, -, hlo, hhi⟩
      omega
  · have hcover : cover span fileSize pieceSize = ⟨min (span.off / pieceSize) maxU32,
        min (min ((min (satAdd span.off span.len) fileSize - 1) / pieceSize) maxU32 + 1)
          maxU32⟩ := by
      unfold cover
      rw [if_neg hempty]
      simp only [indexAt_eq]
    have hclip : min (satAdd span.off span.len) fileSize =
        min (span.off + span.len) fileSize := by
      unfold satAdd
      omega
    rw [hclip] at hcover
    rw [hcover]
    clear hcover hclip
    -- the clamp is a number like any other here
    generalize maxU32 = top
    obtain ⟨stop, hstop⟩ : ∃ stop, stop = min (span.off + span.len) fileSize := ⟨_, rfl⟩
    rw [← hstop]
    have hfirst : span.off / pieceSize ≤ idx ↔ span.off < offset (idx + 1) pieceSize :=
      (Nat.lt_succ_iff.symm).trans (Nat.div_lt_iff_lt_mul hps)
    have hlast : idx ≤ (stop - 1) / pieceSize ↔ offset idx pieceSize ≤ stop - 1 :=
      (offset_le_iff hps).symm
    have hnext : offset (idx + 1) pieceSize = offset idx pieceSize + pieceSize := by
      unfold offset
      ring
    constructor
    · rintro ⟨hlo, hhi⟩
      dsimp only at hlo hhi
      have hbelow := hfirst.mp (by omega)
      have hreach := hlast.mp (by omega)
      refine ⟨⟨by omega, by omega⟩, max span.off (offset idx pieceSize), ?_, by omega, by omega⟩
      exact (lt_offset_add_len_iff.mpr ⟨by omega, by omega, by omega⟩).symm
    · rintro ⟨⟨-, hnamed⟩, o, ⟨hlo, hhi⟩, hfrom, hto⟩
      have hpiece := lt_offset_add_len_iff.mp ⟨hhi, hlo⟩
      have hge := hfirst.mpr (by omega)
      have hle := hlast.mpr (by omega)
      dsimp only
      omega

/-- A fully covered piece lies inside the range, unless the index clamp moved it. -/
theorem span_of_mem_fullCover {span : Span} (hps : 0 < pieceSize)
    (hlo : (fullCover span pieceSize).start ≤ idx) (hhi : idx < (fullCover span pieceSize).stop) :
    span.off ≤ offset idx pieceSize ∧
      offset idx pieceSize + pieceSize ≤ satAdd span.off span.len := by
  unfold fullCover at hlo hhi
  dsimp only at hlo hhi
  split_ifs at hlo hhi
  · simp at hhi
  · simp at hhi
  · simp only [min_le_iff, lt_min_iff] at hlo hhi
    have hfirst : divCeil span.off pieceSize ≤ idx := by omega
    have hstop : idx + 1 ≤ satAdd span.off span.len / pieceSize := hhi.1
    have hge := divCeil_mul_ge (n := span.off) hps
    have hmul := Nat.mul_le_mul_right pieceSize hfirst
    have hend := (Nat.le_div_iff_mul_le hps).mp hstop
    rw [Nat.add_mul, Nat.one_mul] at hend
    unfold offset
    omega

/-- **The full cover is exact.** Neither the saturation nor the clamps move it, as the pieces with
`u32` numbers and sizes end below `maxU64`. -/
theorem mem_fullCover_iff {span : Span} (hps : 0 < pieceSize) (hfit : pieceSize ≤ maxU32)
    (hlen : 0 < span.len) :
    (fullCover span pieceSize).start ≤ idx ∧ idx < (fullCover span pieceSize).stop ↔
      idx < maxU32 ∧ span.off ≤ offset idx pieceSize ∧
        offset (idx + 1) pieceSize ≤ span.off + span.len := by
  have hfirst : divCeil span.off pieceSize ≤ idx ↔ span.off ≤ offset idx pieceSize := by
    have hlt : idx < divCeil span.off pieceSize ↔ offset idx pieceSize < span.off :=
      lt_divCeil_iff hps
    omega
  have hstop : idx < satAdd span.off span.len / pieceSize ↔
      offset (idx + 1) pieceSize ≤ satAdd span.off span.len := Nat.le_div_iff_mul_le hps
  have hbelow : idx < maxU32 → offset (idx + 1) pieceSize ≤ maxU64 := by
    intro hnamed
    have hmul : offset (idx + 1) pieceSize ≤ maxU32 * maxU32 := Nat.mul_le_mul hnamed hfit
    exact hmul.trans (by decide)
  unfold fullCover
  rw [if_neg (by omega)]
  dsimp only
  unfold satAdd at *
  split_ifs with hnone
  · constructor
    · rintro ⟨-, h⟩
      exact absurd h (Nat.not_lt_zero _)
    · rintro ⟨hnamed, hlo, hhi⟩
      have hge := hfirst.mpr hlo
      have hlt := hstop.mpr (le_min hhi (hbelow hnamed))
      omega
  · dsimp only
    constructor
    · rintro ⟨hlo, hhi⟩
      have hreach := hstop.mp (by omega)
      exact ⟨by omega, hfirst.mp (by omega), by omega⟩
    · rintro ⟨hnamed, hlo, hhi⟩
      have hge := hfirst.mpr hlo
      have hlt := hstop.mpr (le_min hhi (hbelow hnamed))
      omega

theorem trackedEnd_le (fileSize pieceSize : Nat) :
    trackedEnd fileSize pieceSize ≤ offset maxU32 pieceSize := by
  unfold trackedEnd
  dsimp only
  split_ifs with h
  · exact Nat.zero_le _
  · have hlen := len_le fileSize (count fileSize pieceSize - 1) pieceSize
    have hcount := count_le_maxU32 fileSize pieceSize
    have hnext : offset (count fileSize pieceSize - 1) pieceSize + pieceSize =
        offset (count fileSize pieceSize) pieceSize := by
      unfold offset
      rw [← Nat.succ_mul]
      congr 1
      omega
    have hmono : offset (count fileSize pieceSize) pieceSize ≤ offset maxU32 pieceSize :=
      Nat.mul_le_mul_right _ hcount
    omega

/-- A byte of a tracked range is in a piece the bitfield can name. -/
theorem lt_offset_of_rangeTracked {span : Span} {o : Nat} (hps : pieceSize ≤ maxU32)
    (htracked : rangeTracked span fileSize pieceSize = true) (hlo : span.off ≤ o)
    (hhi : o < span.off + span.len) (hsize : o < fileSize) : o < offset maxU32 pieceSize := by
  have hend := trackedEnd_le fileSize pieceSize
  have hmax : offset maxU32 pieceSize ≤ maxU32 * maxU32 := Nat.mul_le_mul_left _ hps
  have hbig : maxU32 * maxU32 < maxU64 := by decide
  unfold rangeTracked at htracked
  rw [if_neg (by omega), decide_eq_true_iff] at htracked
  unfold satAdd at htracked
  omega

/-- **A tracked range is covered**: every byte of the clipped range is in a piece of its cover. -/
theorem covered_of_rangeTracked {span : Span} {o : Nat} (hps : 0 < pieceSize)
    (hfit : pieceSize ≤ maxU32) (hsize : fileSize ≤ maxU64)
    (htracked : rangeTracked span fileSize pieceSize = true) (hlo : span.off ≤ o)
    (hhi : o < min (span.off + span.len) fileSize) :
    ((cover span fileSize pieceSize).start ≤ o / pieceSize ∧
      o / pieceSize < (cover span fileSize pieceSize).stop) ∧
      offset (o / pieceSize) pieceSize ≤ o ∧
        o < offset (o / pieceSize) pieceSize + len fileSize (o / pieceSize) pieceSize := by
  have hend : o < offset maxU32 pieceSize :=
    lt_offset_of_rangeTracked hfit htracked hlo (lt_of_lt_of_le hhi (min_le_left ..))
      (lt_of_lt_of_le hhi (min_le_right ..))
  have hnamed : o / pieceSize < maxU32 := (Nat.div_lt_iff_lt_mul hps).mpr hend
  obtain ⟨hfrom, hto⟩ := (mem_piece_iff hps).mpr (rfl : o / pieceSize = _)
  have hin := lt_offset_add_len_iff.mpr ⟨lt_of_lt_of_le hhi (min_le_right ..), hfrom, hto⟩
  refine ⟨mem_cover hps hlo ?_ (lt_of_lt_of_le hhi (min_le_right ..)) hnamed, hin.2, hin.1⟩
  unfold satAdd
  generalize maxU64 = top at *
  omega

end Piece

end ModelFs
