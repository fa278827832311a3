import ModelFs.Piece
import ModelFs.Lib.PackedBits
import Mathlib.Data.Finset.Card
import Mathlib.Data.Finset.Range
import Mathlib.Order.Bounds.Basic

/-!
# The piece bitfield

`piece.Bitfield`: which pieces of a file the cache holds. The packed bytes carry two
invariants as fields, the ones every writer in the source keeps: the byte count follows from
`nbits`, and the pad bits of the last byte are clear. So `get` is one bit test, and a client
of this module reasons about `get` alone through `get_set`, `get_clear`, `get_wipe` and
`get_resize`.

* `allSet_iff` — the word-at-a-time walk answers for every index of the span.
* `filled_eq_card` — the word-wise count is the number of marks.
* `lastSet_eq_none_iff`, `isGreatest_of_lastSet` — the backward scan finds the highest mark, and
  nothing exactly in an empty field.
-/

namespace ModelFs

/-- Packed marks for `nbits` pieces. -/
structure Bitfield where
  bytes : List UInt8
  nbits : Nat
  length_eq : bytes.length = byteLen nbits
  pad_clear : ∀ i, nbits ≤ i → bitAt bytes i = false

namespace Bitfield

theorem ext {a b : Bitfield} (hbytes : a.bytes = b.bytes) (hnbits : a.nbits = b.nbits) : a = b := by
  cases a
  cases b
  simp_all

instance : DecidableEq Bitfield := fun a b =>
  decidable_of_iff (a.bytes = b.bytes ∧ a.nbits = b.nbits)
    ⟨fun h => ext h.1 h.2, fun h => h ▸ ⟨rfl, rfl⟩⟩

/-- Bytes cut to a field: the byte count is right and the pad bits are masked off. -/
def ofBytes (bytes : List UInt8) (nbits : Nat) (hlen : bytes.length = byteLen nbits) :
    Bitfield where
  bytes := keepBelow bytes nbits
  nbits := nbits
  length_eq := by rw [length_keepBelow, hlen]
  pad_clear i hi := by
    rw [bitAt_keepBelow hlen, decide_eq_false (Nat.not_lt.mpr hi), Bool.and_false]

/-- An empty field for `nbits` pieces. -/
def init (nbits : Nat) : Bitfield where
  bytes := List.replicate (byteLen nbits) 0
  nbits := nbits
  length_eq := List.length_replicate ..
  pad_clear _ _ := bitAt_replicate ..

/-- Grow or shrink, keeping the first `min` of the two lengths. -/
def resize (b : Bitfield) (nbits : Nat) : Bitfield :=
  ofBytes
    ((b.bytes ++ List.replicate (byteLen nbits - b.bytes.length) 0).take (byteLen nbits)) nbits
    (by simp only [List.length_take, List.length_append, List.length_replicate]; omega)

def get (b : Bitfield) (i : Nat) : Bool := if b.nbits ≤ i then false else bitAt b.bytes i

def set (b : Bitfield) (i : Nat) : Bitfield :=
  if h : b.nbits ≤ i then b
  else
    { bytes := setBit b.bytes i
      nbits := b.nbits
      length_eq := by rw [length_setBit, b.length_eq]
      pad_clear := fun j hj => by
        have hne : i ≠ j := by omega
        rw [bitAt_setBit, b.pad_clear j hj, decide_eq_false hne, Bool.false_and, Bool.or_false] }

def clear (b : Bitfield) (i : Nat) : Bitfield :=
  if b.nbits ≤ i then b
  else
    { bytes := clearBit b.bytes i
      nbits := b.nbits
      length_eq := by rw [length_clearBit, b.length_eq]
      pad_clear := fun j hj => by rw [bitAt_clearBit, b.pad_clear j hj, Bool.false_and] }

/-- `@memset(bits.bytes, 0)`: every mark goes, the buffer stays. -/
def wipe (b : Bitfield) : Bitfield where
  bytes := List.replicate b.bytes.length 0
  nbits := b.nbits
  length_eq := by rw [List.length_replicate, b.length_eq]
  pad_clear _ _ := bitAt_replicate ..

/-! ## What each operation does to the marks -/

theorem get_eq_bitAt (b : Bitfield) (i : Nat) : b.get i = bitAt b.bytes i := by
  unfold get
  split_ifs with h
  · exact (b.pad_clear i h).symm
  · rfl

/-- A field is its length and its marks. -/
theorem eq_of_get {a b : Bitfield} (hnbits : a.nbits = b.nbits) (h : ∀ i, a.get i = b.get i) :
    a = b := by
  refine ext (eq_of_bitAt ?_ fun i => ?_) hnbits
  · rw [a.length_eq, b.length_eq, hnbits]
  · rw [← get_eq_bitAt, ← get_eq_bitAt, h]

theorem lt_of_get {b : Bitfield} {i : Nat} (h : b.get i = true) : i < b.nbits := by
  by_contra hge
  rw [get, if_pos (Nat.not_lt.mp hge)] at h
  exact Bool.noConfusion h

@[simp] theorem nbits_init (n : Nat) : (init n).nbits = n := rfl

@[simp] theorem nbits_ofBytes (bytes : List UInt8) (n : Nat) (h) :
    (ofBytes bytes n h).nbits = n := rfl

@[simp] theorem nbits_resize (b : Bitfield) (n : Nat) : (b.resize n).nbits = n := rfl

@[simp] theorem nbits_wipe (b : Bitfield) : b.wipe.nbits = b.nbits := rfl

@[simp] theorem nbits_set (b : Bitfield) (i : Nat) : (b.set i).nbits = b.nbits := by
  unfold set
  split <;> rfl

@[simp] theorem nbits_clear (b : Bitfield) (i : Nat) : (b.clear i).nbits = b.nbits := by
  unfold clear
  split <;> rfl

@[simp] theorem get_init (n i : Nat) : (init n).get i = false := by
  rw [get_eq_bitAt]
  exact bitAt_replicate ..

@[simp] theorem get_wipe (b : Bitfield) (i : Nat) : b.wipe.get i = false := by
  rw [get_eq_bitAt]
  exact bitAt_replicate ..

theorem get_ofBytes (bytes : List UInt8) (n : Nat) (hlen : bytes.length = byteLen n) (i : Nat) :
    (ofBytes bytes n hlen).get i = (bitAt bytes i && decide (i < n)) := by
  rw [get_eq_bitAt, ofBytes, bitAt_keepBelow hlen]

theorem get_set (b : Bitfield) (i j : Nat) :
    (b.set i).get j = (b.get j || (decide (i = j) && decide (i < b.nbits))) := by
  unfold set
  split_ifs with h
  · simp [Nat.not_lt.mpr h]
  · have hi : i / 8 < b.bytes.length := by
      rw [b.length_eq, byteLen]
      omega
    rw [get_eq_bitAt, get_eq_bitAt, bitAt_setBit, decide_eq_true hi,
      decide_eq_true (Nat.not_le.mp h)]

theorem get_clear (b : Bitfield) (i j : Nat) :
    (b.clear i).get j = (b.get j && decide (i ≠ j)) := by
  unfold clear
  split_ifs with h
  · by_cases hij : i = j
    · subst hij
      simp [get, h]
    · simp [hij]
  · rw [get_eq_bitAt, get_eq_bitAt, bitAt_clearBit]

theorem get_resize (b : Bitfield) (n i : Nat) :
    (b.resize n).get i = (b.get i && decide (i < n)) := by
  have hpad : bitAt (List.replicate (byteLen n - b.bytes.length) (0 : UInt8))
      (i - 8 * b.bytes.length) = false := bitAt_replicate ..
  rw [resize, get_ofBytes, bitAt_take, bitAt_append, get_eq_bitAt, hpad]
  by_cases hi : i < n
  · have hfit : i < 8 * byteLen n := by unfold byteLen; omega
    by_cases hold : i < 8 * b.bytes.length
    · simp [hi, hfit, hold]
    · have hclear : bitAt b.bytes i = false := bitAt_of_length_le (by omega)
      simp [hold, hclear]
  · simp [hi]

/-! ## Spans and scans -/

/-- Bits `[i, i + n)` one at a time. -/
def bitsSet (b : Bitfield) (i n : Nat) : Bool := (List.range n).all fun k => b.get (i + k)

/-- Eight-byte words, `n` of them from bit `i` (a byte boundary): each is all ones. -/
def wordsSet (b : Bitfield) (i n : Nat) : Bool :=
  (List.range n).all fun k => leNat ((b.bytes.drop ((i + 64 * k) / 8)).take 8) == 2 ^ 64 - 1

/-- Bytes, `n` of them from bit `i` (a byte boundary): each is all ones. -/
def bytesSet (b : Bitfield) (i n : Nat) : Bool :=
  (List.range n).all fun k => leNat ((b.bytes.drop ((i + 8 * k) / 8)).take 1) == 2 ^ 8 - 1

/-- True when every bit of `[start, stop)` is set: bits up to a byte boundary, then words, then
bytes, then the last bits. -/
def allSet (b : Bitfield) (start stop : Nat) : Bool :=
  if stop ≤ start then true
  else if b.nbits < stop then false
  else
    let i₁ := min stop (8 * byteLen start)
    let words := (stop - i₁) / 64
    let i₂ := i₁ + 64 * words
    let bytes := (stop - i₂) / 8
    let i₃ := i₂ + 8 * bytes
    bitsSet b start (i₁ - start) && wordsSet b i₁ words && bytesSet b i₂ bytes &&
      bitsSet b i₃ (stop - i₃)

/-- The tail mask of the last word: `none` when all `span` bits from `lo` are valid. -/
def tailValidBits (lo span nbits : Nat) : Option Nat :=
  if span ≤ nbits - lo then none else some (nbits - lo)

/-- The byte loop of `lastSet`, over the bytes below `stop`. -/
def lastSetBytes (b : Bitfield) : Nat → Option Nat
  | 0 => none
  | stop + 1 =>
    match (List.range 8).reverse.find? fun bit =>
        decide (stop * 8 + bit < b.nbits) && bitAt b.bytes (stop * 8 + bit) with
    | some bit => some (stop * 8 + bit)
    | none => lastSetBytes b stop

/-- The word loop of `lastSet`, over `words` words below byte `8 * words + rest`. -/
def lastSetWords (b : Bitfield) (rest : Nat) : Nat → Option Nat
  | 0 => lastSetBytes b rest
  | words + 1 =>
    let lo := (8 * words + rest) * 8
    let raw := leNat ((b.bytes.drop (8 * words + rest)).take 8)
    let w := match tailValidBits lo 64 b.nbits with
      | some valid => raw % 2 ^ valid
      | none => raw
    if w ≠ 0 then some (lo + w.log2) else lastSetWords b rest words

/-- The highest set index. -/
def lastSet (b : Bitfield) : Option Nat :=
  lastSetWords b (b.bytes.length % 8) (b.bytes.length / 8)

/-- `@popCount` of a word of `span` bits. -/
def popCount (span w : Nat) : Nat := (List.range span).countP fun k => w.testBit k

/-- The marks of the `k` bytes from byte `at_`, what lies past the field masked off. -/
def filledChunk (b : Bitfield) (at_ k : Nat) : Nat :=
  let raw := leNat ((b.bytes.drop at_).take k)
  let w := match tailValidBits (at_ * 8) (8 * k) b.nbits with
    | some valid => raw % 2 ^ valid
    | none => raw
  popCount (8 * k) w

/-- The loop of `filled` over chunks of `k` bytes, `n` of them from byte `at_`. -/
def filledChunks (b : Bitfield) (at_ k n : Nat) : Nat :=
  ((List.range n).map fun j => b.filledChunk (at_ + k * j) k).sum

/-- How many indices are set: whole words, then the bytes left. -/
def filled (b : Bitfield) : Nat :=
  let words := b.bytes.length / 8
  b.filledChunks 0 8 words + b.filledChunks (8 * words) 1 (b.bytes.length % 8)

theorem bitsSet_iff (b : Bitfield) (i n : Nat) :
    b.bitsSet i n = true ↔ ∀ j, i ≤ j → j < i + n → b.get j = true := by
  simp only [bitsSet, List.all_eq_true, List.mem_range]
  constructor
  · intro h j hlo hhi
    have := h (j - i) (by omega)
    rwa [Nat.add_sub_cancel' hlo] at this
  · intro h k hk
    exact h (i + k) (by omega) (by omega)

/-- A chunk of `k` bytes is all ones exactly when its `8 * k` bits are set. -/
theorem chunk_eq_ones (bytes : List UInt8) (at_ k : Nat) :
    leNat ((bytes.drop at_).take k) = 2 ^ (8 * k) - 1 ↔
      ∀ j, 8 * at_ ≤ j → j < 8 * (at_ + k) → bitAt bytes j = true := by
  have hbit : ∀ i, (leNat ((bytes.drop at_).take k)).testBit i =
      (bitAt bytes (8 * at_ + i) && decide (i < 8 * k)) := fun i => by
    rw [testBit_leNat, bitAt_take, bitAt_drop]
  constructor
  · intro h j hlo hhi
    have hj := hbit (j - 8 * at_)
    rw [h, Nat.testBit_two_pow_sub_one, Nat.add_sub_cancel' hlo,
      decide_eq_true (by omega : j - 8 * at_ < 8 * k), Bool.and_true] at hj
    exact hj.symm
  · intro h
    refine Nat.eq_of_testBit_eq fun i => ?_
    rw [hbit, Nat.testBit_two_pow_sub_one]
    by_cases hi : i < 8 * k
    · rw [h (8 * at_ + i) (by omega) (by omega)]
      rfl
    · simp [hi]

theorem wordsSet_iff (b : Bitfield) {i : Nat} (n : Nat) (hi : i % 8 = 0) :
    b.wordsSet i n = true ↔ ∀ j, i ≤ j → j < i + 64 * n → b.get j = true := by
  simp only [wordsSet, List.all_eq_true, List.mem_range, beq_iff_eq, get_eq_bitAt]
  constructor
  · intro h j hlo hhi
    have hchunk := (chunk_eq_ones b.bytes _ 8).mp (h ((j - i) / 64) (by omega))
    exact hchunk j (by omega) (by omega)
  · intro h k hk
    exact (chunk_eq_ones b.bytes _ 8).mpr fun j hlo hhi => h j (by omega) (by omega)

theorem bytesSet_iff (b : Bitfield) {i : Nat} (n : Nat) (hi : i % 8 = 0) :
    b.bytesSet i n = true ↔ ∀ j, i ≤ j → j < i + 8 * n → b.get j = true := by
  simp only [bytesSet, List.all_eq_true, List.mem_range, beq_iff_eq, get_eq_bitAt]
  constructor
  · intro h j hlo hhi
    have hchunk := (chunk_eq_ones b.bytes _ 1).mp (h ((j - i) / 8) (by omega))
    exact hchunk j (by omega) (by omega)
  · intro h k hk
    exact (chunk_eq_ones b.bytes _ 1).mpr fun j hlo hhi => h j (by omega) (by omega)

/-- **The span walk is complete.** -/
theorem allSet_iff (b : Bitfield) (start stop : Nat) :
    b.allSet start stop = true ↔ ∀ j, start ≤ j → j < stop → b.get j = true := by
  unfold allSet
  dsimp only
  split_ifs with hempty hlong
  · simp only [true_iff]
    intro j hlo hhi
    omega
  · simp only [false_iff, not_forall]
    refine ⟨stop - 1, by omega, by omega, ?_⟩
    rw [get, if_pos (by omega)]
    exact Bool.noConfusion
  · set i₁ := min stop (8 * byteLen start) with hi₁
    have hround : start ≤ 8 * byteLen start := by unfold byteLen; omega
    have hstart : start ≤ i₁ := by omega
    by_cases hall : i₁ = stop
    · -- the span ends before the first byte boundary
      have hzero : stop - i₁ = 0 := by omega
      simp only [hzero, Nat.zero_div, Nat.mul_zero, Nat.add_zero, Bool.and_eq_true, bitsSet_iff,
        wordsSet, bytesSet, List.range_zero, List.all_nil, and_true]
      constructor
      · intro h j hlo hhi
        exact h.1 j hlo (by omega)
      · intro h
        exact ⟨fun j hlo hhi => h j hlo (by omega), fun j hlo hhi => h j (by omega) (by omega)⟩
    · have hround : i₁ % 8 = 0 := by omega
      simp only [Bool.and_eq_true, bitsSet_iff, wordsSet_iff _ _ hround,
        bytesSet_iff _ _ (show (i₁ + 64 * ((stop - i₁) / 64)) % 8 = 0 by omega)]
      constructor
      · rintro ⟨⟨⟨hhead, hwords⟩, hbytes⟩, htail⟩ j hlo hhi
        by_cases h₁ : j < i₁
        · exact hhead j hlo (by omega)
        · by_cases h₂ : j < i₁ + 64 * ((stop - i₁) / 64)
          · exact hwords j (by omega) h₂
          · by_cases h₃ : j < i₁ + 64 * ((stop - i₁) / 64) +
                8 * ((stop - (i₁ + 64 * ((stop - i₁) / 64))) / 8)
            · exact hbytes j (by omega) h₃
            · exact htail j (by omega) (by omega)
      · intro h
        exact ⟨⟨⟨fun j _ _ => h j (by omega) (by omega), fun j _ _ => h j (by omega) (by omega)⟩,
          fun j _ _ => h j (by omega) (by omega)⟩, fun j _ _ => h j (by omega) (by omega)⟩

/-- A chunk of the field, masked at the tail, has the field's marks. -/
theorem testBit_masked (b : Bitfield) (at_ k i : Nat) :
    (match tailValidBits (at_ * 8) (8 * k) b.nbits with
      | some valid => leNat ((b.bytes.drop at_).take k) % 2 ^ valid
      | none => leNat ((b.bytes.drop at_).take k)).testBit i =
      (b.get (8 * at_ + i) && decide (i < 8 * k)) := by
  have hraw : (leNat ((b.bytes.drop at_).take k)).testBit i =
      (b.get (8 * at_ + i) && decide (i < 8 * k)) := by
    rw [testBit_leNat, bitAt_take, bitAt_drop, get_eq_bitAt]
  cases hvalid : tailValidBits (at_ * 8) (8 * k) b.nbits with
  | none => exact hraw
  | some valid =>
    have hv : valid = b.nbits - at_ * 8 := by
      unfold tailValidBits at hvalid
      split_ifs at hvalid
      exact (Option.some.inj hvalid).symm
    dsimp only
    rw [Nat.testBit_mod_two_pow, hraw]
    by_cases hi : i < valid
    · rw [decide_eq_true hi, Bool.true_and]
    · have hpast : b.get (8 * at_ + i) = false := if_pos (by omega)
      rw [hpast, Bool.false_and, Bool.and_false]

/-! ## Counting -/

theorem filledChunk_eq (b : Bitfield) (at_ k : Nat) :
    b.filledChunk at_ k = (List.range (8 * k)).countP fun i => b.get (8 * at_ + i) := by
  unfold filledChunk popCount
  dsimp only
  refine List.countP_congr fun i hi => ?_
  rw [testBit_masked, decide_eq_true (List.mem_range.mp hi), Bool.and_true]

theorem filledChunks_eq (b : Bitfield) (at_ k n : Nat) :
    b.filledChunks at_ k n =
      (List.range (8 * k * n)).countP fun i => b.get (8 * at_ + i) := by
  induction n with
  | zero => rfl
  | succ n ih =>
    have hsplit : 8 * k * (n + 1) = 8 * k * n + 8 * k := Nat.mul_succ ..
    have hnext : ∀ i, 8 * at_ + (8 * k * n + i) = 8 * (at_ + k * n) + i := fun i => by
      rw [Nat.mul_add, Nat.mul_assoc, Nat.add_assoc]
    have hlast : b.filledChunks at_ k (n + 1) =
        b.filledChunks at_ k n + b.filledChunk (at_ + k * n) k := by
      simp only [filledChunks, List.range_succ, List.map_append, List.sum_append, List.map_cons,
        List.map_nil, List.sum_singleton]
    rw [hlast, ih, filledChunk_eq, hsplit, List.range_add, List.countP_append, List.countP_map]
    simp only [Function.comp_def, hnext]

/-- **The count is the number of marks**: pad bits are in no chunk's count. -/
theorem filled_eq_card (b : Bitfield) :
    b.filled = ((Finset.range b.nbits).filter fun i => b.get i = true).card := by
  have hbytes : b.filled = (List.range (8 * b.bytes.length)).countP b.get := by
    have hsplit : 8 * b.bytes.length =
        8 * 8 * (b.bytes.length / 8) + 8 * 1 * (b.bytes.length % 8) := by omega
    have hwhole : 8 * (8 * (b.bytes.length / 8)) = 8 * 8 * (b.bytes.length / 8) := by omega
    unfold filled
    dsimp only
    rw [filledChunks_eq, filledChunks_eq, hsplit, List.range_add, List.countP_append,
      List.countP_map]
    simp only [Function.comp_def, Nat.mul_zero, Nat.zero_add, hwhole]
  have hround : b.nbits ≤ 8 * b.bytes.length := by
    rw [b.length_eq, byteLen]
    omega
  have hpad : (List.range (8 * b.bytes.length)).countP b.get =
      (List.range b.nbits).countP b.get := by
    obtain ⟨pad, hpad⟩ := Nat.exists_eq_add_of_le hround
    rw [hpad, List.range_add, List.countP_append, List.countP_map, Nat.add_eq_left,
      List.countP_eq_zero]
    intro i _
    rw [Function.comp_apply, get, if_pos (Nat.le_add_right ..)]
    exact Bool.noConfusion
  rw [hbytes, hpad, List.countP_eq_length_filter, ← List.toFinset_card_of_nodup]
  · congr 1
    ext i
    simp
  · exact List.nodup_range.filter _

/-! ## The highest index -/

/-- One step of the word loop, with what the word holds. -/
theorem lastSetWords_succ (b : Bitfield) (rest words : Nat) :
    ∃ w : Nat, (∀ i, w.testBit i = (b.get (8 * (8 * words + rest) + i) && decide (i < 8 * 8))) ∧
      b.lastSetWords rest (words + 1) =
        if w ≠ 0 then some ((8 * words + rest) * 8 + w.log2) else b.lastSetWords rest words :=
  ⟨_, testBit_masked b (8 * words + rest) 8, rfl⟩

/-- A word that is zero has no mark. -/
theorem get_of_word_eq_zero {b : Bitfield} {w lo i : Nat}
    (hmask : ∀ i, w.testBit i = (b.get (lo + i) && decide (i < 8 * 8))) (hzero : w = 0)
    (hlo : lo ≤ i) (hhi : i < lo + 64) : b.get i = false := by
  have hbit := hmask (i - lo)
  rw [hzero, Nat.zero_testBit, Nat.add_sub_cancel' hlo, decide_eq_true (by omega),
    Bool.and_true] at hbit
  exact hbit.symm

theorem lastSetBytes_eq_none {b : Bitfield} (h : ∀ i, b.get i = false) (stop : Nat) :
    b.lastSetBytes stop = none := by
  induction stop with
  | zero => rfl
  | succ stop ih =>
    have hclear : ∀ i, bitAt b.bytes i = false := fun i => by rw [← get_eq_bitAt, h]
    have hfind : (List.range 8).reverse.find? (fun bit =>
        decide (stop * 8 + bit < b.nbits) && bitAt b.bytes (stop * 8 + bit)) = none := by
      simp only [hclear, Bool.and_false, List.find?_eq_none]
      exact fun _ _ => Bool.noConfusion
    rw [lastSetBytes, hfind]
    exact ih

theorem lastSetWords_eq_none {b : Bitfield} (h : ∀ i, b.get i = false) (rest words : Nat) :
    b.lastSetWords rest words = none := by
  induction words with
  | zero => exact lastSetBytes_eq_none h rest
  | succ words ih =>
    obtain ⟨w, hmask, hstep⟩ := lastSetWords_succ b rest words
    have hzero : w = 0 := Nat.eq_of_testBit_eq fun i => by
      rw [hmask, h, Bool.false_and, Nat.zero_testBit]
    rw [hstep, if_neg (not_not.mpr hzero)]
    exact ih

theorem lastSet_eq_none {b : Bitfield} (h : ∀ i, b.get i = false) : b.lastSet = none :=
  lastSetWords_eq_none h _ _

theorem get_of_lastSetBytes {b : Bitfield} {stop : Nat} (h : b.lastSetBytes stop = none) {i : Nat}
    (hi : i < 8 * stop) : b.get i = false := by
  induction stop with
  | zero => omega
  | succ stop ih =>
    rw [lastSetBytes] at h
    split at h
    · cases h
    · rename_i hfind
      by_cases hlow : i < 8 * stop
      · exact ih h hlow
      · simp only [List.find?_eq_none, List.mem_reverse, List.mem_range, Bool.and_eq_true,
          decide_eq_true_iff, not_and, Bool.not_eq_true] at hfind
        have hbit := hfind (i - 8 * stop) (by omega)
        rw [show stop * 8 + (i - 8 * stop) = i by omega] at hbit
        rw [get_eq_bitAt]
        by_cases hn : i < b.nbits
        · exact hbit hn
        · exact b.pad_clear i (Nat.not_lt.mp hn)

theorem get_of_lastSetWords {b : Bitfield} {rest words : Nat}
    (h : b.lastSetWords rest words = none) {i : Nat} (hi : i < 8 * (8 * words + rest)) :
    b.get i = false := by
  induction words with
  | zero => exact get_of_lastSetBytes h (by omega)
  | succ words ih =>
    obtain ⟨w, hmask, hstep⟩ := lastSetWords_succ b rest words
    rw [hstep] at h
    split_ifs at h with hne
    by_cases hlow : i < 8 * (8 * words + rest)
    · exact ih h hlow
    · exact get_of_word_eq_zero hmask (not_not.mp hne) (Nat.not_lt.mp hlow) (by omega)

theorem lastSet_eq_none_iff {b : Bitfield} : b.lastSet = none ↔ ∀ i, b.get i = false := by
  refine ⟨fun h i => ?_, lastSet_eq_none⟩
  by_cases hi : i < 8 * b.bytes.length
  · exact get_of_lastSetWords h (by omega)
  · rw [get_eq_bitAt]
    exact bitAt_of_length_le (by omega)

theorem lastSetBytes_eq_some {b : Bitfield} {stop i : Nat} (h : b.lastSetBytes stop = some i) :
    b.get i = true ∧ ∀ j, j < 8 * stop → b.get j = true → j ≤ i := by
  induction stop with
  | zero => cases h
  | succ stop ih =>
    rw [lastSetBytes] at h
    split at h
    · rename_i bit hfind
      cases h
      obtain ⟨hbit, above, below, hsplit, habove⟩ := List.find?_eq_some_iff_append.mp hfind
      rw [Bool.and_eq_true, ← get_eq_bitAt] at hbit
      refine ⟨hbit.2, fun j hj hset => ?_⟩
      by_contra hgt
      -- a higher bit of this byte stands before the one found
      have hsorted : (above ++ bit :: below).Pairwise (· > ·) := by
        rw [← hsplit]
        decide
      have hmem : j - stop * 8 ∈ above ++ bit :: below := by
        rw [← hsplit, List.mem_reverse, List.mem_range]
        omega
      have hbelow : ∀ c ∈ below, c < bit :=
        (List.pairwise_cons.mp (List.pairwise_append.mp hsorted).2.1).1
      rcases List.mem_append.mp hmem with hin | hin
      · have hclear := habove _ hin
        rw [Nat.add_sub_cancel' (by omega), ← get_eq_bitAt, hset,
          decide_eq_true (lt_of_get hset)] at hclear
        exact Bool.noConfusion hclear
      · rcases List.mem_cons.mp hin with heq | hin
        · omega
        · have := hbelow _ hin
          omega
    · rename_i hfind
      refine ⟨(ih h).1, fun j hj hset => ?_⟩
      by_cases hlow : j < 8 * stop
      · exact (ih h).2 j hlow hset
      · simp only [List.find?_eq_none, List.mem_reverse, List.mem_range, Bool.and_eq_true,
          decide_eq_true_iff, not_and, Bool.not_eq_true] at hfind
        have hbit := hfind (j - 8 * stop) (by omega)
        rw [show stop * 8 + (j - 8 * stop) = j by omega, ← get_eq_bitAt, hset] at hbit
        exact absurd (hbit (lt_of_get hset)) Bool.noConfusion

theorem lastSetWords_eq_some {b : Bitfield} {rest words i : Nat}
    (h : b.lastSetWords rest words = some i) :
    b.get i = true ∧ ∀ j, j < 8 * (8 * words + rest) → b.get j = true → j ≤ i := by
  induction words with
  | zero =>
    obtain ⟨hset, hmax⟩ := lastSetBytes_eq_some h
    exact ⟨hset, fun j hj => hmax j (by omega)⟩
  | succ words ih =>
    obtain ⟨w, hmask, hstep⟩ := lastSetWords_succ b rest words
    rw [hstep] at h
    split_ifs at h with hne
    · cases h
      have htop := hmask w.log2
      rw [Nat.testBit_log2 hne, eq_comm, Bool.and_eq_true] at htop
      rw [Nat.mul_comm (8 * words + rest) 8]
      refine ⟨htop.1, fun j hj hset => ?_⟩
      by_contra hgt
      have hclear := hmask (j - 8 * (8 * words + rest))
      rw [Nat.testBit_lt_two_pow (lt_of_lt_of_le Nat.lt_log2_self
        (Nat.pow_le_pow_right (by decide) (by omega))), Nat.add_sub_cancel' (by omega), hset,
        decide_eq_true (by omega)] at hclear
      exact Bool.noConfusion hclear
    · refine ⟨(ih h).1, fun j hj hset => ?_⟩
      by_cases hlow : j < 8 * (8 * words + rest)
      · exact (ih h).2 j hlow hset
      · exact absurd hset (by
          rw [get_of_word_eq_zero hmask (not_not.mp hne) (Nat.not_lt.mp hlow) (by omega)]
          exact Bool.noConfusion)

/-- **The backward scan finds the highest mark.** -/
theorem isGreatest_of_lastSet {b : Bitfield} {i : Nat} (h : b.lastSet = some i) :
    IsGreatest {j | b.get j = true} i := by
  obtain ⟨hset, hmax⟩ := lastSetWords_eq_some h
  refine ⟨hset, fun j hj => hmax j ?_ hj⟩
  have hlt := lt_of_get hj
  have hlen := b.length_eq
  unfold byteLen at hlen
  omega

end Bitfield

end ModelFs
