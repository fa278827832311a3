import Mathlib.Data.List.Basic
import Mathlib.Tactic.Ring
import ModelFs.Lib.LittleEndian

/-!
# Bits packed into bytes

Bit `i` of a byte string is bit `i % 8` of byte `i / 8`; an index past the string is unset. The
lemmas say what each byte operation does to the set of set bits, so that a client reasons
about indices only.

* `bitAt_setBit`, `bitAt_clearBit` — one bit changes.
* `bitAt_keepBelow` — masking the last byte drops every bit from `n` on.
* `bitAt_append` — reading across a concatenation.
* `testBit_leNat` — the packed bits are the bits of the little-endian number.
* `le_of_sub_top_clear` — one subtraction compares every byte of a word.
-/

namespace ModelFs

/-- Bytes needed for `n` bits. -/
def byteLen (n : Nat) : Nat := (n + 7) / 8

/-- Bit `i` of a packed byte string. -/
def bitAt (bytes : List UInt8) (i : Nat) : Bool :=
  match bytes[i / 8]? with
  | some b => b.toBitVec.getLsbD (i % 8)
  | none => false

/-- The byte with bit `k` alone set. -/
def bitMask (k : Nat) : UInt8 := ⟨BitVec.twoPow 8 k⟩

/-- The byte with the bits below `k` set. -/
def lowMask (k : Nat) : UInt8 := ⟨BitVec.ofNat 8 (2 ^ k - 1)⟩

def setBit (bytes : List UInt8) (i : Nat) : List UInt8 :=
  bytes.modify (i / 8) (· ||| bitMask (i % 8))

def clearBit (bytes : List UInt8) (i : Nat) : List UInt8 :=
  bytes.modify (i / 8) (· &&& ~~~bitMask (i % 8))

/-- Mask the byte that holds bit `n`, keeping its bits below `n`. Nothing happens when `n` is a
byte boundary. -/
def keepBelow (bytes : List UInt8) (n : Nat) : List UInt8 :=
  if n % 8 = 0 then bytes else bytes.modify (n / 8) (· &&& lowMask (n % 8))

@[simp] theorem length_setBit (bytes : List UInt8) (i : Nat) :
    (setBit bytes i).length = bytes.length := by simp [setBit]

@[simp] theorem length_clearBit (bytes : List UInt8) (i : Nat) :
    (clearBit bytes i).length = bytes.length := by simp [clearBit]

@[simp] theorem length_keepBelow (bytes : List UInt8) (n : Nat) :
    (keepBelow bytes n).length = bytes.length := by
  unfold keepBelow
  split <;> simp

theorem getLsbD_lowMask {k j : Nat} (hj : j < 8) :
    (lowMask k).toBitVec.getLsbD j = decide (j < k) := by
  rw [lowMask, BitVec.getLsbD_ofNat, Nat.testBit_two_pow_sub_one, decide_eq_true hj, Bool.true_and]

theorem bitAt_of_length_le {bytes : List UInt8} {i : Nat} (h : bytes.length ≤ i / 8) :
    bitAt bytes i = false := by
  rw [bitAt, List.getElem?_eq_none h]

/-- A string of `byteLen n` bytes has no bit from `8 * byteLen n` on. -/
theorem bitAt_of_byteLen {bytes : List UInt8} {n i : Nat} (hlen : bytes.length = byteLen n)
    (hi : 8 * byteLen n ≤ i) : bitAt bytes i = false :=
  bitAt_of_length_le (by omega)

@[simp] theorem bitAt_replicate (k i : Nat) : bitAt (List.replicate k 0) i = false := by
  unfold bitAt
  rw [List.getElem?_replicate]
  by_cases h : i / 8 < k <;> simp [h]

theorem bitAt_setBit (bytes : List UInt8) (i j : Nat) :
    bitAt (setBit bytes i) j = (bitAt bytes j || (decide (i = j) && decide (i / 8 < bytes.length))) := by
  unfold bitAt setBit
  rw [List.getElem?_modify]
  by_cases hb : i / 8 = j / 8
  · rw [hb]
    cases hj : bytes[j / 8]? with
    | none =>
      have hlen : ¬ j / 8 < bytes.length := by simpa using hj
      simp [hlen]
    | some b =>
      have hlen : j / 8 < bytes.length := (List.getElem?_eq_some_iff.mp hj).1
      have hij : i % 8 = j % 8 ↔ i = j := by omega
      have hlt : i % 8 < 8 := Nat.mod_lt _ (by decide)
      simp [hlen, bitMask, BitVec.getLsbD_twoPow, hlt, hij]
  · have hne : i ≠ j := fun h => hb (by rw [h])
    simp [hb, hne]

theorem bitAt_clearBit (bytes : List UInt8) (i j : Nat) :
    bitAt (clearBit bytes i) j = (bitAt bytes j && decide (i ≠ j)) := by
  unfold bitAt clearBit
  rw [List.getElem?_modify]
  by_cases hb : i / 8 = j / 8
  · rw [hb]
    cases hj : bytes[j / 8]? with
    | none => simp
    | some b =>
      have hij : j % 8 = i % 8 ↔ i = j := by omega
      have hj8 : j % 8 < 8 := Nat.mod_lt _ (by decide)
      simp [bitMask, hj8, hij]
  · have hne : i ≠ j := fun h => hb (by rw [h])
    simp [hb, hne]

/-- **Masking the tail.** In a string of `byteLen n` bytes, `keepBelow n` drops exactly the
bits from `n` on. -/
theorem bitAt_keepBelow {bytes : List UInt8} {n : Nat} (hlen : bytes.length = byteLen n)
    (j : Nat) : bitAt (keepBelow bytes n) j = (bitAt bytes j && decide (j < n)) := by
  unfold keepBelow
  split_ifs with hn
  · by_cases hj : j < n
    · simp [hj]
    · have hfar : 8 * byteLen n ≤ j := by unfold byteLen; omega
      simp [hj, bitAt_of_byteLen hlen hfar]
  · unfold bitAt
    rw [List.getElem?_modify]
    by_cases hb : n / 8 = j / 8
    · rw [hb]
      cases hj : bytes[j / 8]? with
      | none => simp
      | some b =>
        have hlt : j % 8 < n % 8 ↔ j < n := by omega
        have hj8 : j % 8 < 8 := Nat.mod_lt _ (by decide)
        simp only [ite_true, Option.map_eq_map, Option.map_some, UInt8.toBitVec_and,
          BitVec.getLsbD_and, getLsbD_lowMask hj8, hlt]
    · by_cases hj : j < n
      · simp [hb, hj]
      · have hfar : bytes[j / 8]? = none := by
          apply List.getElem?_eq_none
          unfold byteLen at hlen
          omega
        simp [hb, hj, hfar]

/-- A concatenation reads its first part below the seam and its second part above it. -/
theorem bitAt_append (a b : List UInt8) (i : Nat) :
    bitAt (a ++ b) i = if i < 8 * a.length then bitAt a i else bitAt b (i - 8 * a.length) := by
  unfold bitAt
  by_cases h : i < 8 * a.length
  · rw [if_pos h, List.getElem?_append_left (by omega)]
  · have hdiv : (i - 8 * a.length) / 8 = i / 8 - a.length := by omega
    have hmod : (i - 8 * a.length) % 8 = i % 8 := by omega
    rw [if_neg h, List.getElem?_append_right (by omega), hdiv, hmod]

theorem bitAt_drop (bytes : List UInt8) (k i : Nat) :
    bitAt (bytes.drop k) i = bitAt bytes (8 * k + i) := by
  have hdiv : (8 * k + i) / 8 = k + i / 8 := by omega
  have hmod : (8 * k + i) % 8 = i % 8 := by omega
  unfold bitAt
  rw [List.getElem?_drop, hdiv, hmod]

theorem bitAt_take (bytes : List UInt8) (k i : Nat) :
    bitAt (bytes.take k) i = (bitAt bytes i && decide (i < 8 * k)) := by
  unfold bitAt
  by_cases h : i / 8 < k
  · have hi : i < 8 * k := by omega
    simp [h, hi]
  · have hi : ¬ i < 8 * k := by omega
    simp [h, hi]

theorem bitAt_cons (b : UInt8) (bytes : List UInt8) (i : Nat) :
    bitAt (b :: bytes) i = if i < 8 then b.toBitVec.getLsbD i else bitAt bytes (i - 8) := by
  have happ := bitAt_append [b] bytes i
  rw [List.singleton_append, List.length_singleton, Nat.mul_one] at happ
  rw [happ]
  split_ifs with h
  · have hdiv : i / 8 = 0 := by omega
    have hmod : i % 8 = i := by omega
    simp [bitAt, hdiv, hmod]
  · rfl

/-- **The packed bits are the number's bits.** -/
theorem testBit_leNat (bytes : List UInt8) (i : Nat) : (leNat bytes).testBit i = bitAt bytes i := by
  induction bytes generalizing i with
  | nil => simp [leNat, bitAt]
  | cons b bs ih =>
    have hsplit : leNat (b :: bs) = 2 ^ 8 * leNat bs + b.toNat := by rw [leNat]; ring
    have hb : b.toNat < 2 ^ 8 := b.toNat_lt
    rw [hsplit, Nat.testBit_two_pow_mul_add _ hb, bitAt_cons]
    split_ifs with h
    · rfl
    · exact ih (i - 8)

/-- Byte strings of one length with the same bits are equal. -/
theorem eq_of_bitAt {a b : List UInt8} (hlen : a.length = b.length)
    (h : ∀ i, bitAt a i = bitAt b i) : a = b := by
  refine List.ext_getElem hlen fun k ha hb => ?_
  refine UInt8.toBitVec_inj.mp (BitVec.eq_of_getLsbD_eq fun j hj => ?_)
  have hbit := h (8 * k + j)
  have hdiv : (8 * k + j) / 8 = k := by omega
  have hmod : (8 * k + j) % 8 = j := by omega
  simpa only [bitAt, hdiv, hmod, List.getElem?_eq_getElem ha, List.getElem?_eq_getElem hb]
    using hbit

/-! ## Tests on all bytes of a word at once -/

/-- A byte with its top bit clear is below 128. -/
theorem lt_of_top_clear {b : UInt8} (h : b.toBitVec.getLsbD 7 = false) : b.toNat < 128 := by
  have hbit : b.toNat.testBit 7 = false := h
  rw [Nat.testBit_eq_decide_div_mod_eq, decide_eq_false_iff_not] at hbit
  have hb := b.toNat_lt
  omega

theorem leNat_replicate_lt (t : UInt8) (n : Nat) : leNat (List.replicate n t) < 256 ^ n := by
  have h := leNat_lt (List.replicate n t)
  rwa [List.length_replicate] at h

/-- **No borrow.** Take `t` from every byte of a word at once, all of them below 128. If no byte of
the difference has its top bit set, then no byte was below `t`. -/
theorem le_of_sub_top_clear {t : UInt8} (ht : t.toNat ≤ 128) {bytes : List UInt8}
    (hlow : ∀ b ∈ bytes, b.toNat < 128)
    (hclear : ∀ k < bytes.length, ((leNat bytes + 256 ^ bytes.length -
      leNat (List.replicate bytes.length t)) % 256 ^ bytes.length).testBit (8 * k + 7) = false) :
    ∀ b ∈ bytes, t.toNat ≤ b.toNat := by
  induction bytes with
  | nil => simp
  | cons b bs ih =>
    have hb := hlow b (List.mem_cons_self ..)
    have hfit := leNat_replicate_lt t bs.length
    simp only [List.length_cons, List.replicate_succ, leNat] at hclear
    generalize leNat (List.replicate bs.length t) = rest at hfit hclear ih
    -- the difference, its lowest byte apart
    have hsplit : ∀ x : Nat, x % (256 ^ (bs.length + 1)) =
        2 ^ 8 * (x / 256 % 256 ^ bs.length) + x % 256 := fun x => by
      rw [pow_succ', Nat.mod_mul, Nat.add_comm]
      rfl
    have hgrow : (256 : Nat) ^ (bs.length + 1) = 256 * 256 ^ bs.length := pow_succ' ..
    have hbit : ∀ k, ((b.toNat + 256 * leNat bs + 256 ^ (bs.length + 1) - (t.toNat + 256 * rest)) %
        256 ^ (bs.length + 1)).testBit k =
        if k < 8 then ((b.toNat + 256 - t.toNat) % 256).testBit k
        else ((b.toNat + 256 * leNat bs + 256 ^ (bs.length + 1) - (t.toNat + 256 * rest)) / 256 %
          256 ^ bs.length).testBit (k - 8) := fun k => by
      rw [hsplit, Nat.testBit_two_pow_mul_add _ (Nat.mod_lt _ (by decide))]
      congr 2
      omega
    have hle : t.toNat ≤ b.toNat := by
      have htop := hclear 0 (Nat.succ_pos _)
      rw [hbit, if_pos (by omega), Nat.testBit_eq_decide_div_mod_eq,
        decide_eq_false_iff_not] at htop
      omega
    refine List.forall_mem_cons.mpr ⟨hle, ih (fun c hc => hlow c (List.mem_cons_of_mem _ hc)) ?_⟩
    intro k hk
    have hnext := hclear (k + 1) (Nat.succ_lt_succ hk)
    have hquot : (b.toNat + 256 * leNat bs + 256 ^ (bs.length + 1) - (t.toNat + 256 * rest)) / 256 =
        leNat bs + 256 ^ bs.length - rest := by omega
    rw [hbit, if_neg (by omega), hquot] at hnext
    rwa [show 8 * (k + 1) + 7 - 8 = 8 * k + 7 by omega] at hnext

/-- A word's bytes under one mask. -/
theorem leNat_map_xor (m : UInt8) (bytes : List UInt8) :
    leNat (bytes.map (· ^^^ m)) = leNat bytes ^^^ leNat (List.replicate bytes.length m) := by
  refine Nat.eq_of_testBit_eq fun i => ?_
  rw [Nat.testBit_xor, testBit_leNat, testBit_leNat, testBit_leNat]
  unfold bitAt
  rw [List.getElem?_map, List.getElem?_replicate]
  by_cases hi : i / 8 < bytes.length
  · rw [List.getElem?_eq_getElem hi, if_pos hi]
    simp
  · rw [List.getElem?_eq_none (Nat.not_lt.mp hi), if_neg hi]
    rfl

end ModelFs
