import ModelFs.Lib.PackedBits
import ModelFs.Lib.Utf8
import Mathlib.Tactic.IntervalCases

/-!
# The gate on control characters

`proto.containsControl` keeps names that would act on a terminal or pass for another name out of
every log line and every lease. It never decodes: it skips eight bytes at a time while they are
plain printable bytes, and then looks for lead and continuation bytes position by position. The
reference decodes every position and asks for the scalar.

* `containsControlBytes_of_word` — the words skipped hide nothing.
* `utf8FormatControlAt_iff` — the byte patterns at one position, as scalar values.
* `containsControl_iff` — **what the scanner refuses**, over all strings.
* `containsControl_eq_iff` — **where the scanner is the reference**. The pattern of the tag block
  takes lead bytes `F3 A0` to `F3 A3`, four times the block its comment names.
-/

namespace ModelFs

/-! ## The scanner -/

/-- Any byte in `w` is C0, DEL or not ASCII. -/
def asciiWordHasControlOrNonAscii (w : UInt64) : Bool :=
  let hi : UInt64 := 0x8080808080808080
  let sp : UInt64 := 0x2020202020202020
  let one : UInt64 := 0x0101010101010101
  let del : UInt64 := 0x7f7f7f7f7f7f7f7f
  if w &&& hi ≠ 0 then true
  else if (w - sp) &&& ~~~w &&& hi ≠ 0 then true
  else
    let x := w ^^^ del
    decide ((x - one) &&& ~~~x &&& hi ≠ 0)

/-- The patterns of two bytes. -/
def FormatTwo (ch b : Nat) : Prop :=
  (ch = 0xc2 ∧ ((0x80 ≤ b ∧ b ≤ 0x9f) ∨ b = 0xad)) ∨ (ch = 0xcd ∧ b = 0x8f) ∨
    (ch = 0xd8 ∧ b = 0x9c)

/-- The patterns of three bytes. -/
def FormatThree (ch b c3 : Nat) : Prop :=
  (ch = 0xe1 ∧ ((b = 0x85 ∧ (c3 = 0x9f ∨ c3 = 0xa0)) ∨ (b = 0x9e ∧ (c3 = 0xb4 ∨ c3 = 0xb5)) ∨
      (b = 0xa0 ∧ 0x8b ≤ c3 ∧ c3 ≤ 0x8f))) ∨
    (ch = 0xe2 ∧ ((b = 0x80 ∧ ((0x8b ≤ c3 ∧ c3 ≤ 0x8f) ∨ (0xa8 ≤ c3 ∧ c3 ≤ 0xae))) ∨
      (b = 0x81 ∧ 0xa0 ≤ c3 ∧ c3 ≤ 0xaf))) ∨
    (ch = 0xe3 ∧ b = 0x85 ∧ c3 = 0xa4) ∨
    (ch = 0xef ∧ ((b = 0xb8 ∧ 0x80 ≤ c3 ∧ c3 ≤ 0x8f) ∨ (b = 0xbb ∧ c3 = 0xbf) ∨
      (b = 0xbe ∧ c3 = 0xa0) ∨ (b = 0xbf ∧ 0xb0 ≤ c3 ∧ c3 ≤ 0xbb)))

/-- The patterns of four bytes. -/
def FormatFour (ch b c2 c3 : Nat) : Prop :=
  (ch = 0xf0 ∧ ((b = 0x9b ∧ c2 = 0xb2 ∧ 0xa0 ≤ c3 ∧ c3 ≤ 0xa3) ∨
      (b = 0x9d ∧ c2 = 0x85 ∧ 0xb3 ≤ c3 ∧ c3 ≤ 0xba))) ∨
    (ch = 0xf3 ∧ (0xa0 ≤ b ∧ b ≤ 0xa3) ∧ (0x80 ≤ c2 ∧ c2 ≤ 0xbf) ∧ 0x80 ≤ c3 ∧ c3 ≤ 0xbf)

instance (ch b : Nat) : Decidable (FormatTwo ch b) := inferInstanceAs (Decidable (_ ∨ _))

instance (ch b c3 : Nat) : Decidable (FormatThree ch b c3) := inferInstanceAs (Decidable (_ ∨ _))

instance (ch b c2 c3 : Nat) : Decidable (FormatFour ch b c2 c3) :=
  inferInstanceAs (Decidable (_ ∨ _))

/-- The blocks at the head of `s`, each only when the string has its bytes. -/
def utf8FormatControlAt : List UInt8 → Bool
  | ch :: b :: c2 :: c3 :: _ =>
    decide (FormatTwo ch.toNat b.toNat ∨ FormatThree ch.toNat b.toNat c2.toNat ∨
      FormatFour ch.toNat b.toNat c2.toNat c3.toNat)
  | [ch, b, c3] => decide (FormatTwo ch.toNat b.toNat ∨ FormatThree ch.toNat b.toNat c3.toNat)
  | [ch, b] => decide (FormatTwo ch.toNat b.toNat)
  | _ => false

def containsControlBytes : List UInt8 → Bool
  | [] => false
  | ch :: rest =>
    if ch.toNat < 0x20 ∨ ch.toNat = 0x7f then true
    else if utf8FormatControlAt (ch :: rest) then true
    else containsControlBytes rest

/-- Whole words are skipped while they are printable ASCII. -/
def containsControl : List UInt8 → Bool
  | a :: b :: c :: d :: e :: f :: g :: h :: rest =>
    if asciiWordHasControlOrNonAscii (UInt64.ofNat (leNat [a, b, c, d, e, f, g, h])) then
      containsControlBytes (a :: b :: c :: d :: e :: f :: g :: h :: rest)
    else containsControl rest
  | s => containsControlBytes s

/-! ## The reference -/

/-- The refused set as scalar ranges. -/
def IsControlScalar (cp : Nat) : Prop :=
  (cp < 0x20 ∨ cp = 0x7f) ∨ (0x80 ≤ cp ∧ cp ≤ 0x9f) ∨
    cp ∈ [0x00ad, 0x034f, 0x061c, 0x115f, 0x1160, 0x17b4, 0x17b5, 0x3164, 0xfeff, 0xffa0] ∨
    (0x180b ≤ cp ∧ cp ≤ 0x180f) ∨ (0x1bca0 ≤ cp ∧ cp ≤ 0x1bca3) ∨ (0x200b ≤ cp ∧ cp ≤ 0x200f) ∨
    (0x2028 ≤ cp ∧ cp ≤ 0x202e) ∨ (0x2060 ≤ cp ∧ cp ≤ 0x206f) ∨ (0xfe00 ≤ cp ∧ cp ≤ 0xfe0f) ∨
    (0xfff0 ≤ cp ∧ cp ≤ 0xfffb) ∨ (0x1d173 ≤ cp ∧ cp ≤ 0x1d17a) ∨ (0xe0000 ≤ cp ∧ cp ≤ 0xe0fff)

instance (cp : Nat) : Decidable (IsControlScalar cp) := inferInstanceAs (Decidable (_ ∨ _))

def refContainsControl : List UInt8 → Bool
  | [] => false
  | ch :: rest =>
    if ch.toNat < 0x20 ∨ ch.toNat = 0x7f then true
    else
      match multibyteAt (ch :: rest) with
      | none => refContainsControl rest
      | some cp => if IsControlScalar cp then true else refContainsControl rest

/-- A C0 or DEL byte, or the encoding of a refused scalar. -/
def HoldsControl (s : List UInt8) : Prop :=
  (∃ b ∈ s, b.toNat < 0x20 ∨ b.toNat = 0x7f) ∨ HoldsChar IsControlScalar s

/-- The scalars past the tag block that share its first lead byte. -/
def IsTagTail (cp : Nat) : Prop := 0xe1000 ≤ cp ∧ cp ≤ 0xe3fff

/-- The encoding of a scalar from `U+E1000` to `U+E3FFF`. -/
def HoldsTagTail (s : List UInt8) : Prop := HoldsChar IsTagTail s

/-! ## One position -/

section Position

variable {a b c d : UInt8} {v : Nat}

theorem control_two (hv : 0x80 ≤ v ∧ v ≤ 0x7ff) (h : IsControlScalar v ∨ IsTagTail v) :
    (0x80 ≤ v ∧ v ≤ 0x9f ∨ v = 0xad) ∨ v = 0x34f ∨ v = 0x61c := by
  unfold IsControlScalar IsTagTail at h
  simp only [List.mem_cons, List.not_mem_nil, or_false] at h
  rcases h with (h | h | h | h) | h
  all_goals omega

theorem control_three (hv : 0x800 ≤ v ∧ v ≤ 0xffff) (h : IsControlScalar v ∨ IsTagTail v) :
    (v = 0x115f ∨ v = 0x1160) ∨ (v = 0x17b4 ∨ v = 0x17b5) ∨ (0x180b ≤ v ∧ v ≤ 0x180f) ∨
      ((0x200b ≤ v ∧ v ≤ 0x200f) ∨ (0x2028 ≤ v ∧ v ≤ 0x202e)) ∨ (0x2060 ≤ v ∧ v ≤ 0x206f) ∨
      v = 0x3164 ∨ (0xfe00 ≤ v ∧ v ≤ 0xfe0f) ∨ v = 0xfeff ∨ v = 0xffa0 ∨
      (0xfff0 ≤ v ∧ v ≤ 0xfffb) := by
  unfold IsControlScalar IsTagTail at h
  simp only [List.mem_cons, List.not_mem_nil, or_false] at h
  rcases h with
    (h | h | (h | h | h | h | h | h | h | h | h | h) | h | h | h | h | h | h | h | h) | h
  all_goals omega

theorem control_four (hv : 0x10000 ≤ v) (h : IsControlScalar v ∨ IsTagTail v) :
    (0x1bca0 ≤ v ∧ v ≤ 0x1bca3) ∨ (0x1d173 ≤ v ∧ v ≤ 0x1d17a) ∨
      (0xe0000 ≤ v ∧ v ≤ 0xe3fff) := by
  unfold IsControlScalar IsTagTail at h
  simp only [List.mem_cons, List.not_mem_nil, or_false] at h
  rcases h with (h | h | h | h | h | h | h | h | h | h | h | h) | h
  all_goals omega

theorem formatTwo_iff :
    FormatTwo a.toNat b.toNat ↔ ∃ v, SpellsTwo v a b ∧ (IsControlScalar v ∨ IsTagTail v) := by
  constructor
  · unfold SpellsTwo IsControlScalar
    simp only [List.mem_cons, List.not_mem_nil, or_false]
    rintro (⟨ha, hb⟩ | ⟨ha, hb⟩ | ⟨ha, hb⟩)
    · exact ⟨b.toNat, by omega, by omega⟩
    · exact ⟨0x34f, by omega, by omega⟩
    · exact ⟨0x61c, by omega, by omega⟩
  · rintro ⟨v, ⟨hv, ha, hb⟩, hcontrol⟩
    rcases control_two hv hcontrol with h | rfl | rfl
    · exact Or.inl ⟨by omega, by omega⟩
    · exact Or.inr (Or.inl ⟨ha, hb⟩)
    · exact Or.inr (Or.inr ⟨ha, hb⟩)

theorem formatThree_iff :
    FormatThree a.toNat b.toNat c.toNat ↔
      ∃ v, SpellsThree v a b c ∧ (IsControlScalar v ∨ IsTagTail v) := by
  constructor
  · intro h
    -- every pattern names one block of 64 and a range in it
    refine ⟨(a.toNat - 0xe0) * 4096 + (b.toNat - 0x80) * 64 + (c.toNat - 0x80), ?_, Or.inl ?_⟩
    · unfold SpellsThree
      rcases h with ⟨ha, ⟨hb, hc⟩ | ⟨hb, hc⟩ | ⟨hb, hc⟩⟩ | ⟨ha, ⟨hb, hc⟩ | ⟨hb, hc⟩⟩ |
        ⟨ha, hb, hc⟩ | ⟨ha, ⟨hb, hc⟩ | ⟨hb, hc⟩ | ⟨hb, hc⟩ | ⟨hb, hc⟩⟩
      all_goals
        rw [ha, hb]
        omega
    · unfold IsControlScalar
      simp only [List.mem_cons, List.not_mem_nil, or_false]
      rcases h with ⟨ha, ⟨hb, hc⟩ | ⟨hb, hc⟩ | ⟨hb, hc⟩⟩ | ⟨ha, ⟨hb, hc | hc⟩ | ⟨hb, hc⟩⟩ |
        ⟨ha, hb, hc⟩ | ⟨ha, ⟨hb, hc⟩ | ⟨hb, hc⟩ | ⟨hb, hc⟩ | ⟨hb, hc⟩⟩
      all_goals
        rw [ha, hb]
        omega
  · rintro ⟨v, ⟨hv, ha, hb, hc⟩, hcontrol⟩
    rcases control_three ⟨hv.1, hv.2.1⟩ hcontrol with h | h | h | h | h | h | h | h | h | h
    all_goals clear hcontrol
    · exact Or.inl ⟨by omega, Or.inl ⟨by omega, by omega⟩⟩
    · exact Or.inl ⟨by omega, Or.inr (Or.inl ⟨by omega, by omega⟩)⟩
    · exact Or.inl ⟨by omega, Or.inr (Or.inr ⟨by omega, by omega⟩)⟩
    · exact Or.inr (Or.inl ⟨by omega, Or.inl ⟨by omega, by omega⟩⟩)
    · exact Or.inr (Or.inl ⟨by omega, Or.inr ⟨by omega, by omega⟩⟩)
    · exact Or.inr (Or.inr (Or.inl ⟨by omega, by omega, by omega⟩))
    · exact Or.inr (Or.inr (Or.inr ⟨by omega, Or.inl ⟨by omega, by omega⟩⟩))
    · exact Or.inr (Or.inr (Or.inr ⟨by omega, Or.inr (Or.inl ⟨by omega, by omega⟩)⟩))
    · exact Or.inr (Or.inr (Or.inr ⟨by omega, Or.inr (Or.inr (Or.inl ⟨by omega, by omega⟩))⟩))
    · exact Or.inr (Or.inr (Or.inr ⟨by omega, Or.inr (Or.inr (Or.inr ⟨by omega, by omega⟩))⟩))

theorem formatFour_iff :
    FormatFour a.toNat b.toNat c.toNat d.toNat ↔
      ∃ v, SpellsFour v a b c d ∧ (IsControlScalar v ∨ IsTagTail v) := by
  constructor
  · intro h
    refine ⟨(a.toNat - 0xf0) * 262144 + (b.toNat - 0x80) * 4096 + (c.toNat - 0x80) * 64 +
      (d.toNat - 0x80), ?_, ?_⟩
    · unfold SpellsFour
      unfold FormatFour at h
      omega
    · unfold IsControlScalar IsTagTail
      simp only [List.mem_cons, List.not_mem_nil, or_false]
      rcases h with ⟨ha, ⟨hb, hc, hd⟩ | ⟨hb, hc, hd⟩⟩ | ⟨ha, hb, hc, hd⟩
      all_goals omega
  · rintro ⟨v, ⟨hv, ha, hb, hc, hd⟩, hcontrol⟩
    rcases control_four hv.1 hcontrol with h | h | h
    all_goals clear hcontrol
    · exact Or.inl ⟨by omega, Or.inl ⟨by omega, by omega, by omega⟩⟩
    · exact Or.inl ⟨by omega, Or.inr ⟨by omega, by omega, by omega⟩⟩
    · exact Or.inr ⟨by omega, by omega, by omega, by omega⟩

end Position

/-- **One position.** The patterns hold where a refused scalar stands, or one of the tag tail. -/
theorem utf8FormatControlAt_iff {s : List UInt8} :
    utf8FormatControlAt s = true ↔
      ∃ v, multibyteAt s = some v ∧ (IsControlScalar v ∨ IsTagTail v) := by
  simp only [multibyteAt_iff_spelledAt]
  match s with
  | [] => simp [utf8FormatControlAt, SpelledAt]
  | [a] => simp [utf8FormatControlAt, SpelledAt]
  | [a, b] => simp only [utf8FormatControlAt, SpelledAt, decide_eq_true_iff, formatTwo_iff]
  | [a, b, c] =>
    simp only [utf8FormatControlAt, SpelledAt, decide_eq_true_iff, formatTwo_iff, formatThree_iff,
      or_and_right, exists_or]
  | a :: b :: c :: d :: rest =>
    simp only [utf8FormatControlAt, SpelledAt, decide_eq_true_iff, formatTwo_iff, formatThree_iff,
      formatFour_iff, or_and_right, exists_or]

/-! ## All positions -/

theorem isControlScalar_ascii {v : Nat} (hv : v ≤ 0x7f) :
    IsControlScalar v ↔ v < 0x20 ∨ v = 0x7f := by
  unfold IsControlScalar
  simp only [List.mem_cons, List.not_mem_nil, or_false]
  omega

theorem refContainsControl_iff_holdsChar {s : List UInt8} :
    refContainsControl s = true ↔ HoldsChar IsControlScalar s := by
  induction s with
  | nil => exact ⟨Bool.noConfusion, fun h => absurd h (not_holdsChar_nil _)⟩
  | cons ch rest ih =>
    rw [refContainsControl, holdsChar_cons]
    split_ifs with hc0
    · simp only [true_iff]
      exact Or.inl ⟨by omega, (isControlScalar_ascii (by omega)).mpr hc0⟩
    · have hclear : ¬ (ch.toNat ≤ 0x7f ∧ IsControlScalar ch.toNat) := fun h =>
        hc0 ((isControlScalar_ascii h.1).mp h.2)
      cases hdecode : multibyteAt (ch :: rest) with
      | none => simp [hclear, ih]
      | some cp =>
        by_cases hcp : IsControlScalar cp
        · simp [hcp]
        · simp [hclear, hcp, ih]

/-- **The reference refuses the controls.** -/
theorem refContainsControl_iff {s : List UInt8} :
    refContainsControl s = true ↔ HoldsControl s := by
  rw [refContainsControl_iff_holdsChar]
  refine ⟨Or.inr, ?_⟩
  rintro (⟨b, hb, hc0⟩ | h)
  · obtain ⟨before, after, rfl⟩ := List.append_of_mem hb
    have hhead : HoldsChar IsControlScalar (b :: after) := holdsChar_cons.mpr
      (Or.inl ⟨by omega, (isControlScalar_ascii (by omega)).mpr hc0⟩)
    obtain ⟨c, hp, hin⟩ := hhead
    exact ⟨c, hp, hin.trans (List.suffix_append before _).isInfix⟩
  · exact h

theorem containsControlBytes_iff {s : List UInt8} :
    containsControlBytes s = true ↔ HoldsControl s ∨ HoldsTagTail s := by
  rw [← refContainsControl_iff, refContainsControl_iff_holdsChar]
  unfold HoldsTagTail
  induction s with
  | nil =>
    exact ⟨Bool.noConfusion, fun h =>
      absurd h (not_or.mpr ⟨not_holdsChar_nil _, not_holdsChar_nil _⟩)⟩
  | cons ch rest ih =>
    have hscan := utf8FormatControlAt_iff (s := ch :: rest)
    have hascii : ¬ (ch.toNat ≤ 0x7f ∧ IsTagTail ch.toNat) := by
      unfold IsTagTail
      omega
    rw [containsControlBytes, holdsChar_cons, holdsChar_cons]
    split_ifs with hc0 hformat
    · simp only [true_iff]
      exact Or.inl (Or.inl ⟨by omega, (isControlScalar_ascii (by omega)).mpr hc0⟩)
    · obtain ⟨v, hv, hcontrol⟩ := hscan.mp hformat
      simp only [true_iff]
      rcases hcontrol with h | h
      · exact Or.inl (Or.inr (Or.inl ⟨v, hv, h⟩))
      · exact Or.inr (Or.inr (Or.inl ⟨v, hv, h⟩))
    · have hclear : ¬ (ch.toNat ≤ 0x7f ∧ IsControlScalar ch.toNat) := fun h =>
        hc0 ((isControlScalar_ascii h.1).mp h.2)
      have hnone := mt hscan.mpr hformat
      rw [ih]
      constructor
      · rintro (h | h)
        · exact Or.inl (Or.inr (Or.inr h))
        · exact Or.inr (Or.inr (Or.inr h))
      · rintro ((h | ⟨v, hv, h⟩ | h) | (h | ⟨v, hv, h⟩ | h))
        · exact absurd h hclear
        · exact absurd ⟨v, hv, Or.inl h⟩ hnone
        · exact Or.inl h
        · exact absurd h hascii
        · exact absurd ⟨v, hv, Or.inr h⟩ hnone
        · exact Or.inr h

/-! ## The words skipped -/

/-- No byte of a word with its top bits clear has its own top bit set. -/
theorem top_clear {v : UInt64} (h : v &&& 0x8080808080808080 = 0) {k : Nat} (hk : k < 8) :
    v.toNat.testBit (8 * k + 7) = false := by
  have hbit := congrArg (fun x : UInt64 => x.toNat.testBit (8 * k + 7)) h
  have htop : (0x8080808080808080 : UInt64).toNat.testBit (8 * k + 7) = true := by
    interval_cases k <;> decide
  simpa only [UInt64.toNat_and, Nat.testBit_and, htop, Bool.and_true, UInt64.toNat_zero,
    Nat.zero_testBit] using hbit

/-- The word a chunk of eight bytes is. -/
def wordOf (bytes : List UInt8) : UInt64 := UInt64.ofNat (leNat bytes)

theorem toNat_wordOf {bytes : List UInt8} (hlen : bytes.length = 8) :
    (wordOf bytes).toNat = leNat bytes := by
  have h := leNat_lt bytes
  rw [hlen] at h
  rw [wordOf, UInt64.toNat_ofNat']
  exact Nat.mod_eq_of_lt h

/-- The complement of a word of bytes below 128 has every top bit set. -/
theorem testBit_complement {bytes : List UInt8} (hlen : bytes.length = 8)
    (hlow : ∀ b ∈ bytes, b.toNat < 128) {k : Nat} (hk : k < 8) :
    (~~~(wordOf bytes)).toNat.testBit (8 * k + 7) = true := by
  have hnot : (~~~(wordOf bytes)).toNat.testBit (8 * k + 7) =
      (decide (8 * k + 7 < 64) && !(wordOf bytes).toNat.testBit (8 * k + 7)) :=
    BitVec.getLsbD_not
  have htop : bitAt bytes (8 * k + 7) = false := by
    have hb : bytes[k].toNat < 128 := hlow _ (List.getElem_mem _)
    have hdiv : (8 * k + 7) / 8 = k := by omega
    have hmod : (8 * k + 7) % 8 = 7 := by omega
    have hbit : bytes[k].toBitVec.getLsbD 7 = bytes[k].toNat.testBit 7 := rfl
    unfold bitAt
    rw [hdiv, hmod, List.getElem?_eq_getElem (by omega)]
    dsimp only
    rw [hbit]
    exact Nat.testBit_lt_two_pow hb
  rw [hnot, toNat_wordOf hlen, testBit_leNat, htop, decide_eq_true (by omega)]
  rfl

/-- The borrow test of one byte value, on a word whose bytes are all below 128. -/
theorem le_of_word_test {bytes : List UInt8} (hlen : bytes.length = 8)
    (hlow : ∀ b ∈ bytes, b.toNat < 128) {t : UInt8} (ht : t.toNat ≤ 128)
    (h : (wordOf bytes - wordOf (List.replicate 8 t)) &&& ~~~(wordOf bytes) &&&
      0x8080808080808080 = 0) : ∀ b ∈ bytes, t.toNat ≤ b.toNat := by
  refine le_of_sub_top_clear ht hlow fun k hk => ?_
  rw [hlen] at hk ⊢
  have hbit := top_clear h hk
  rw [UInt64.toNat_and, Nat.testBit_and, testBit_complement hlen hlow hk, Bool.and_true,
    UInt64.toNat_sub, toNat_wordOf hlen, toNat_wordOf (List.length_replicate ..)] at hbit
  have hfit := leNat_replicate_lt t 8
  have hswap : leNat bytes + 256 ^ 8 - leNat (List.replicate 8 t) =
      2 ^ 64 - leNat (List.replicate 8 t) + leNat bytes := by omega
  rw [hswap]
  exact hbit

/-- **A word that passes hides nothing**: its bytes are printable ASCII. -/
theorem printable_of_word {bytes : List UInt8} (hlen : bytes.length = 8)
    (h : asciiWordHasControlOrNonAscii (wordOf bytes) = false) :
    ∀ b ∈ bytes, 0x20 ≤ b.toNat ∧ b.toNat < 0x7f := by
  unfold asciiWordHasControlOrNonAscii at h
  dsimp only at h
  split_ifs at h with hhigh hspace
  rw [not_not] at hhigh hspace
  rw [decide_eq_false_iff_not, not_not] at h
  have hlow : ∀ b ∈ bytes, b.toNat < 128 := fun b hb => by
    obtain ⟨k, hk, rfl⟩ := List.getElem_of_mem hb
    have hbit := top_clear hhigh (hlen ▸ hk)
    have hdiv : (8 * k + 7) / 8 = k := by omega
    have hmod : (8 * k + 7) % 8 = 7 := by omega
    rw [toNat_wordOf hlen, testBit_leNat, bitAt, hdiv, hmod, List.getElem?_eq_getElem hk] at hbit
    exact lt_of_top_clear hbit
  have hspaces : wordOf (List.replicate 8 0x20) = 0x2020202020202020 := by decide
  have hones : wordOf (List.replicate 8 0x01) = 0x0101010101010101 := by decide
  have hdels : leNat (List.replicate 8 0x7f) = 0x7f7f7f7f7f7f7f7f := by decide
  -- the exclusive or turns DEL into zero and nothing else
  have hxor : wordOf bytes ^^^ 0x7f7f7f7f7f7f7f7f = wordOf (bytes.map (· ^^^ 0x7f)) := by
    refine UInt64.toNat_inj.mp ?_
    rw [UInt64.toNat_xor, toNat_wordOf hlen, toNat_wordOf (by rw [List.length_map, hlen]),
      leNat_map_xor, hlen, hdels]
    rfl
  have hsmall : ∀ x ∈ bytes.map (· ^^^ (0x7f : UInt8)), x.toNat < 128 := fun x hx => by
    obtain ⟨b, hb, rfl⟩ := List.mem_map.mp hx
    rw [UInt8.toNat_xor]
    exact Nat.xor_lt_two_pow (n := 7) (hlow b hb) (by decide)
  rw [hxor, ← hones] at h
  rw [← hspaces] at hspace
  have hnonzero := le_of_word_test (by rw [List.length_map, hlen]) hsmall (by decide) h
  intro b hb
  refine ⟨le_of_word_test hlen hlow (by decide) hspace b hb, ?_⟩
  have hb128 := hlow b hb
  have hx := hnonzero _ (List.mem_map_of_mem hb)
  have hne : b ≠ 0x7f := fun heq => by
    rw [heq] at hx
    exact absurd hx (by decide)
  have hne' : b.toNat ≠ 0x7f := fun heq => hne (UInt8.toNat_inj.mp heq)
  omega

/-- Printable ASCII in front changes nothing. -/
theorem containsControlBytes_append {bytes rest : List UInt8}
    (h : ∀ b ∈ bytes, 0x20 ≤ b.toNat ∧ b.toNat < 0x7f) :
    containsControlBytes (bytes ++ rest) = containsControlBytes rest := by
  induction bytes with
  | nil => rfl
  | cons b bs ih =>
    have hb := h b (List.mem_cons_self ..)
    have hnone : utf8FormatControlAt (b :: (bs ++ rest)) = false := by
      rw [← Bool.not_eq_true, utf8FormatControlAt_iff]
      rintro ⟨v, hv, -⟩
      obtain ⟨n, hlen, hn, -⟩ := multibyteAt_cases.mp hv
      have := utf8ByteSequenceLength_iff.mp hlen
      omega
    rw [List.cons_append, containsControlBytes, if_neg (by omega), hnone]
    exact ih fun c hc => h c (List.mem_cons_of_mem _ hc)

/-- **The skip loop is the byte loop**, at every alignment. -/
theorem containsControl_eq_bytes (s : List UInt8) : containsControl s = containsControlBytes s := by
  induction s using containsControl.induct with
  | case1 a b c d e f g h rest hword => rw [containsControl, if_pos hword]
  | case2 a b c d e f g h rest hword ih =>
    have hprint : ∀ x ∈ [a, b, c, d, e, f, g, h], 0x20 ≤ x.toNat ∧ x.toNat < 0x7f :=
      printable_of_word rfl (Bool.not_eq_true _ ▸ hword)
    rw [containsControl, if_neg hword, ih]
    exact (containsControlBytes_append hprint).symm
  | case3 s hshort =>
    rw [containsControl]
    exact hshort

/-- **What the scanner refuses.** -/
theorem containsControl_iff {s : List UInt8} :
    containsControl s = true ↔ HoldsControl s ∨ HoldsTagTail s := by
  rw [containsControl_eq_bytes, containsControlBytes_iff]

/-- **Where the scanner is the reference**: on every string but those that hold a scalar from
`U+E1000` to `U+E3FFF` and no control. -/
theorem containsControl_eq_iff (s : List UInt8) :
    (refContainsControl s = true ↔ HoldsControl s) ∧
      (containsControl s = refContainsControl s ↔ (HoldsTagTail s → HoldsControl s)) := by
  refine ⟨refContainsControl_iff, ?_⟩
  rw [Bool.eq_iff_iff, containsControl_iff, refContainsControl_iff]
  exact or_iff_left_iff_imp

/-- `U+E1000` is not in the refused set, and the scanner refuses it. -/
theorem containsControl_refuses_tagTail :
    containsControl [0xf3, 0xa1, 0x80, 0x80] = true ∧
      refContainsControl [0xf3, 0xa1, 0x80, 0x80] = false ∧
      multibyteAt [0xf3, 0xa1, 0x80, 0x80] = some 0xe1000 ∧ ¬ IsControlScalar 0xe1000 := by
  decide

end ModelFs
