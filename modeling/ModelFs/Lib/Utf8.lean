import Mathlib.Data.List.Infix
import Mathlib.Tactic.Common

/-!
# UTF-8, one sequence at a time

A decoder of one sequence in the way of a standard library: the first byte gives the length, the
rest are checked and put together. It is held to the encoder of `Char`, which is total and has
nothing to check.

* `multibyteAt_iff_spelledAt` — the decoder reads a value exactly where its bytes stand.
* `multibyteAt_iff` — **the decoder inverts the encoder** on every character of two bytes or more.
* `holdsChar_cons` — what a scan over all positions of a string finds.
-/

namespace ModelFs

/-- How many bytes a sequence has, from its first; `none` for a byte that starts none. -/
def utf8ByteSequenceLength (first : UInt8) : Option Nat :=
  let a := first.toNat
  if a ≤ 0x7f then some 1
  else if 0xc0 ≤ a ∧ a ≤ 0xdf then some 2
  else if 0xe0 ≤ a ∧ a ≤ 0xef then some 3
  else if 0xf0 ≤ a ∧ a ≤ 0xf7 then some 4
  else none

/-- The top bits of a byte that continues a sequence are `10`. -/
def IsContinuation (b : UInt8) : Prop := b.toNat / 64 = 2

instance (b : UInt8) : Decidable (IsContinuation b) := inferInstanceAs (Decidable (_ = _))

/-- The value of one whole sequence; `none` for a missing continuation, an overlong form, a
surrogate or a value past the last code point. -/
def utf8Decode : List UInt8 → Option Nat
  | [a] => some a.toNat
  | [a, b] =>
    let value := a.toNat % 32 * 64 + b.toNat % 64
    if ¬ IsContinuation b ∨ value < 0x80 then none else some value
  | [a, b, c] =>
    let value := (a.toNat % 16 * 64 + b.toNat % 64) * 64 + c.toNat % 64
    if ¬ IsContinuation b ∨ ¬ IsContinuation c ∨ value < 0x800 ∨
        (0xd800 ≤ value ∧ value ≤ 0xdfff) then none
    else some value
  | [a, b, c, d] =>
    let value := ((a.toNat % 8 * 64 + b.toNat % 64) * 64 + c.toNat % 64) * 64 + d.toNat % 64
    if ¬ IsContinuation b ∨ ¬ IsContinuation c ∨ ¬ IsContinuation d ∨ value < 0x10000 ∨
        0x10ffff < value then none
    else some value
  | _ => none

/-- The value of the sequence of two bytes or more that a string starts with. -/
def multibyteAt : List UInt8 → Option Nat
  | [] => none
  | a :: rest =>
    match utf8ByteSequenceLength a with
    | none => none
    | some n =>
      if n = 1 ∨ (a :: rest).length < n then none else utf8Decode ((a :: rest).take n)

/-- Whether a string is sequences throughout. -/
def utf8ValidateSlice : List UInt8 → Bool
  | [] => true
  | a :: rest =>
    match utf8ByteSequenceLength a, rest with
    | some 1, rest => utf8ValidateSlice rest
    | some 2, b :: rest => (utf8Decode [a, b]).isSome && utf8ValidateSlice rest
    | some 3, b :: c :: rest => (utf8Decode [a, b, c]).isSome && utf8ValidateSlice rest
    | some 4, b :: c :: d :: rest => (utf8Decode [a, b, c, d]).isSome && utf8ValidateSlice rest
    | _, _ => false

/-! ## The bytes of a value -/

/-- Two bytes that spell `v`. -/
def SpellsTwo (v : Nat) (a b : UInt8) : Prop :=
  (0x80 ≤ v ∧ v ≤ 0x7ff) ∧ a.toNat = v / 64 + 0xc0 ∧ b.toNat = v % 64 + 0x80

/-- Three bytes that spell `v`. -/
def SpellsThree (v : Nat) (a b c : UInt8) : Prop :=
  (0x800 ≤ v ∧ v ≤ 0xffff ∧ ¬ (0xd800 ≤ v ∧ v ≤ 0xdfff)) ∧ a.toNat = v / 4096 + 0xe0 ∧
    b.toNat = v / 64 % 64 + 0x80 ∧ c.toNat = v % 64 + 0x80

/-- Four bytes that spell `v`. -/
def SpellsFour (v : Nat) (a b c d : UInt8) : Prop :=
  (0x10000 ≤ v ∧ v ≤ 0x10ffff) ∧ a.toNat = v / 262144 + 0xf0 ∧ b.toNat = v / 4096 % 64 + 0x80 ∧
    c.toNat = v / 64 % 64 + 0x80 ∧ d.toNat = v % 64 + 0x80

/-- The bytes at the head of a string spell `v`. -/
def SpelledAt (v : Nat) : List UInt8 → Prop
  | a :: b :: c :: d :: _ => SpellsTwo v a b ∨ SpellsThree v a b c ∨ SpellsFour v a b c d
  | [a, b, c] => SpellsTwo v a b ∨ SpellsThree v a b c
  | [a, b] => SpellsTwo v a b
  | _ => False

theorem isContinuation_iff {b : UInt8} :
    IsContinuation b ↔ 0x80 ≤ b.toNat ∧ b.toNat ≤ 0xbf := by
  unfold IsContinuation
  omega

theorem utf8ByteSequenceLength_iff {a : UInt8} {n : Nat} :
    utf8ByteSequenceLength a = some n ↔ n = 1 ∧ a.toNat ≤ 0x7f ∨
      n = 2 ∧ 0xc0 ≤ a.toNat ∧ a.toNat ≤ 0xdf ∨ n = 3 ∧ 0xe0 ≤ a.toNat ∧ a.toNat ≤ 0xef ∨
      n = 4 ∧ 0xf0 ≤ a.toNat ∧ a.toNat ≤ 0xf7 := by
  unfold utf8ByteSequenceLength
  dsimp only
  constructor
  · intro h
    split_ifs at h <;> cases h <;> omega
  · rintro (⟨rfl, ha⟩ | ⟨rfl, ha⟩ | ⟨rfl, ha⟩ | ⟨rfl, ha⟩)
    · rw [if_pos ha]
    · rw [if_neg (by omega), if_pos ha]
    · rw [if_neg (by omega), if_neg (by omega), if_pos ha]
    · rw [if_neg (by omega), if_neg (by omega), if_neg (by omega), if_pos ha]

theorem utf8Decode_two {a b : UInt8} {v : Nat} :
    utf8ByteSequenceLength a = some 2 ∧ utf8Decode [a, b] = some v ↔ SpellsTwo v a b := by
  unfold utf8Decode SpellsTwo
  simp only [isContinuation_iff]
  rw [utf8ByteSequenceLength_iff]
  constructor
  · rintro ⟨hlen, hval⟩
    split_ifs at hval
    cases hval
    omega
  · rintro ⟨hv, hspell⟩
    rw [if_neg (by omega)]
    exact ⟨by omega, congrArg some (by omega)⟩

theorem utf8Decode_three {a b c : UInt8} {v : Nat} :
    utf8ByteSequenceLength a = some 3 ∧ utf8Decode [a, b, c] = some v ↔ SpellsThree v a b c := by
  unfold utf8Decode SpellsThree
  simp only [isContinuation_iff]
  rw [utf8ByteSequenceLength_iff]
  constructor
  · rintro ⟨hlen, hval⟩
    split_ifs at hval
    cases hval
    omega
  · rintro ⟨hv, hspell⟩
    rw [if_neg (by omega)]
    exact ⟨by omega, congrArg some (by omega)⟩

theorem utf8Decode_four {a b c d : UInt8} {v : Nat} :
    utf8ByteSequenceLength a = some 4 ∧ utf8Decode [a, b, c, d] = some v ↔
      SpellsFour v a b c d := by
  unfold utf8Decode SpellsFour
  simp only [isContinuation_iff]
  rw [utf8ByteSequenceLength_iff]
  constructor
  · rintro ⟨hlen, hval⟩
    split_ifs at hval
    cases hval
    omega
  · rintro ⟨hv, hspell⟩
    rw [if_neg (by omega)]
    exact ⟨by omega, congrArg some (by omega)⟩

/-- The decoder by the number of bytes it takes. -/
theorem multibyteAt_cases {a : UInt8} {rest : List UInt8} {v : Nat} :
    multibyteAt (a :: rest) = some v ↔ ∃ n, utf8ByteSequenceLength a = some n ∧
      (n = 2 ∨ n = 3 ∨ n = 4) ∧ n ≤ (a :: rest).length ∧
      utf8Decode ((a :: rest).take n) = some v := by
  constructor
  · intro h
    rw [multibyteAt] at h
    split at h
    · cases h
    · rename_i n hlen
      have hrange := utf8ByteSequenceLength_iff.mp hlen
      split_ifs at h with hno
      exact ⟨n, hlen, by omega, by omega, h⟩
  · rintro ⟨n, hlen, hn, hfit, hval⟩
    rw [multibyteAt, hlen]
    dsimp only
    rw [if_neg (by omega)]
    exact hval

/-- **The decoder reads a value exactly where its bytes stand.** -/
theorem multibyteAt_iff_spelledAt {s : List UInt8} {v : Nat} :
    multibyteAt s = some v ↔ SpelledAt v s := by
  match s with
  | [] => exact ⟨fun h => (Option.some_ne_none v h.symm).elim, False.elim⟩
  | [a] =>
    rw [multibyteAt_cases]
    constructor
    · rintro ⟨n, -, hn, hfit, -⟩
      simp only [List.length_singleton] at hfit
      omega
    · exact False.elim
  | [a, b] =>
    rw [multibyteAt_cases, SpelledAt, ← utf8Decode_two]
    constructor
    · rintro ⟨n, hlen, hn, hfit, hval⟩
      have h2 : n = 2 := by
        simp only [List.length_cons, List.length_nil] at hfit
        omega
      subst h2
      exact ⟨hlen, hval⟩
    · rintro ⟨hlen, hval⟩
      exact ⟨2, hlen, Or.inl rfl, Nat.le_refl _, hval⟩
  | [a, b, c] =>
    rw [multibyteAt_cases, SpelledAt, ← utf8Decode_two, ← utf8Decode_three]
    constructor
    · rintro ⟨n, hlen, rfl | rfl | rfl, hfit, hval⟩
      · exact Or.inl ⟨hlen, hval⟩
      · exact Or.inr ⟨hlen, hval⟩
      · simp at hfit
    · rintro (⟨hlen, hval⟩ | ⟨hlen, hval⟩)
      · exact ⟨2, hlen, by omega, by simp, hval⟩
      · exact ⟨3, hlen, by omega, by simp, hval⟩
  | a :: b :: c :: d :: rest =>
    rw [multibyteAt_cases, SpelledAt, ← utf8Decode_two, ← utf8Decode_three, ← utf8Decode_four]
    constructor
    · rintro ⟨n, hlen, rfl | rfl | rfl, hfit, hval⟩
      · exact Or.inl ⟨hlen, hval⟩
      · exact Or.inr (Or.inl ⟨hlen, hval⟩)
      · exact Or.inr (Or.inr ⟨hlen, hval⟩)
    · rintro (⟨hlen, hval⟩ | ⟨hlen, hval⟩ | ⟨hlen, hval⟩)
      · exact ⟨2, hlen, by omega, by simp, hval⟩
      · exact ⟨3, hlen, by omega, by simp, hval⟩
      · exact ⟨4, hlen, by omega, by simp, hval⟩

/-! ## The encoder -/

/-- What the values of two bytes or more look like in the encoder. -/
theorem encode_spelledAt (c : Char) (hc : 0x80 ≤ c.val.toNat) (rest : List UInt8) :
    SpelledAt c.val.toNat (String.utf8EncodeChar c ++ rest) := by
  have hvalid : c.val.toNat < 0xd800 ∨ 0xdfff < c.val.toNat ∧ c.val.toNat < 0x110000 := c.valid
  unfold String.utf8EncodeChar
  dsimp only
  generalize c.val.toNat = v at hc hvalid ⊢
  split_ifs with h1 h2 h3
  · omega
  · have htwo : SpellsTwo v (UInt8.ofNat (v / 64 % 32 + 0xc0)) (UInt8.ofNat (v % 64 + 0x80)) := by
      refine ⟨by omega, ?_, ?_⟩ <;> rw [UInt8.toNat_ofNat'] <;> omega
    match rest with
    | [] => exact htwo
    | [_] => exact Or.inl htwo
    | _ :: _ :: _ => exact Or.inl htwo
  · have hthree : SpellsThree v (UInt8.ofNat (v / 4096 % 16 + 0xe0))
        (UInt8.ofNat (v / 64 % 64 + 0x80)) (UInt8.ofNat (v % 64 + 0x80)) := by
      refine ⟨by omega, ?_, ?_, ?_⟩ <;> rw [UInt8.toNat_ofNat'] <;> omega
    match rest with
    | [] => exact Or.inr hthree
    | _ :: _ => exact Or.inr (Or.inl hthree)
  · refine Or.inr (Or.inr ⟨by omega, ?_, ?_, ?_, ?_⟩) <;> rw [UInt8.toNat_ofNat'] <;> omega

/-- The character of a value that bytes can spell. -/
theorem exists_char {v : Nat} {s : List UInt8} (h : SpelledAt v s) :
    ∃ c : Char, c.val.toNat = v ∧ 0x80 ≤ v := by
  have hvalid : 0x80 ≤ v ∧ (v < 0xd800 ∨ 0xdfff < v ∧ v < 0x110000) := by
    match s with
    | [] => exact h.elim
    | [_] => exact h.elim
    | [_, _] =>
      have hrange := h.1
      omega
    | [_, _, _] =>
      rcases h with h | h
      all_goals
        have hrange := h.1
        omega
    | _ :: _ :: _ :: _ :: _ =>
      rcases h with h | h | h
      all_goals
        have hrange := h.1
        omega
  exact ⟨Char.ofNatAux v hvalid.2, UInt32.toNat_ofNatLT .., hvalid.1⟩

/-- Bytes spell one value only in one way. -/
theorem prefix_of_spelledAt {s : List UInt8} {c : Char} (h : SpelledAt c.val.toNat s) :
    String.utf8EncodeChar c <+: s := by
  have hof : ∀ (a : UInt8) (n : Nat), a.toNat = n → UInt8.ofNat n = a := by
    intro a n han
    rw [← han, UInt8.ofNat_toNat]
  have htwo : ∀ {a b : UInt8} {rest : List UInt8}, SpellsTwo c.val.toNat a b →
      String.utf8EncodeChar c <+: a :: b :: rest := by
    rintro a b rest ⟨hv, ha, hb⟩
    unfold String.utf8EncodeChar
    dsimp only
    generalize c.val.toNat = v at *
    rw [if_neg (by omega), if_pos (by omega), hof a _ (by omega), hof b _ hb]
    exact List.prefix_append [a, b] rest
  have hthree : ∀ {a b d : UInt8} {rest : List UInt8}, SpellsThree c.val.toNat a b d →
      String.utf8EncodeChar c <+: a :: b :: d :: rest := by
    rintro a b d rest ⟨hv, ha, hb, hd⟩
    unfold String.utf8EncodeChar
    dsimp only
    generalize c.val.toNat = v at *
    rw [if_neg (by omega), if_neg (by omega), if_pos (by omega), hof a _ (by omega),
      hof b _ hb, hof d _ hd]
    exact List.prefix_append [a, b, d] rest
  match s with
  | [] => exact h.elim
  | [_] => exact h.elim
  | [a, b] => exact htwo h
  | [a, b, d] => exact h.elim htwo hthree
  | a :: b :: d :: e :: rest =>
    rcases h with h | h | ⟨hv, ha, hb, hd, he⟩
    · exact htwo h
    · exact hthree h
    · unfold String.utf8EncodeChar
      dsimp only
      generalize c.val.toNat = v at *
      rw [if_neg (by omega), if_neg (by omega), if_neg (by omega),
        hof a _ (by omega), hof b _ hb, hof d _ hd, hof e _ he]
      exact List.prefix_append [a, b, d, e] rest

/-- **The decoder inverts the encoder.** -/
theorem multibyteAt_iff {s : List UInt8} {v : Nat} :
    multibyteAt s = some v ↔
      ∃ c : Char, c.val.toNat = v ∧ 0x80 ≤ v ∧ String.utf8EncodeChar c <+: s := by
  rw [multibyteAt_iff_spelledAt]
  constructor
  · intro h
    obtain ⟨c, rfl, hmulti⟩ := exists_char h
    exact ⟨c, rfl, hmulti, prefix_of_spelledAt h⟩
  · rintro ⟨c, rfl, hmulti, rest, rfl⟩
    exact encode_spelledAt c hmulti rest

/-- A string of ASCII bytes is valid. -/
theorem utf8ValidateSlice_ascii {s : List UInt8} (h : ∀ b ∈ s, b.toNat ≤ 0x7f) :
    utf8ValidateSlice s = true := by
  induction s with
  | nil => rfl
  | cons a rest ih =>
    have hlen : utf8ByteSequenceLength a = some 1 := by
      unfold utf8ByteSequenceLength
      exact if_pos (h a List.mem_cons_self)
    have hrest := ih fun b hb => h b (List.mem_cons_of_mem a hb)
    unfold utf8ValidateSlice
    simp only [hlen]
    exact hrest

/-! ## Characters in a string -/

/-- Somewhere in the bytes stands the encoding of a character whose value satisfies `p`. -/
def HoldsChar (p : Nat → Prop) (s : List UInt8) : Prop :=
  ∃ c : Char, p c.val.toNat ∧ String.utf8EncodeChar c <:+: s

theorem not_holdsChar_nil (p : Nat → Prop) : ¬ HoldsChar p [] := by
  rintro ⟨c, -, hin⟩
  exact String.utf8EncodeChar_ne_nil (List.infix_nil.mp hin)

/-- A character of one byte is that byte. -/
theorem encode_ascii {c : Char} (hc : c.val.toNat ≤ 0x7f) :
    String.utf8EncodeChar c = [UInt8.ofNat c.val.toNat] := by
  unfold String.utf8EncodeChar
  exact if_pos hc

/-- **Scan.** A character stands in a string at its head or later. -/
theorem holdsChar_cons {p : Nat → Prop} {a : UInt8} {s : List UInt8} :
    HoldsChar p (a :: s) ↔
      (a.toNat ≤ 0x7f ∧ p a.toNat) ∨ (∃ v, multibyteAt (a :: s) = some v ∧ p v) ∨
        HoldsChar p s := by
  constructor
  · rintro ⟨c, hp, hin⟩
    rcases List.infix_cons_iff.mp hin with hhead | hlater
    · by_cases hc : c.val.toNat ≤ 0x7f
      · rw [encode_ascii hc, List.cons_prefix_cons] at hhead
        have ha : a.toNat = c.val.toNat := by
          rw [← hhead.1, UInt8.toNat_ofNat']
          omega
        exact Or.inl ⟨by omega, ha ▸ hp⟩
      · exact Or.inr (Or.inl ⟨_, multibyteAt_iff.mpr ⟨c, rfl, by omega, hhead⟩, hp⟩)
    · exact Or.inr (Or.inr ⟨c, hp, hlater⟩)
  · rintro (⟨ha, hp⟩ | ⟨v, hv, hp⟩ | ⟨c, hp, hin⟩)
    · have hvalid : a.toNat < 0xd800 ∨ 0xdfff < a.toNat ∧ a.toNat < 0x110000 := by omega
      have hval : (Char.ofNatAux a.toNat hvalid).val.toNat = a.toNat := UInt32.toNat_ofNatLT ..
      refine ⟨Char.ofNatAux a.toNat hvalid, by rwa [hval], List.IsPrefix.isInfix ?_⟩
      rw [encode_ascii (by rwa [hval]), hval, UInt8.ofNat_toNat]
      exact List.prefix_append [a] s
    · obtain ⟨c, rfl, -, hhead⟩ := multibyteAt_iff.mp hv
      exact ⟨c, hp, hhead.isInfix⟩
    · exact ⟨c, hp, List.infix_cons hin⟩

end ModelFs
