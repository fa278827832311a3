import ModelFs.Lib.JsonRead

/-!
# Strings with escapes, and torn texts

The reader undoes the writer's escapes: a string of any bytes that are UTF-8 is read back from what
the writer made of it. And a text that was cut off is no document: what reads as an object needs its
last brace.

* `reads_jsonString` — **a written string reads as itself**.
* `readValue_append` — the reader looks at nothing behind a value, a number apart.
* `parseJson_torn` — **a proper prefix of a text is no document**.
-/

namespace ModelFs

/-! ## Escapes -/

/-- The kinds of escapes: none, one letter, and the code of a control byte. -/
inductive Escaped (b : UInt8) : List UInt8 → Prop
  | plain (hlow : 32 ≤ b.toNat) (hquote : b ≠ 34) (hback : b ≠ 92) : Escaped b [b]
  | letter (e : UInt8) (hone : unescapeOne e = some b) (hcode : e ≠ 117) (he : e.toNat ≤ 0x7f) :
      Escaped b [92, e]
  | code (h l : UInt8) (hhex : hexFour 48 48 h l = some b.toNat) (hlow : b.toNat < 32)
      (hbytes : ∀ c ∈ [h, l], 32 ≤ c.toNat ∧ c ≠ 34 ∧ c ≠ 92 ∧ c.toNat ≤ 0x7f) :
      Escaped b [92, 117, 48, 48, h, l]

set_option maxRecDepth 2000 in
theorem escaped_jsonEscape (b : UInt8) : Escaped b (jsonEscape b) := by
  have hdigits : ∀ n < 32,
      hexFour 48 48 ((ascii "0123456789abcdef").getD (n / 16) 48)
          ((ascii "0123456789abcdef").getD (n % 16) 48) = some n ∧
        ∀ c ∈ [(ascii "0123456789abcdef").getD (n / 16) 48,
            (ascii "0123456789abcdef").getD (n % 16) 48],
          32 ≤ c.toNat ∧ c ≠ 34 ∧ c ≠ 92 ∧ c.toNat ≤ 0x7f := by decide
  unfold jsonEscape
  split_ifs with hquote h8 h12 h10 h13 h9 hlow
  · rcases hquote with rfl | rfl
    · exact Escaped.letter 34 rfl (by decide) (by decide)
    · exact Escaped.letter 92 rfl (by decide) (by decide)
  · exact h8 ▸ Escaped.letter 98 rfl (by decide) (by decide)
  · exact h12 ▸ Escaped.letter 102 rfl (by decide) (by decide)
  · exact h10 ▸ Escaped.letter 110 rfl (by decide) (by decide)
  · exact h13 ▸ Escaped.letter 114 rfl (by decide) (by decide)
  · exact h9 ▸ Escaped.letter 116 rfl (by decide) (by decide)
  · obtain ⟨hhex, hbytes⟩ := hdigits b.toNat hlow
    exact Escaped.code _ _ hhex hlow hbytes
  · rw [not_or] at hquote
    exact Escaped.plain (Nat.not_lt.mp hlow) hquote.1 hquote.2

/-! ## Reading them back -/

/-- A byte that stands for itself. -/
theorem rawString_pass {b : UInt8} {t : List UInt8} (hlow : 32 ≤ b.toNat) (hquote : b ≠ 34)
    (hback : b ≠ 92) (ht : t ≠ []) :
    rawString (b :: t) = (rawString t).map fun p => (b :: p.1, p.2) := by
  cases t with
  | nil => exact absurd rfl ht
  | cons e t =>
    rw [rawString, if_neg hquote, if_neg (Nat.not_lt.mpr hlow), if_neg hback]

/-- A backslash takes the next byte with it. -/
theorem rawString_pair (e : UInt8) (t : List UInt8) :
    rawString (92 :: e :: t) = (rawString t).map fun p => (92 :: e :: p.1, p.2) := by
  rw [rawString, if_neg (by decide), if_neg (by decide), if_pos rfl]

theorem Escaped.rawString {b : UInt8} {x t : List UInt8} (h : Escaped b x) (ht : t ≠ []) :
    ModelFs.rawString (x ++ t) = (ModelFs.rawString t).map fun p => (x ++ p.1, p.2) := by
  cases h with
  | plain hlow hquote hback => exact rawString_pass hlow hquote hback ht
  | letter e hone hcode he => exact rawString_pair e t
  | code h l hhex hlow hbytes =>
    obtain ⟨hh, hhquote, hhback, -⟩ := hbytes h (by simp)
    obtain ⟨hl, hlquote, hlback, -⟩ := hbytes l (by simp)
    simp only [List.cons_append, List.nil_append]
    rw [rawString_pair, rawString_pass (by decide) (by decide) (by decide) (by simp),
      rawString_pass (by decide) (by decide) (by decide) (by simp),
      rawString_pass hh hhquote hhback (by simp), rawString_pass hl hlquote hlback ht]
    simp only [Option.map_map]
    rfl

/-- The value of a control byte is that byte. -/
theorem utf8Bytes_low {b : UInt8} (h : b.toNat < 32) : utf8Bytes b.toNat = [b] := by
  have hvalid : b.toNat.isValidChar := Or.inl (by omega)
  have hval : (Char.ofNat b.toNat).val.toNat = b.toNat := by
    rw [Char.ofNat, dif_pos hvalid]
    exact UInt32.toNat_ofNatLT ..
  unfold utf8Bytes
  rw [encode_ascii (by omega), hval, UInt8.ofNat_toNat]

theorem Escaped.unescape {b : UInt8} {x : List UInt8} (h : Escaped b x) (fuel : Nat)
    (t : List UInt8) :
    ModelFs.unescape (fuel + 1) (x ++ t) = (ModelFs.unescape fuel t).map (b :: ·) := by
  cases h with
  | plain hlow hquote hback =>
    rw [List.singleton_append, ModelFs.unescape.eq_def]
    exact if_pos hback
  | letter e hone hcode he =>
    rw [List.cons_append, List.singleton_append, ModelFs.unescape.eq_def]
    dsimp only
    rw [if_neg (by decide)]
    split
    · next hmatch => exact absurd (List.cons.inj hmatch).1 hcode
    · next e' rest' _ hmatch =>
      obtain ⟨rfl, rfl⟩ := List.cons.inj hmatch
      rw [hone]
    · next hmatch => cases hmatch
  | code h l hhex hlow hbytes =>
    simp only [List.cons_append, List.nil_append]
    have hl : isLow b.toNat = false := by
      unfold isLow
      simp
      omega
    have hh : isHigh b.toNat = false := by
      unfold isHigh
      simp
      omega
    rw [ModelFs.unescape.eq_def]
    dsimp only
    rw [if_neg (by decide)]
    simp only [hhex]
    rw [hl, hh, utf8Bytes_low hlow]
    rfl

theorem length_le_flatMap_jsonEscape (s : List UInt8) :
    s.length ≤ (s.flatMap jsonEscape).length := by
  induction s with
  | nil => exact Nat.le_refl 0
  | cons b s ih =>
    have hone : 1 ≤ (jsonEscape b).length := by
      have hesc := escaped_jsonEscape b
      generalize jsonEscape b = x at hesc
      cases hesc <;> simp
    rw [List.flatMap_cons, List.length_append, List.length_cons]
    omega

theorem rawString_flatMap (s rest : List UInt8) :
    rawString (s.flatMap jsonEscape ++ 34 :: rest) = some (s.flatMap jsonEscape, rest) := by
  induction s with
  | nil => exact rawString_verbatim (fun b hb => absurd hb List.not_mem_nil) rest
  | cons b s ih =>
    rw [List.flatMap_cons, List.append_assoc, (escaped_jsonEscape b).rawString (by simp), ih]
    rfl

theorem unescape_flatMap (s : List UInt8) (fuel : Nat) (hfuel : s.length ≤ fuel) :
    unescape fuel (s.flatMap jsonEscape) = some s := by
  induction s generalizing fuel with
  | nil => cases fuel <;> rfl
  | cons b s ih =>
    rw [List.length_cons] at hfuel
    obtain ⟨fuel, rfl⟩ : ∃ k, fuel = k + 1 := ⟨fuel - 1, by omega⟩
    rw [List.flatMap_cons, (escaped_jsonEscape b).unescape, ih fuel (by omega)]
    rfl

/-! ## Escapes and UTF-8 -/

/-- ASCII in front of a string changes nothing. -/
theorem utf8ValidateSlice_append {x : List UInt8} (h : ∀ b ∈ x, b.toNat ≤ 0x7f)
    (t : List UInt8) : utf8ValidateSlice (x ++ t) = utf8ValidateSlice t := by
  induction x with
  | nil => rfl
  | cons a x ih =>
    have hlen : utf8ByteSequenceLength a = some 1 := by
      unfold utf8ByteSequenceLength
      exact if_pos (h a List.mem_cons_self)
    have hrest := ih fun b hb => h b (List.mem_cons_of_mem a hb)
    rw [List.cons_append, utf8ValidateSlice.eq_def]
    simp only [hlen]
    exact hrest

theorem jsonEscape_ascii {b : UInt8} (h : b.toNat ≤ 0x7f) : ∀ c ∈ jsonEscape b, c.toNat ≤ 0x7f := by
  intro c hc
  have hesc := escaped_jsonEscape b
  generalize jsonEscape b = x at hc hesc
  cases hesc with
  | plain hlow hquote hback =>
    rw [List.mem_singleton.mp hc]
    exact h
  | letter e hone hcode he =>
    simp only [List.mem_cons, List.not_mem_nil, or_false] at hc
    rcases hc with rfl | rfl
    · decide
    · exact he
  | code h' l hhex hlow hbytes =>
    rw [List.mem_cons, List.mem_cons, List.mem_cons, List.mem_cons] at hc
    rcases hc with rfl | rfl | rfl | rfl | hc
    · decide
    · decide
    · decide
    · decide
    · exact (hbytes c hc).2.2.2

/-- A byte of a longer sequence is left as it is. -/
theorem jsonEscape_high {b : UInt8} (h : 0x80 ≤ b.toNat) : jsonEscape b = [b] := by
  have hesc := escaped_jsonEscape b
  generalize jsonEscape b = x at hesc
  cases hesc with
  | plain hlow hquote hback => rfl
  | letter e hone hcode he =>
    exfalso
    unfold unescapeOne at hone
    split_ifs at hone with hself
    · have heq := Option.some.inj hone
      rw [heq] at he
      omega
    all_goals
      rw [← Option.some.inj hone] at h
      revert h
      decide
  | code h' l hhex hlow hbytes => omega

/-- Bytes that start or continue a longer sequence. -/
theorem high_of_length {a : UInt8} {n : Nat} (h : utf8ByteSequenceLength a = some n) (hn : n ≠ 1) :
    0x80 ≤ a.toNat := by
  rw [utf8ByteSequenceLength_iff] at h
  omega

/-- **The text of a string is UTF-8** where the string is. -/
theorem utf8ValidateSlice_flatMap {s : List UInt8} (h : utf8ValidateSlice s = true) :
    utf8ValidateSlice (s.flatMap jsonEscape) = true := by
  fun_induction utf8ValidateSlice s with
  | case1 => rfl
  | case2 a rest hlen ih =>
    rw [utf8ByteSequenceLength_iff] at hlen
    rw [List.flatMap_cons, utf8ValidateSlice_append (jsonEscape_ascii (by omega))]
    exact ih h
  | case3 a b rest hlen ih =>
    rw [Bool.and_eq_true] at h
    obtain ⟨v, hv⟩ := Option.isSome_iff_exists.mp h.1
    obtain ⟨-, ha, hb⟩ := utf8Decode_two.mp ⟨hlen, hv⟩
    have hkept : (a :: b :: rest).flatMap jsonEscape = a :: b :: rest.flatMap jsonEscape := by
      simp only [List.flatMap_cons, jsonEscape_high (high_of_length hlen (by decide)),
        jsonEscape_high (b := b) (by omega)]
      rfl
    rw [hkept, utf8ValidateSlice.eq_def]
    simp only [hlen]
    rw [h.1, ih h.2]
    rfl
  | case4 a b c rest hlen ih =>
    rw [Bool.and_eq_true] at h
    obtain ⟨v, hv⟩ := Option.isSome_iff_exists.mp h.1
    obtain ⟨-, ha, hb, hc⟩ := utf8Decode_three.mp ⟨hlen, hv⟩
    have hkept : (a :: b :: c :: rest).flatMap jsonEscape =
        a :: b :: c :: rest.flatMap jsonEscape := by
      simp only [List.flatMap_cons, jsonEscape_high (high_of_length hlen (by decide)),
        jsonEscape_high (b := b) (by omega), jsonEscape_high (b := c) (by omega)]
      rfl
    rw [hkept, utf8ValidateSlice.eq_def]
    simp only [hlen]
    rw [h.1, ih h.2]
    rfl
  | case5 a b c d rest hlen ih =>
    rw [Bool.and_eq_true] at h
    obtain ⟨v, hv⟩ := Option.isSome_iff_exists.mp h.1
    obtain ⟨-, ha, hb, hc, hd⟩ := utf8Decode_four.mp ⟨hlen, hv⟩
    have hkept : (a :: b :: c :: d :: rest).flatMap jsonEscape =
        a :: b :: c :: d :: rest.flatMap jsonEscape := by
      simp only [List.flatMap_cons, jsonEscape_high (high_of_length hlen (by decide)),
        jsonEscape_high (b := b) (by omega), jsonEscape_high (b := c) (by omega),
        jsonEscape_high (b := d) (by omega)]
      rfl
    rw [hkept, utf8ValidateSlice.eq_def]
    simp only [hlen]
    rw [h.1, ih h.2]
    rfl
  | case6 => cases h

theorem readString_flatMap {s : List UInt8} (h : utf8ValidateSlice s = true) (rest : List UInt8) :
    readString (s.flatMap jsonEscape ++ 34 :: rest) = some (s, rest) := by
  unfold readString
  rw [rawString_flatMap]
  dsimp only
  rw [utf8ValidateSlice_flatMap h, unescape_flatMap s _ (length_le_flatMap_jsonEscape s)]
  rfl

/-- **A written string reads as itself.** -/
theorem reads_jsonString {s : List UInt8} (h : utf8ValidateSlice s = true) :
    Reads (.string s) (jsonString s) := by
  intro fuel rest hfuel _
  obtain ⟨fuel, rfl⟩ : ∃ k, fuel = k + 1 := by
    rw [jsonString, List.length_cons] at hfuel
    exact ⟨fuel - 1, by omega⟩
  rw [jsonString, List.cons_append, List.append_assoc, List.singleton_append, readValue,
    dropWhile_blank (by decide)]
  dsimp only
  rw [if_pos rfl, readString_flatMap h rest]
  rfl

/-! ## What stands behind a value -/

theorem rawString_append {s raw rest : List UInt8} (h : rawString s = some (raw, rest))
    (t : List UInt8) : rawString (s ++ t) = some (raw, rest ++ t) := by
  fun_induction rawString s generalizing raw rest with
  | case1 => cases h
  | case2 =>
    cases h
    exact rawString_verbatim (fun b hb => absurd hb List.not_mem_nil) t
  | case3 b hb => cases h
  | case4 e s =>
    cases h
    rfl
  | case5 b e s hquote hlow => cases h
  | case6 e s hquote hlow ih =>
    obtain ⟨p, hp, heq⟩ := Option.map_eq_some_iff.mp h
    cases heq
    rw [List.cons_append, List.cons_append, rawString_pair, ih hp]
    rfl
  | case7 b e s hquote hlow hback ih =>
    obtain ⟨p, hp, heq⟩ := Option.map_eq_some_iff.mp h
    cases heq
    have hrest := ih hp
    rw [List.cons_append, rawString_pass (Nat.not_lt.mp hlow) hquote hback (by simp), hrest]
    rfl

theorem readString_append {s x rest : List UInt8} (h : readString s = some (x, rest))
    (t : List UInt8) : readString (s ++ t) = some (x, rest ++ t) := by
  unfold readString at h ⊢
  cases hraw : rawString s with
  | none =>
    rw [hraw] at h
    cases h
  | some p =>
    rw [hraw] at h
    rw [rawString_append hraw t]
    dsimp only at h ⊢
    split_ifs at h ⊢ with hvalid
    obtain ⟨y, hy, heq⟩ := Option.map_eq_some_iff.mp h
    cases heq
    rw [hy]
    rfl

theorem dropWhile_blank_append {s : List UInt8} (h : s.dropWhile isBlank ≠ []) (t : List UInt8) :
    (s ++ t).dropWhile isBlank = s.dropWhile isBlank ++ t := by
  rw [List.dropWhile_append, if_neg]
  rw [List.isEmpty_iff]
  exact h

theorem expect_append {b : UInt8} {s rest : List UInt8} (h : expect b s = some rest)
    (t : List UInt8) : expect b (s ++ t) = some (rest ++ t) := by
  unfold expect at h ⊢
  cases hdrop : s.dropWhile isBlank with
  | nil =>
    rw [hdrop] at h
    cases h
  | cons c r =>
    rw [hdrop] at h
    rw [dropWhile_blank_append (by simp [hdrop]), hdrop]
    dsimp only [List.cons_append] at h ⊢
    split_ifs at h ⊢ with hc
    rw [Option.some.inj h]

/-- Another byte that counts is there. -/
theorem expect_append_none {b : UInt8} {s : List UInt8} (h : expect b s = none)
    (hs : s.dropWhile isBlank ≠ []) (t : List UInt8) : expect b (s ++ t) = none := by
  unfold expect at h ⊢
  rw [dropWhile_blank_append hs]
  cases hdrop : s.dropWhile isBlank with
  | nil => exact absurd hdrop hs
  | cons c r =>
    rw [hdrop] at h
    dsimp only [List.cons_append] at h ⊢
    split_ifs at h ⊢ with hc
    rfl

theorem ne_nil_of_expect {b : UInt8} {s rest : List UInt8} (h : expect b s = some rest) :
    s.dropWhile isBlank ≠ [] := by
  intro hnil
  unfold expect at h
  rw [hnil] at h
  cases h

theorem readNumber_append {s rest : List UInt8} {v : Json} (h : readNumber s = some (v, rest))
    (hrest : rest ≠ []) (t : List UInt8) : readNumber (s ++ t) = some (v, rest ++ t) := by
  unfold readNumber at h
  dsimp only at h
  split_ifs at h with hnum
  cases h
  have hlen : (s.takeWhile numberByte).length ≤ s.length := (List.takeWhile_sublist _).length_le
  have hstop : (s ++ t).takeWhile numberByte = s.takeWhile numberByte := by
    rw [List.takeWhile_append, if_neg]
    intro heq
    exact hrest (List.drop_eq_nil_of_le (by omega))
  unfold readNumber
  dsimp only
  rw [hstop, if_pos hnum, List.drop_append_of_le_length hlen]

theorem readWord_append {s rest : List UInt8} {v : Json} (h : readWord s = some (v, rest))
    (t : List UInt8) : readWord (s ++ t) = some (v, rest ++ t) := by
  unfold readWord at h
  split_ifs at h with hnull htrue hfalse
  · obtain ⟨u, rfl⟩ := List.isPrefixOf_iff_prefix.mp hnull
    cases h
    rfl
  · obtain ⟨u, rfl⟩ := List.isPrefixOf_iff_prefix.mp htrue
    cases h
    rfl
  · obtain ⟨u, rfl⟩ := List.isPrefixOf_iff_prefix.mp hfalse
    cases h
    rfl

/-- What is read is read whatever follows it; a number must have ended. -/
def Stands (fuel : Nat) : Prop :=
  (∀ s v rest, readValue fuel s = some (v, rest) → (∀ text, v = .number text → rest ≠ []) →
    ∀ t, readValue fuel (s ++ t) = some (v, rest ++ t)) ∧
  (∀ s vs rest, readElements fuel s = some (vs, rest) →
    ∀ t, readElements fuel (s ++ t) = some (vs, rest ++ t)) ∧
  ∀ s ms rest, readMembers fuel s = some (ms, rest) →
    ∀ t, readMembers fuel (s ++ t) = some (ms, rest ++ t)

theorem ne_nil_of_readValue {fuel : Nat} {s : List UInt8} {p : Json × List UInt8}
    (h : readValue fuel s = some p) : s.dropWhile isBlank ≠ [] := by
  intro hnil
  cases fuel with
  | zero =>
    rw [readValue] at h
    cases h
  | succ fuel =>
    rw [readValue, hnil] at h
    cases h

theorem ne_nil_of_readElements {fuel : Nat} {s : List UInt8} {p : List Json × List UInt8}
    (h : readElements fuel s = some p) : s.dropWhile isBlank ≠ [] := by
  cases fuel with
  | zero =>
    rw [readElements] at h
    cases h
  | succ fuel =>
    rw [readElements] at h
    cases hvalue : readValue fuel s with
    | none =>
      rw [hvalue] at h
      cases h
    | some q => exact ne_nil_of_readValue hvalue

theorem ne_nil_of_readMembers {fuel : Nat} {s : List UInt8}
    {p : List (List UInt8 × Json) × List UInt8} (h : readMembers fuel s = some p) :
    s.dropWhile isBlank ≠ [] := by
  cases fuel with
  | zero =>
    rw [readMembers] at h
    cases h
  | succ fuel =>
    rw [readMembers] at h
    cases hkey : expect 34 s with
    | none =>
      rw [hkey] at h
      cases h
    | some s' => exact ne_nil_of_expect hkey

/-- What stands behind a member, a comma or the close, is no blank. -/
theorem ne_nil_of_more {b : UInt8} {s : List UInt8} (hcomma : ∃ r, expect 44 s = some r ∨
    expect b s = some r) : s ≠ [] := by
  rintro rfl
  obtain ⟨r, h | h⟩ := hcomma <;> cases h

theorem stands_value {fuel : Nat} (ih : Stands fuel) {s : List UInt8} {v : Json}
    {rest : List UInt8} (h : readValue (fuel + 1) s = some (v, rest))
    (hnum : ∀ text, v = .number text → rest ≠ []) (t : List UInt8) :
    readValue (fuel + 1) (s ++ t) = some (v, rest ++ t) := by
  obtain ⟨-, ihe, ihm⟩ := ih
  have hne := ne_nil_of_readValue h
  rw [readValue] at h ⊢
  rw [dropWhile_blank_append hne]
  cases hdrop : s.dropWhile isBlank with
  | nil => exact absurd hdrop hne
  | cons b r =>
    rw [hdrop] at h
    dsimp only [List.cons_append] at h ⊢
    split_ifs at h ⊢ with hquote hbracket hbrace hdigit
    · obtain ⟨p, hp, heq⟩ := Option.map_eq_some_iff.mp h
      cases heq
      rw [readString_append hp]
      rfl
    · cases hclose : expect 93 r with
      | some r' =>
        rw [hclose] at h
        cases h
        rw [expect_append hclose]
      | none =>
        rw [hclose] at h
        obtain ⟨p, hp, heq⟩ := Option.map_eq_some_iff.mp h
        cases heq
        rw [expect_append_none hclose (ne_nil_of_readElements hp), ihe _ _ _ hp]
        rfl
    · cases hclose : expect 125 r with
      | some r' =>
        rw [hclose] at h
        cases h
        rw [expect_append hclose]
      | none =>
        rw [hclose] at h
        obtain ⟨p, hp, heq⟩ := Option.map_eq_some_iff.mp h
        cases heq
        rw [expect_append_none hclose (ne_nil_of_readMembers hp), ihm _ _ _ hp]
        rfl
    · have hkind : ∃ text, v = .number text := by
        unfold readNumber at h
        dsimp only at h
        split_ifs at h
        cases h
        exact ⟨_, rfl⟩
      obtain ⟨text, hv⟩ := hkind
      exact readNumber_append h (hnum text hv) t
    · exact readWord_append h t

/-- A value, and then a comma or the close. -/
theorem stands_then {fuel : Nat} (ih : Stands fuel) {b : UInt8} {s s' : List UInt8} {v : Json}
    (h : readValue fuel s = some (v, s'))
    (hmore : ∃ r, expect 44 s' = some r ∨ expect b s' = some r)
    (t : List UInt8) : readValue fuel (s ++ t) = some (v, s' ++ t) :=
  ih.1 s v s' h (fun _ _ => ne_nil_of_more hmore) t

theorem stands_elements {fuel : Nat} (ih : Stands fuel) {s : List UInt8} {vs : List Json}
    {rest : List UInt8} (h : readElements (fuel + 1) s = some (vs, rest)) (t : List UInt8) :
    readElements (fuel + 1) (s ++ t) = some (vs, rest ++ t) := by
  rw [readElements] at h ⊢
  cases hvalue : readValue fuel s with
  | none =>
    rw [hvalue] at h
    cases h
  | some q =>
    obtain ⟨v, s'⟩ := q
    rw [hvalue] at h
    dsimp only at h
    cases hcomma : expect 44 s' with
    | some s'' =>
      rw [hcomma] at h
      obtain ⟨p, hp, heq⟩ := Option.map_eq_some_iff.mp h
      cases heq
      rw [stands_then (b := 93) ih hvalue ⟨s'', Or.inl hcomma⟩]
      dsimp only
      rw [expect_append hcomma]
      dsimp only
      rw [ih.2.1 _ _ _ hp]
      rfl
    | none =>
      rw [hcomma] at h
      obtain ⟨r, hclose, heq⟩ := Option.map_eq_some_iff.mp h
      cases heq
      rw [stands_then ih hvalue ⟨_, Or.inr hclose⟩]
      dsimp only
      rw [expect_append_none hcomma (ne_nil_of_expect hclose), expect_append hclose]
      rfl

theorem stands_members {fuel : Nat} (ih : Stands fuel) {s : List UInt8}
    {ms : List (List UInt8 × Json)} {rest : List UInt8}
    (h : readMembers (fuel + 1) s = some (ms, rest)) (t : List UInt8) :
    readMembers (fuel + 1) (s ++ t) = some (ms, rest ++ t) := by
  rw [readMembers] at h ⊢
  cases hkey : (expect 34 s).bind readString with
  | none =>
    rw [hkey] at h
    cases h
  | some q =>
    obtain ⟨key, s₁⟩ := q
    rw [hkey] at h
    dsimp only at h
    obtain ⟨s₀, hquote, hname⟩ := Option.bind_eq_some_iff.mp hkey
    cases hvalue : (expect 58 s₁).bind fun s => readValue fuel s with
    | none =>
      rw [hvalue] at h
      cases h
    | some q =>
      obtain ⟨v, s'⟩ := q
      rw [hvalue] at h
      dsimp only at h
      obtain ⟨s₂, hcolon, hread⟩ := Option.bind_eq_some_iff.mp hvalue
      have hhead : (expect 34 (s ++ t)).bind readString = some (key, s₁ ++ t) := by
        rw [expect_append hquote]
        exact readString_append hname t
      rw [hhead]
      dsimp only
      rw [expect_append hcolon]
      dsimp only [Option.bind_some]
      cases hcomma : expect 44 s' with
      | some s'' =>
        rw [hcomma] at h
        obtain ⟨p, hp, heq⟩ := Option.map_eq_some_iff.mp h
        cases heq
        rw [stands_then (b := 125) ih hread ⟨s'', Or.inl hcomma⟩]
        dsimp only
        rw [expect_append hcomma]
        dsimp only
        rw [ih.2.2 _ _ _ hp]
        rfl
      | none =>
        rw [hcomma] at h
        obtain ⟨r, hclose, heq⟩ := Option.map_eq_some_iff.mp h
        cases heq
        rw [stands_then ih hread ⟨_, Or.inr hclose⟩]
        dsimp only
        rw [expect_append_none hcomma (ne_nil_of_expect hclose), expect_append hclose]
        rfl

theorem stands (fuel : Nat) : Stands fuel := by
  induction fuel with
  | zero =>
    refine ⟨?_, ?_, ?_⟩
    · intro s v rest h
      rw [readValue] at h
      cases h
    · intro s vs rest h
      rw [readElements] at h
      cases h
    · intro s ms rest h
      rw [readMembers] at h
      cases h
  | succ fuel ih =>
    exact ⟨fun s v rest h hnum t => stands_value ih h hnum t,
      fun s vs rest h t => stands_elements ih h t, fun s ms rest h t => stands_members ih h t⟩

/-- **The reader looks at nothing behind a value**, a number apart. -/
theorem readValue_append {fuel : Nat} {s rest : List UInt8} {v : Json}
    (h : readValue fuel s = some (v, rest)) (hnum : ∀ text, v = .number text → rest ≠ [])
    (t : List UInt8) : readValue fuel (s ++ t) = some (v, rest ++ t) :=
  (stands fuel).1 s v rest h hnum t

/-! ## More fuel -/

/-- What is read is read with more fuel. -/
def Fuelled (fuel : Nat) : Prop :=
  (∀ s p, readValue fuel s = some p → readValue (fuel + 1) s = some p) ∧
  (∀ s p, readElements fuel s = some p → readElements (fuel + 1) s = some p) ∧
  ∀ s p, readMembers fuel s = some p → readMembers (fuel + 1) s = some p

theorem fuelled_value {fuel : Nat} (ih : Fuelled fuel) {s : List UInt8} {p : Json × List UInt8}
    (h : readValue (fuel + 1) s = some p) : readValue (fuel + 2) s = some p := by
  rw [readValue] at h ⊢
  cases hdrop : s.dropWhile isBlank with
  | nil =>
    rw [hdrop] at h
    cases h
  | cons b r =>
    rw [hdrop] at h
    dsimp only at h ⊢
    split_ifs at h ⊢ with hquote hbracket hbrace hdigit
    · exact h
    · cases hclose : expect 93 r with
      | some r' =>
        rw [hclose] at h
        exact h
      | none =>
        rw [hclose] at h
        obtain ⟨q, hq, rfl⟩ := Option.map_eq_some_iff.mp h
        dsimp only
        rw [ih.2.1 _ _ hq]
        rfl
    · cases hclose : expect 125 r with
      | some r' =>
        rw [hclose] at h
        exact h
      | none =>
        rw [hclose] at h
        obtain ⟨q, hq, rfl⟩ := Option.map_eq_some_iff.mp h
        dsimp only
        rw [ih.2.2 _ _ hq]
        rfl
    · exact h
    · exact h

theorem fuelled_elements {fuel : Nat} (ih : Fuelled fuel) {s : List UInt8}
    {p : List Json × List UInt8} (h : readElements (fuel + 1) s = some p) :
    readElements (fuel + 2) s = some p := by
  rw [readElements] at h ⊢
  cases hvalue : readValue fuel s with
  | none =>
    rw [hvalue] at h
    cases h
  | some q =>
    rw [hvalue] at h
    rw [ih.1 _ _ hvalue]
    dsimp only at h ⊢
    cases hcomma : expect 44 q.2 with
    | none =>
      rw [hcomma] at h
      exact h
    | some s'' =>
      rw [hcomma] at h
      obtain ⟨q', hq', rfl⟩ := Option.map_eq_some_iff.mp h
      dsimp only
      rw [ih.2.1 _ _ hq']
      rfl

theorem fuelled_members {fuel : Nat} (ih : Fuelled fuel) {s : List UInt8}
    {p : List (List UInt8 × Json) × List UInt8} (h : readMembers (fuel + 1) s = some p) :
    readMembers (fuel + 2) s = some p := by
  rw [readMembers] at h ⊢
  cases hkey : (expect 34 s).bind readString with
  | none =>
    rw [hkey] at h
    cases h
  | some q =>
    rw [hkey] at h
    dsimp only at h ⊢
    cases hvalue : (expect 58 q.2).bind fun s => readValue fuel s with
    | none =>
      rw [hvalue] at h
      cases h
    | some r =>
      rw [hvalue] at h
      obtain ⟨s₂, hcolon, hread⟩ := Option.bind_eq_some_iff.mp hvalue
      rw [hcolon]
      dsimp only [Option.bind_some] at h ⊢
      rw [ih.1 _ _ hread]
      dsimp only
      cases hcomma : expect 44 r.2 with
      | none =>
        rw [hcomma] at h
        exact h
      | some s'' =>
        rw [hcomma] at h
        obtain ⟨q', hq', rfl⟩ := Option.map_eq_some_iff.mp h
        dsimp only
        rw [ih.2.2 _ _ hq']
        rfl

theorem fuelled (fuel : Nat) : Fuelled fuel := by
  induction fuel with
  | zero =>
    refine ⟨?_, ?_, ?_⟩
    · intro s p h
      rw [readValue] at h
      cases h
    · intro s p h
      rw [readElements] at h
      cases h
    · intro s p h
      rw [readMembers] at h
      cases h
  | succ fuel ih =>
    exact ⟨fun s p h => fuelled_value ih h, fun s p h => fuelled_elements ih h,
      fun s p h => fuelled_members ih h⟩

theorem readValue_mono {fuel fuel' : Nat} (hle : fuel ≤ fuel') {s : List UInt8}
    {p : Json × List UInt8} (h : readValue fuel s = some p) : readValue fuel' s = some p := by
  induction hle with
  | refl => exact h
  | step _ ih => exact (fuelled _).1 s p ih

/-! ## Torn texts -/

/-- What starts like a number reads as one or not at all. -/
theorem number_of_readValue {fuel : Nat} {s rest : List UInt8} {text : List UInt8}
    (h : readValue fuel s = some (.number text, rest)) (t : List UInt8) {fuel' : Nat} {w : Json}
    {rest' : List UInt8} (h' : readValue fuel' (s ++ t) = some (w, rest')) :
    ∃ text', w = .number text' := by
  have hne := ne_nil_of_readValue h
  obtain ⟨fuel, rfl⟩ : ∃ k, fuel = k + 1 := by
    cases fuel with
    | zero =>
      rw [readValue] at h
      cases h
    | succ k => exact ⟨k, rfl⟩
  obtain ⟨fuel', rfl⟩ : ∃ k, fuel' = k + 1 := by
    cases fuel' with
    | zero =>
      rw [readValue] at h'
      cases h'
    | succ k => exact ⟨k, rfl⟩
  rw [readValue] at h h'
  rw [dropWhile_blank_append hne] at h'
  cases hdrop : s.dropWhile isBlank with
  | nil => exact absurd hdrop hne
  | cons b r =>
    rw [hdrop] at h h'
    dsimp only [List.cons_append] at h h'
    split_ifs at h h' with hquote hbracket hbrace hdigit
    · obtain ⟨p, -, heq⟩ := Option.map_eq_some_iff.mp h
      cases heq
    · split at h
      · cases h
      · obtain ⟨p, -, heq⟩ := Option.map_eq_some_iff.mp h
        cases heq
    · split at h
      · cases h
      · obtain ⟨p, -, heq⟩ := Option.map_eq_some_iff.mp h
        cases heq
    · unfold readNumber at h'
      dsimp only at h'
      split_ifs at h'
      cases h'
      exact ⟨_, rfl⟩
    · unfold readWord at h
      split_ifs at h <;> cases h

/-- **A proper prefix of a text is no document.** -/
theorem parseJson_torn {w : Json} {p q : List UInt8} (h : Reads w (p ++ q))
    (hw : ∀ text, w ≠ .number text) (hq : q ≠ []) : parseJson p = none := by
  by_contra hsome
  have hwhole := h ((p ++ q).length + 1) [] (Nat.le_succ _) (by simp [Delimited])
  rw [List.append_nil] at hwhole
  unfold parseJson at hsome
  cases hread : readValue (p.length + 1) p with
  | none => exact hsome (by rw [hread])
  | some r =>
    obtain ⟨v, rest⟩ := r
    have hnum : ∀ text, v = .number text → rest ≠ [] := by
      rintro text rfl
      obtain ⟨text', hw'⟩ := number_of_readValue hread q hwhole
      exact absurd hw' (hw text')
    have hlen : p.length + 1 ≤ (p ++ q).length + 1 := by simp
    have hmore := readValue_mono hlen (readValue_append hread hnum q)
    rw [hwhole] at hmore
    have hnil := (Prod.mk.inj (Option.some.inj hmore)).2
    exact hq (List.append_eq_nil_iff.mp hnil.symm).2

end ModelFs
