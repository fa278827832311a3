import ModelFs.Lib.Json

/-!
# Reading JSON

A reader of JSON texts. It takes what the grammar allows between the tokens, keeps a number as it is
written, and refuses a string with a bare control byte or with bytes that are no UTF-8. Its fuel is
for the values that are still to be read: the length of the text is enough.

`Reads v t` says that the text `t` reads as `v` in front of whatever follows it.

* `readString_verbatim` — a string without quotes, backslashes and control bytes is its own text.
* `reads_array`, `reads_object` — a text reads as a value if its parts do.
* `parseJson_of_reads` — the whole document.
-/

namespace ModelFs

/-- A number is its text. -/
inductive Json where
  | null
  | bool (b : Bool)
  | number (text : List UInt8)
  | string (s : List UInt8)
  | array (items : List Json)
  | object (members : List (List UInt8 × Json))

/-! ## Tokens -/

def isBlank (b : UInt8) : Bool := b = 32 || b = 9 || b = 10 || b = 13

/-- The next byte that counts is `b`. -/
def expect (b : UInt8) (s : List UInt8) : Option (List UInt8) :=
  match s.dropWhile isBlank with
  | [] => none
  | c :: rest => if c = b then some rest else none

/-- A string up to its closing quote, as it is written. -/
def rawString : List UInt8 → Option (List UInt8 × List UInt8)
  | [] => none
  | [b] => if b = 34 then some ([], []) else none
  | b :: e :: s =>
    if b = 34 then some ([], e :: s)
    else if b.toNat < 32 then none
    else if b = 92 then (rawString s).map fun p => (b :: e :: p.1, p.2)
    else (rawString (e :: s)).map fun p => (b :: p.1, p.2)

def hexValue (b : UInt8) : Option Nat :=
  if 48 ≤ b.toNat ∧ b.toNat ≤ 57 then some (b.toNat - 48)
  else if 65 ≤ b.toNat ∧ b.toNat ≤ 70 then some (b.toNat - 55)
  else if 97 ≤ b.toNat ∧ b.toNat ≤ 102 then some (b.toNat - 87)
  else none

def hexFour (a b c d : UInt8) : Option Nat := do
  some ((((← hexValue a) * 16 + (← hexValue b)) * 16 + (← hexValue c)) * 16 + (← hexValue d))

def isHigh (v : Nat) : Bool := 0xd800 ≤ v && v < 0xdc00

def isLow (v : Nat) : Bool := 0xdc00 ≤ v && v < 0xe000

/-- The bytes of a value that is no surrogate. -/
def utf8Bytes (v : Nat) : List UInt8 := String.utf8EncodeChar (Char.ofNat v)

/-- What an escape of one letter stands for. -/
def unescapeOne (e : UInt8) : Option UInt8 :=
  if e = 34 ∨ e = 92 ∨ e = 47 then some e
  else if e = 98 then some 8
  else if e = 102 then some 12
  else if e = 110 then some 10
  else if e = 114 then some 13
  else if e = 116 then some 9
  else none

/-- The escapes of a string, two of them for a pair of surrogates. -/
def unescape : Nat → List UInt8 → Option (List UInt8)
  | 0, s => if s = [] then some [] else none
  | _ + 1, [] => some []
  | fuel + 1, b :: s =>
    if b ≠ 92 then (unescape fuel s).map (b :: ·)
    else
      match s with
      | 117 :: h₁ :: h₂ :: h₃ :: h₄ :: rest =>
        match hexFour h₁ h₂ h₃ h₄ with
        | none => none
        | some v =>
          if isLow v then none
          else if isHigh v then
            match rest with
            | 92 :: 117 :: l₁ :: l₂ :: l₃ :: l₄ :: rest =>
              match hexFour l₁ l₂ l₃ l₄ with
              | none => none
              | some w =>
                if !isLow w then none
                else (unescape fuel rest).map
                  (utf8Bytes (0x10000 + (v - 0xd800) * 0x400 + (w - 0xdc00)) ++ ·)
            | _ => none
          else (unescape fuel rest).map (utf8Bytes v ++ ·)
      | e :: rest =>
        match unescapeOne e with
        | none => none
        | some c => (unescape fuel rest).map (c :: ·)
      | [] => none

def readString (s : List UInt8) : Option (List UInt8 × List UInt8) :=
  match rawString s with
  | none => none
  | some (raw, rest) =>
    if !utf8ValidateSlice raw then none else (unescape raw.length raw).map fun x => (x, rest)

def jsonDigit (b : UInt8) : Bool := 48 ≤ b.toNat && b.toNat ≤ 57

/-- The bytes of numbers: digits, signs, the point and the exponent. -/
def numberByte (b : UInt8) : Bool := jsonDigit b || b = 45 || b = 43 || b = 46 || b = 69 || b = 101

def skipDigits (s : List UInt8) : Option (List UInt8) :=
  if s.takeWhile jsonDigit = [] then none else some (s.dropWhile jsonDigit)

def skipInteger (s : List UInt8) : Option (List UInt8) :=
  if s.head? = some 48 then some s.tail else skipDigits s

def skipFraction (s : List UInt8) : Option (List UInt8) :=
  if s.head? = some 46 then skipDigits s.tail else some s

def skipExponent (s : List UInt8) : Option (List UInt8) :=
  if s.head? = some 69 ∨ s.head? = some 101 then
    skipDigits (if s.tail.head? = some 43 ∨ s.tail.head? = some 45 then s.tail.tail else s.tail)
  else some s

def isJsonNumber (s : List UInt8) : Bool :=
  let digits := if s.head? = some 45 then s.tail else s
  (((skipInteger digits).bind skipFraction).bind skipExponent) = some []

def readNumber (s : List UInt8) : Option (Json × List UInt8) :=
  let text := s.takeWhile numberByte
  if isJsonNumber text then some (.number text, s.drop text.length) else none

/-- The three names. -/
def readWord (s : List UInt8) : Option (Json × List UInt8) :=
  if (ascii "null").isPrefixOf s then some (.null, s.drop 4)
  else if (ascii "true").isPrefixOf s then some (.bool true, s.drop 4)
  else if (ascii "false").isPrefixOf s then some (.bool false, s.drop 5)
  else none

/-! ## Values -/

mutual

def readValue : Nat → List UInt8 → Option (Json × List UInt8)
  | 0, _ => none
  | fuel + 1, s =>
    match s.dropWhile isBlank with
    | [] => none
    | b :: rest =>
      if b = 34 then (readString rest).map fun p => (.string p.1, p.2)
      else if b = 91 then
        match expect 93 rest with
        | some rest => some (.array [], rest)
        | none => (readElements fuel rest).map fun p => (.array p.1, p.2)
      else if b = 123 then
        match expect 125 rest with
        | some rest => some (.object [], rest)
        | none => (readMembers fuel rest).map fun p => (.object p.1, p.2)
      else if jsonDigit b || b = 45 then readNumber (b :: rest)
      else readWord (b :: rest)

/-- The values of an array that has one. -/
def readElements : Nat → List UInt8 → Option (List Json × List UInt8)
  | 0, _ => none
  | fuel + 1, s =>
    match readValue fuel s with
    | none => none
    | some (v, s) =>
      match expect 44 s with
      | some s => (readElements fuel s).map fun p => (v :: p.1, p.2)
      | none => (expect 93 s).map fun s => ([v], s)

/-- The members of an object that has one. -/
def readMembers : Nat → List UInt8 → Option (List (List UInt8 × Json) × List UInt8)
  | 0, _ => none
  | fuel + 1, s =>
    match (expect 34 s).bind readString with
    | none => none
    | some (key, s) =>
      match (expect 58 s).bind fun s => readValue fuel s with
      | none => none
      | some (v, s) =>
        match expect 44 s with
        | some s => (readMembers fuel s).map fun p => ((key, v) :: p.1, p.2)
        | none => (expect 125 s).map fun s => ([(key, v)], s)

end

/-- A document, with nothing behind it. -/
def parseJson (s : List UInt8) : Option Json :=
  match readValue (s.length + 1) s with
  | none => none
  | some (v, rest) => if rest.all isBlank then some v else none

/-! ## Strings that are their own text -/

/-- A string whose text is the string between quotes. -/
def Verbatim (s : List UInt8) : Prop :=
  utf8ValidateSlice s = true ∧ ∀ b ∈ s, 32 ≤ b.toNat ∧ b ≠ 34 ∧ b ≠ 92

theorem rawString_verbatim {s : List UInt8} (h : ∀ b ∈ s, 32 ≤ b.toNat ∧ b ≠ 34 ∧ b ≠ 92)
    (rest : List UInt8) : rawString (s ++ 34 :: rest) = some (s, rest) := by
  induction s with
  | nil =>
    rw [List.nil_append]
    cases rest with
    | nil => rw [rawString, if_pos rfl]
    | cons e rest => rw [rawString, if_pos rfl]
  | cons b s ih =>
    obtain ⟨hlow, hquote, hback⟩ := h b List.mem_cons_self
    have hrest := ih fun c hc => h c (List.mem_cons_of_mem b hc)
    obtain ⟨e, more, hmore⟩ : ∃ e more, s ++ 34 :: rest = e :: more := by
      cases s with
      | nil => exact ⟨34, rest, rfl⟩
      | cons e s => exact ⟨e, s ++ 34 :: rest, rfl⟩
    rw [List.cons_append, hmore, rawString, if_neg hquote, if_neg (Nat.not_lt.mpr hlow),
      if_neg hback, ← hmore, hrest]
    rfl

theorem unescape_verbatim {s : List UInt8} (h : ∀ b ∈ s, b ≠ 92) (fuel : Nat)
    (hfuel : s.length ≤ fuel) : unescape fuel s = some s := by
  induction s generalizing fuel with
  | nil =>
    cases fuel with
    | zero => rfl
    | succ fuel => rfl
  | cons b s ih =>
    obtain ⟨fuel, rfl⟩ : ∃ k, fuel = k + 1 := by
      rw [List.length_cons] at hfuel
      exact ⟨fuel - 1, by omega⟩
    rw [List.length_cons] at hfuel
    have hrest := ih (fun c hc => h c (List.mem_cons_of_mem b hc)) fuel (by omega)
    rw [unescape.eq_def]
    dsimp only
    rw [if_pos (h b List.mem_cons_self), hrest]
    rfl

/-- **A string that is its own text** is read as itself. -/
theorem readString_verbatim {s : List UInt8} (h : Verbatim s) (rest : List UInt8) :
    readString (s ++ 34 :: rest) = some (s, rest) := by
  unfold readString
  rw [rawString_verbatim h.2 rest]
  dsimp only
  rw [h.1, unescape_verbatim (fun b hb => (h.2 b hb).2.2) _ le_rfl]
  rfl

/-! ## Texts that are read -/

/-- No number goes on here. -/
def Delimited (rest : List UInt8) : Prop := ∀ b ∈ rest.head?, numberByte b = false

/-- The text `t` reads as `v`. -/
def Reads (v : Json) (t : List UInt8) : Prop :=
  ∀ fuel rest, t.length ≤ fuel → Delimited rest → readValue fuel (t ++ rest) = some (v, rest)

theorem dropWhile_blank {b : UInt8} (h : isBlank b = false) (s : List UInt8) :
    (b :: s).dropWhile isBlank = b :: s := by
  rw [List.dropWhile_cons, h]
  rfl

theorem expect_self {b : UInt8} (h : isBlank b = false) (s : List UInt8) :
    expect b (b :: s) = some s := by
  unfold expect
  rw [dropWhile_blank h]
  exact if_pos rfl

theorem expect_other {b c : UInt8} (h : isBlank c = false) (hne : c ≠ b) (s : List UInt8) :
    expect b (c :: s) = none := by
  unfold expect
  rw [dropWhile_blank h]
  exact if_neg hne

theorem reads_string {s : List UInt8} (h : Verbatim s) : Reads (.string s) (34 :: (s ++ [34])) := by
  intro fuel rest hfuel _
  obtain ⟨fuel, rfl⟩ : ∃ k, fuel = k + 1 := by
    rw [List.length_cons] at hfuel
    exact ⟨fuel - 1, by omega⟩
  have hread := readString_verbatim h rest
  rw [List.cons_append, List.append_assoc, List.singleton_append, readValue,
    dropWhile_blank (by decide)]
  dsimp only
  rw [if_pos rfl, hread]
  rfl

/-- A number starts with a digit or a sign. -/
theorem head_of_number {b : UInt8} {t : List UInt8} (h : isJsonNumber (b :: t) = true) :
    (jsonDigit b || b = 45) = true := by
  unfold isJsonNumber at h
  by_cases hsign : b = 45
  · simp [hsign]
  · rw [decide_eq_false hsign, Bool.or_false]
    have hhead : (b :: t).head? ≠ some 45 := fun heq => hsign (Option.some.inj heq)
    rw [if_neg hhead] at h
    dsimp only at h
    by_cases hdigit : jsonDigit b = true
    · exact hdigit
    · have hzero : (b :: t).head? ≠ some 48 := by
        intro heq
        rw [Option.some.inj heq] at hdigit
        exact hdigit (by decide)
      have hskip : skipInteger (b :: t) = none := by
        unfold skipInteger skipDigits
        rw [if_neg hzero, List.takeWhile_cons, if_neg hdigit]
        exact if_pos rfl
      rw [hskip] at h
      cases h

/-- A number, in front of what is no part of one. -/
theorem reads_number {t : List UInt8} (hbytes : ∀ b ∈ t, numberByte b = true)
    (hnumber : isJsonNumber t = true) : Reads (.number t) t := by
  intro fuel rest hfuel hrest
  cases t with
  | nil => cases hnumber
  | cons b t =>
    obtain ⟨fuel, rfl⟩ : ∃ k, fuel = k + 1 := by
      rw [List.length_cons] at hfuel
      exact ⟨fuel - 1, by omega⟩
    have hhead := head_of_number hnumber
    have hrange : 45 ≤ b.toNat ∧ b.toNat ≤ 57 := by
      unfold jsonDigit at hhead
      simp only [Bool.or_eq_true, Bool.and_eq_true, decide_eq_true_eq] at hhead
      rcases hhead with ⟨hlo, hhi⟩ | rfl
      · exact ⟨by omega, hhi⟩
      · decide
    have hother : ∀ c : UInt8, c.toNat < 45 ∨ 57 < c.toNat → b ≠ c := by
      rintro c hc rfl
      omega
    have hblank : isBlank b = false := by
      unfold isBlank
      simp [hother 32 (by decide), hother 9 (by decide), hother 10 (by decide),
        hother 13 (by decide)]
    have hquote : b ≠ 34 := hother 34 (by decide)
    have harray : b ≠ 91 := hother 91 (by decide)
    have hobject : b ≠ 123 := hother 123 (by decide)
    have htake : (b :: (t ++ rest)).takeWhile numberByte = b :: t := by
      rw [← List.cons_append, List.takeWhile_append_of_pos hbytes]
      cases rest with
      | nil => rw [List.takeWhile_nil, List.append_nil]
      | cons c rest =>
        rw [List.takeWhile_cons, hrest c rfl]
        exact List.append_nil _
    rw [List.cons_append, readValue, dropWhile_blank hblank]
    dsimp only
    rw [if_neg hquote, if_neg harray, if_neg hobject, if_pos hhead]
    unfold readNumber
    dsimp only
    rw [htake, if_pos hnumber, ← List.cons_append, List.drop_left]

/-! ## Arrays and objects -/

theorem delimited_comma (s : List UInt8) : Delimited (44 :: s) := by
  rintro b ⟨⟩
  decide

theorem delimited_close {b : UInt8} (hb : b = 93 ∨ b = 125) (s : List UInt8) :
    Delimited (b :: s) := by
  rintro c ⟨⟩
  rcases hb with rfl | rfl <;> decide

/-- No value starts with a bracket that closes. -/
theorem expect_of_reads {v : Json} {t rest : List UInt8} (h : Reads v t) (hrest : Delimited rest) :
    expect 93 (t ++ rest) = none := by
  have hread := h (t.length + 1) rest (Nat.le_succ _) hrest
  unfold expect
  rw [readValue] at hread
  cases hdrop : (t ++ rest).dropWhile isBlank with
  | nil => rfl
  | cons c more =>
    rw [hdrop] at hread
    dsimp only at hread ⊢
    refine if_neg ?_
    rintro rfl
    rw [if_neg (by decide), if_neg (by decide), if_neg (by decide), if_neg (by decide)] at hread
    cases hread

/-- The values of an array, one by one. -/
theorem readElements_commaSep {v : Json} {t : List UInt8} {vs : List Json} {ts : List (List UInt8)}
    (hv : Reads v t) (hvs : List.Forall₂ Reads vs ts) (fuel : Nat) (rest : List UInt8)
    (hfuel : (commaSep (t :: ts)).length + 1 ≤ fuel) :
    readElements fuel (commaSep (t :: ts) ++ 93 :: rest) = some (v :: vs, rest) := by
  induction hvs generalizing v t fuel with
  | nil =>
    rw [commaSep] at hfuel ⊢
    obtain ⟨fuel, rfl⟩ : ∃ k, fuel = k + 1 := ⟨fuel - 1, by omega⟩
    rw [readElements, hv fuel _ (by omega) (delimited_close (Or.inl rfl) rest)]
    dsimp only
    rw [expect_other (by decide) (by decide), expect_self (by decide)]
    rfl
  | @cons w u vs ts hw hvs ih =>
    rw [commaSep] at hfuel ⊢
    rw [List.length_append, List.length_cons] at hfuel
    obtain ⟨fuel, rfl⟩ : ∃ k, fuel = k + 1 := ⟨fuel - 1, by omega⟩
    rw [List.append_assoc, List.cons_append, readElements, hv fuel _ (by omega) (delimited_comma _)]
    dsimp only
    rw [expect_self (by decide)]
    dsimp only
    rw [ih hw fuel (by omega)]
    rfl

/-- **An array** is read if its values are. -/
theorem reads_array {vs : List Json} {ts : List (List UInt8)} (h : List.Forall₂ Reads vs ts) :
    Reads (.array vs) (jsonArray ts) := by
  intro fuel rest hfuel hrest
  unfold jsonArray at hfuel ⊢
  obtain ⟨fuel, rfl⟩ : ∃ k, fuel = k + 1 := by
    rw [List.length_cons] at hfuel
    exact ⟨fuel - 1, by omega⟩
  rw [List.length_cons, List.length_append, List.length_singleton] at hfuel
  rw [List.cons_append, List.append_assoc, List.singleton_append, readValue,
    dropWhile_blank (by decide)]
  dsimp only
  rw [if_neg (by decide), if_pos rfl]
  cases h with
  | nil =>
    rw [commaSep, List.nil_append, expect_self (by decide)]
  | @cons v t vs ts hv hvs =>
    have hnone : expect 93 (commaSep (t :: ts) ++ 93 :: rest) = none := by
      cases ts with
      | nil => exact expect_of_reads hv (delimited_close (Or.inl rfl) rest)
      | cons u ts =>
        rw [commaSep, List.append_assoc]
        exact expect_of_reads hv (delimited_comma _)
    rw [hnone]
    dsimp only
    rw [readElements_commaSep hv hvs fuel rest (by omega)]
    rfl

/-- A member: its key, its value and the text of the value. -/
abbrev Member := List UInt8 × Json × List UInt8

def Member.text (m : Member) : List UInt8 := jsonMember m.1 m.2.2

/-- The key is its own text, and the value is read. -/
def Member.Ok (m : Member) : Prop := Verbatim m.1 ∧ Reads m.2.1 m.2.2

/-- A member in front of others. -/
theorem readMembers_comma {m : Member} (hm : Member.Ok m) {fuel : Nat} (hfuel : m.2.2.length ≤ fuel)
    (s : List UInt8) :
    readMembers (fuel + 1) (jsonMember m.1 m.2.2 ++ 44 :: s) =
      (readMembers fuel s).map fun p => ((m.1, m.2.1) :: p.1, p.2) := by
  obtain ⟨hkey, hvalue⟩ := hm
  unfold jsonMember
  rw [List.cons_append, List.append_assoc, List.cons_append, List.cons_append, readMembers,
    expect_self (by decide), Option.bind_some, readString_verbatim hkey]
  dsimp only
  rw [expect_self (by decide), Option.bind_some, hvalue fuel _ hfuel (delimited_comma s)]
  dsimp only
  rw [expect_self (by decide)]

/-- The last member. -/
theorem readMembers_close {m : Member} (hm : Member.Ok m) {fuel : Nat} (hfuel : m.2.2.length ≤ fuel)
    (s : List UInt8) :
    readMembers (fuel + 1) (jsonMember m.1 m.2.2 ++ 125 :: s) = some ([(m.1, m.2.1)], s) := by
  obtain ⟨hkey, hvalue⟩ := hm
  unfold jsonMember
  rw [List.cons_append, List.append_assoc, List.cons_append, List.cons_append, readMembers,
    expect_self (by decide), Option.bind_some, readString_verbatim hkey]
  dsimp only
  rw [expect_self (by decide), Option.bind_some,
    hvalue fuel _ hfuel (delimited_close (Or.inr rfl) s)]
  dsimp only
  rw [expect_other (by decide) (by decide), expect_self (by decide)]
  rfl

theorem readMembers_commaSep {m : Member} {ms : List Member} (hm : Member.Ok m)
    (hms : ∀ m ∈ ms, Member.Ok m) (fuel : Nat) (rest : List UInt8)
    (hfuel : (commaSep ((m :: ms).map Member.text)).length + 1 ≤ fuel) :
    readMembers fuel (commaSep ((m :: ms).map Member.text) ++ 125 :: rest) =
      some ((m :: ms).map fun m => (m.1, m.2.1), rest) := by
  induction ms generalizing m fuel with
  | nil =>
    rw [List.map_cons, List.map_nil, commaSep, Member.text] at hfuel ⊢
    rw [length_jsonMember] at hfuel
    obtain ⟨fuel, rfl⟩ : ∃ k, fuel = k + 1 := ⟨fuel - 1, by omega⟩
    rw [readMembers_close hm (by omega)]
    rfl
  | cons n ms ih =>
    rw [List.map_cons, List.map_cons, commaSep, ← List.map_cons, Member.text] at hfuel ⊢
    rw [List.length_append, List.length_cons, length_jsonMember] at hfuel
    obtain ⟨fuel, rfl⟩ : ∃ k, fuel = k + 1 := ⟨fuel - 1, by omega⟩
    have hn := hms n List.mem_cons_self
    have hrest := ih hn (fun k hk => hms k (List.mem_cons_of_mem n hk)) fuel (by omega)
    rw [List.append_assoc, List.cons_append, readMembers_comma hm (by omega), hrest]
    rfl

/-- **An object** is read if its values are and its keys are their own texts. -/
theorem reads_object {ms : List Member} (h : ∀ m ∈ ms, Member.Ok m) :
    Reads (.object (ms.map fun m => (m.1, m.2.1))) (jsonObject (ms.map fun m => (m.1, m.2.2))) := by
  intro fuel rest hfuel hrest
  have htext : jsonObject (ms.map fun m => (m.1, m.2.2)) =
      123 :: (commaSep (ms.map Member.text) ++ [125]) := by
    unfold jsonObject
    rw [List.map_map]
    rfl
  rw [htext] at hfuel ⊢
  obtain ⟨fuel, rfl⟩ : ∃ k, fuel = k + 1 := by
    rw [List.length_cons] at hfuel
    exact ⟨fuel - 1, by omega⟩
  rw [List.length_cons, List.length_append, List.length_singleton] at hfuel
  rw [List.cons_append, List.append_assoc, List.singleton_append, readValue,
    dropWhile_blank (by decide)]
  dsimp only
  rw [if_neg (by decide), if_neg (by decide), if_pos rfl]
  cases ms with
  | nil =>
    rw [List.map_nil, commaSep, List.nil_append, expect_self (by decide)]
    rfl
  | cons m ms =>
    have hread := readMembers_commaSep (h m List.mem_cons_self)
      (fun n hn => h n (List.mem_cons_of_mem m hn)) fuel rest (by omega)
    obtain ⟨more, hmore⟩ : ∃ more, commaSep ((m :: ms).map Member.text) ++ 125 :: rest =
        34 :: more := by
      cases ms with
      | nil => exact ⟨_, rfl⟩
      | cons n ms => exact ⟨_, rfl⟩
    rw [hmore] at hread ⊢
    rw [expect_other (by decide) (by decide)]
    dsimp only
    rw [hread]
    rfl

/-- **A document.** -/
theorem parseJson_of_reads {v : Json} {t : List UInt8} (h : Reads v t) : parseJson t = some v := by
  have hread := h (t.length + 1) [] (Nat.le_succ _) fun b hb => by cases hb
  rw [List.append_nil] at hread
  unfold parseJson
  rw [hread]
  rfl

end ModelFs
