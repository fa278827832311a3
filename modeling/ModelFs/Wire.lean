import ModelFs.Piece
import ModelFs.Lib.Bytes

/-!
# The words of the peer protocol

`proto`: numbers, ranges, URLs and header fields as they go over the wire, each with its writer and
its reader. The writers are the format strings of the client, the readers those of the server.

* `parseU64Fast_decimal` — a number in decimal reads back.
* `parseRange_written` — so does a range.
* `urlDecode_urlEncode` — **a name of any bytes survives the URL**, within the buffers.
* `Fields.line_fieldLine`, `bearerOk_written` — a header line as it was written, and the token.
* `headerGet2_eq`, `headerGet_each` — one pass for several names finds what a pass for each finds.
-/

namespace ModelFs

namespace Proto

/-! ## Numbers -/

/-- `{d}`. -/
def decimal (n : Nat) : List UInt8 := (Nat.toDigits 10 n).map fun c => UInt8.ofNat c.toNat

/-- The loop of `parseU64Fast`: it stops at a byte that is no digit and where `u64` overflows. -/
def parseDigits : List UInt8 → Nat → Option Nat
  | [], n => some n
  | ch :: s, n =>
    if ch.toNat < 48 ∨ 57 < ch.toNat then none
    else if maxU64 < n * 10 then none
    else if maxU64 < n * 10 + (ch.toNat - 48) then none
    else parseDigits s (n * 10 + (ch.toNat - 48))

def parseU64Fast (s : List UInt8) : Option Nat := if s = [] then none else parseDigits s 0

theorem digit_of_mem_decimal {n : Nat} {b : UInt8} (h : b ∈ decimal n) :
    48 ≤ b.toNat ∧ b.toNat ≤ 57 := by
  obtain ⟨c, hc, rfl⟩ := List.mem_map.mp h
  have hdigit := Nat.isDigit_of_mem_toDigits (by decide) (by decide) hc
  rw [Char.isDigit, Bool.and_eq_true, decide_eq_true_iff, decide_eq_true_iff] at hdigit
  have hlo : 48 ≤ c.toNat := hdigit.1
  have hhi : c.toNat ≤ 57 := hdigit.2
  rw [UInt8.toNat_ofNat']
  omega

theorem decimal_ne_nil (n : Nat) : decimal n ≠ [] := fun h =>
  Nat.toDigits_ne_nil (List.map_eq_nil_iff.mp h)

theorem length_decimal_le {n k : Nat} (hk : 0 < k) (h : n < 10 ^ k) : (decimal n).length ≤ k := by
  rw [decimal, List.length_map]
  exact (Nat.length_toDigits_le_iff (by decide) hk).mpr h

theorem le_ofDigitChars (cs : List Char) (acc : Nat) : acc ≤ Nat.ofDigitChars 10 cs acc := by
  rw [Nat.ofDigitChars_eq_ofDigitChars_zero]
  have hpow : 0 < 10 ^ cs.length := Nat.pow_pos (by decide)
  have := Nat.le_mul_of_pos_left acc hpow
  omega

/-- Reading digits goes on from the number read before. -/
theorem parseDigits_digits {cs : List Char} (hcs : ∀ c ∈ cs, c.isDigit = true) {acc : Nat}
    (hfit : Nat.ofDigitChars 10 cs acc ≤ maxU64) :
    parseDigits (cs.map fun c => UInt8.ofNat c.toNat) acc = some (Nat.ofDigitChars 10 cs acc) := by
  induction cs generalizing acc with
  | nil => rw [Nat.ofDigitChars_nil, List.map_nil, parseDigits]
  | cons c cs ih =>
    have hdigit := hcs c List.mem_cons_self
    rw [Char.isDigit, Bool.and_eq_true, decide_eq_true_iff, decide_eq_true_iff] at hdigit
    have hlo : 48 ≤ c.toNat := hdigit.1
    have hhi : c.toNat ≤ 57 := hdigit.2
    have hbyte : (UInt8.ofNat c.toNat).toNat = c.toNat := by
      rw [UInt8.toNat_ofNat']
      omega
    have hvalue : Nat.ofDigitChars 10 (c :: cs) acc =
        Nat.ofDigitChars 10 cs (acc * 10 + (c.toNat - 48)) := by
      rw [Nat.ofDigitChars_cons, Nat.mul_comm 10 acc]
      rfl
    rw [hvalue] at hfit ⊢
    have hacc := (le_ofDigitChars cs _).trans hfit
    rw [List.map_cons, parseDigits, hbyte, if_neg (by omega),
      if_neg (Nat.not_lt.mpr ((Nat.le_add_right ..).trans hacc)), if_neg (Nat.not_lt.mpr hacc)]
    exact ih (fun d hd => hcs d (List.mem_cons_of_mem _ hd)) hfit

/-- **A number reads back.** -/
theorem parseU64Fast_decimal {n : Nat} (h : n ≤ maxU64) : parseU64Fast (decimal n) = some n := by
  have hvalue : Nat.ofDigitChars 10 (Nat.toDigits 10 n) 0 = n := Nat.ofDigitChars_ten_toDigits
  rw [parseU64Fast, if_neg (decimal_ne_nil n), decimal, parseDigits_digits, hvalue]
  · exact fun c hc => Nat.isDigit_of_mem_toDigits (by decide) (by decide) hc
  · rwa [hvalue]

/-! ## Ranges -/

/-- `[start, stop]`, the last byte included. -/
structure Range where
  start : Nat
  stop : Nat
  deriving DecidableEq, Repr

/-- Blanks and tabs around a header value. -/
def blanks : List UInt8 := [32, 9]

def parseRange (h : List UInt8) : Option Range :=
  let start := ascii "bytes="
  let s := trim blanks h
  if startsWithIgnoreCase s start then
    let body := s.drop start.length
    match findScalar 45 body with
    | none => none
    | some dash =>
      match parseU64Fast (body.take dash) with
      | none => none
      | some a =>
        match (if body.length = dash + 1 then some maxU64
            else parseU64Fast (body.drop (dash + 1))) with
        | none => none
        | some b => if b < a then none else some ⟨a, b⟩
  else none

/-- The value of a `Range` field as the client writes it. -/
def rangeValue (rg : Range) : List UInt8 :=
  ascii "bytes=" ++ decimal rg.start ++ 45 :: decimal rg.stop

theorem not_mem_decimal {n : Nat} {b : UInt8} (hb : b.toNat < 48 ∨ 57 < b.toNat) :
    b ∉ decimal n := by
  intro hmem
  have := digit_of_mem_decimal hmem
  omega

/-- A decimal number ends in a digit, so a trim of blanks leaves it. -/
theorem getLast_append_decimal {s : List UInt8} {n : Nat} {b : UInt8}
    (h : b ∈ (s ++ decimal n).getLast?) : 48 ≤ b.toNat := by
  obtain ⟨digits, d, hd⟩ := (List.eq_nil_or_concat (decimal n)).resolve_left (decimal_ne_nil n)
  rw [List.concat_eq_append] at hd
  rw [hd, ← List.append_assoc, List.getLast?_concat] at h
  obtain rfl := Option.some.inj h
  exact (digit_of_mem_decimal (hd ▸ List.mem_append_right _ List.mem_cons_self)).1

theorem trim_rangeValue (rg : Range) : trim blanks (rangeValue rg) = rangeValue rg := by
  refine trim_of_ends ?_ ?_
  · rintro b ⟨⟩
    decide
  · intro b hb
    have hlast : 48 ≤ b.toNat := by
      unfold rangeValue at hb
      rw [← List.singleton_append, ← List.append_assoc] at hb
      exact getLast_append_decimal hb
    intro hmem
    have hblank : b = 32 ∨ b = 9 := by simpa [blanks] using hmem
    rcases hblank with rfl | rfl
    · exact absurd hlast (by decide)
    · exact absurd hlast (by decide)

/-- **A range reads back.** -/
theorem parseRange_written {rg : Range} (hle : rg.start ≤ rg.stop) (hfit : rg.stop ≤ maxU64) :
    parseRange (rangeValue rg) = some rg := by
  have hdash : (45 : UInt8) ∉ decimal rg.start := not_mem_decimal (Or.inl (by decide))
  have hstart : startsWithIgnoreCase (rangeValue rg) (ascii "bytes=") = true := by
    unfold rangeValue startsWithIgnoreCase
    rw [List.append_assoc, List.take_left' rfl, if_neg (by simp)]
    decide
  have hbody : (rangeValue rg).drop (ascii "bytes=").length =
      decimal rg.start ++ 45 :: decimal rg.stop := by
    rw [rangeValue, List.append_assoc]
    exact List.drop_left' rfl
  have hrest : (decimal rg.start ++ 45 :: decimal rg.stop).drop ((decimal rg.start).length + 1) =
      decimal rg.stop := by
    rw [← List.drop_drop, List.drop_left' rfl]
    rfl
  have hclosed : ¬ (decimal rg.start ++ 45 :: decimal rg.stop).length =
      (decimal rg.start).length + 1 := by
    have hpos := List.length_pos_of_ne_nil (decimal_ne_nil rg.stop)
    rw [List.length_append, List.length_cons]
    omega
  unfold parseRange
  simp only [trim_rangeValue, hstart, if_true, hbody, findScalar_append hdash,
    List.take_left' rfl, parseU64Fast_decimal (hle.trans hfit), hrest, if_neg hclosed,
    parseU64Fast_decimal hfit, if_neg (Nat.not_lt.mpr hle)]

/-! ## URLs -/

/-- `unreserved_lut`. -/
def isUnreserved (b : UInt8) : Bool :=
  let n := b.toNat
  (97 ≤ n && n ≤ 122) || (65 ≤ n && n ≤ 90) || (48 ≤ n && n ≤ 57) || n == 45 || n == 95 ||
    n == 46 || n == 126

/-- The digits of an escape. -/
def hexDigits : List UInt8 := ascii "0123456789ABCDEF"

def hexDigit (n : Nat) : UInt8 := hexDigits.getD n 0

/-- `std.fmt.charToDigit` in base 16. -/
def hexVal (ch : UInt8) : Option Nat :=
  let n := ch.toNat
  if 48 ≤ n ∧ n ≤ 57 then some (n - 48)
  else if 65 ≤ n ∧ n ≤ 70 then some (n - 55)
  else if 97 ≤ n ∧ n ≤ 102 then some (n - 87)
  else none

/-- Into a buffer with `room` bytes left; `none` is `error.NoSpaceLeft`. -/
def urlEncode (room : Nat) : List UInt8 → Option (List UInt8)
  | [] => some []
  | ch :: s =>
    if isUnreserved ch then
      if room < 1 then none else (urlEncode (room - 1) s).map (ch :: ·)
    else if room < 3 then none
    else (urlEncode (room - 3) s).map
      (37 :: hexDigit (ch.toNat / 16) :: hexDigit (ch.toNat % 16) :: ·)

/-- Into a buffer with `room` bytes left; `none` is either error. -/
def urlDecode (room : Nat) : List UInt8 → Option (List UInt8)
  | [] => some []
  | ch :: s =>
    if room < 1 then none
    else if ch = 37 then
      match s with
      | hi :: lo :: rest =>
        match hexVal hi, hexVal lo with
        | some hi, some lo => (urlDecode (room - 1) rest).map (UInt8.ofNat (hi * 16 + lo) :: ·)
        | _, _ => none
      | _ => none
    else (urlDecode (room - 1) s).map (ch :: ·)

/-- What one byte becomes. -/
def encodeByte (ch : UInt8) : List UInt8 :=
  if isUnreserved ch then [ch]
  else [37, hexDigit (ch.toNat / 16), hexDigit (ch.toNat % 16)]

theorem length_encodeByte_le (ch : UInt8) : (encodeByte ch).length ≤ 3 := by
  unfold encodeByte
  split_ifs <;> simp

theorem hexVal_hexDigit {n : Nat} (hn : n < 16) : hexVal (hexDigit n) = some n := by
  revert n
  decide

theorem encodeByte_plain {ch : UInt8} (h : isUnreserved ch = true) : encodeByte ch = [ch] :=
  if_pos h

theorem encodeByte_escaped {ch : UInt8} (h : ¬ isUnreserved ch = true) :
    encodeByte ch = [37, hexDigit (ch.toNat / 16), hexDigit (ch.toNat % 16)] := if_neg h

theorem length_encoded_le (s : List UInt8) : (s.flatMap encodeByte).length ≤ 3 * s.length := by
  induction s with
  | nil => exact Nat.zero_le _
  | cons ch s ih =>
    have hch := length_encodeByte_le ch
    rw [List.flatMap_cons, List.length_append, List.length_cons]
    omega

/-- An encoding is the concatenation of its bytes' encodings, if there is room for it. -/
theorem urlEncode_eq {room : Nat} {s : List UInt8} (h : (s.flatMap encodeByte).length ≤ room) :
    urlEncode room s = some (s.flatMap encodeByte) := by
  induction s generalizing room with
  | nil => rfl
  | cons ch s ih =>
    rw [List.flatMap_cons, List.length_append] at h
    rw [urlEncode, List.flatMap_cons]
    by_cases hplain : isUnreserved ch = true
    · rw [encodeByte_plain hplain, List.length_singleton] at h
      rw [if_pos hplain, if_neg (by omega), ih (by omega), encodeByte_plain hplain]
      rfl
    · rw [encodeByte_escaped hplain, List.length_cons, List.length_cons, List.length_singleton] at h
      rw [if_neg hplain, if_neg (by omega), ih (by omega), encodeByte_escaped hplain]
      rfl

/-- Only unreserved bytes and `%` are written. -/
theorem mem_encoded {s : List UInt8} {b : UInt8} (h : b ∈ s.flatMap encodeByte) :
    isUnreserved b = true ∨ b = 37 := by
  obtain ⟨ch, -, hb⟩ := List.mem_flatMap.mp h
  have hhex : ∀ n : Nat, n < 16 → isUnreserved (hexDigit n) = true := by decide
  have hch := ch.toNat_lt
  by_cases hplain : isUnreserved ch = true
  · rw [encodeByte_plain hplain, List.mem_singleton] at hb
    rw [hb]
    exact Or.inl hplain
  · rw [encodeByte_escaped hplain] at hb
    simp only [List.mem_cons, List.not_mem_nil, or_false] at hb
    rcases hb with rfl | rfl | rfl
    · exact Or.inr rfl
    · exact Or.inl (hhex _ (by omega))
    · exact Or.inl (hhex _ (by omega))

theorem not_mem_encoded {s : List UInt8} {b : UInt8} (hb : isUnreserved b = false) (h37 : b ≠ 37) :
    b ∉ s.flatMap encodeByte := by
  intro hmem
  rcases mem_encoded hmem with h | h
  · rw [hb] at h
    exact Bool.noConfusion h
  · exact h37 h

theorem urlDecode_plain {room : Nat} {ch : UInt8} {s : List UInt8} (hroom : ¬ room < 1)
    (hch : ch ≠ 37) : urlDecode room (ch :: s) = (urlDecode (room - 1) s).map (ch :: ·) := by
  match s with
  | [] => rw [urlDecode.eq_def]; exact (if_neg hroom).trans (if_neg hch)
  | [_] => rw [urlDecode.eq_def]; exact (if_neg hroom).trans (if_neg hch)
  | _ :: _ :: _ => rw [urlDecode.eq_def]; exact (if_neg hroom).trans (if_neg hch)

/-- **A name of any bytes survives the URL**, in a buffer that holds it. -/
theorem urlDecode_urlEncode {room : Nat} {s : List UInt8} (h : s.length ≤ room) :
    urlDecode room (s.flatMap encodeByte) = some s := by
  induction s generalizing room with
  | nil => rfl
  | cons ch s ih =>
    rw [List.length_cons] at h
    have hrest : urlDecode (room - 1) (s.flatMap encodeByte) = some s := ih (by omega)
    rw [List.flatMap_cons]
    by_cases hplain : isUnreserved ch = true
    · have hpercent : ch ≠ 37 := by
        rintro rfl
        exact absurd hplain (by decide)
      rw [encodeByte_plain hplain, List.singleton_append, urlDecode_plain (by omega) hpercent,
        hrest]
      rfl
    · have hch := ch.toNat_lt
      have hbyte : UInt8.ofNat (ch.toNat / 16 * 16 + ch.toNat % 16) = ch := by
        rw [Nat.div_add_mod', UInt8.ofNat_toNat]
      rw [encodeByte_escaped hplain, List.cons_append, List.cons_append, List.singleton_append,
        urlDecode, if_neg (by omega), if_pos rfl, hexVal_hexDigit (by omega),
        hexVal_hexDigit (by omega)]
      dsimp only
      rw [hrest, hbyte]
      rfl

/-! ## Targets -/

/-- The pairs of a query, up to the first whose name is `key`. -/
def queryScan (key : List UInt8) : List (List UInt8) → Option (List UInt8)
  | [] => none
  | pair :: rest =>
    match findScalar 61 pair with
    | none => queryScan key rest
    | some eq =>
      if eq ≠ key.length then queryScan key rest
      else if pair.take eq = key then some (pair.drop (eq + 1))
      else queryScan key rest

def queryGet (target key : List UInt8) : Option (List UInt8) :=
  match findScalar 63 target with
  | none => none
  | some q => queryScan key ((target.drop (q + 1)).splitOn 38)

def pathOnly (target : List UInt8) : List UInt8 :=
  match findScalar 63 target with
  | none => target
  | some q => target.take q

/-- A target with one pair in its query. -/
theorem queryGet_one {path key value : List UInt8} (hpath : 63 ∉ path) (hkey : 61 ∉ key)
    (hand : 38 ∉ key ++ 61 :: value) :
    queryGet (path ++ 63 :: (key ++ 61 :: value)) key = some value := by
  have hdrop : (path ++ 63 :: (key ++ 61 :: value)).drop (path.length + 1) =
      key ++ 61 :: value := by
    rw [← List.drop_drop, List.drop_left' rfl]
    rfl
  have hvalue : (key ++ 61 :: value).drop (key.length + 1) = value := by
    rw [← List.drop_drop, List.drop_left' rfl]
    rfl
  unfold queryGet
  rw [findScalar_append hpath]
  dsimp only
  rw [hdrop, List.splitOn_eq_singleton hand, queryScan, findScalar_append hkey]
  dsimp only
  rw [if_neg (not_not.mpr rfl), List.take_left' rfl, if_pos rfl, hvalue]

theorem pathOnly_append {path query : List UInt8} (hpath : 63 ∉ path) :
    pathOnly (path ++ 63 :: query) = path := by
  unfold pathOnly
  rw [findScalar_append hpath]
  exact List.take_left' rfl

/-! ## Replies -/

/-- The three digits of a status line. -/
def httpStatusCode (statusLine : List UInt8) : Option Nat :=
  let version := ascii "HTTP/1.1 "
  if version <+: statusLine then
    let rest := statusLine.drop version.length
    if rest.length < 3 then none
    else if 3 < rest.length ∧ rest[3]? ≠ some 32 then none
    else parseU64Fast (rest.take 3)
  else none

def httpStatusIs (statusLine : List UInt8) (code : Nat) : Bool :=
  httpStatusCode statusLine = some code

structure ContentRange where
  start : Nat
  stop : Nat
  complete : Nat
  deriving DecidableEq, Repr

/-- An unknown length is `maxU64`. -/
def parseContentRange (h : List UInt8) : Option ContentRange :=
  let start := ascii "bytes "
  let s := trim blanks h
  if startsWithIgnoreCase s start then
    let body := s.drop start.length
    match findScalar 45 body with
    | none => none
    | some dash =>
      let rest := body.drop (dash + 1)
      match findScalar 47 rest with
      | none => none
      | some slash =>
        match parseU64Fast (body.take dash), parseU64Fast (rest.take slash) with
        | some a, some b =>
          if b < a then none
          else
            let complete := rest.drop (slash + 1)
            if complete = [42] then some ⟨a, b, maxU64⟩
            else
              match parseU64Fast complete with
              | none => none
              | some length => if length ≤ b then none else some ⟨a, b, length⟩
        | _, _ => none
  else none

/-! ## Header fields -/

/-- The values found so far for three names. -/
structure Fields where
  a : Option (List UInt8) := none
  b : Option (List UInt8) := none
  c : Option (List UInt8) := none

/-- One line of a head. The first of each name counts. -/
def Fields.line (nameA nameB nameC line : List UInt8) (f : Fields) : Fields :=
  match findScalar 58 line with
  | none => f
  | some col =>
    let name := line.take col
    let val := trim blanks (line.drop (col + 1))
    if f.a = none ∧ col = nameA.length ∧ eqlIgnoreCase name nameA then { f with a := some val }
    else if f.b = none ∧ col = nameB.length ∧ eqlIgnoreCase name nameB then
      { f with b := some val }
    else if f.c = none ∧ col = nameC.length ∧ eqlIgnoreCase name nameC then
      { f with c := some val }
    else f

/-- The lines up to the empty one, or until all three are found. -/
def Fields.scan (nameA nameB nameC : List UInt8) : List (List UInt8) → Fields → Fields
  | [], f => f
  | line :: rest, f =>
    if line = [] then f
    else if f.a ≠ none ∧ f.b ≠ none ∧ f.c ≠ none then f
    else Fields.scan nameA nameB nameC rest (f.line nameA nameB nameC line)

def headerGet3 (head nameA nameB nameC : List UInt8) : Fields :=
  Fields.scan nameA nameB nameC (splitCrlf head).tail {}

/-- A header line as it is written. -/
def fieldLine (name value : List UInt8) : List UInt8 := name ++ 58 :: 32 :: value

/-- A line that was written is read as its name and its value, trimmed of the blank. -/
theorem Fields.line_fieldLine {nameA nameB nameC name value : List UInt8} {f : Fields}
    (hname : 58 ∉ name) (hvalue : trim blanks (32 :: value) = value) :
    f.line nameA nameB nameC (fieldLine name value) =
      if f.a = none ∧ name.length = nameA.length ∧ eqlIgnoreCase name nameA then
        { f with a := some value }
      else if f.b = none ∧ name.length = nameB.length ∧ eqlIgnoreCase name nameB then
        { f with b := some value }
      else if f.c = none ∧ name.length = nameC.length ∧ eqlIgnoreCase name nameC then
        { f with c := some value }
      else f := by
  have hdrop : (fieldLine name value).drop (name.length + 1) = 32 :: value := by
    rw [fieldLine, ← List.drop_drop, List.drop_left' rfl]
    rfl
  have htake : (fieldLine name value).take name.length = name := List.take_left' rfl
  have hcolon : findScalar 58 (fieldLine name value) = some name.length :=
    findScalar_append hname
  unfold Fields.line
  rw [hcolon]
  dsimp only
  rw [hdrop, htake, hvalue]

/-- A line under another name changes nothing. -/
theorem Fields.line_other {nameA nameB nameC name value : List UInt8} {f : Fields}
    (hname : 58 ∉ name) (hA : eqlIgnoreCase name nameA = false)
    (hB : eqlIgnoreCase name nameB = false) (hC : eqlIgnoreCase name nameC = false) :
    f.line nameA nameB nameC (fieldLine name value) = f := by
  have htake : (fieldLine name value).take name.length = name := List.take_left' rfl
  have hcolon : findScalar 58 (fieldLine name value) = some name.length :=
    findScalar_append hname
  unfold Fields.line
  rw [hcolon]
  dsimp only
  rw [htake, hA, hB, hC]
  simp only [Bool.false_eq_true, and_false, if_false]

/-- The scan goes on past a line while a name is missing. -/
theorem Fields.scan_cons {nameA nameB nameC line : List UInt8} {rest : List (List UInt8)}
    {f : Fields} (hline : line ≠ []) (hmissing : f.c = none) :
    Fields.scan nameA nameB nameC (line :: rest) f =
      Fields.scan nameA nameB nameC rest (f.line nameA nameB nameC line) := by
  have hgo : ¬ (f.a ≠ none ∧ f.b ≠ none ∧ f.c ≠ none) := fun h => h.2.2 hmissing
  rw [Fields.scan, if_neg hline, if_neg hgo]

theorem trim_blank (value : List UInt8) : trim blanks (32 :: value) = trim blanks value := by
  unfold trim
  rw [List.dropWhile_cons_of_pos (by decide)]

/-- A value without blanks at its ends is what is left of a written one. -/
theorem trim_written {value : List UInt8} (hhead : ∀ b ∈ value.head?, b ∉ blanks)
    (hlast : ∀ b ∈ value.getLast?, b ∉ blanks) : trim blanks (32 :: value) = value := by
  rw [trim_blank, trim_of_ends hhead hlast]

/-- The value of the first line under a name, up to the empty line. -/
def headerScan (name : List UInt8) : List (List UInt8) → Option (List UInt8)
  | [] => none
  | line :: rest =>
    if line = [] then none
    else
      match findScalar 58 line with
      | none => headerScan name rest
      | some col =>
        if col ≠ name.length then headerScan name rest
        else if eqlIgnoreCase (line.take col) name then some (trim blanks (line.drop (col + 1)))
        else headerScan name rest

def headerGet (head name : List UInt8) : Option (List UInt8) :=
  headerScan name (splitCrlf head).tail

/-- The scan of `headerGet2`, with the values found so far. -/
def headerScan2 (nameA nameB : List UInt8) : List (List UInt8) →
    Option (List UInt8) × Option (List UInt8) → Option (List UInt8) × Option (List UInt8)
  | [], f => f
  | line :: rest, (a, b) =>
    if line = [] then (a, b)
    else if a ≠ none ∧ b ≠ none then (a, b)
    else
      match findScalar 58 line with
      | none => headerScan2 nameA nameB rest (a, b)
      | some col =>
        let name := line.take col
        let val := trim blanks (line.drop (col + 1))
        if a = none ∧ col = nameA.length ∧ eqlIgnoreCase name nameA then
          headerScan2 nameA nameB rest (some val, b)
        else if b = none ∧ col = nameB.length ∧ eqlIgnoreCase name nameB then
          headerScan2 nameA nameB rest (a, some val)
        else headerScan2 nameA nameB rest (a, b)

def headerGet2 (head nameA nameB : List UInt8) : Option (List UInt8) × Option (List UInt8) :=
  headerScan2 nameA nameB (splitCrlf head).tail (none, none)

/-- What a line says under a name. -/
def fieldValue (name line : List UInt8) : Option (List UInt8) :=
  (findScalar 58 line).bind fun col =>
    if col = name.length ∧ eqlIgnoreCase (line.take col) name then
      some (trim blanks (line.drop (col + 1)))
    else none

theorem headerScan_cons {name line : List UInt8} {rest : List (List UInt8)} (hline : line ≠ []) :
    headerScan name (line :: rest) = (fieldValue name line).or (headerScan name rest) := by
  rw [headerScan, if_neg hline, fieldValue]
  cases findScalar 58 line with
  | none => rfl
  | some col =>
    simp only [Option.bind_some]
    by_cases hlen : col = name.length
    · by_cases hname : eqlIgnoreCase (line.take col) name = true
      · rw [if_neg (not_not.mpr hlen), if_pos hname, if_pos ⟨hlen, hname⟩, Option.some_or]
      · rw [if_neg (not_not.mpr hlen), if_neg hname, if_neg (fun h => hname h.2), Option.none_or]
    · rw [if_pos hlen, if_neg (fun h => hlen h.1), Option.none_or]

theorem eqlIgnoreCase_trans {name nameA nameB : List UInt8} (hA : eqlIgnoreCase name nameA = true)
    (hB : eqlIgnoreCase name nameB = true) : eqlIgnoreCase nameA nameB = true := by
  simp only [eqlIgnoreCase, beq_iff_eq] at hA hB ⊢
  exact hA.symm.trans hB

/-- Names of different lengths differ. -/
theorem eqlIgnoreCase_of_length_ne {nameA nameB : List UInt8}
    (hne : nameA.length ≠ nameB.length) : eqlIgnoreCase nameA nameB = false := by
  apply Bool.eq_false_iff.mpr
  intro h
  have hlen := congrArg List.length (beq_iff_eq.mp h)
  rw [List.length_map, List.length_map] at hlen
  exact hne hlen

/-- A line is under one of two names at most. -/
theorem not_both_named {nameA nameB line : List UInt8} {col : Nat}
    (hne : eqlIgnoreCase nameA nameB = false) :
    ¬ ((col = nameA.length ∧ eqlIgnoreCase (line.take col) nameA = true) ∧
      (col = nameB.length ∧ eqlIgnoreCase (line.take col) nameB = true)) := fun h =>
  Bool.false_ne_true (hne.symm.trans (eqlIgnoreCase_trans h.1.2 h.2.2))

/-- The first of three slots that is free and named takes the value: each slot by itself, since a
value is named by one at most. -/
theorem Fields.choose_eq {p q r : Prop} [Decidable p] [Decidable q] [Decidable r]
    (hpq : ¬ (p ∧ q)) (hpr : ¬ (p ∧ r)) (hqr : ¬ (q ∧ r)) (f : Fields) (val : List UInt8) :
    (if f.a = none ∧ p then { f with a := some val }
      else if f.b = none ∧ q then { f with b := some val }
      else if f.c = none ∧ r then { f with c := some val }
      else f) =
      (⟨f.a.or (if p then some val else none), f.b.or (if q then some val else none),
        f.c.or (if r then some val else none)⟩ : Fields) := by
  obtain ⟨a, b, c⟩ := f
  by_cases hp : p
  · have hq : ¬ q := fun hq => hpq ⟨hp, hq⟩
    have hr : ¬ r := fun hr => hpr ⟨hp, hr⟩
    cases a <;> simp [hp, hq, hr]
  · by_cases hq : q
    · have hr : ¬ r := fun hr => hqr ⟨hq, hr⟩
      cases b <;> simp [hp, hq, hr]
    · by_cases hr : r
      · cases c <;> simp [hp, hq, hr]
      · simp [hp, hq, hr]

/-- One line of a head, name by name. -/
theorem Fields.line_eq {nameA nameB nameC : List UInt8} (hAB : eqlIgnoreCase nameA nameB = false)
    (hAC : eqlIgnoreCase nameA nameC = false) (hBC : eqlIgnoreCase nameB nameC = false)
    (line : List UInt8) (f : Fields) :
    f.line nameA nameB nameC line =
      ⟨f.a.or (fieldValue nameA line), f.b.or (fieldValue nameB line),
        f.c.or (fieldValue nameC line)⟩ := by
  unfold Fields.line fieldValue
  cases findScalar 58 line with
  | none => simp only [Option.bind_none, Option.or_none]
  | some col =>
    exact Fields.choose_eq (not_both_named hAB) (not_both_named hAC) (not_both_named hBC) f _

/-- The scan for three names, name by name. -/
theorem Fields.scan_eq {nameA nameB nameC : List UInt8} (hAB : eqlIgnoreCase nameA nameB = false)
    (hAC : eqlIgnoreCase nameA nameC = false) (hBC : eqlIgnoreCase nameB nameC = false)
    (lines : List (List UInt8)) (f : Fields) :
    Fields.scan nameA nameB nameC lines f =
      ⟨f.a.or (headerScan nameA lines), f.b.or (headerScan nameB lines),
        f.c.or (headerScan nameC lines)⟩ := by
  induction lines generalizing f with
  | nil => simp [Fields.scan, headerScan]
  | cons line lines ih =>
    rw [Fields.scan]
    by_cases hempty : line = []
    · simp [hempty, headerScan]
    · rw [if_neg hempty, headerScan_cons hempty, headerScan_cons hempty, headerScan_cons hempty]
      by_cases hdone : f.a ≠ none ∧ f.b ≠ none ∧ f.c ≠ none
      · -- the early stop: what is found is not looked for again
        obtain ⟨⟨x, hx⟩, ⟨y, hy⟩, ⟨z, hz⟩⟩ :=
          hdone.imp Option.ne_none_iff_exists'.mp
            (And.imp Option.ne_none_iff_exists'.mp Option.ne_none_iff_exists'.mp)
        rw [if_pos hdone, hx, hy, hz]
        obtain ⟨a, b, c⟩ := f
        subst hx hy hz
        rfl
      · rw [if_neg hdone, ih, Fields.line_eq hAB hAC hBC]
        simp only [Option.or_assoc]

/-- The scan for two names, name by name. -/
theorem headerScan2_eq {nameA nameB : List UInt8} (hne : eqlIgnoreCase nameA nameB = false)
    (lines : List (List UInt8)) (a b : Option (List UInt8)) :
    headerScan2 nameA nameB lines (a, b) =
      (a.or (headerScan nameA lines), b.or (headerScan nameB lines)) := by
  induction lines generalizing a b with
  | nil => simp [headerScan2, headerScan]
  | cons line lines ih =>
    rw [headerScan2]
    by_cases hempty : line = []
    · simp [hempty, headerScan]
    rw [if_neg hempty, headerScan_cons hempty, headerScan_cons hempty]
    by_cases hdone : a ≠ none ∧ b ≠ none
    · obtain ⟨x, rfl⟩ := Option.ne_none_iff_exists'.mp hdone.1
      obtain ⟨y, rfl⟩ := Option.ne_none_iff_exists'.mp hdone.2
      rw [if_pos hdone]
      rfl
    rw [if_neg hdone]
    unfold fieldValue
    cases findScalar 58 line with
    | none => simpa only [Option.bind_none, Option.none_or] using ih a b
    | some col =>
      have hboth := @not_both_named nameA nameB line col hne
      simp only [Option.bind_some]
      by_cases hA : col = nameA.length ∧ eqlIgnoreCase (line.take col) nameA = true
      · have hB : ¬ (col = nameB.length ∧ eqlIgnoreCase (line.take col) nameB = true) :=
          fun h => hboth ⟨hA, h⟩
        have hskip : ¬ (b = none ∧ col = nameB.length ∧
            eqlIgnoreCase (line.take col) nameB = true) := fun h => hB h.2
        rw [if_pos hA, if_neg hB, if_neg hskip, Option.none_or]
        cases a with
        | none => rw [if_pos ⟨rfl, hA⟩, ih, Option.none_or, Option.some_or]
        | some x => simp only [reduceCtorEq, false_and, if_false, ih, Option.some_or]
      · have hskip : ¬ (a = none ∧ col = nameA.length ∧
            eqlIgnoreCase (line.take col) nameA = true) := fun h => hA h.2
        rw [if_neg hA, if_neg hskip, Option.none_or]
        by_cases hB : col = nameB.length ∧ eqlIgnoreCase (line.take col) nameB = true
        · rw [if_pos hB]
          cases b with
          | none => rw [if_pos ⟨rfl, hB⟩, ih, Option.none_or, Option.some_or]
          | some x => simp only [reduceCtorEq, false_and, if_false, ih, Option.some_or]
        · have hskip' : ¬ (b = none ∧ col = nameB.length ∧
              eqlIgnoreCase (line.take col) nameB = true) := fun h => hB h.2
          rw [if_neg hB, if_neg hskip', ih, Option.none_or]

/-- **One pass finds what two find.** -/
theorem headerGet2_eq {nameA nameB : List UInt8} (hne : nameA.length ≠ nameB.length)
    (head : List UInt8) :
    headerGet2 head nameA nameB = (headerGet head nameA, headerGet head nameB) := by
  unfold headerGet2 headerGet
  rw [headerScan2_eq (eqlIgnoreCase_of_length_ne hne), Option.none_or, Option.none_or]

/-- **One pass finds what a pass for each name finds**, when the names differ by more than case. -/
theorem headerGet_each {nameA nameB : List UInt8} (hAB : eqlIgnoreCase nameA nameB = false)
    (head : List UInt8) :
    headerGet2 head nameA nameB = (headerGet head nameA, headerGet head nameB) ∧
    ∀ nameC, eqlIgnoreCase nameA nameC = false → eqlIgnoreCase nameB nameC = false →
      headerGet3 head nameA nameB nameC =
        ⟨headerGet head nameA, headerGet head nameB, headerGet head nameC⟩ := by
  constructor
  · unfold headerGet2 headerGet
    rw [headerScan2_eq hAB, Option.none_or, Option.none_or]
  · intro nameC hAC hBC
    unfold headerGet3 headerGet
    rw [Fields.scan_eq hAB hAC hBC, Option.none_or, Option.none_or, Option.none_or]

/-- The names of a piece request, one of them given twice, after a line without a colon; what
stands after the empty line is not read. -/
theorem headerGet_each_request :
    let head :=
      ascii "GET /\r\nRange: a\r\nx\r\nAUTHORIZATION:b\r\nrange: c\r\n\r\nContent-Length:1"
    let found := headerGet3 head (ascii "authorization") (ascii "range") (ascii "content-length")
    found.a = some (ascii "b") ∧ found.b = some (ascii "a") ∧ found.c = none := by
  intro head found
  have heach := (@headerGet_each (ascii "authorization") (ascii "range") (by decide) head).2
    (ascii "content-length") (by decide) (by decide)
  simp only [found, heach]
  decide +kernel

/-! ## The bearer token -/

variable {δ : Type*} [DecidableEq δ]

/-- The token is compared by its digest. -/
def bearerOk (sha256 : List UInt8 → δ) (got want : List UInt8) : Bool :=
  let start := ascii "Bearer "
  if ¬ startsWithIgnoreCase got start then false
  else
    let token := trim blanks (got.drop start.length)
    decide (sha256 token = sha256 want)

theorem bearerOk_written (sha256 : List UInt8 → δ) {psk : List UInt8}
    (hhead : ∀ b ∈ psk.head?, b ∉ blanks) (hlast : ∀ b ∈ psk.getLast?, b ∉ blanks) :
    bearerOk sha256 (ascii "Bearer " ++ psk) psk = true := by
  have hstart : startsWithIgnoreCase (ascii "Bearer " ++ psk) (ascii "Bearer ") = true := by
    unfold startsWithIgnoreCase
    rw [List.take_left' rfl, if_neg (by simp)]
    decide
  unfold bearerOk
  dsimp only
  rw [if_neg (not_not.mpr hstart), List.drop_left' rfl, trim_of_ends hhead hlast]
  exact decide_eq_true rfl

end Proto

end ModelFs
