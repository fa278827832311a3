import ModelFs.PeerRequest

/-!
# Numbers, ranges and addresses as text

The parsers of the wire are loops with checks in them, made to accept a small grammar and nothing
else. Here the grammars are stated by themselves, as strings put together from their parts, and the
parsers are held against them, over all byte strings. The parsers of the tests, which find the same
parts in another way, are held against the same grammars.

* `wire_numbers` — **what `parseU64Fast`, `parseRange` and `parseContentRange` accept**, and that a
  range that was read is read again from its canonical form.
* `parseV4_canonical` — **`parseV4` accepts the canonical dotted quads**, and its `u32` and its `u8`
  do not overflow.
-/

namespace ModelFs

namespace Proto

/-! ## Strings of digits -/

def IsDigit (b : UInt8) : Prop := 48 ≤ b.toNat ∧ b.toNat ≤ 57

/-- What digits stand for, behind a number that was read before. -/
def digitsValue (acc : Nat) (s : List UInt8) : Nat :=
  s.foldl (fun n ch => n * 10 + (ch.toNat - 48)) acc

/-- `s` is `1*DIGIT` for `n`, with any zeros in front, and `n` is a `u64`. -/
def IsNumber (s : List UInt8) (n : Nat) : Prop :=
  s ≠ [] ∧ (∀ b ∈ s, IsDigit b) ∧ digitsValue 0 s = n ∧ n ≤ maxU64

theorem digitsValue_cons (acc : Nat) (ch : UInt8) (s : List UInt8) :
    digitsValue acc (ch :: s) = digitsValue (acc * 10 + (ch.toNat - 48)) s := by
  unfold digitsValue
  rw [List.foldl_cons]

theorem le_digitsValue (acc : Nat) (s : List UInt8) : acc ≤ digitsValue acc s := by
  induction s generalizing acc with
  | nil => exact le_rfl
  | cons ch s ih =>
    have hstep := ih (acc * 10 + (ch.toNat - 48))
    rw [digitsValue_cons]
    omega

theorem digitsValue_zeros (k : Nat) (s : List UInt8) :
    digitsValue 0 (List.replicate k 48 ++ s) = digitsValue 0 s := by
  induction k with
  | zero => rfl
  | succ k ih =>
    rw [List.replicate_succ, List.cons_append, digitsValue_cons]
    exact ih

/-- **The checks of the loop come to one bound on the value.** -/
theorem parseDigits_iff {s : List UInt8} {acc n : Nat} (hacc : acc ≤ maxU64) :
    parseDigits s acc = some n ↔
      (∀ b ∈ s, IsDigit b) ∧ digitsValue acc s = n ∧ n ≤ maxU64 := by
  induction s generalizing acc with
  | nil =>
    rw [parseDigits, Option.some_inj]
    constructor
    · rintro rfl
      exact ⟨fun b hb => absurd hb List.not_mem_nil, rfl, hacc⟩
    · exact fun h => h.2.1
  | cons ch s ih =>
    rw [parseDigits, digitsValue_cons, List.forall_mem_cons]
    have hgrows := le_digitsValue (acc * 10 + (ch.toNat - 48)) s
    split_ifs with hdigit hmul hadd
    · refine ⟨(fun h => by cases h), fun h => ?_⟩
      have hch : 48 ≤ ch.toNat ∧ ch.toNat ≤ 57 := h.1.1
      omega
    · refine ⟨(fun h => by cases h), fun h => ?_⟩
      omega
    · refine ⟨(fun h => by cases h), fun h => ?_⟩
      omega
    · have hch : IsDigit ch := ⟨by omega, by omega⟩
      rw [ih (Nat.not_lt.mp hadd)]
      exact ⟨fun h => ⟨⟨hch, h.1⟩, h.2⟩, fun h => ⟨h.1.2, h.2⟩⟩

theorem parseU64Fast_iff {s : List UInt8} {n : Nat} :
    parseU64Fast s = some n ↔ IsNumber s n := by
  unfold parseU64Fast
  split_ifs with hnil
  · exact ⟨(fun h => by cases h), fun h => absurd hnil h.1⟩
  · rw [parseDigits_iff (Nat.zero_le _)]
    exact ⟨fun h => ⟨hnil, h⟩, fun h => h.2⟩

theorem isNumber_decimal {n : Nat} (h : n ≤ maxU64) : IsNumber (decimal n) n :=
  parseU64Fast_iff.mp (parseU64Fast_decimal h)

theorem parseU64Fast_zeros {s : List UInt8} (hne : s ≠ []) (k : Nat) :
    parseU64Fast (List.replicate k 48 ++ s) = parseU64Fast s := by
  have hiff : ∀ n, IsNumber (List.replicate k 48 ++ s) n ↔ IsNumber s n := by
    intro n
    constructor
    · intro h
      exact ⟨hne, fun b hb => h.2.1 b (List.mem_append_right _ hb),
        (digitsValue_zeros k s).symm.trans h.2.2.1, h.2.2.2⟩
    · intro h
      refine ⟨List.append_ne_nil_of_right_ne_nil _ hne, fun b hb => ?_,
        (digitsValue_zeros k s).trans h.2.2.1, h.2.2.2⟩
      rcases List.mem_append.mp hb with hzero | hb
      · rw [List.eq_of_mem_replicate hzero]
        exact ⟨by decide, by decide⟩
      · exact h.2.1 b hb
  refine Option.ext fun n => ?_
  rw [parseU64Fast_iff, parseU64Fast_iff]
  exact hiff n

/-! ## The parsers of the tests -/

/-- `std.fmt.parseInt` in base 10 on a string of digits; `none` is `error.Overflow`. -/
def parseInt (s : List UInt8) : Option Nat :=
  if maxU64 < digitsValue 0 s then none else some (digitsValue 0 s)

def refDigitsU64 (s : List UInt8) : Option Nat :=
  if s = [] then none
  else if s.any fun ch => ch.toNat < 48 || 57 < ch.toNat then none
  else parseInt s

/-- The loop over the bytes of `start`. -/
def refStarts (start s : List UInt8) : Bool :=
  if s.length < start.length then false
  else (start.zip (s.take start.length)).all fun p => toLower p.2 == p.1

def refParseRange (h : List UInt8) : Option Range :=
  let s := trim blanks h
  let start := ascii "bytes="
  if refStarts start s then
    let body := s.drop start.length
    match findScalar 45 body with
    | none => none
    | some dash =>
      match refDigitsU64 (body.take dash) with
      | none => none
      | some a =>
        let tail := body.drop (dash + 1)
        match (if tail.length = 0 then some maxU64 else refDigitsU64 tail) with
        | none => none
        | some b => if b < a then none else some ⟨a, b⟩
  else none

def refParseContentRange (h : List UInt8) : Option ContentRange :=
  let s := trim blanks h
  let start := ascii "bytes "
  if refStarts start s then
    let body := s.drop start.length
    match findScalar 45 body with
    | none => none
    | some dash =>
      let rest := body.drop (dash + 1)
      match findScalar 47 rest with
      | none => none
      | some slash =>
        match refDigitsU64 (body.take dash) with
        | none => none
        | some a =>
          match refDigitsU64 (rest.take slash) with
          | none => none
          | some b =>
            if b < a then none
            else
              let complete := rest.drop (slash + 1)
              if complete = [42] then some ⟨a, b, maxU64⟩
              else
                match refDigitsU64 complete with
                | none => none
                | some length => if length ≤ b then none else some ⟨a, b, length⟩
  else none

theorem refDigitsU64_eq (s : List UInt8) : refDigitsU64 s = parseU64Fast s := by
  refine Option.ext fun n => ?_
  rw [parseU64Fast_iff]
  unfold refDigitsU64 parseInt
  split_ifs with hnil hbad hbig
  · exact ⟨(fun h => by cases h), fun h => absurd hnil h.1⟩
  · refine ⟨(fun h => by cases h), fun h => ?_⟩
    obtain ⟨b, hb, hout⟩ := List.any_eq_true.mp hbad
    have hdigit : 48 ≤ b.toNat ∧ b.toNat ≤ 57 := h.2.1 b hb
    simp only [Bool.or_eq_true, decide_eq_true_iff] at hout
    omega
  · refine ⟨(fun h => by cases h), fun h => ?_⟩
    have hvalue := h.2.2.1
    have hle := h.2.2.2
    omega
  · have hdigit : ∀ b ∈ s, IsDigit b := by
      intro b hb
      have hin := List.any_eq_false.mp (Bool.not_eq_true _ ▸ hbad) b hb
      simp only [Bool.or_eq_true, decide_eq_true_iff] at hin
      exact ⟨by omega, by omega⟩
    rw [Option.some_inj]
    exact ⟨fun h => ⟨hnil, hdigit, h, h ▸ Nat.not_lt.mp hbig⟩, fun h => h.2.2.1⟩

/-- A word in lower case. -/
theorem refStarts_eq {start : List UInt8} (hstart : start.map toLower = start) (s : List UInt8) :
    refStarts start s = startsWithIgnoreCase s start := by
  unfold refStarts startsWithIgnoreCase eqlIgnoreCase
  split_ifs with hlen
  · rfl
  · rw [hstart]
    have hsame : (s.take start.length).length = start.length := by
      rw [List.length_take]
      omega
    generalize s.take start.length = word at hsame
    clear hlen hstart
    induction start generalizing word with
    | nil =>
      rw [List.length_eq_zero_iff.mp hsame]
      rfl
    | cons a start ih =>
      cases word with
      | nil => cases hsame
      | cons b word =>
        rw [List.zip_cons_cons, List.all_cons, List.map_cons, List.cons_beq_cons,
          ih word (Nat.succ.inj hsame)]

theorem refParseRange_eq (h : List UInt8) : refParseRange h = parseRange h := by
  unfold refParseRange parseRange
  have hstarts := refStarts_eq (show (ascii "bytes=").map toLower = ascii "bytes=" from rfl)
  simp only [refDigitsU64_eq, hstarts]
  split
  · generalize (trim blanks h).drop (ascii "bytes=").length = body
    cases hdash : findScalar 45 body with
    | none => rfl
    | some dash =>
      obtain ⟨before, rest, rfl, -, rfl⟩ := findScalar_eq_some hdash
      have hend : (((before ++ 45 :: rest).drop (before.length + 1)).length = 0) ↔
          (before ++ 45 :: rest).length = before.length + 1 := by
        simp only [List.length_drop, List.length_append, List.length_cons]
        omega
      have hstop := if_congr hend (Eq.refl (some maxU64))
        (Eq.refl (parseU64Fast ((before ++ 45 :: rest).drop (before.length + 1))))
      dsimp only
      revert hstop
      generalize ite (List.length _ = 0) _ _ = stop
      rintro rfl
      rfl
  · rfl

theorem refParseContentRange_eq (h : List UInt8) :
    refParseContentRange h = parseContentRange h := by
  unfold refParseContentRange parseContentRange
  have hstarts := refStarts_eq (show (ascii "bytes ").map toLower = ascii "bytes " from rfl)
  simp only [refDigitsU64_eq, hstarts]
  split
  · generalize (trim blanks h).drop (ascii "bytes ").length = body
    cases findScalar 45 body with
    | none => rfl
    | some dash =>
      dsimp only
      cases findScalar 47 (body.drop (dash + 1)) with
      | none => rfl
      | some slash =>
        dsimp only
        cases parseU64Fast (body.take dash) with
        | none => rfl
        | some a =>
          cases parseU64Fast ((body.drop (dash + 1)).take slash) with
          | none => rfl
          | some b => rfl
  · rfl

/-! ## A word and what follows -/

/-- A byte that is no blank. -/
theorem not_blank {b : UInt8} (h : 33 ≤ b.toNat) : b ∉ blanks := by
  intro hmem
  have hblank : b = 32 ∨ b = 9 := by simpa [blanks] using hmem
  rcases hblank with rfl | rfl
  · exact absurd h (by decide)
  · exact absurd h (by decide)

theorem IsNumber.not_mem {s : List UInt8} {n : Nat} (h : IsNumber s n) {b : UInt8}
    (hb : b.toNat < 48 ∨ 57 < b.toNat) : b ∉ s := by
  intro hmem
  have hdigit : 48 ≤ b.toNat ∧ b.toNat ≤ 57 := h.2.1 b hmem
  omega

/-- A string that ends in a number ends in no blank. -/
theorem IsNumber.last {s : List UInt8} {n : Nat} (h : IsNumber s n) (before : List UInt8) :
    ∀ b ∈ (before ++ s).getLast?, b ∉ blanks := by
  intro b hb
  rw [List.getLast?_append_of_ne_nil _ h.1] at hb
  have hdigit : 48 ≤ b.toNat ∧ b.toNat ≤ 57 := h.2.1 b (List.mem_of_getLast? hb)
  exact not_blank (by omega)

theorem drop_past (before : List UInt8) (b : UInt8) (rest : List UInt8) :
    (before ++ b :: rest).drop (before.length + 1) = rest := by
  rw [← List.drop_drop, List.drop_left]
  rfl

/-- `h` is `word` in any case and `body`, with blanks around them. -/
def Worded (h start body : List UInt8) : Prop :=
  ∃ l word r, h = l ++ (word ++ body) ++ r ∧ (∀ x ∈ l, x ∈ blanks) ∧ (∀ x ∈ r, x ∈ blanks) ∧
    word.map toLower = start.map toLower

theorem worded_of_start {h start : List UInt8}
    (hstart : startsWithIgnoreCase (trim blanks h) start = true) :
    Worded h start ((trim blanks h).drop start.length) := by
  obtain ⟨l, r, hh, hl, hr⟩ := exists_trim blanks h
  obtain ⟨word, body, hs, hword⟩ := startsWithIgnoreCase_iff.mp hstart
  have hlen : word.length = start.length := by
    have := congrArg List.length hword
    rwa [List.length_map, List.length_map] at this
  refine ⟨l, word, r, ?_, hl, hr, hword⟩
  rw [hs, ← hlen, List.drop_left, ← hs]
  exact hh

/-- A word that begins with `b`, in either case, begins with no blank. -/
theorem head_of_word {word rest tail : List UInt8} (hword : word.map toLower = 98 :: tail) :
    ∀ b ∈ (word ++ rest).head?, b ∉ blanks := by
  cases word with
  | nil => cases hword
  | cons c word =>
    rintro b ⟨⟩ hmem
    have hc : toLower c = 98 := (List.cons.inj hword).1
    have hblank : c = 32 ∨ c = 9 := by simpa [blanks] using hmem
    rcases hblank with rfl | rfl
    · exact absurd hc (by decide)
    · exact absurd hc (by decide)

theorem start_of_worded {h start body tail : List UInt8} (hh : Worded h start body)
    (htail : start.map toLower = 98 :: tail) (hne : body ≠ [])
    (hlast : ∀ b ∈ body.getLast?, b ∉ blanks) :
    startsWithIgnoreCase (trim blanks h) start = true ∧
      (trim blanks h).drop start.length = body := by
  obtain ⟨l, word, r, rfl, hl, hr, hword⟩ := hh
  have htrim : trim blanks (l ++ (word ++ body) ++ r) = word ++ body := by
    refine trim_between hl hr (List.append_ne_nil_of_right_ne_nil _ hne)
      (head_of_word (hword.trans htail)) ?_
    rw [List.getLast?_append_of_ne_nil _ hne]
    exact hlast
  have hlen : word.length = start.length := by
    have := congrArg List.length hword
    rwa [List.length_map, List.length_map] at this
  rw [htrim, ← hlen, List.drop_left]
  exact ⟨startsWithIgnoreCase_iff.mpr ⟨word, body, rfl, hword⟩, rfl⟩

/-! ## Ranges -/

/-- `bytes=a-b` or `bytes=a-`. -/
def IsRange (h : List UInt8) (rg : Range) : Prop :=
  ∃ a b, Worded h (ascii "bytes=") (a ++ 45 :: b) ∧ IsNumber a rg.start ∧
    (IsNumber b rg.stop ∨ b = [] ∧ rg.stop = maxU64) ∧ rg.start ≤ rg.stop

theorem isRange_of_parse {h : List UInt8} {rg : Range} (hrg : parseRange h = some rg) :
    IsRange h rg := by
  unfold parseRange at hrg
  dsimp only at hrg
  split_ifs at hrg with hstart
  have hworded := worded_of_start hstart
  generalize (trim blanks h).drop (ascii "bytes=").length = body at hrg hworded
  cases hdash : findScalar 45 body with
  | none =>
    rw [hdash] at hrg
    cases hrg
  | some dash =>
    obtain ⟨a, b, rfl, -, rfl⟩ := findScalar_eq_some hdash
    rw [hdash] at hrg
    dsimp only at hrg
    rw [List.take_left, drop_past] at hrg
    cases ha : parseU64Fast a with
    | none =>
      rw [ha] at hrg
      cases hrg
    | some start =>
      rw [ha] at hrg
      dsimp only at hrg
      have hstop : ∀ stop, (if (a ++ 45 :: b).length = a.length + 1 then some maxU64
          else parseU64Fast b) = some stop → IsNumber b stop ∨ b = [] ∧ stop = maxU64 := by
        intro stop h
        split_ifs at h with hend
        · rw [List.length_append, List.length_cons] at hend
          exact Or.inr ⟨List.length_eq_zero_iff.mp (by omega), (Option.some.inj h).symm⟩
        · exact Or.inl (parseU64Fast_iff.mp h)
      revert hrg hstop
      generalize (if (a ++ 45 :: b).length = a.length + 1 then some maxU64
          else parseU64Fast b) = stop?
      intro hrg hstop
      cases stop? with
      | none => cases hrg
      | some stop =>
        dsimp only at hrg
        split_ifs at hrg with hlt
        obtain rfl := Option.some.inj hrg
        exact ⟨a, b, hworded, parseU64Fast_iff.mp ha, hstop stop rfl, Nat.not_lt.mp hlt⟩

theorem parse_of_isRange {h : List UInt8} {rg : Range} (hrg : IsRange h rg) :
    parseRange h = some rg := by
  obtain ⟨a, b, hworded, ha, hb, hle⟩ := hrg
  have hlast : ∀ x ∈ (a ++ 45 :: b).getLast?, x ∉ blanks := by
    rcases hb with hb | ⟨rfl, -⟩
    · have := hb.last (a ++ [45])
      rwa [List.append_assoc] at this
    · intro x hx
      rw [List.getLast?_append_of_ne_nil _ (List.cons_ne_nil _ _)] at hx
      obtain rfl := Option.some.inj hx
      exact not_blank (by decide)
  obtain ⟨hstart, hdrop⟩ := start_of_worded hworded rfl (by simp) hlast
  have hdash : (45 : UInt8) ∉ a := ha.not_mem (Or.inl (by decide))
  have hstop : (if (a ++ 45 :: b).length = a.length + 1 then some maxU64 else parseU64Fast b) =
      some rg.stop := by
    rcases hb with hb | ⟨rfl, hmax⟩
    · have hpos := List.length_pos_of_ne_nil hb.1
      rw [if_neg (by rw [List.length_append, List.length_cons]; omega)]
      exact parseU64Fast_iff.mpr hb
    · rw [if_pos (by rw [List.length_append]; rfl), hmax]
  unfold parseRange
  simp only [hstart, if_true, hdrop, findScalar_append hdash, List.take_left, drop_past,
    parseU64Fast_iff.mpr ha, hstop, if_neg (Nat.not_lt.mpr hle)]

/-- **What `parseRange` accepts.** -/
theorem parseRange_iff {h : List UInt8} {rg : Range} : parseRange h = some rg ↔ IsRange h rg :=
  ⟨isRange_of_parse, parse_of_isRange⟩

theorem IsRange.le {h : List UInt8} {rg : Range} (hrg : IsRange h rg) :
    rg.start ≤ rg.stop ∧ rg.stop ≤ maxU64 := by
  obtain ⟨a, b, -, -, hb, hle⟩ := hrg
  rcases hb with hb | ⟨-, hmax⟩
  · exact ⟨hle, hb.2.2.2⟩
  · exact ⟨hle, hmax.le⟩

/-- `bytes a-b/c` or `bytes a-b/*`. -/
def IsContentRange (h : List UInt8) (r : ContentRange) : Prop :=
  ∃ a b c, Worded h (ascii "bytes ") (a ++ 45 :: (b ++ 47 :: c)) ∧ IsNumber a r.start ∧
    IsNumber b r.stop ∧ r.start ≤ r.stop ∧
    (IsNumber c r.complete ∧ r.stop < r.complete ∨ c = [42] ∧ r.complete = maxU64)

theorem isContentRange_of_parse {h : List UInt8} {r : ContentRange}
    (hr : parseContentRange h = some r) : IsContentRange h r := by
  unfold parseContentRange at hr
  dsimp only at hr
  split_ifs at hr with hstart
  have hworded := worded_of_start hstart
  generalize (trim blanks h).drop (ascii "bytes ").length = body at hr hworded
  cases hdash : findScalar 45 body with
  | none =>
    rw [hdash] at hr
    cases hr
  | some dash =>
    obtain ⟨a, rest, rfl, -, rfl⟩ := findScalar_eq_some hdash
    rw [hdash] at hr
    dsimp only at hr
    rw [List.take_left, drop_past] at hr
    cases hslash : findScalar 47 rest with
    | none =>
      rw [hslash] at hr
      cases hr
    | some slash =>
      obtain ⟨b, c, rfl, -, rfl⟩ := findScalar_eq_some hslash
      rw [hslash] at hr
      dsimp only at hr
      rw [List.take_left, drop_past] at hr
      cases ha : parseU64Fast a with
      | none =>
        rw [ha] at hr
        cases hr
      | some start =>
        cases hb : parseU64Fast b with
        | none =>
          rw [ha, hb] at hr
          cases hr
        | some stop =>
          rw [ha, hb] at hr
          dsimp only at hr
          split_ifs at hr with hlt hstar
          · obtain rfl := Option.some.inj hr
            exact ⟨a, b, c, hworded, parseU64Fast_iff.mp ha, parseU64Fast_iff.mp hb,
              Nat.not_lt.mp hlt, Or.inr ⟨hstar, rfl⟩⟩
          · cases hc : parseU64Fast c with
            | none =>
              rw [hc] at hr
              cases hr
            | some length =>
              rw [hc] at hr
              dsimp only at hr
              split_ifs at hr with hshort
              obtain rfl := Option.some.inj hr
              exact ⟨a, b, c, hworded, parseU64Fast_iff.mp ha, parseU64Fast_iff.mp hb,
                Nat.not_lt.mp hlt, Or.inl ⟨parseU64Fast_iff.mp hc, Nat.not_le.mp hshort⟩⟩

theorem parse_of_isContentRange {h : List UInt8} {r : ContentRange} (hr : IsContentRange h r) :
    parseContentRange h = some r := by
  obtain ⟨a, b, c, hworded, ha, hb, hle, hc⟩ := hr
  have hlast : ∀ x ∈ (a ++ 45 :: (b ++ 47 :: c)).getLast?, x ∉ blanks := by
    have hsplit : a ++ 45 :: (b ++ 47 :: c) = (a ++ 45 :: (b ++ [47])) ++ c := by simp
    rw [hsplit]
    rcases hc with ⟨hc, -⟩ | ⟨rfl, -⟩
    · exact hc.last _
    · intro x hx
      rw [List.getLast?_append_of_ne_nil _ (List.cons_ne_nil _ _)] at hx
      obtain rfl := Option.some.inj hx
      exact not_blank (by decide)
  obtain ⟨hstart, hdrop⟩ := start_of_worded hworded rfl (by simp) hlast
  have hdash : (45 : UInt8) ∉ a := ha.not_mem (Or.inl (by decide))
  have hslash : (47 : UInt8) ∉ b := hb.not_mem (Or.inl (by decide))
  unfold parseContentRange
  simp only [hstart, if_true, hdrop, findScalar_append hdash, List.take_left, drop_past,
    findScalar_append hslash, parseU64Fast_iff.mpr ha, parseU64Fast_iff.mpr hb,
    if_neg (Nat.not_lt.mpr hle)]
  rcases hc with ⟨hc, hlt⟩ | ⟨rfl, hmax⟩
  · have hstar : c ≠ [42] := by
      rintro rfl
      exact hc.not_mem (b := 42) (Or.inl (by decide)) (List.mem_singleton_self _)
    simp only [if_neg hstar, parseU64Fast_iff.mpr hc, if_neg (Nat.not_le.mpr hlt)]
  · rw [if_pos rfl, ← hmax]

/-- **What `parseContentRange` accepts.** -/
theorem parseContentRange_iff {h : List UInt8} {r : ContentRange} :
    parseContentRange h = some r ↔ IsContentRange h r :=
  ⟨isContentRange_of_parse, parse_of_isContentRange⟩

/-- The canonical form of a `Content-Range`. -/
def contentRangeValue (r : ContentRange) : List UInt8 :=
  ascii "bytes " ++ (decimal r.start ++ 45 :: (decimal r.stop ++ 47 ::
    (if r.complete = maxU64 then [42] else decimal r.complete)))

theorem parseContentRange_again {h : List UInt8} {r : ContentRange}
    (hr : parseContentRange h = some r) : parseContentRange (contentRangeValue r) = some r := by
  obtain ⟨a, b, c, -, ha, hb, hle, hc⟩ := parseContentRange_iff.mp hr
  refine parseContentRange_iff.mpr ⟨decimal r.start, decimal r.stop,
    if r.complete = maxU64 then [42] else decimal r.complete,
    ⟨[], ascii "bytes ", [], ?_, by simp, by simp, rfl⟩,
    isNumber_decimal ha.2.2.2, isNumber_decimal hb.2.2.2, hle, ?_⟩
  · exact (List.append_nil _).symm
  · by_cases hmax : r.complete = maxU64
    · rw [if_pos hmax]
      exact Or.inr ⟨rfl, hmax⟩
    · rw [if_neg hmax]
      rcases hc with ⟨hc, hlt⟩ | ⟨-, heq⟩
      · exact Or.inl ⟨isNumber_decimal hc.2.2.2, hlt⟩
      · exact absurd heq hmax

/-- What the readers of numbers and ranges do, over all byte strings. -/
structure WireNumbers : Prop where
  number : ∀ s n, parseU64Fast s = some n ↔ IsNumber s n
  zeros : ∀ k s, s ≠ [] → parseU64Fast (List.replicate k 48 ++ s) = parseU64Fast s
  range : ∀ h rg, parseRange h = some rg ↔ IsRange h rg
  contentRange : ∀ h r, parseContentRange h = some r ↔ IsContentRange h r
  refRange : ∀ h, parseRange h = refParseRange h
  refContentRange : ∀ h, parseContentRange h = refParseContentRange h
  rangeAgain : ∀ h rg, parseRange h = some rg → parseRange (rangeValue rg) = some rg
  contentRangeAgain : ∀ h r, parseContentRange h = some r →
    parseContentRange (contentRangeValue r) = some r

/-- **Numbers and ranges are read by their grammar**: digit strings of any length whose value is a
`u64`, and ranges put together from them; the parsers of the tests accept the same. -/
theorem wire_numbers : WireNumbers where
  number _ _ := parseU64Fast_iff
  zeros k _ hne := parseU64Fast_zeros hne k
  range _ _ := parseRange_iff
  contentRange _ _ := parseContentRange_iff
  refRange h := (refParseRange_eq h).symm
  refContentRange h := (refParseContentRange_eq h).symm
  rangeAgain _ _ hrg := parseRange_written (parseRange_iff.mp hrg).le.1 (parseRange_iff.mp hrg).le.2
  contentRangeAgain _ _ hr := parseContentRange_again hr

/-! ## Digits as they are printed -/

theorem decimal_digit {ch : UInt8} (h : IsDigit ch) : decimal (ch.toNat - 48) = [ch] := by
  have hch : 48 ≤ ch.toNat ∧ ch.toNat ≤ 57 := h
  have hall : ∀ d < 10, (Nat.toDigits 10 d).map (fun c => UInt8.ofNat c.toNat) =
      [UInt8.ofNat (48 + d)] := by decide
  rw [decimal, hall _ (by omega), Nat.add_sub_cancel' hch.1, UInt8.ofNat_toNat]

/-- A digit goes behind a number that is not zero. -/
theorem decimal_snoc {acc : Nat} (hacc : acc ≠ 0) {ch : UInt8} (h : IsDigit ch) :
    decimal (acc * 10 + (ch.toNat - 48)) = decimal acc ++ [ch] := by
  have hch : 48 ≤ ch.toNat ∧ ch.toNat ≤ 57 := h
  have hdigits := @Nat.toDigits_append_toDigits 10 acc (ch.toNat - 48) (by decide)
    (Nat.pos_of_ne_zero hacc) (by omega)
  rw [← decimal_digit h, decimal, decimal, decimal, Nat.mul_comm acc 10, ← hdigits, List.map_append]

end Proto

open Proto

/-! ## Addresses -/

/-- The octets in decimal, with dots between them. -/
def dotted : List Nat → List UInt8
  | [] => []
  | [n] => decimal n
  | n :: m :: more => decimal n ++ 46 :: dotted (m :: more)

def IsQuad (o : List Nat) : Prop := o.length = 4 ∧ ∀ n ∈ o, n ≤ 255

/-- The loop of `parseV4` with the checks of a safe build: the index into `out`, the casts to `u8`,
`part + 1` in `u8`, the digit step in `u32`. `none` is a trap. -/
def parseV4Checked : List UInt8 → Nat → Nat → Bool → List Nat → Option (Option (List Nat))
  | [], part, acc, saw, out =>
    if ¬ saw ∨ part ≠ 3 ∨ 255 < acc then some none
    else if 255 < acc then none
    else some (some (out ++ [acc]))
  | ch :: s, part, acc, saw, out =>
    if ch = 46 then
      if ¬ saw ∨ 3 ≤ part ∨ 255 < acc then some none
      else if 4 ≤ part ∨ 255 < acc ∨ 255 < part + 1 then none
      else parseV4Checked s (part + 1) 0 false (out ++ [acc])
    else if ch.toNat < 48 ∨ 57 < ch.toNat then some none
    else if 255 < acc then some none
    else if saw ∧ acc = 0 then some none
    else if maxU32 < acc * 10 ∨ maxU32 < acc * 10 + (ch.toNat - 48) then none
    else parseV4Checked s part (acc * 10 + (ch.toNat - 48)) true out

theorem parseV4Checked_eq (s : List UInt8) (part acc : Nat) (saw : Bool) (out : List Nat) :
    parseV4Checked s part acc saw out = some (parseV4Loop s part acc saw out) := by
  have hmax : maxU32 = 4294967295 := rfl
  induction s generalizing part acc saw out with
  | nil =>
    rw [parseV4Checked, parseV4Loop]
    split_ifs with hbad hbig
    · rfl
    · exact absurd (Or.inr (Or.inr hbig)) hbad
    · rfl
  | cons ch s ih =>
    rw [parseV4Checked, parseV4Loop]
    split_ifs with hdot hend htrap hdigit hbig hzero hover
    · rfl
    · omega
    · exact ih ..
    · rfl
    · rfl
    · rfl
    · omega
    · exact ih ..

/-- The part of the octet at hand that was read. -/
def consumed (acc : Nat) (saw : Bool) : List UInt8 := if saw then decimal acc else []

/-- **What was read is the printed form** of the octets that come out. -/
theorem dotted_of_parseV4Loop {s : List UInt8} {part acc : Nat} {saw : Bool} {out o : List Nat}
    (h : parseV4Loop s part acc saw out = some o) (hsaw : saw = false → acc = 0) :
    ∃ n more, o = out ++ n :: more ∧ part + more.length = 3 ∧ (∀ m ∈ n :: more, m ≤ 255) ∧
      consumed acc saw ++ s = dotted (n :: more) := by
  induction s generalizing part acc saw out with
  | nil =>
    rw [parseV4Loop] at h
    split_ifs at h with hend
    simp only [not_or, not_not, Nat.not_lt] at hend
    obtain ⟨hseen, hpart, hle⟩ := hend
    refine ⟨acc, [], (Option.some.inj h).symm, hpart, by simpa using hle, ?_⟩
    rw [consumed, if_pos hseen, List.append_nil]
    rfl
  | cons ch s ih =>
    rw [parseV4Loop] at h
    split_ifs at h with hdot hend hdigit hbig hzero
    · simp only [not_or, not_not, Nat.not_lt] at hend
      obtain ⟨hseen, hpart, hle⟩ := hend
      obtain ⟨n, more, rfl, hlen, hall, htext⟩ := ih h fun _ => rfl
      refine ⟨acc, n :: more, by simp, by rw [List.length_cons]; omega, ?_, ?_⟩
      · exact List.forall_mem_cons.mpr ⟨hle, hall⟩
      · rw [consumed, if_pos hseen, hdot, dotted, ← htext]
        rfl
    · have hch : IsDigit ch := ⟨by omega, by omega⟩
      obtain ⟨n, more, rfl, hlen, hall, htext⟩ := ih h (by simp)
      refine ⟨n, more, rfl, hlen, hall, ?_⟩
      rw [← htext, consumed, consumed, if_pos rfl]
      cases saw with
      | false =>
        rw [hsaw rfl, Nat.zero_mul, Nat.zero_add, decimal_digit hch]
        rfl
      | true =>
        rw [decimal_snoc (fun hacc => hzero ⟨rfl, hacc⟩) hch, if_pos rfl, List.append_assoc]
        rfl

/-- An octet that was printed is read. -/
theorem parseV4Loop_decimal {n : Nat} (hn : n ≤ 255) (rest : List UInt8) (part : Nat)
    (out : List Nat) :
    parseV4Loop (decimal n ++ rest) part 0 false out = parseV4Loop rest part n true out := by
  induction n using Nat.strongRecOn generalizing rest with
  | ind n ih =>
    have hdigit : ∀ d < 10, IsDigit (UInt8.ofNat (48 + d)) ∧ UInt8.ofNat (48 + d) ≠ 46 ∧
        (UInt8.ofNat (48 + d)).toNat - 48 = d := by
      unfold IsDigit
      decide
    obtain ⟨hd, hdot, hval⟩ := hdigit (n % 10) (Nat.mod_lt n (by decide))
    have hrange : ¬ ((UInt8.ofNat (48 + n % 10)).toNat < 48 ∨
        57 < (UInt8.ofNat (48 + n % 10)).toNat) := by
      rw [not_or]
      exact ⟨Nat.not_lt.mpr hd.1, Nat.not_lt.mpr hd.2⟩
    by_cases hsmall : n / 10 = 0
    · have hone : n % 10 = n := by omega
      have htext := decimal_digit hd
      rw [hval, hone] at htext
      rw [hone] at hval hrange hdot
      rw [htext, List.singleton_append, parseV4Loop, if_neg hdot, if_neg hrange,
        if_neg (by decide), if_neg (by simp), hval, Nat.zero_mul, Nat.zero_add]
    · have htext := decimal_snoc hsmall hd
      have hn10 : n / 10 * 10 + n % 10 = n := by omega
      rw [hval, hn10] at htext
      rw [htext, List.append_assoc, ih (n / 10) (by omega) (by omega), List.singleton_append,
        parseV4Loop, if_neg hdot, if_neg hrange, if_neg (by omega),
        if_neg (fun hzero => hsmall hzero.2), hval, hn10]

/-- The octets that are left, from the one at hand. -/
theorem parseV4Loop_dotted {n : Nat} {more : List Nat} {part : Nat} (hpart : part + more.length = 3)
    (hall : ∀ m ∈ n :: more, m ≤ 255) (out : List Nat) :
    parseV4Loop (dotted (n :: more)) part 0 false out = some (out ++ n :: more) := by
  induction more generalizing n part out with
  | nil =>
    have hn := hall n List.mem_cons_self
    have hread := parseV4Loop_decimal hn [] part out
    rw [List.append_nil] at hread
    rw [List.length_nil, Nat.add_zero] at hpart
    rw [dotted, hread, parseV4Loop, if_neg]
    simp only [not_or, not_not, Nat.not_lt]
    exact ⟨trivial, hpart, hn⟩
  | cons m more ih =>
    have hn := hall n List.mem_cons_self
    rw [List.length_cons] at hpart
    have hlen : part + 1 + more.length = 3 := by omega
    have hrest := ih hlen (fun k hk => hall k (List.mem_cons_of_mem _ hk)) (out ++ [n])
    have hgo : ¬ (¬ true = true ∨ 3 ≤ part ∨ 255 < n) := by
      simp only [not_or, not_not, Nat.not_lt, Nat.not_le]
      exact ⟨trivial, by omega, hn⟩
    rw [dotted, parseV4Loop_decimal hn, parseV4Loop, if_pos rfl, if_neg hgo, hrest,
      List.append_assoc, List.singleton_append]

theorem parseV4_iff (s : List UInt8) (o : List Nat) :
    parseV4 s = some o ↔ IsQuad o ∧ s = dotted o := by
  constructor
  · intro h
    obtain ⟨n, more, rfl, hlen, hall, htext⟩ := dotted_of_parseV4Loop h fun _ => rfl
    exact ⟨⟨by simp only [List.nil_append, List.length_cons]; omega, hall⟩, htext⟩
  · rintro ⟨⟨hlen, hall⟩, rfl⟩
    obtain ⟨n, more, rfl⟩ := List.exists_cons_of_length_eq_add_one hlen
    rw [List.length_cons] at hlen
    exact parseV4Loop_dotted (by omega) hall []

/-- **What `parseV4` accepts is the canonical dotted quad of what it gives**, so one address has one
spelling. The loop with the checks of a safe build reaches no trap. -/
theorem parseV4_canonical :
    (∀ s o, parseV4 s = some o ↔ IsQuad o ∧ s = dotted o) ∧
    (∀ s, parseV4Checked s 0 0 false [] = some (parseV4 s)) ∧
    ∀ s s' o, parseV4 s = some o → parseV4 s' = some o → s = s' := by
  refine ⟨parseV4_iff, fun s => parseV4Checked_eq s 0 0 false [], ?_⟩
  intro s s' o hs hs'
  exact ((parseV4_iff s o).mp hs).2.trans ((parseV4_iff s' o).mp hs').2.symm

end ModelFs
