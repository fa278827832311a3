import Mathlib.Data.List.DropRight
import Mathlib.Data.List.Infix
import Mathlib.Tactic.Common
import ModelFs.Lib.Spelling

/-!
# Byte strings

What a standard library does with byte strings: literals, trims, searches and splits. A search
or a split passes over a part that lacks what it looks for, and the lemmas say just that, so that a
parser can be run on what a printer wrote.

* `splitCrlf_line` — a line without a carriage return is cut off whole.
* `endOfHead_line`, `endOfHead_window` — the search for an empty line, and the search from where
  the last one stopped.
* `spell_splitOn` — a path and its components.
-/

namespace ModelFs

/-- The bytes of an ASCII literal. -/
def ascii (s : String) : List UInt8 := s.toList.map fun c => UInt8.ofNat c.toNat

/-- `std.mem.trim`: none of the set is left at either end. -/
def trim (set s : List UInt8) : List UInt8 :=
  (s.dropWhile (· ∈ set)).rdropWhile (· ∈ set)

/-- `std.mem.findScalar`: where the first `b` is. -/
def findScalar (b : UInt8) (s : List UInt8) : Option Nat := s.findIdx? (· == b)

/-- `std.mem.indexOf`: where a string first begins. -/
def indexOf (needle : List UInt8) : List UInt8 → Option Nat
  | [] => if needle = [] then some 0 else none
  | b :: s => if needle.isPrefixOf (b :: s) then some 0 else (indexOf needle s).map (· + 1)

/-- `std.ascii.toLower`. -/
def toLower (b : UInt8) : UInt8 := if 65 ≤ b.toNat ∧ b.toNat ≤ 90 then b + 32 else b

def eqlIgnoreCase (a b : List UInt8) : Bool := a.map toLower == b.map toLower

def startsWithIgnoreCase (s start : List UInt8) : Bool :=
  if s.length < start.length then false else eqlIgnoreCase (s.take start.length) start

/-! ## Trims and searches -/

/-- A string whose ends are not in the set is trimmed already. -/
theorem trim_of_ends {set s : List UInt8} (hhead : ∀ b ∈ s.head?, b ∉ set)
    (hlast : ∀ b ∈ s.getLast?, b ∉ set) : trim set s = s := by
  unfold trim
  have hleft : s.dropWhile (· ∈ set) = s := by
    cases s with
    | nil => rfl
    | cons b s =>
      have hb : b ∉ set := hhead b rfl
      rw [List.dropWhile_cons_of_neg (by simpa using hb)]
  rw [hleft, List.rdropWhile_eq_self_iff]
  intro hne
  have hb := hlast (s.getLast hne) (List.getLast?_eq_getLast_of_ne_nil hne)
  simpa using hb

/-- What is trimmed ends in nothing of the set. -/
theorem ends_of_trim (set s : List UInt8) :
    (∀ b ∈ (trim set s).head?, b ∉ set) ∧ ∀ b ∈ (trim set s).getLast?, b ∉ set := by
  constructor
  · intro b hb
    -- cutting at the right leaves the head where it was
    have hhead : b ∈ (s.dropWhile (· ∈ set)).head? := by
      obtain ⟨rest, hrest⟩ := List.rdropWhile_prefix (· ∈ set) (s.dropWhile (· ∈ set))
      rw [← hrest]
      unfold trim at hb
      exact List.mem_head?_append_of_mem_head? hb
    have hnot := List.head?_dropWhile_not (fun x : UInt8 => decide (x ∈ set)) s
    rw [Option.mem_def.mp hhead] at hnot
    simpa using hnot
  · intro b hb
    have hne : trim set s ≠ [] := fun heq => by
      rw [heq] at hb
      cases hb
    have hlast := List.rdropWhile_last_not (fun x : UInt8 => decide (x ∈ set))
      (s.dropWhile (· ∈ set)) hne
    have heq : b = (trim set s).getLast hne := by
      rw [List.getLast?_eq_getLast_of_ne_nil hne] at hb
      exact (Option.some.inj hb).symm
    rw [heq]
    exact fun hmem => hlast (decide_eq_true hmem)

/-- What is trimmed off is of the set. -/
theorem exists_trim (set s : List UInt8) :
    ∃ l r, s = l ++ trim set s ++ r ∧ (∀ b ∈ l, b ∈ set) ∧ ∀ b ∈ r, b ∈ set := by
  obtain ⟨hl, hr⟩ : (∀ b ∈ s.takeWhile (· ∈ set), b ∈ set) ∧
      ∀ b ∈ (s.dropWhile (· ∈ set)).rtakeWhile (· ∈ set), b ∈ set := by
    constructor
    · intro b hb
      simpa using List.mem_takeWhile_imp hb
    · intro b hb
      simpa using List.mem_rtakeWhile_imp hb
  refine ⟨s.takeWhile (· ∈ set), (s.dropWhile (· ∈ set)).rtakeWhile (· ∈ set), ?_, hl, hr⟩
  unfold trim
  rw [List.append_assoc, List.rdropWhile_append_rtakeWhile, List.takeWhile_append_dropWhile]

/-- What lies between bytes of the set, with ends that are not, is what a trim leaves. -/
theorem trim_between {set l m r : List UInt8} (hl : ∀ b ∈ l, b ∈ set) (hr : ∀ b ∈ r, b ∈ set)
    (hne : m ≠ []) (hhead : ∀ b ∈ m.head?, b ∉ set) (hlast : ∀ b ∈ m.getLast?, b ∉ set) :
    trim set (l ++ m ++ r) = m := by
  obtain ⟨b, m', rfl⟩ := List.exists_cons_of_ne_nil hne
  have hb : b ∉ set := hhead b rfl
  have hleft : (l ++ b :: m' ++ r).dropWhile (· ∈ set) = b :: m' ++ r := by
    rw [List.append_assoc, List.dropWhile_append_of_pos (by simpa using hl), List.cons_append,
      List.dropWhile_cons_of_neg (by simpa using hb)]
  have hright : (b :: m').rdropWhile (· ∈ set) = b :: m' :=
    List.rdropWhile_eq_self_iff.mpr fun hne => by
      simpa using hlast _ (List.getLast?_eq_getLast_of_ne_nil hne)
  unfold trim
  rw [hleft, List.rdropWhile, List.reverse_append,
    List.dropWhile_append_of_pos (by simpa using hr)]
  exact hright

/-- The bytes before the first `b` do not have it. -/
theorem findScalar_append {b : UInt8} {before rest : List UInt8} (h : b ∉ before) :
    findScalar b (before ++ b :: rest) = some before.length := by
  unfold findScalar
  induction before with
  | nil =>
    rw [List.nil_append, List.findIdx?_cons, if_pos (beq_self_eq_true b)]
    rfl
  | cons a before ih =>
    have hab : a ≠ b := fun heq => h (heq ▸ List.mem_cons_self)
    have hrest := ih fun hmem => h (List.mem_cons_of_mem _ hmem)
    rw [List.cons_append, List.findIdx?_cons, if_neg (by simpa using hab), hrest]
    rfl

theorem findScalar_eq_some {b : UInt8} {s : List UInt8} {i : Nat} (h : findScalar b s = some i) :
    ∃ before rest, s = before ++ b :: rest ∧ b ∉ before ∧ before.length = i := by
  induction s generalizing i with
  | nil => cases h
  | cons a s ih =>
    unfold findScalar at h ih
    rw [List.findIdx?_cons] at h
    split_ifs at h with hab
    · obtain rfl : a = b := by simpa using hab
      exact ⟨[], s, rfl, List.not_mem_nil, Option.some.inj h⟩
    · obtain ⟨j, hj, rfl⟩ := Option.map_eq_some_iff.mp h
      obtain ⟨before, rest, rfl, hnot, rfl⟩ := ih hj
      refine ⟨a :: before, rest, rfl, ?_, rfl⟩
      rw [List.mem_cons, not_or]
      exact ⟨fun heq => hab (by rw [heq, beq_self_eq_true]), hnot⟩

theorem findScalar_none {b : UInt8} {s : List UInt8} (h : b ∉ s) : findScalar b s = none := by
  unfold findScalar
  rw [List.findIdx?_eq_none_iff]
  intro x hx
  rw [beq_eq_false_iff_ne]
  exact fun heq => h (heq ▸ hx)

theorem not_mem_of_findScalar {b : UInt8} {s : List UInt8} (h : findScalar b s = none) : b ∉ s := by
  unfold findScalar at h
  rw [List.findIdx?_eq_none_iff] at h
  intro hmem
  have hne := h b hmem
  rw [beq_self_eq_true] at hne
  cases hne

theorem startsWithIgnoreCase_iff {s start : List UInt8} :
    startsWithIgnoreCase s start = true ↔
      ∃ word rest, s = word ++ rest ∧ word.map toLower = start.map toLower := by
  unfold startsWithIgnoreCase eqlIgnoreCase
  constructor
  · intro h
    split_ifs at h with hlen
    exact ⟨_, _, (List.take_append_drop start.length s).symm, eq_of_beq h⟩
  · rintro ⟨word, rest, rfl, hword⟩
    have hlen : word.length = start.length := by
      have := congrArg List.length hword
      rwa [List.length_map, List.length_map] at this
    rw [if_neg (by rw [List.length_append]; omega), ← hlen, List.take_left, hword]
    exact beq_self_eq_true _

/-! ## Lines -/

/-- `std.mem.splitSequence` at `\r\n`. -/
def splitCrlf : List UInt8 → List (List UInt8)
  | [] => [[]]
  | 13 :: 10 :: rest => [] :: splitCrlf rest
  | b :: rest =>
    match splitCrlf rest with
    | [] => [[b]]
    | line :: lines => (b :: line) :: lines

theorem splitCrlf_cons {b : UInt8} {rest line : List UInt8} {lines : List (List UInt8)}
    (hb : b ≠ 13) (h : splitCrlf rest = line :: lines) :
    splitCrlf (b :: rest) = (b :: line) :: lines := by
  rw [splitCrlf, h]
  intro rest' heq
  exact absurd heq hb

/-- A line is cut off whole. -/
theorem splitCrlf_line {line rest : List UInt8} (h : 13 ∉ line) :
    splitCrlf (line ++ 13 :: 10 :: rest) = line :: splitCrlf rest := by
  induction line with
  | nil => rw [List.nil_append, splitCrlf]
  | cons b line ih =>
    have hb : b ≠ 13 := fun heq => h (heq ▸ List.mem_cons_self)
    exact splitCrlf_cons hb (ih fun hmem => h (List.mem_cons_of_mem _ hmem))

/-- Where the first empty line begins: `std.mem.find` of `\r\n\r\n`. -/
def endOfHead : List UInt8 → Option Nat
  | [] => none
  | b :: rest =>
    if [13, 10, 13, 10].isPrefixOf (b :: rest) then some 0 else (endOfHead rest).map (· + 1)

theorem length_of_endOfHead {s : List UInt8} {i : Nat} (h : endOfHead s = some i) :
    i + 4 ≤ s.length := by
  induction s generalizing i with
  | nil => cases h
  | cons b s ih =>
    rw [endOfHead] at h
    split_ifs at h with hhere
    · obtain rfl := Option.some.inj h
      exact (List.isPrefixOf_iff_prefix.mp hhere).length_le
    · obtain ⟨j, hj, rfl⟩ := Option.map_eq_some_iff.mp h
      have := ih hj
      rw [List.length_cons]
      omega

/-- Whether an empty line begins here is decided by four bytes. -/
theorem emptyLine_append {s t : List UInt8} (h : 4 ≤ s.length) :
    [13, 10, 13, 10].isPrefixOf (s ++ t) = [13, 10, 13, 10].isPrefixOf s := by
  rw [Bool.eq_iff_iff, List.isPrefixOf_iff_prefix, List.isPrefixOf_iff_prefix]
  exact ⟨fun hlong => List.prefix_of_prefix_length_le hlong (List.prefix_append s t) h,
    fun hhere => hhere.trans (List.prefix_append s t)⟩

/-- What follows does not move the first empty line. -/
theorem endOfHead_append {s t : List UInt8} {i : Nat} (h : endOfHead s = some i) :
    endOfHead (s ++ t) = some i := by
  induction s generalizing i with
  | nil => cases h
  | cons b s ih =>
    have hlong := length_of_endOfHead h
    rw [List.length_cons] at hlong
    have hsame := emptyLine_append (s := b :: s) (t := t) (by rw [List.length_cons]; omega)
    rw [endOfHead] at h
    rw [List.cons_append, endOfHead, ← List.cons_append, hsame]
    split_ifs at h ⊢ with hhere
    · exact h
    · obtain ⟨j, hj, rfl⟩ := Option.map_eq_some_iff.mp h
      rw [ih hj]
      rfl

/-- An empty line is found in a prefix exactly when the first one ends there. -/
theorem endOfHead_take {s : List UInt8} {n i : Nat} :
    endOfHead (s.take n) = some i ↔ endOfHead s = some i ∧ i + 4 ≤ n := by
  constructor
  · intro h
    have hlong := length_of_endOfHead h
    rw [List.length_take] at hlong
    refine ⟨?_, by omega⟩
    rw [← List.take_append_drop n s]
    exact endOfHead_append h
  · intro ⟨h, hn⟩
    induction s generalizing n i with
    | nil => cases h
    | cons b s ih =>
      obtain ⟨n, rfl⟩ : ∃ m, n = m + 1 := ⟨n - 1, by omega⟩
      have hlong := length_of_endOfHead h
      have hsame := @emptyLine_append ((b :: s).take (n + 1)) ((b :: s).drop (n + 1))
        (by rw [List.length_take]; omega)
      rw [List.take_append_drop] at hsame
      rw [endOfHead, hsame] at h
      rw [List.take_succ_cons, endOfHead, ← List.take_succ_cons]
      split_ifs at h ⊢ with hhere
      · exact h
      · obtain ⟨j, hj, rfl⟩ := Option.map_eq_some_iff.mp h
        rw [ih hj (by omega)]
        rfl

/-- **The search may start three bytes back.** What was read before has no empty line, so one
that is there now ends in what is new. -/
theorem endOfHead_window {buf chunk : List UInt8} (h : endOfHead buf = none) {k : Nat}
    (hk : k + 3 ≤ buf.length ∨ k = 0) :
    endOfHead (buf ++ chunk) = (endOfHead ((buf ++ chunk).drop k)).map (k + ·) := by
  induction k generalizing buf with
  | zero =>
    rw [List.drop_zero]
    simp
  | succ k ih =>
    cases buf with
    | nil =>
      simp only [List.length_nil] at hk
      omega
    | cons b buf =>
      rw [List.length_cons] at hk
      have hsame := emptyLine_append (s := b :: buf) (t := chunk) (by rw [List.length_cons]; omega)
      rw [endOfHead] at h
      split_ifs at h with hhere
      have hrest := ih (Option.map_eq_none_iff.mp h) (by omega)
      rw [List.cons_append, endOfHead, ← List.cons_append, hsame, if_neg hhere, hrest,
        List.cons_append, List.drop_succ_cons, Option.map_map]
      congr 1
      funext i
      simp only [Function.comp_apply]
      omega

/-- The search passes over bytes that are no carriage return. -/
theorem endOfHead_pass {s t : List UInt8} (h : 13 ∉ s) :
    endOfHead (s ++ t) = (endOfHead t).map (s.length + ·) := by
  induction s with
  | nil => simp
  | cons b s ih =>
    have hb : ¬ (13 : UInt8) = b := fun heq => h (heq ▸ List.mem_cons_self)
    have hno : [13, 10, 13, 10].isPrefixOf (b :: (s ++ t)) = false := by
      simp [List.isPrefixOf, hb]
    rw [List.cons_append, endOfHead, hno, ih fun hmem => h (List.mem_cons_of_mem _ hmem),
      List.length_cons, if_neg Bool.false_ne_true, Option.map_map]
    congr 1
    funext i
    simp only [Function.comp_apply]
    omega

/-- The search passes over a line that another one follows. -/
theorem endOfHead_line {line rest : List UInt8} (h : 13 ∉ line) (hrest : rest.head? ≠ some 13) :
    endOfHead (line ++ 13 :: 10 :: rest) = (endOfHead rest).map (line.length + 2 + ·) := by
  have hno : [13, 10, 13, 10].isPrefixOf (13 :: 10 :: rest) = false := by
    cases rest with
    | nil => rfl
    | cons b rest =>
      have hb : ¬ (13 : UInt8) = b := fun heq => hrest (by rw [heq]; rfl)
      simp [List.isPrefixOf, hb]
  have hno' : [13, 10, 13, 10].isPrefixOf (10 :: rest) = false := rfl
  rw [endOfHead_pass h, endOfHead, hno, if_neg Bool.false_ne_true, endOfHead, hno',
    if_neg Bool.false_ne_true, Option.map_map, Option.map_map]
  congr 1
  funext i
  simp only [Function.comp_apply]
  omega

theorem endOfHead_last {line rest : List UInt8} (h : 13 ∉ line) :
    endOfHead (line ++ 13 :: 10 :: 13 :: 10 :: rest) = some line.length := by
  have hhere : [13, 10, 13, 10].isPrefixOf (13 :: 10 :: 13 :: 10 :: rest) = true := rfl
  rw [endOfHead_pass h, endOfHead, if_pos hhere]
  rfl

/-- A search passes over bytes that cannot begin what it looks for. -/
theorem indexOf_pass {c : UInt8} {needle s : List UInt8} (h : c ∉ s) (t : List UInt8) :
    indexOf (c :: needle) (s ++ t) = (indexOf (c :: needle) t).map (s.length + ·) := by
  induction s with
  | nil => simp
  | cons b s ih =>
    have hb : ¬ c = b := fun heq => h (heq ▸ List.mem_cons_self)
    have hno : (c :: needle).isPrefixOf (b :: (s ++ t)) = false := by simp [List.isPrefixOf, hb]
    rw [List.cons_append, indexOf, hno, if_neg Bool.false_ne_true,
      ih fun hmem => h (List.mem_cons_of_mem _ hmem), Option.map_map]
    congr 1
    funext i
    simp only [Function.comp_apply, List.length_cons]
    omega

theorem mem_of_endOfHead {s : List UInt8} {i : Nat} (h : endOfHead s = some i) : 10 ∈ s := by
  induction s generalizing i with
  | nil => cases h
  | cons b s ih =>
    rw [endOfHead] at h
    split_ifs at h with hhere
    · exact (List.isPrefixOf_iff_prefix.mp hhere).subset (by simp)
    · obtain ⟨j, hj, -⟩ := Option.map_eq_some_iff.mp h
      exact List.mem_cons_of_mem _ (ih hj)

/-- The search may be left out where there is no line feed. -/
theorem endOfHead_scan (s : List UInt8) :
    (if 10 ∈ s then endOfHead s else none) = endOfHead s := by
  split_ifs with hmem
  · rfl
  · by_contra hsome
    obtain ⟨i, hi⟩ := Option.ne_none_iff_exists'.mp (Ne.symm hsome)
    exact hmem (mem_of_endOfHead hi)

/-- Lines, and an empty one after them. -/
def joinLines (lines : List (List UInt8)) : List UInt8 :=
  lines.flatMap (· ++ [13, 10]) ++ [13, 10]

theorem joinLines_cons (line : List UInt8) (lines : List (List UInt8)) :
    joinLines (line :: lines) = line ++ 13 :: 10 :: joinLines lines := by
  simp [joinLines]

/-- **Lines that were written are split again.** -/
theorem splitCrlf_joinLines {lines : List (List UInt8)} (h : ∀ line ∈ lines, 13 ∉ line) :
    splitCrlf (joinLines lines) = lines ++ [[], []] := by
  induction lines with
  | nil => rfl
  | cons line lines ih =>
    rw [joinLines_cons, splitCrlf_line (h line List.mem_cons_self),
      ih fun l hl => h l (List.mem_cons_of_mem _ hl), List.cons_append]

/-- **The empty line after the lines is the first.** -/
theorem endOfHead_joinLines {line : List UInt8} {lines : List (List UInt8)}
    (hline : 13 ∉ line) (h : ∀ l ∈ lines, l ≠ [] ∧ 13 ∉ l) :
    ∃ i, endOfHead (joinLines (line :: lines)) = some i ∧
      i + 4 = (joinLines (line :: lines)).length := by
  induction lines generalizing line with
  | nil =>
    refine ⟨line.length, ?_, ?_⟩
    · rw [joinLines_cons]
      exact endOfHead_last hline
    · rw [joinLines_cons, List.length_append]
      rfl
  | cons next lines ih =>
    obtain ⟨hne, hnext⟩ := h next List.mem_cons_self
    obtain ⟨i, hi, hlen⟩ := ih hnext fun l hl => h l (List.mem_cons_of_mem _ hl)
    refine ⟨line.length + 2 + i, ?_, ?_⟩
    · rw [joinLines_cons, endOfHead_line hline, hi]
      · rfl
      · rw [joinLines_cons]
        obtain ⟨b, rest, rfl⟩ := List.exists_cons_of_ne_nil hne
        rw [List.cons_append, List.head?_cons]
        exact fun heq => hnext (Option.some.inj heq ▸ List.mem_cons_self)
    · rw [joinLines_cons, List.length_append, List.length_cons, List.length_cons]
      omega

/-! ## Components -/

/-- No piece of a split has the separator. -/
theorem not_mem_of_mem_splitOn {α : Type*} [DecidableEq α] {sep : α} {s c : List α}
    (h : c ∈ s.splitOn sep) : sep ∉ c := by
  induction s generalizing c with
  | nil =>
    rw [List.splitOn_nil, List.mem_singleton] at h
    rw [h]
    exact List.not_mem_nil
  | cons a s ih =>
    rw [List.splitOn_cons_eq_if_modifyHead] at h
    split_ifs at h with ha
    · rcases List.mem_cons.mp h with rfl | h
      · exact List.not_mem_nil
      · exact ih h
    · obtain ⟨d, ds, hsplit⟩ := List.exists_cons_of_ne_nil (List.splitOn_ne_nil sep s)
      rw [hsplit] at h ih
      rw [List.modifyHead_cons] at h
      rcases List.mem_cons.mp h with rfl | h
      · rw [List.mem_cons, not_or]
        exact ⟨fun heq => ha (by rw [heq]; exact beq_self_eq_true a), ih List.mem_cons_self⟩
      · exact ih (List.mem_cons_of_mem _ h)

/-- A separator before each piece of a split, and the string is back. -/
theorem spell_splitOn {α : Type*} [DecidableEq α] (sep : α) (s : List α) :
    spell sep (s.splitOn sep) = sep :: s := by
  have hspell : ∀ cs : List (List α), cs ≠ [] → spell sep cs = sep :: [sep].intercalate cs := by
    intro cs hcs
    induction cs with
    | nil => exact absurd rfl hcs
    | cons c cs ih =>
      cases cs with
      | nil => simp [List.intercalate]
      | cons d ds =>
        rw [spell_cons, ih (List.cons_ne_nil _ _)]
        simp [List.intercalate]
  rw [hspell _ (List.splitOn_ne_nil sep s), List.intercalate_splitOn]

end ModelFs
