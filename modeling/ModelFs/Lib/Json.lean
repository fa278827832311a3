import Mathlib.Algebra.BigOperators.Group.List.Basic
import Mathlib.Algebra.GroupWithZero.Nat
import Mathlib.Data.List.GetD
import Mathlib.Tactic.Common
import ModelFs.Lib.Bytes
import ModelFs.Lib.Utf8

/-!
# JSON texts

The texts of a minified JSON writer: strings with their escapes, arrays, objects. Of a text two
things are known without a reader: it is one line, since the writer escapes every byte below a
blank, and its length is a sum over its parts.

* `onOneLine_jsonBytes`, `onOneLine_jsonArray`, `onOneLine_jsonObject` — a text is one line if its
  parts are.
* `length_jsonBytes`, `length_jsonArray`, `length_jsonObject` — its length.
-/

namespace ModelFs

/-- Texts with commas between them. -/
def commaSep : List (List UInt8) → List UInt8
  | [] => []
  | [x] => x
  | x :: y :: rest => x ++ 44 :: commaSep (y :: rest)

/-- One byte of a string. -/
def jsonEscape (b : UInt8) : List UInt8 :=
  if b = 34 ∨ b = 92 then [92, b]
  else if b = 8 then ascii "\\b"
  else if b = 12 then ascii "\\f"
  else if b = 10 then ascii "\\n"
  else if b = 13 then ascii "\\r"
  else if b = 9 then ascii "\\t"
  else if b.toNat < 32 then
    let digits := ascii "0123456789abcdef"
    ascii "\\u00" ++ [digits.getD (b.toNat / 16) 48, digits.getD (b.toNat % 16) 48]
  else [b]

def jsonString (s : List UInt8) : List UInt8 := 34 :: (s.flatMap jsonEscape ++ [34])

def jsonArray (xs : List (List UInt8)) : List UInt8 := 91 :: (commaSep xs ++ [93])

/-- A member of an object. No key has a byte to escape. -/
def jsonMember (key value : List UInt8) : List UInt8 := 34 :: (key ++ 34 :: 58 :: value)

/-- The members, keys and texts, in order. -/
def jsonObject (members : List (List UInt8 × List UInt8)) : List UInt8 :=
  123 :: (commaSep (members.map fun m => jsonMember m.1 m.2) ++ [125])

def jsonBool (b : Bool) : List UInt8 := if b then ascii "true" else ascii "false"

/-- A byte slice: a string if it is UTF-8, and the array of its bytes if not. -/
def jsonBytes (number : Nat → List UInt8) (s : List UInt8) : List UInt8 :=
  if utf8ValidateSlice s then jsonString s else jsonArray (s.map fun b => number b.toNat)

/-! ## One line -/

/-- No byte below a blank. -/
def OnOneLine (s : List UInt8) : Prop := ∀ b ∈ s, 32 ≤ b.toNat

instance (s : List UInt8) : Decidable (OnOneLine s) :=
  List.decidableBAll (fun b : UInt8 => 32 ≤ b.toNat) s

theorem OnOneLine.append {s t : List UInt8} (hs : OnOneLine s) (ht : OnOneLine t) :
    OnOneLine (s ++ t) := fun b hb => (List.mem_append.mp hb).elim (hs b) (ht b)

theorem OnOneLine.cons {b : UInt8} {s : List UInt8} (hb : 32 ≤ b.toNat) (hs : OnOneLine s) :
    OnOneLine (b :: s) := by
  intro x hx
  rcases List.mem_cons.mp hx with rfl | hx
  · exact hb
  · exact hs x hx

/-- A line break is none of its bytes. -/
theorem OnOneLine.not_mem {s : List UInt8} (hs : OnOneLine s) : 10 ∉ s :=
  fun hmem => absurd (hs 10 hmem) (by decide)

theorem onOneLine_commaSep {xs : List (List UInt8)} (h : ∀ x ∈ xs, OnOneLine x) :
    OnOneLine (commaSep xs) := by
  fun_induction commaSep xs with
  | case1 => exact fun b hb => absurd hb List.not_mem_nil
  | case2 x => exact h x List.mem_cons_self
  | case3 x y rest ih =>
    have hrest := ih fun z hz => h z (List.mem_cons_of_mem _ hz)
    exact (h x List.mem_cons_self).append (hrest.cons (by decide))

theorem onOneLine_jsonEscape (b : UInt8) : OnOneLine (jsonEscape b) := by
  have hdigit : ∀ n, 32 ≤ ((ascii "0123456789abcdef").getD n 48).toNat := by
    intro n
    by_cases hn : n < 16
    · revert n
      decide
    · rw [List.getD_eq_default _ _ (Nat.not_lt.mp hn)]
      decide
  unfold jsonEscape
  split_ifs with hquote h8 h12 h10 h13 h9 hlow
  · rcases hquote with rfl | rfl <;> decide
  · decide
  · decide
  · decide
  · decide
  · decide
  · have hcode : OnOneLine (ascii "\\u00") := by decide
    refine hcode.append ?_
    exact OnOneLine.cons (hdigit _) (OnOneLine.cons (hdigit _) fun x hx => absurd hx List.not_mem_nil)
  · intro x hx
    rw [List.mem_singleton.mp hx]
    omega

theorem onOneLine_jsonString (s : List UInt8) : OnOneLine (jsonString s) := by
  have hbody : OnOneLine (s.flatMap jsonEscape) := by
    intro b hb
    obtain ⟨a, -, hab⟩ := List.mem_flatMap.mp hb
    exact onOneLine_jsonEscape a b hab
  exact (hbody.append (by decide)).cons (by decide)

theorem onOneLine_jsonArray {xs : List (List UInt8)} (h : ∀ x ∈ xs, OnOneLine x) :
    OnOneLine (jsonArray xs) :=
  ((onOneLine_commaSep h).append (by decide)).cons (by decide)

theorem onOneLine_jsonMember {key value : List UInt8} (hkey : OnOneLine key)
    (hvalue : OnOneLine value) : OnOneLine (jsonMember key value) :=
  (hkey.append ((hvalue.cons (by decide)).cons (by decide))).cons (by decide)

theorem onOneLine_jsonObject {members : List (List UInt8 × List UInt8)}
    (hkeys : ∀ m ∈ members, OnOneLine m.1) (hvalues : ∀ m ∈ members, OnOneLine m.2) :
    OnOneLine (jsonObject members) := by
  have hmembers : ∀ x ∈ members.map fun m => jsonMember m.1 m.2, OnOneLine x := by
    intro x hx
    obtain ⟨m, hm, rfl⟩ := List.mem_map.mp hx
    exact onOneLine_jsonMember (hkeys m hm) (hvalues m hm)
  exact ((onOneLine_commaSep hmembers).append (by decide)).cons (by decide)

theorem onOneLine_jsonBool (b : Bool) : OnOneLine (jsonBool b) := by
  cases b <;> decide

theorem onOneLine_jsonBytes {number : Nat → List UInt8} (hnumber : ∀ n, OnOneLine (number n))
    (s : List UInt8) : OnOneLine (jsonBytes number s) := by
  unfold jsonBytes
  split_ifs
  · exact onOneLine_jsonString s
  · refine onOneLine_jsonArray fun x hx => ?_
    obtain ⟨b, -, rfl⟩ := List.mem_map.mp hx
    exact hnumber b.toNat

/-! ## Lengths -/

/-- The bytes of a list between its brackets. -/
def listSize (sizes : List Nat) : Nat := 2 + ((sizes.map (· + 1)).sum - 1)

def escapeSize (b : UInt8) : Nat :=
  if b = 34 ∨ b = 92 ∨ b = 8 ∨ b = 12 ∨ b = 10 ∨ b = 13 ∨ b = 9 then 2
  else if b.toNat < 32 then 6
  else 1

/-- The bytes of a byte slice. -/
def bytesSize (number : Nat → List UInt8) (s : List UInt8) : Nat :=
  if utf8ValidateSlice s then 2 + (s.map escapeSize).sum
  else listSize (s.map fun b => (number b.toNat).length)

theorem listSize_cons (n : Nat) (sizes : List Nat) :
    listSize (n :: sizes) = 2 + n + (sizes.map (· + 1)).sum := by
  rw [listSize, List.map_cons, List.sum_cons]
  omega

theorem length_commaSep (xs : List (List UInt8)) :
    (commaSep xs).length = ((xs.map List.length).map (· + 1)).sum - 1 := by
  fun_induction commaSep xs with
  | case1 => rfl
  | case2 x => simp
  | case3 x y rest ih =>
    rw [List.length_append, List.length_cons, ih]
    simp only [List.map_cons, List.sum_cons]
    omega

/-- Brackets or braces, the length is the same. -/
theorem length_bracketed (left right : UInt8) (xs : List (List UInt8)) :
    (left :: (commaSep xs ++ [right])).length = listSize (xs.map List.length) := by
  rw [List.length_cons, List.length_append, length_commaSep, List.length_singleton, listSize]
  omega

theorem length_jsonArray (xs : List (List UInt8)) :
    (jsonArray xs).length = listSize (xs.map List.length) := length_bracketed 91 93 xs

theorem length_jsonMember (key value : List UInt8) :
    (jsonMember key value).length = key.length + 3 + value.length := by
  simp only [jsonMember, List.length_cons, List.length_append]
  omega

theorem length_jsonObject (members : List (List UInt8 × List UInt8)) :
    (jsonObject members).length =
      listSize (members.map fun m => m.1.length + 3 + m.2.length) := by
  rw [jsonObject, length_bracketed, List.map_map]
  exact congrArg listSize (List.map_congr_left fun m _ => length_jsonMember m.1 m.2)

theorem length_jsonEscape (b : UInt8) : (jsonEscape b).length = escapeSize b := by
  unfold jsonEscape escapeSize
  split_ifs <;> first | rfl | grind

theorem length_jsonString (s : List UInt8) :
    (jsonString s).length = 2 + (s.map escapeSize).sum := by
  have hbody : (s.flatMap jsonEscape).length = (s.map escapeSize).sum := by
    rw [List.length_flatMap]
    exact congrArg List.sum (List.map_congr_left fun b _ => length_jsonEscape b)
  rw [jsonString, List.length_cons, List.length_append, hbody, List.length_singleton]
  omega

theorem length_jsonBytes (number : Nat → List UInt8) (s : List UInt8) :
    (jsonBytes number s).length = bytesSize number s := by
  unfold jsonBytes bytesSize
  split_ifs
  · exact length_jsonString s
  · rw [length_jsonArray, List.map_map]
    rfl

theorem two_le_bytesSize (number : Nat → List UInt8) (s : List UInt8) :
    2 ≤ bytesSize number s := by
  unfold bytesSize listSize
  split_ifs <;> exact Nat.le_add_right 2 _

/-- A list is no shorter than the bytes of its elements. -/
theorem sum_le_listSize (sizes : List Nat) : sizes.sum + sizes.length ≤ listSize sizes := by
  have hsum : (sizes.map (· + 1)).sum = sizes.sum + sizes.length := by
    induction sizes with
    | nil => rfl
    | cons n sizes ih =>
      simp only [List.map_cons, List.sum_cons, List.length_cons, ih]
      omega
  rw [listSize, hsum]
  omega

end ModelFs
