import Mathlib.Data.Multiset.Filter
import Mathlib.Data.Multiset.Bind
import Mathlib.Tactic.Ring
import Mathlib.Tactic.Linarith

/-!
# Stamps at a distance

A line that may be written once in a while is claimed through the stamp of the last claim: whoever
finds it old enough puts its own in by a compare and exchange. The claims are then `Spaced`, and a
window of time holds no more of them than fit; nor do lines, each of which was claimed.

* `Spaced.window` — what a window holds.
* `Spaced.lines` — the same of lines that come out in any order.
-/

namespace ModelFs

/-- The latest first, each `gap` after the one before it, and all `gap` after `start`. -/
def Spaced (gap start : Int) : List Int → Prop
  | [] => True
  | t :: earlier => (match earlier with
      | [] => start
      | u :: _ => u) + gap ≤ t ∧ Spaced gap start earlier

section Windows

variable {gap start : Int}

/-- The stamp that is kept. -/
def lastStamp (start : Int) (claims : List Int) : Int := claims.head?.getD start

theorem Spaced.cons {claims : List Int} (h : Spaced gap start claims) {t : Int}
    (ht : lastStamp start claims + gap ≤ t) : Spaced gap start (t :: claims) := by
  cases claims with
  | nil => exact ⟨ht, h⟩
  | cons u earlier => exact ⟨ht, h⟩

/-- No claim is later than the last. -/
theorem Spaced.le_last {claims : List Int} (hgap : 0 < gap) (h : Spaced gap start claims) :
    ∀ t ∈ claims, start + gap ≤ t ∧ t ≤ lastStamp start claims := by
  induction claims with
  | nil => simp
  | cons t earlier ih =>
    obtain ⟨ht, hearlier⟩ := h
    have hold := ih hearlier
    have hfirst : start + gap ≤ t := by
      cases earlier with
      | nil => exact ht
      | cons u earlier =>
        have hu := (hold u List.mem_cons_self).1
        dsimp only at ht
        linarith
    intro u hu
    rcases List.mem_cons.mp hu with rfl | hu
    · exact ⟨hfirst, le_refl _⟩
    · refine ⟨(hold u hu).1, ?_⟩
      have hle := (hold u hu).2
      cases earlier with
      | nil => cases hu
      | cons v earlier =>
        simp only [lastStamp, List.head?_cons, Option.getD_some] at hle ⊢
        dsimp only at ht
        linarith

theorem Spaced.tail {claims : List Int} {t : Int} (h : Spaced gap start (t :: claims)) :
    Spaced gap start claims := h.2

/-- A claim is `gap` after all that were before it. -/
theorem Spaced.head {claims : List Int} {t : Int} (hgap : 0 < gap)
    (h : Spaced gap start (t :: claims)) : ∀ u ∈ claims, u + gap ≤ t := by
  intro u hu
  have hle := (h.tail.le_last hgap u hu).2
  cases claims with
  | nil => cases hu
  | cons v earlier =>
    have ht := h.1
    simp only [lastStamp, List.head?_cons, Option.getD_some] at hle
    dsimp only at ht
    linarith

/-- **What a window holds.** -/
theorem Spaced.window {claims : List Int} (hgap : 0 < gap) (h : Spaced gap start claims)
    {a b : Int} (hab : a ≤ b + gap) :
    gap * (claims.filter fun t => a ≤ t ∧ t ≤ b).length ≤ b - a + gap := by
  induction claims generalizing b with
  | nil =>
    simp only [List.filter_nil, List.length_nil, Nat.cast_zero, mul_zero]
    linarith
  | cons t earlier ih =>
    by_cases hin : a ≤ t ∧ t ≤ b
    · -- the others are in the window that ends a gap before this one
      have hsame : (earlier.filter fun u => a ≤ u ∧ u ≤ b) =
          earlier.filter fun u => a ≤ u ∧ u ≤ t - gap := by
        apply List.filter_congr
        intro u hu
        have hu := h.head hgap u hu
        simp only [decide_eq_decide, and_congr_right_iff]
        intro _
        constructor
        · intro _
          linarith
        · intro _
          linarith [hin.2]
      have hrest := @ih h.tail (t - gap) (by linarith [hin.1])
      rw [List.filter_cons_of_pos (by simpa using hin), List.length_cons, hsame]
      push_cast
      have hle := hin.2
      rw [mul_add, mul_one]
      linarith
    · rw [List.filter_cons_of_neg (by simpa using hin)]
      exact ih h.tail hab

/-- **Lines**, each with the stamp of its claim. -/
theorem Spaced.lines {claims : List Int} (hgap : 0 < gap) (h : Spaced gap start claims)
    {lines : Multiset Int} (hlines : lines ≤ claims) {a b : Int} (hab : a ≤ b + gap) :
    gap * (lines.filter fun t => a ≤ t ∧ t ≤ b).card ≤ b - a + gap := by
  have hcard := Multiset.card_le_card (Multiset.filter_le_filter (fun t => a ≤ t ∧ t ≤ b) hlines)
  rw [Multiset.filter_coe, Multiset.coe_card] at hcard
  have hwindow := @Spaced.window gap start claims hgap h a b hab
  have hmono : gap * ((lines.filter fun t => a ≤ t ∧ t ≤ b).card : Int) ≤
      gap * (claims.filter fun t => a ≤ t ∧ t ≤ b).length :=
    mul_le_mul_of_nonneg_left (by exact_mod_cast hcard) hgap.le
  exact hmono.trans hwindow

/-- All that were claimed until `now`. -/
theorem Spaced.all {claims : List Int} (hgap : 0 < gap) (h : Spaced gap start claims)
    {lines : Multiset Int} (hlines : lines ≤ claims) {now : Int} (hstart : start ≤ now)
    (hnow : lastStamp start claims ≤ now) : gap * lines.card ≤ now - start := by
  have hall : (lines.filter fun t => start + gap ≤ t ∧ t ≤ now) = lines := by
    apply Multiset.filter_eq_self.mpr
    intro t ht
    have hin := h.le_last hgap t (Multiset.mem_coe.mp (Multiset.mem_of_le hlines ht))
    exact ⟨hin.1, hin.2.trans hnow⟩
  have hcount := @Spaced.lines gap start claims hgap h lines hlines (start + gap) now (by linarith)
  rw [hall] at hcount
  linarith

end Windows

end ModelFs
