import Mathlib.Tactic.SplitIfs

/-!
# Who destroys a counted object

An object has a count of its references, a flag `dead` that says no new reference can be taken,
and a flag `freed` the winner of its destruction swaps in. References are dropped in two steps:
the count goes down, and whoever took it to zero then looks at `dead`. Whoever stamps `dead` at a
count of zero destroys the object at once.

`Life` counts the parties at each point of that hand-off. It is safe as long as nobody stamps
`dead` between a decrement to zero and the look that follows it (`clear` below).

* `Life.Sound` — as long as references are out nobody is about to destroy the object, and a dead
  object without references has exactly one heir.
* `Life.Sound.step` — **the hand-off keeps this.**
-/

namespace ModelFs

/-- The counters of one object. -/
@[ext] structure Life where
  count : Nat
  dead : Bool
  freed : Bool
  /-- References that are out. -/
  holders : Nat
  /-- Parties that took the count to zero and have not looked at `dead` yet. -/
  leaving : Nat
  /-- Parties that saw `dead` and have not swapped `freed` yet. -/
  doomed : Nat
  /-- Parties that won the swap and have not destroyed the object yet. -/
  won : Nat
  /-- Destructions so far. -/
  ends : Nat

namespace Life

/-- One step of one party. -/
inductive Step (l : Life) : Life → Prop where
  | take (hlive : l.dead = false) :
      Step l { l with count := l.count + 1, holders := l.holders + 1 }
  /-- A reference goes back under the lock that lets references be taken. -/
  | undo (hlive : l.dead = false) (hout : 0 < l.holders) :
      Step l { l with count := l.count - 1, holders := l.holders - 1 }
  | drop (hout : 0 < l.holders) :
      Step l { l with
        count := l.count - 1
        holders := l.holders - 1
        leaving := l.leaving + if l.count = 1 then 1 else 0 }
  | spare (hat : 0 < l.leaving) (hlive : l.dead = false) :
      Step l { l with leaving := l.leaving - 1 }
  | doom (hat : 0 < l.leaving) (hdead : l.dead = true) :
      Step l { l with leaving := l.leaving - 1, doomed := l.doomed + 1 }
  | win (hat : 0 < l.doomed) (hfirst : l.freed = false) :
      Step l { l with freed := true, doomed := l.doomed - 1, won := l.won + 1 }
  | lose (hat : 0 < l.doomed) (hlast : l.freed = true) :
      Step l { l with doomed := l.doomed - 1 }
  | destroy (hat : 0 < l.won) : Step l { l with won := l.won - 1, ends := l.ends + 1 }
  /-- The stamp, with references out. -/
  | kill (hlive : l.dead = false) (clear : l.leaving = 0) (hout : 0 < l.count) :
      Step l { l with dead := true }
  /-- The stamp, with no reference out; the party destroys the object. -/
  | killLast (hlive : l.dead = false) (clear : l.leaving = 0) (hlast : l.count = 0) :
      Step l { l with dead := true, freed := true, ends := l.ends + 1 }
  /-- The stamp by the holder of the last reference, who then drops it. -/
  | killDrop (hlive : l.dead = false) (clear : l.leaving = 0) (hlast : l.count = 1) :
      Step l { l with
        dead := true
        count := 0
        holders := l.holders - 1
        leaving := l.leaving + 1 }

/-- Parties that will destroy the object or did. -/
def heirs (l : Life) : Nat := l.leaving + l.doomed + l.won + l.ends

/-- What the hand-off keeps. -/
structure Sound (l : Life) : Prop where
  count : l.count = l.holders
  live : l.dead = false → l.doomed = 0 ∧ l.won = 0 ∧ l.ends = 0 ∧ l.freed = false
  held : l.dead = true → 0 < l.count → l.heirs = 0 ∧ l.freed = false
  heir : l.dead = true → l.count = 0 → l.heirs = 1 ∧ (l.freed = true ↔ l.won + l.ends = 1)

variable {l l' : Life}

theorem Sound.ends_le (h : Sound l) : l.ends ≤ 1 := by
  by_cases hd : l.dead = true
  · rcases Nat.eq_zero_or_pos l.count with hzero | hpos
    · have hone := (h.heir hd hzero).1
      unfold heirs at hone
      omega
    · have hnone := (h.held hd hpos).1
      unfold heirs at hnone
      omega
  · have hends := (h.live (Bool.not_eq_true _ ▸ hd)).2.2.1
    omega

/-- While a reference is out the object is there. -/
theorem Sound.ends_of_held (h : Sound l) (hout : 0 < l.holders) : l.ends = 0 := by
  by_cases hd : l.dead = true
  · have hnone := (h.held hd (h.count ▸ hout)).1
    unfold heirs at hnone
    omega
  · exact (h.live (Bool.not_eq_true _ ▸ hd)).2.2.1

/-- An object a party is about to destroy is dead. -/
theorem Sound.dead_of_doomed (h : Sound l) (hat : 0 < l.doomed + l.won) : l.dead = true := by
  rw [← Bool.not_eq_false]
  intro hlive
  obtain ⟨hdoomed, hwon, -, -⟩ := h.live hlive
  omega

/-- The heir of a dead object is alone with it. -/
theorem Sound.orphan (h : Sound l) (hdead : l.dead = true)
    (hat : 0 < l.leaving + l.doomed + l.won) :
    l.count = 0 ∧ l.leaving + l.doomed + l.won + l.ends = 1 ∧
      (l.freed = true ↔ l.won + l.ends = 1) := by
  rcases Nat.eq_zero_or_pos l.count with hzero | hpos
  · exact ⟨hzero, h.heir hdead hzero⟩
  · have hnone := (h.held hdead hpos).1
    unfold heirs at hnone
    omega

/-- Whoever is on the way to destroy the object finds it there. -/
theorem Sound.ends_of_leaving (h : Sound l) (hat : 0 < l.leaving + l.doomed + l.won) :
    l.ends = 0 := by
  by_cases hd : l.dead = true
  · obtain ⟨-, hone, -⟩ := h.orphan hd hat
    omega
  · exact (h.live (Bool.not_eq_true _ ▸ hd)).2.2.1

theorem Sound.of_live (hlive : l.dead = false) (hcount : l.count = l.holders)
    (hrest : l.doomed = 0 ∧ l.won = 0 ∧ l.ends = 0 ∧ l.freed = false) : Sound l :=
  ⟨hcount, fun _ => hrest, fun hd => absurd (hlive.symm.trans hd) (by simp),
    fun hd => absurd (hlive.symm.trans hd) (by simp)⟩

theorem Sound.of_held (hdead : l.dead = true) (hcount : l.count = l.holders) (hpos : 0 < l.count)
    (hnone : l.leaving + l.doomed + l.won + l.ends = 0) (hfreed : l.freed = false) : Sound l :=
  ⟨hcount, fun hlive => absurd (hdead.symm.trans hlive) (by simp), fun _ _ => ⟨hnone, hfreed⟩,
    fun _ hzero => absurd hzero (Nat.ne_of_gt hpos)⟩

theorem Sound.of_heir (hdead : l.dead = true) (hcount : l.count = l.holders) (hzero : l.count = 0)
    (hone : l.leaving + l.doomed + l.won + l.ends = 1)
    (hiff : l.freed = true ↔ l.won + l.ends = 1) : Sound l :=
  ⟨hcount, fun hlive => absurd (hdead.symm.trans hlive) (by simp),
    fun _ hpos => absurd hzero (Nat.ne_of_gt hpos), fun _ _ => ⟨hone, hiff⟩⟩

/-- **The hand-off is sound.** -/
theorem Sound.step (h : Sound l) (hstep : Step l l') : Sound l' := by
  have hcount := h.count
  cases hstep with
  | take hlive => exact .of_live hlive (by dsimp only; omega) (h.live hlive)
  | undo hlive hout => exact .of_live hlive (by dsimp only; omega) (h.live hlive)
  | spare hat hlive => exact .of_live hlive hcount (h.live hlive)
  | drop hout =>
    by_cases hd : l.dead = true
    · obtain ⟨hnone, hfreed⟩ := h.held hd (by omega)
      unfold heirs at hnone
      by_cases hone : l.count = 1
      · refine .of_heir hd (by dsimp only; omega) (by dsimp only; omega) ?_ ?_
        · dsimp only
          rw [if_pos hone]
          omega
        · have hzero : l.won + l.ends ≠ 1 := by omega
          dsimp only
          rw [hfreed]
          exact iff_of_false (by simp) hzero
      · refine .of_held hd (by dsimp only; omega) (by dsimp only; omega) ?_ hfreed
        dsimp only
        rw [if_neg hone]
        omega
    · have hlive : l.dead = false := Bool.not_eq_true _ ▸ hd
      exact .of_live hlive (by dsimp only; omega) (h.live hlive)
  | doom hat hdead =>
    obtain ⟨hzero, hone, hiff⟩ := h.orphan hdead (by omega)
    exact .of_heir hdead hcount hzero (by dsimp only; omega) hiff
  | win hat hfirst =>
    have hdead := h.dead_of_doomed (by omega)
    obtain ⟨hzero, hone, hiff⟩ := h.orphan hdead (by omega)
    have hwon : l.won + 1 + l.ends = 1 := by omega
    exact .of_heir hdead hcount hzero (by dsimp only; omega) (iff_of_true rfl hwon)
  | lose hat hlast =>
    obtain ⟨hzero, hone, hiff⟩ := h.orphan (h.dead_of_doomed (by omega)) (by omega)
    have hwon := hiff.mp hlast
    omega
  | destroy hat =>
    have hdead := h.dead_of_doomed (by omega)
    obtain ⟨hzero, hone, hiff⟩ := h.orphan hdead (by omega)
    have hsum : l.won - 1 + (l.ends + 1) = l.won + l.ends := by omega
    exact .of_heir hdead hcount hzero (by dsimp only; omega) (hsum ▸ hiff)
  | kill hlive clear hout =>
    obtain ⟨hdoomed, hwon, hends, hfreed⟩ := h.live hlive
    exact .of_held rfl hcount hout (by dsimp only; omega) hfreed
  | killLast hlive clear hlast =>
    obtain ⟨hdoomed, hwon, hends, hfreed⟩ := h.live hlive
    have hone : l.won + (l.ends + 1) = 1 := by omega
    exact .of_heir rfl hcount hlast (by dsimp only; omega) (iff_of_true rfl hone)
  | killDrop hlive clear hlast =>
    obtain ⟨hdoomed, hwon, hends, hfreed⟩ := h.live hlive
    have hzero : l.won + l.ends ≠ 1 := by omega
    refine .of_heir rfl (by dsimp only; omega) rfl (by dsimp only; omega) ?_
    dsimp only
    rw [hfreed]
    exact iff_of_false (by simp) hzero

end Life

end ModelFs
