import Mathlib.Data.Multiset.Bind
import Mathlib.Algebra.Order.BigOperators.Group.Multiset
import Mathlib.Algebra.Order.Ring.Nat

/-!
# A pool of threads

Threads that come and go are a multiset of program points. A step takes one of them out, as `t ::ₘ
rest`, and puts back what became of it. `tally` is the sum of what the threads contribute to a
counter, `pooled` what they have between them.
-/

namespace ModelFs

section Pools

variable {π α : Type*}

/-- What all threads together contribute. -/
def tally (f : π → Nat) (pool : Multiset π) : Nat := (pool.map f).sum

@[simp] theorem tally_zero (f : π → Nat) : tally f 0 = 0 := by
  simp [tally]

@[simp] theorem tally_cons (f : π → Nat) (t : π) (rest : Multiset π) :
    tally f (t ::ₘ rest) = f t + tally f rest := by
  simp [tally]

/-- One each at most. -/
theorem tally_le_card {f : π → Nat} (hf : ∀ t, f t ≤ 1) (pool : Multiset π) :
    tally f pool ≤ pool.card := by
  have hle := Multiset.sum_le_card_nsmul (pool.map f) 1 fun n hn => by
    obtain ⟨t, -, rfl⟩ := Multiset.mem_map.mp hn
    exact hf t
  simpa [tally] using hle

theorem le_tally {f : π → Nat} {pool : Multiset π} {t : π} (ht : t ∈ pool) :
    f t ≤ tally f pool := by
  obtain ⟨rest, rfl⟩ := Multiset.exists_cons_of_mem ht
  rw [tally_cons]
  exact Nat.le_add_right _ _

/-- What all threads together have. -/
def pooled (f : π → Multiset α) (pool : Multiset π) : Multiset α := pool.bind f

@[simp] theorem pooled_zero (f : π → Multiset α) : pooled f 0 = 0 := Multiset.zero_bind f

@[simp] theorem pooled_cons (f : π → Multiset α) (t : π) (rest : Multiset π) :
    pooled f (t ::ₘ rest) = f t + pooled f rest := Multiset.cons_bind t rest f

theorem tally_eq_zero {f : π → Nat} {pool : Multiset π} (h : ∀ t ∈ pool, f t = 0) :
    tally f pool = 0 := by
  apply Multiset.sum_eq_zero
  intro n hn
  obtain ⟨t, ht, rfl⟩ := Multiset.mem_map.mp hn
  exact h t ht

theorem pooled_eq_zero {f : π → Multiset α} {pool : Multiset π} (h : ∀ t ∈ pool, f t = 0) :
    pooled f pool = 0 := by
  rw [pooled, Multiset.bind_congr h, Multiset.bind_zero]

theorem pooled_le {f g : π → Multiset α} {pool : Multiset π} (h : ∀ t ∈ pool, f t ≤ g t) :
    pooled f pool ≤ pooled g pool := by
  induction pool using Multiset.induction with
  | empty => exact le_refl 0
  | cons t rest ih =>
    rw [pooled_cons, pooled_cons]
    apply add_le_add (h t (Multiset.mem_cons_self t rest))
    exact ih fun u hu => h u (Multiset.mem_cons_of_mem hu)

/-- A thread that took its place: what holds of all still does. -/
theorem forall_replace {P : π → Prop} {t t' : π} {rest : Multiset π}
    (h : ∀ u ∈ t ::ₘ rest, P u) (ht : P t') : ∀ u ∈ t' ::ₘ rest, P u := by
  intro u hu
  rcases Multiset.mem_cons.mp hu with rfl | hu
  · exact ht
  · exact h u (Multiset.mem_cons_of_mem hu)

end Pools

end ModelFs
