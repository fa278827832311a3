import Mathlib.Logic.Relation
import Mathlib.Algebra.BigOperators.Group.Finset.Basic
import Mathlib.Algebra.Order.BigOperators.Group.Finset

/-!
# Runs of a step relation, and threads

A system is a step relation on its states. `Run Step Cond s t` is a run from `s` to `t` whose
every step meets the condition `Cond`, a relation between the states around a step; the
condition `Always` leaves every run in. An invariant is proved once, from what one step
preserves.

For a system of threads, each at a program point `pc t`, a counter in the shared state is
usually a sum over the threads of what each contributes. `total` is that sum, `total_update`
what one thread's step does to it. A flag that a thread takes when it finds it clear is `Claimed`
by the threads that are between the two.

A `latch` is a flag driven by a list of inputs: some set it, some reset it, the others leave it.

* `Run.invariant` — a step invariant holds of every state a run reaches.
* `total_update` — moving one thread moves the sum by the difference of its contributions.
* `Claimed.take`, `Claimed.release` — a claim is one thread's at a time.
* `latch_iff` — a latch is on iff some input set it and none after it reset it.
-/

namespace ModelFs

section Runs

variable {σ : Type*} {Step Cond : σ → σ → Prop}

/-- The condition every step meets. -/
def Always : σ → σ → Prop := fun _ _ => True

/-- A run whose every step meets `Cond`. -/
def Run (Step Cond : σ → σ → Prop) : σ → σ → Prop :=
  Relation.ReflTransGen fun s s' => Step s s' ∧ Cond s s'

theorem Run.refl (s : σ) : Run Step Cond s s := Relation.ReflTransGen.refl

theorem Run.tail {s t u : σ} (h : Run Step Cond s t) (hstep : Step t u) (hcond : Cond t u) :
    Run Step Cond s u := Relation.ReflTransGen.tail h ⟨hstep, hcond⟩

/-- A step of an unconditioned run. -/
theorem Run.then {s t u : σ} (h : Run Step Always s t) (hstep : Step t u) :
    Run Step Always s u := h.tail hstep trivial

/-- **Invariants.** What every conditioned step preserves holds along every run. -/
theorem Run.invariant {Inv : σ → Prop}
    (hstep : ∀ s s', Inv s → Step s s' → Cond s s' → Inv s') {s t : σ}
    (hinit : Inv s) (h : Run Step Cond s t) : Inv t := by
  induction h with
  | refl => exact hinit
  | tail _ hlast ih => exact hstep _ _ ih hlast.1 hlast.2

/-- A weaker condition lets more runs in. -/
theorem Run.mono {Cond' : σ → σ → Prop} (hcond : ∀ s s', Cond s s' → Cond' s s') {s t : σ}
    (h : Run Step Cond s t) : Run Step Cond' s t := by
  induction h with
  | refl => exact Run.refl s
  | tail _ hlast ih => exact ih.tail hlast.1 (hcond _ _ hlast.2)

end Runs

section Threads

variable {τ π : Type*} [Fintype τ]

/-- What all threads together contribute. -/
def total (f : π → Nat) (pc : τ → π) : Nat := ∑ t, f (pc t)

theorem le_total (f : π → Nat) (pc : τ → π) (t : τ) : f (pc t) ≤ total f pc :=
  Finset.single_le_sum (f := fun u => f (pc u)) (fun _ _ => Nat.zero_le _) (Finset.mem_univ t)

/-- **One thread moves.** -/
theorem total_update [DecidableEq τ] (f : π → Nat) (pc : τ → π) (t : τ) (p : π) :
    total f (Function.update pc t p) + f (pc t) = total f pc + f p := by
  have hsame : ∀ u ∈ Finset.univ.erase t, f (Function.update pc t p u) = f (pc u) := by
    intro u hu
    rw [Function.update_of_ne (Finset.ne_of_mem_erase hu)]
  have hnew := Finset.add_sum_erase Finset.univ (fun u => f (Function.update pc t p u))
    (Finset.mem_univ t)
  have hold := Finset.add_sum_erase Finset.univ (fun u => f (pc u)) (Finset.mem_univ t)
  rw [Finset.sum_congr rfl hsame] at hnew
  simp only [Function.update_self] at hnew
  unfold total
  omega

theorem eq_zero_of_total_eq_zero {f : π → Nat} {pc : τ → π} (h : total f pc = 0) (t : τ) :
    f (pc t) = 0 := by
  have := le_total f pc t
  omega

end Threads

section Claims

variable {τ π : Type*} {holds : π → Bool} {flag : Bool} {pc : τ → π}

/-- At most one thread holds the claim, and the flag is set exactly while one does. -/
structure Claimed (holds : π → Bool) (flag : Bool) (pc : τ → π) : Prop where
  one : ∀ t u, holds (pc t) = true → holds (pc u) = true → t = u
  set : flag = true ↔ ∃ t, holds (pc t) = true

/-- Nobody holds it. -/
theorem Claimed.free (h : Claimed holds false pc) (t : τ) : holds (pc t) = false :=
  Bool.eq_false_iff.mpr fun ht => Bool.false_ne_true (h.set.mpr ⟨t, ht⟩)

theorem Claimed.of_free (h : ∀ t, holds (pc t) = false) : Claimed holds false pc where
  one t _ ht _ := absurd ht (Bool.eq_false_iff.mp (h t))
  set := iff_of_false Bool.false_ne_true fun ⟨t, ht⟩ => Bool.eq_false_iff.mp (h t) ht

variable [DecidableEq τ] {t : τ} {p : π}

/-- A thread goes on, with the claim or without. -/
theorem Claimed.move (h : Claimed holds flag pc) (hp : holds p = holds (pc t)) :
    Claimed holds flag (Function.update pc t p) := by
  have hsame : ∀ u, holds (Function.update pc t p u) = holds (pc u) := by
    intro u
    by_cases hu : u = t
    · rw [hu, Function.update_self, hp]
    · rw [Function.update_of_ne hu]
  exact ⟨fun u v hu hv => h.one u v (hsame u ▸ hu) (hsame v ▸ hv),
    h.set.trans (exists_congr fun u => by rw [hsame u])⟩

/-- **A thread that finds the flag clear takes the claim.** -/
theorem Claimed.take (h : Claimed holds false pc) (hp : holds p = true) :
    Claimed holds true (Function.update pc t p) := by
  have hown : ∀ u, holds (Function.update pc t p u) = true → u = t := by
    intro u hu
    by_contra hne
    rw [Function.update_of_ne hne, h.free u] at hu
    exact Bool.false_ne_true hu
  refine ⟨fun u v hu hv => (hown u hu).trans (hown v hv).symm, iff_of_true rfl ⟨t, ?_⟩⟩
  rw [Function.update_self, hp]

/-- **The thread that holds it gives it back.** -/
theorem Claimed.release (h : Claimed holds flag pc) (ht : holds (pc t) = true)
    (hp : holds p = false) : Claimed holds false (Function.update pc t p) := by
  refine Claimed.of_free fun u => ?_
  by_cases hu : u = t
  · rw [hu, Function.update_self, hp]
  · rw [Function.update_of_ne hu]
    exact Bool.eq_false_iff.mpr fun hheld => hu (h.one u t hheld ht)

end Claims

section Latches

variable {ι : Type*} (sets resets : ι → Prop) [DecidablePred sets] [DecidablePred resets]

/-- The flag after one more input; an input that does both sets it. -/
def latchStep (on : Bool) (x : ι) : Bool :=
  if sets x then true else if resets x then false else on

/-- The flag after a list of inputs. -/
def latch (on : Bool) (inputs : List ι) : Bool := inputs.foldl (latchStep sets resets) on

@[simp] theorem latch_nil (on : Bool) : latch sets resets on [] = on := rfl

theorem latch_concat (on : Bool) (inputs : List ι) (x : ι) :
    latch sets resets on (inputs ++ [x]) =
      latchStep sets resets (latch sets resets on inputs) x := by
  simp [latch]

/-- **What a latch remembers**: the last input that set it, unless a later one reset it. -/
theorem latch_iff (inputs : List ι) :
    latch sets resets false inputs = true ↔
      ∃ before x after, inputs = before ++ x :: after ∧ sets x ∧ ∀ y ∈ after, ¬ resets y := by
  induction inputs using List.reverseRecOn with
  | nil => simp
  | append_singleton inputs last ih =>
    rw [latch_concat]
    constructor
    · intro hon
      unfold latchStep at hon
      split at hon
      · next hset => exact ⟨inputs, last, [], rfl, hset, by simp⟩
      · split at hon
        · cases hon
        · next hkept =>
          obtain ⟨before, x, after, rfl, hset, hlater⟩ := ih.mp hon
          refine ⟨before, x, after ++ [last], by simp, hset, ?_⟩
          intro y hy
          rcases List.mem_append.mp hy with hy | hy
          · exact hlater y hy
          · rw [List.mem_singleton.mp hy]
            exact hkept
    · rintro ⟨before, x, after, hsplit, hset, hlater⟩
      unfold latchStep
      rcases List.eq_nil_or_concat after with rfl | ⟨after', z, rfl⟩
      · -- the input that set it is the last one
        obtain ⟨-, hlast⟩ := List.append_inj' hsplit rfl
        simp only [List.cons.injEq, and_true] at hlast
        rw [hlast, if_pos hset]
      · rw [List.concat_eq_append, ← List.cons_append, ← List.append_assoc] at hsplit
        obtain ⟨hinit, hlast⟩ := List.append_inj' hsplit rfl
        simp only [List.cons.injEq, and_true] at hlast
        subst hlast
        have hkept : ¬ resets last := hlater last (by simp)
        have hon := ih.mpr ⟨before, x, after', hinit, hset, fun y hy => hlater y (by simp [hy])⟩
        rw [hon, if_neg hkept]
        simp

end Latches

end ModelFs
