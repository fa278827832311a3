import Mathlib.Data.List.Induction
import ModelFs.Lib.StableSort

/-!
# The best of a list, and the `k` best

A scan over a list keeps the best element so far and its place; a bounded sample keeps the `k` best
so far, sorted. Both are given by a strict order on keys in which any two keys compare, so what is
kept depends on what the list holds and not on how it is ordered.

* `scanBest_spec` — a scan ends at the first of the best.
* `sampleOf_lowest`, `Lowest.unique` — a bounded sample is the `k` lowest, in whatever order the
  elements came.
-/

namespace ModelFs

namespace Select

open StableSort (StrictTotal)

variable {α κ : Type*}

/-! ## One -/

/-- One element, at place `i`, against the best so far. -/
def scanStep (eligible : α → Bool) (better : α → α → Bool) (i : Nat) (a : α) :
    Option (Nat × α) → Option (Nat × α)
  | none => if eligible a then some (i, a) else none
  | some (j, b) => if eligible a && better a b then some (i, a) else some (j, b)

/-- The scan, from place `i` on. -/
def scanBest (eligible : α → Bool) (better : α → α → Bool) :
    List α → Nat → Option (Nat × α) → Option (Nat × α)
  | [], _, best => best
  | a :: rest, i, best =>
    scanBest eligible better rest (i + 1) (scanStep eligible better i a best)

section Scan

variable {lt : κ → κ → Prop} {key : α → κ} {eligible : α → Bool} {better : α → α → Bool}

/-- `b`, at place `j`, is the first of the best in a list. -/
structure FirstBest (eligible : α → Bool) (better : α → α → Bool) (l : List α) (j : Nat) (b : α) :
    Prop where
  at_place : l[j]? = some b
  holds : eligible b = true
  best : ∀ a ∈ l, eligible a = true → better a b = false
  first : ∀ i a, i < j → l[i]? = some a → eligible a = true → better b a = true

theorem FirstBest.lt_length {l : List α} {j : Nat} {b : α}
    (h : FirstBest eligible better l j b) : j < l.length :=
  (List.getElem?_eq_some_iff.mp h.at_place).1

/-- One more element, passed over. -/
theorem FirstBest.skip {l : List α} {j : Nat} {a b : α} (h : FirstBest eligible better l j b)
    (ha : eligible a = true → better a b = false) :
    FirstBest eligible better (l ++ [a]) j b where
  at_place := by rw [List.getElem?_append_left h.lt_length, h.at_place]
  holds := h.holds
  best := by
    intro c hc hce
    rcases List.mem_append.mp hc with hc | hc
    · exact h.best c hc hce
    · rw [List.mem_singleton.mp hc] at hce ⊢
      exact ha hce
  first := by
    intro i c hi hc hce
    rw [List.getElem?_append_left (hi.trans h.lt_length)] at hc
    exact h.first i c hi hc hce

/-- One more element, which is better. -/
theorem FirstBest.take (hlt : StrictTotal lt) (hkey : ∀ a b, better a b = true ↔ lt (key a) (key b))
    {l : List α} {j : Nat} {a b : α} (h : FirstBest eligible better l j b)
    (ha : eligible a = true) (hbetter : better a b = true) :
    FirstBest eligible better (l ++ [a]) l.length a where
  at_place := by simp
  holds := ha
  best := by
    intro c hc hce
    rw [Bool.eq_false_iff, Ne, hkey]
    rcases List.mem_append.mp hc with hc | hc
    · have hcb := h.best c hc hce
      rw [Bool.eq_false_iff, Ne, hkey] at hcb
      exact fun hca => hcb (hlt.trans hca ((hkey a b).mp hbetter))
    · rw [List.mem_singleton.mp hc]
      exact hlt.irrefl _
  first := by
    intro i c hi hc hce
    rw [List.getElem?_append_left hi] at hc
    have hcb := h.best c (List.mem_of_getElem? hc) hce
    rw [Bool.eq_false_iff, Ne, hkey] at hcb
    rw [hkey]
    by_contra hac
    exact hlt.not_lt_trans hcb hac ((hkey a b).mp hbetter)

/-- What a scan has after a list. -/
def Holds (eligible : α → Bool) (better : α → α → Bool) (l : List α) : Option (Nat × α) → Prop
  | none => ∀ a ∈ l, eligible a = false
  | some (j, b) => FirstBest eligible better l j b

theorem scanStep_holds (hlt : StrictTotal lt)
    (hkey : ∀ a b, better a b = true ↔ lt (key a) (key b)) {seen : List α} (a : α)
    {best : Option (Nat × α)} (h : Holds eligible better seen best) :
    Holds eligible better (seen ++ [a]) (scanStep eligible better seen.length a best) := by
  cases best with
  | none =>
    rw [scanStep]
    split
    · next ha =>
      refine ⟨by simp, ha, ?_, ?_⟩
      · intro c hc hce
        rcases List.mem_append.mp hc with hc | hc
        · rw [h c hc] at hce
          cases hce
        · rw [List.mem_singleton.mp hc, Bool.eq_false_iff, Ne, hkey]
          exact hlt.irrefl _
      · intro i c hi hc hce
        rw [List.getElem?_append_left hi] at hc
        rw [h c (List.mem_of_getElem? hc)] at hce
        cases hce
    · next ha =>
      intro c hc
      rcases List.mem_append.mp hc with hc | hc
      · exact h c hc
      · rw [List.mem_singleton.mp hc]
        exact Bool.eq_false_iff.mpr ha
  | some jb =>
    rw [scanStep]
    split
    · next hboth =>
      rw [Bool.and_eq_true] at hboth
      exact FirstBest.take hlt hkey h hboth.1 hboth.2
    · next hno =>
      refine FirstBest.skip h fun ha => ?_
      rw [ha, Bool.true_and] at hno
      exact Bool.eq_false_iff.mpr hno

theorem scanBest_holds (hlt : StrictTotal lt)
    (hkey : ∀ a b, better a b = true ↔ lt (key a) (key b)) {seen rest : List α}
    {best : Option (Nat × α)} (h : Holds eligible better seen best) :
    Holds eligible better (seen ++ rest) (scanBest eligible better rest seen.length best) := by
  induction rest generalizing seen best with
  | nil => rwa [List.append_nil]
  | cons a rest ih =>
    have hnext := ih (scanStep_holds hlt hkey a h)
    rwa [List.append_assoc, List.singleton_append, List.length_append,
      List.length_singleton] at hnext

/-- **A scan ends at the first of the best**, and at nothing exactly when nothing is eligible. -/
theorem scanBest_spec (hlt : StrictTotal lt)
    (hkey : ∀ a b, better a b = true ↔ lt (key a) (key b)) (l : List α) :
    Holds eligible better l (scanBest eligible better l 0 none) := by
  have hstart : Holds eligible better ([] : List α) none := by
    intro a ha
    cases ha
  exact scanBest_holds hlt hkey hstart

end Scan

/-! ## Several -/

section Sample

variable (less : α → α → Bool)

/-- On a list read backwards: `x` goes past every element it is less than. -/
def settle (x : α) : List α → List α
  | [] => [x]
  | y :: rest => if less x y then y :: settle x rest else x :: y :: rest

/-- `x` put behind a list and swapped forwards while it is less than the one in front of it. -/
def insertLast (l : List α) (x : α) : List α := (settle less x l.reverse).reverse

/-- What became of an element that was shown to a sample. -/
inductive Considered (α : Type*) where
  | added
  | replaced (out : α)
  | refused
  deriving DecidableEq

/-- A sample of at most `cap`, least first: while there is room an element is put in, afterwards
only one that is less than the last, which it replaces. -/
def consider (cap : Nat) (l : List α) (x : α) : List α × Considered α :=
  if l.length < cap then (insertLast less l x, .added)
  else
    match l.getLast? with
    | none => (l, .refused)
    | some last =>
      if less x last then (insertLast less l.dropLast x, .replaced last) else (l, .refused)

/-- The sample after the elements of a list. -/
def sampleOf (cap : Nat) (seen : List α) : List α :=
  seen.foldl (fun l x => (consider less cap l x).1) []

/-- `l` has the `cap` lowest of `seen`, sorted. -/
structure Lowest (lt : κ → κ → Prop) (key : α → κ) (cap : Nat) (seen l : List α) : Prop where
  sorted : l.Pairwise fun a b => ¬ lt (key b) (key a)
  length : l.length = min cap seen.length
  others : ∃ out, seen.Perm (l ++ out) ∧ ∀ a ∈ l, ∀ b ∈ out, ¬ lt (key b) (key a)

variable {less} {lt : κ → κ → Prop} {key : α → κ}

theorem settle_perm (x : α) (l : List α) : (settle less x l).Perm (x :: l) := by
  induction l with
  | nil => exact List.Perm.refl _
  | cons y l ih =>
    rw [settle]
    split
    · exact (ih.cons y).trans (List.Perm.swap x y l)
    · exact List.Perm.refl _

theorem insertLast_perm (l : List α) (x : α) : (insertLast less l x).Perm (x :: l) :=
  (List.reverse_perm _).trans ((settle_perm x l.reverse).trans ((List.reverse_perm l).cons x))

theorem settle_sorted (hlt : StrictTotal lt) (hkey : ∀ a b, less a b = true ↔ lt (key a) (key b))
    {x : α} {l : List α} (h : l.Pairwise fun a b => ¬ lt (key a) (key b)) :
    (settle less x l).Pairwise fun a b => ¬ lt (key a) (key b) := by
  induction l with
  | nil => exact List.pairwise_singleton _ _
  | cons y l ih =>
    obtain ⟨hy, hl⟩ := List.pairwise_cons.mp h
    rw [settle]
    split
    · next hless =>
      refine List.pairwise_cons.mpr ⟨fun z hz => ?_, ih hl⟩
      rcases List.mem_cons.mp ((settle_perm x l).subset hz) with rfl | hz
      · exact hlt.asymm ((hkey _ _).mp hless)
      · exact hy z hz
    · next hno =>
      rw [hkey] at hno
      refine List.pairwise_cons.mpr ⟨fun z hz => ?_, h⟩
      rcases List.mem_cons.mp hz with rfl | hz
      · exact hno
      · exact hlt.not_lt_trans (hy z hz) hno

theorem insertLast_sorted (hlt : StrictTotal lt)
    (hkey : ∀ a b, less a b = true ↔ lt (key a) (key b)) {l : List α} {x : α}
    (h : l.Pairwise fun a b => ¬ lt (key b) (key a)) :
    (insertLast less l x).Pairwise fun a b => ¬ lt (key b) (key a) :=
  List.pairwise_reverse.mpr (settle_sorted hlt hkey (List.pairwise_reverse.mpr h))

/-- What became of an element, in what the sample holds. -/
theorem consider_cases (cap : Nat) (l : List α) (x : α) :
    (l.length < cap ∧ consider less cap l x = (insertLast less l x, .added)) ∨
    (cap ≤ l.length ∧ consider less cap l x = (l, .refused) ∧
      ∀ last, l.getLast? = some last → less x last = false) ∨
    ∃ init last, cap ≤ l.length ∧ l = init ++ [last] ∧ less x last = true ∧
      consider less cap l x = (insertLast less init x, .replaced last) := by
  unfold consider
  by_cases hroom : l.length < cap
  · exact Or.inl ⟨hroom, if_pos hroom⟩
  · have hfull : cap ≤ l.length := Nat.not_lt.mp hroom
    rw [if_neg hroom]
    rcases List.eq_nil_or_concat l with rfl | ⟨init, last, rfl⟩
    · exact Or.inr (Or.inl ⟨hfull, rfl, fun last h => nomatch h⟩)
    · rw [List.concat_eq_append] at hfull ⊢
      rw [List.getLast?_concat, List.dropLast_concat]
      dsimp only
      cases hless : less x last with
      | true => exact Or.inr (Or.inr ⟨init, last, hfull, rfl, hless, rfl⟩)
      | false =>
        refine Or.inr (Or.inl ⟨hfull, rfl, fun last' h => ?_⟩)
        rw [← Option.some.inj h, hless]

/-- The elements a sample has and the one it let go are those it had and the new one. -/
theorem consider_count (p : α → Bool) (cap : Nat) (l : List α) (x : α) :
    match consider less cap l x with
    | (l', .added) => l'.countP p = l.countP p + [x].countP p
    | (l', .replaced out) => l'.countP p + [out].countP p = l.countP p + [x].countP p
    | (l', .refused) => l' = l := by
  rcases @consider_cases α less cap l x with ⟨-, hnew⟩ | ⟨-, hnew, -⟩ |
    ⟨init, last, -, rfl, -, hnew⟩
  · rw [hnew]
    have hperm := (@insertLast_perm α less l x).countP_eq p
    simp only [List.countP_cons, List.countP_nil] at hperm ⊢
    omega
  · rw [hnew]
  · rw [hnew]
    have hperm := (@insertLast_perm α less init x).countP_eq p
    simp only [List.countP_append, List.countP_cons, List.countP_nil] at hperm ⊢
    omega

/-- **One more element** keeps a sample the lowest of what it was shown. -/
theorem consider_lowest (hlt : StrictTotal lt)
    (hkey : ∀ a b, less a b = true ↔ lt (key a) (key b)) {cap : Nat} {seen l : List α}
    (h : Lowest lt key cap seen l) (x : α) :
    Lowest lt key cap (seen ++ [x]) (consider less cap l x).1 := by
  obtain ⟨out, hperm, hout⟩ := h.others
  have hlen := hperm.length_eq
  rw [List.length_append] at hlen
  have hshown : (seen ++ [x]).Perm (x :: (l ++ out)) :=
    (List.perm_append_singleton x seen).trans (hperm.cons x)
  rcases @consider_cases α less cap l x with ⟨hroom, hnew⟩ | ⟨hfull, hnew, hlast⟩ |
    ⟨init, last, hfull, rfl, hless, hnew⟩
  · rw [hnew]
    have hlower := h.length
    obtain rfl : out = [] := List.length_eq_zero_iff.mp (by omega)
    have hins := @insertLast_perm α less l x
    refine ⟨insertLast_sorted hlt hkey h.sorted, ?_, [], ?_, fun a _ b hb => nomatch hb⟩
    · have hcount := hins.length_eq
      simp only [List.length_append, List.length_cons, List.length_nil] at hcount hlen ⊢
      omega
    · rw [List.append_nil] at hshown ⊢
      exact hshown.trans hins.symm
  · rw [hnew]
    have hlower := h.length
    refine ⟨h.sorted, ?_, x :: out, ?_, ?_⟩
    · simp only [List.length_append, List.length_singleton]
      omega
    · exact hshown.trans List.perm_middle.symm
    · intro a ha b hb
      rcases List.mem_cons.mp hb with rfl | hb
      · -- the last of the sample is the greatest, and `x` is not less than it
        rcases List.eq_nil_or_concat l with rfl | ⟨init, last, rfl⟩
        · cases ha
        · rw [List.concat_eq_append] at ha hlast
          have hxl := hlast last List.getLast?_concat
          rw [Bool.eq_false_iff, Ne, hkey] at hxl
          rcases List.mem_append.mp ha with hinit | hone
          · have hsorted := h.sorted
            rw [List.concat_eq_append] at hsorted
            have hal := (List.pairwise_append.mp hsorted).2.2 a hinit last (by simp)
            exact hlt.not_lt_trans hal hxl
          · rwa [List.mem_singleton.mp hone]
      · exact hout a ha b hb
  · rw [hnew]
    rw [hkey] at hless
    have hsorted := List.pairwise_append.mp h.sorted
    have hins := @insertLast_perm α less init x
    have hlower := h.length
    refine ⟨insertLast_sorted hlt hkey hsorted.1, ?_, last :: out, ?_, ?_⟩
    · have hcount := hins.length_eq
      simp only [List.length_append, List.length_cons, List.length_nil]
        at hcount hlower hfull hlen ⊢
      omega
    · refine hshown.trans ?_
      have hmoved : (init ++ [last] ++ out).Perm (init ++ (last :: out)) := by
        rw [List.append_assoc, List.singleton_append]
      exact (hmoved.cons x).trans (hins.symm.append_right (last :: out))
    · intro a ha b hb
      have hafter : ∀ c, ¬ lt (key c) (key last) → ¬ lt (key c) (key x) := fun c hc hcx =>
        hc (hlt.trans hcx hless)
      rcases List.mem_cons.mp (hins.subset ha) with rfl | hinit
      · rcases List.mem_cons.mp hb with rfl | hb
        · exact hlt.asymm hless
        · exact hafter b (hout last (by simp) b hb)
      · rcases List.mem_cons.mp hb with rfl | hb
        · exact hsorted.2.2 a hinit b (by simp)
        · exact hout a (List.mem_append_left _ hinit) b hb

/-- **A sample has the lowest of what it was shown.** -/
theorem sampleOf_lowest (hlt : StrictTotal lt)
    (hkey : ∀ a b, less a b = true ↔ lt (key a) (key b)) (cap : Nat) (seen : List α) :
    Lowest lt key cap seen (sampleOf less cap seen) := by
  induction seen using List.reverseRecOn with
  | nil =>
    exact ⟨List.Pairwise.nil, by simp [sampleOf], [], List.Perm.refl _, fun a ha => nomatch ha⟩
  | append_singleton seen x ih =>
    have hstep : sampleOf less cap (seen ++ [x]) =
        (consider less cap (sampleOf less cap seen) x).1 := by simp [sampleOf]
    rw [hstep]
    exact consider_lowest hlt hkey ih x

/-- **The lowest are one list**, when no two elements have one key: the order in which they came
does not matter. -/
theorem Lowest.unique (hlt : StrictTotal lt) (hinj : Function.Injective key) {cap : Nat}
    {seen seen' l l' : List α} (h : Lowest lt key cap seen l) (h' : Lowest lt key cap seen' l')
    (hsame : seen.Perm seen') : l = l' := by
  classical
  obtain ⟨out, hperm, hout⟩ := h.others
  obtain ⟨out', hperm', hout'⟩ := h'.others
  let le : α → α → Prop := fun a b => ¬ lt (key b) (key a)
  have htrans : ∀ a b c, le a b → le b c → le a c := fun _ _ _ hab hbc => hlt.not_lt_trans hab hbc
  have htotal : ∀ a b, le a b ∨ le b a := fun a b => by
    by_cases hba : lt (key b) (key a)
    · exact Or.inr (hlt.asymm hba)
    · exact Or.inl hba
  have hanti : ∀ a b, le a b → le b a → a = b := fun a b hab hba =>
    hinj (hlt.eq_of_not hba hab)
  -- both are the beginning of the one sorted list
  have hwhole : ∀ {l out : List α}, l.Pairwise le → (∀ a ∈ l, ∀ b ∈ out, le a b) →
      (l ++ out.mergeSort (fun a b => decide (le a b))).Pairwise le := by
    intro l out hl hlo
    refine List.pairwise_append.mpr ⟨hl, ?_, fun a ha b hb => hlo a ha b (List.mem_mergeSort.mp hb)⟩
    have hsorted := @List.pairwise_mergeSort α (fun a b => decide (le a b))
      (fun a b c hab hbc => by
        simp only [decide_eq_true_eq] at hab hbc ⊢
        exact htrans a b c hab hbc)
      (fun a b => by simpa using htotal a b) out
    exact hsorted.imp fun hab => of_decide_eq_true hab
  have hone : l ++ out.mergeSort (fun a b => decide (le a b)) =
      l' ++ out'.mergeSort (fun a b => decide (le a b)) := by
    refine List.Perm.eq_of_pairwise (fun a b _ _ hab hba => hanti a b hab hba)
      (hwhole h.sorted hout) (hwhole h'.sorted hout') ?_
    have hleft : (l ++ out.mergeSort (fun a b => decide (le a b))).Perm seen :=
      ((List.mergeSort_perm _ _).append_left l).trans hperm.symm
    have hright : seen'.Perm (l' ++ out'.mergeSort (fun a b => decide (le a b))) :=
      hperm'.trans ((List.mergeSort_perm _ _).symm.append_left l')
    exact (hleft.trans hsame).trans hright
  have hlen : l.length = l'.length := by rw [h.length, h'.length, hsame.length_eq]
  exact (List.append_inj hone hlen).1

/-- **Which elements a sample has**: those with fewer than `cap` below them. -/
theorem Lowest.mem_iff (hlt : StrictTotal lt) (hinj : Function.Injective key)
    (hkey : ∀ a b, less a b = true ↔ lt (key a) (key b)) {cap : Nat} {seen l : List α}
    (h : Lowest lt key cap seen l) (a : α) :
    a ∈ l ↔ a ∈ seen ∧ (seen.countP fun b => less b a) < cap := by
  obtain ⟨out, hperm, hout⟩ := h.others
  have hlower := h.length
  have hlen := hperm.length_eq
  rw [List.length_append] at hlen
  have hcount := hperm.countP_eq fun b => less b a
  rw [List.countP_append] at hcount
  constructor
  · intro ha
    refine ⟨hperm.symm.subset (List.mem_append_left _ ha), ?_⟩
    have hnone : (out.countP fun b => less b a) = 0 := by
      refine List.countP_eq_zero.mpr fun b hb hless => ?_
      exact hout a ha b hb ((hkey b a).mp hless)
    have hself : (l.countP fun b => less b a) < l.length := by
      refine lt_of_le_of_ne List.countP_le_length fun hall => ?_
      exact hlt.irrefl _ ((hkey a a).mp (List.countP_eq_length.mp hall a ha))
    omega
  · rintro ⟨hseen, hfew⟩
    rcases List.mem_append.mp (hperm.subset hseen) with ha | ha
    · exact ha
    · by_contra hno
      -- every element of the sample is below one that was left out
      have hall : (l.countP fun b => less b a) = l.length := by
        refine List.countP_eq_length.mpr fun b hb => ?_
        rw [hkey]
        by_contra hnlt
        exact hno (hinj (hlt.eq_of_not hnlt (hout b hb a ha)) ▸ hb)
      have hpos := List.length_pos_of_mem ha
      omega

end Sample

end Select

end ModelFs
