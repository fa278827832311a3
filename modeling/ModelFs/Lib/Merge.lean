import Mathlib.Data.Finset.Card
import Mathlib.Data.List.TakeWhile
import Mathlib.Order.Defs.LinearOrder

/-!
# Merges of two sorted lists

Two lists that are sorted by a key are walked at once, the one with the lesser key in front going
on. What has a key in both is met exactly once: element by element where no key repeats, and run by
run where keys do.

* `mem_pairs` — **every two elements of one key are a pair**, where no key repeats.
* `mem_commonRuns`, `nodup_commonRuns` — **every common key has one run**, all the elements of that
  key on either side.
* `countP_commonRuns` — runs counted are common keys counted.
-/

namespace ModelFs

namespace Merge

variable {α β κ : Type*} [LinearOrder κ]

section Pairs

variable (ka : α → κ) (kb : β → κ)

/-- The elements that meet. -/
def pairs : List α → List β → List (α × β)
  | a :: l, b :: r =>
    if ka a = kb b then (a, b) :: pairs l r
    else if ka a < kb b then pairs l (b :: r)
    else pairs (a :: l) r
  | [], _ => []
  | _ :: _, [] => []
termination_by l r => l.length + r.length

/-- The keys that meet, with the elements of each on either side. -/
def commonRuns : List α → List β → List (κ × List α × List β)
  | a :: l, b :: r =>
    if ka a < kb b then commonRuns l (b :: r)
    else if kb b < ka a then commonRuns (a :: l) r
    else
      (ka a, a :: l.takeWhile fun x => ka x = ka a, b :: r.takeWhile fun y => kb y = ka a) ::
        commonRuns (l.dropWhile fun x => ka x = ka a) (r.dropWhile fun y => kb y = ka a)
  | [], _ => []
  | _ :: _, [] => []
termination_by l r => l.length + r.length
decreasing_by
  · simp only [List.length_cons]
    omega
  · simp only [List.length_cons]
    omega
  · have hl := (List.dropWhile_sublist (fun x => decide (ka x = ka a)) (l := l)).length_le
    have hr := (List.dropWhile_sublist (fun y => decide (kb y = ka a)) (l := r)).length_le
    simp only [List.length_cons]
    omega

end Pairs

variable {ka : α → κ} {kb : β → κ}

/-! ## Element by element -/

/-- **Every two elements of one key are a pair.** -/
theorem mem_pairs {l : List α} {r : List β} (hl : l.Pairwise fun a a' => ka a < ka a')
    (hr : r.Pairwise fun b b' => kb b < kb b') {x : α} {y : β} :
    (x, y) ∈ pairs ka kb l r ↔ x ∈ l ∧ y ∈ r ∧ ka x = kb y := by
  induction l, r using pairs.induct ka kb with
  | case1 a l b r heq ih =>
    obtain ⟨hla, hl⟩ := List.pairwise_cons.mp hl
    obtain ⟨hrb, hr⟩ := List.pairwise_cons.mp hr
    rw [pairs, if_pos heq, List.mem_cons, ih hl hr, Prod.mk.injEq, List.mem_cons, List.mem_cons]
    constructor
    · rintro (⟨rfl, rfl⟩ | ⟨hx, hy, hxy⟩)
      · exact ⟨Or.inl rfl, Or.inl rfl, heq⟩
      · exact ⟨Or.inr hx, Or.inr hy, hxy⟩
    · rintro ⟨rfl | hx, rfl | hy, hxy⟩
      · exact Or.inl ⟨rfl, rfl⟩
      · exact absurd (heq.symm.trans hxy) (hrb y hy).ne
      · exact absurd (heq.trans hxy.symm) (hla x hx).ne
      · exact Or.inr ⟨hx, hy, hxy⟩
  | case2 a l b r hne hlt ih =>
    obtain ⟨-, hl⟩ := List.pairwise_cons.mp hl
    have hrb := (List.pairwise_cons.mp hr).1
    rw [pairs, if_neg hne, if_pos hlt, ih hl hr]
    refine ⟨fun h => ⟨List.mem_cons_of_mem _ h.1, h.2⟩, ?_⟩
    rintro ⟨hx, hy, hxy⟩
    refine ⟨(List.mem_cons.mp hx).resolve_left fun hxa => ?_, hy, hxy⟩
    rw [hxa] at hxy
    rcases List.mem_cons.mp hy with rfl | hy
    · exact hne hxy
    · exact (hlt.trans (hrb y hy)).ne hxy
  | case3 a l b r hne hge ih =>
    obtain ⟨-, hr⟩ := List.pairwise_cons.mp hr
    have hla := (List.pairwise_cons.mp hl).1
    have hgt : kb b < ka a := lt_of_le_of_ne (not_lt.mp hge) (Ne.symm hne)
    rw [pairs, if_neg hne, if_neg hge, ih hl hr]
    refine ⟨fun h => ⟨h.1, List.mem_cons_of_mem _ h.2.1, h.2.2⟩, ?_⟩
    rintro ⟨hx, hy, hxy⟩
    refine ⟨hx, (List.mem_cons.mp hy).resolve_left fun hyb => ?_, hxy⟩
    rw [hyb] at hxy
    rcases List.mem_cons.mp hx with rfl | hx
    · exact hne hxy
    · exact (hgt.trans (hla x hx)).ne' hxy
  | case4 r => simp [pairs]
  | case5 a l => simp [pairs]

/-- The left elements of the pairs are in order. -/
theorem pairs_sublist (l : List α) (r : List β) : ((pairs ka kb l r).map Prod.fst).Sublist l := by
  induction l, r using pairs.induct ka kb with
  | case1 a l b r heq ih =>
    rw [pairs, if_pos heq, List.map_cons]
    exact ih.cons_cons a
  | case2 a l b r hne hlt ih =>
    rw [pairs, if_neg hne, if_pos hlt]
    exact ih.cons a
  | case3 a l b r hne hge ih =>
    rw [pairs, if_neg hne, if_neg hge]
    exact ih
  | case4 r => simp [pairs]
  | case5 a l => simp [pairs]

/-! ## Run by run -/

/-- In a sorted list the elements of the first key are in front. -/
theorem takeWhile_eq_filter {a : α} {l : List α} (h : (a :: l).Pairwise fun x y => ka x ≤ ka y) :
    l.takeWhile (fun x => ka x = ka a) = l.filter (fun x => ka x = ka a) ∧
      l.dropWhile (fun x => ka x = ka a) = l.filter (fun x => ka a < ka x) := by
  induction l with
  | nil => exact ⟨rfl, rfl⟩
  | cons b l ih =>
    obtain ⟨ha, hb⟩ := List.pairwise_cons.mp h
    obtain ⟨hbl, hl⟩ := List.pairwise_cons.mp hb
    by_cases hkey : ka b = ka a
    · have hrest := ih (List.pairwise_cons.mpr ⟨fun x hx => ha x (List.mem_cons_of_mem _ hx), hl⟩)
      simp [hkey, hrest]
    · have hlt : ka a < ka b := lt_of_le_of_ne (ha b List.mem_cons_self) (Ne.symm hkey)
      have hall : ∀ x ∈ l, ka a < ka x := fun x hx => hlt.trans_le (hbl x hx)
      constructor
      · rw [List.takeWhile_cons_of_neg (by simpa using hkey),
          List.filter_cons_of_neg (by simpa using hkey)]
        refine (List.filter_eq_nil_iff.mpr fun x hx => ?_).symm
        simpa using (hall x hx).ne'
      · rw [List.dropWhile_cons_of_neg (by simpa using hkey),
          List.filter_cons_of_pos (by simpa using hlt)]
        refine congrArg (b :: ·) (List.filter_eq_self.mpr fun x hx => ?_).symm
        simpa using hall x hx

/-- What is behind the front key is left as it was by a filter for a later key. -/
theorem filter_rest {a : α} {l : List α} {k : κ} (hk : ka a < k) :
    (l.filter fun x => ka a < ka x).filter (fun x => ka x = k) =
      (a :: l).filter fun x => ka x = k := by
  rw [List.filter_cons_of_neg (by simpa using hk.ne), List.filter_filter]
  refine List.filter_congr fun x _ => ?_
  by_cases hx : ka x = k
  · simp [hx, hk]
  · simp [hx]

theorem mem_map_rest {a : α} {l : List α} (h : (a :: l).Pairwise fun x y => ka x ≤ ka y) {k : κ} :
    k ∈ (l.filter fun x => ka a < ka x).map ka ↔ k ∈ (a :: l).map ka ∧ k ≠ ka a := by
  have ha := (List.pairwise_cons.mp h).1
  simp only [List.mem_map, List.mem_filter, decide_eq_true_eq, List.mem_cons]
  constructor
  · rintro ⟨x, ⟨hx, hlt⟩, rfl⟩
    exact ⟨⟨x, Or.inr hx, rfl⟩, hlt.ne'⟩
  · rintro ⟨⟨x, rfl | hx, rfl⟩, hne⟩
    · exact absurd rfl hne
    · exact ⟨x, ⟨hx, lt_of_le_of_ne (ha x hx) (Ne.symm hne)⟩, rfl⟩

/-- **Every common key has one run**, all the elements of that key on either side. -/
theorem mem_commonRuns {l : List α} {r : List β} (hl : l.Pairwise fun x y => ka x ≤ ka y)
    (hr : r.Pairwise fun x y => kb x ≤ kb y) {k : κ} {xs : List α} {ys : List β} :
    (k, xs, ys) ∈ commonRuns ka kb l r ↔ k ∈ l.map ka ∧ k ∈ r.map kb ∧
      xs = l.filter (fun x => ka x = k) ∧ ys = r.filter fun y => kb y = k := by
  induction l, r using commonRuns.induct ka kb with
  | case1 a l b r hlt ih =>
    have hrb := (List.pairwise_cons.mp hr).1
    have hne : ∀ k ∈ (b :: r).map kb, ka a ≠ k := by
      intro k hk
      obtain ⟨y, hy, rfl⟩ := List.mem_map.mp hk
      rcases List.mem_cons.mp hy with rfl | hy
      · exact hlt.ne
      · exact (hlt.trans_le (hrb y hy)).ne
    rw [commonRuns, if_pos hlt, ih (List.pairwise_cons.mp hl).2 hr]
    refine ⟨fun h => ?_, fun h => ?_⟩
    · have hka := hne k h.2.1
      rw [List.filter_cons_of_neg (by simpa using hka)]
      exact ⟨List.mem_cons_of_mem _ h.1, h.2⟩
    · have hka := hne k h.2.1
      rw [List.filter_cons_of_neg (by simpa using hka)] at h
      exact ⟨(List.mem_cons.mp h.1).resolve_left (Ne.symm hka), h.2⟩
  | case2 a l b r hge hlt ih =>
    have hla := (List.pairwise_cons.mp hl).1
    have hne : ∀ k ∈ (a :: l).map ka, kb b ≠ k := by
      intro k hk
      obtain ⟨x, hx, rfl⟩ := List.mem_map.mp hk
      rcases List.mem_cons.mp hx with rfl | hx
      · exact hlt.ne
      · exact (hlt.trans_le (hla x hx)).ne
    rw [commonRuns, if_neg hge, if_pos hlt, ih hl (List.pairwise_cons.mp hr).2]
    refine ⟨fun h => ?_, fun h => ?_⟩
    · have hkb := hne k h.1
      rw [@List.filter_cons_of_neg _ _ b _ (by simpa using hkb)]
      exact ⟨h.1, List.mem_cons_of_mem _ h.2.1, h.2.2⟩
    · have hkb := hne k h.1
      rw [@List.filter_cons_of_neg _ _ b _ (by simpa using hkb)] at h
      exact ⟨h.1, (List.mem_cons.mp h.2.1).resolve_left (Ne.symm hkb), h.2.2⟩
  | case3 a l b r hge hge' ih =>
    have heq : kb b = ka a := le_antisymm (not_lt.mp hge) (not_lt.mp hge')
    obtain ⟨htakel, hdropl⟩ := takeWhile_eq_filter hl
    obtain ⟨htaker, hdropr⟩ := takeWhile_eq_filter hr
    rw [heq] at htaker hdropr
    rw [hdropl, hdropr] at ih
    have hrest := ih ((List.pairwise_cons.mp hl).2.sublist List.filter_sublist)
      ((List.pairwise_cons.mp hr).2.sublist List.filter_sublist)
    have hmapr := @mem_map_rest β κ _ kb b r hr k
    rw [heq] at hmapr
    rw [commonRuns, if_neg hge, if_neg hge', htakel, htaker, hdropl, hdropr, List.mem_cons, hrest,
      mem_map_rest hl, hmapr]
    have hfront : a :: l.filter (fun x => ka x = ka a) = (a :: l).filter fun x => ka x = ka a := by
      rw [List.filter_cons_of_pos (by simp)]
    have hfront' : b :: r.filter (fun y => kb y = ka a) = (b :: r).filter fun y => kb y = ka a := by
      rw [List.filter_cons_of_pos (by simpa using heq)]
    by_cases hk : k = ka a
    · subst hk
      rw [hfront, hfront']
      have hina : ka a ∈ (a :: l).map ka := List.mem_map_of_mem List.mem_cons_self
      have hinb : ka a ∈ (b :: r).map kb := heq ▸ List.mem_map_of_mem List.mem_cons_self
      rw [Prod.mk.injEq, Prod.mk.injEq]
      constructor
      · rintro (⟨-, hxs, hys⟩ | ⟨⟨-, hne⟩, -⟩)
        · exact ⟨hina, hinb, hxs, hys⟩
        · exact absurd rfl hne
      · rintro ⟨-, -, hxs, hys⟩
        exact Or.inl ⟨rfl, hxs, hys⟩
    · have hlater : ∀ {k'}, k' ∈ (a :: l).map ka → k' ≠ ka a → ka a < k' := by
        intro k' hk' hne
        obtain ⟨x, hx, rfl⟩ := List.mem_map.mp ((mem_map_rest hl).mpr ⟨hk', hne⟩)
        exact of_decide_eq_true (List.mem_filter.mp hx).2
      have hpick : ∀ {k'}, k' ∈ (a :: l).map ka → k' ≠ ka a →
          (l.filter fun x => ka a < ka x).filter (fun x => ka x = k') =
              (a :: l).filter (fun x => ka x = k') ∧
            (r.filter fun y => ka a < kb y).filter (fun y => kb y = k') =
              (b :: r).filter fun y => kb y = k' := by
        intro k' hk' hne
        have hlt := hlater hk' hne
        have hright := @filter_rest β κ _ kb b r k' (by rwa [heq])
        rw [heq] at hright
        exact ⟨filter_rest hlt, hright⟩
      constructor
      · rintro (hhead | ⟨⟨hka, -⟩, ⟨hkb, -⟩, hxs, hys⟩)
        · exact absurd (Prod.mk.inj hhead).1 hk
        · obtain ⟨hleft, hright⟩ := hpick hka hk
          exact ⟨hka, hkb, hxs.trans hleft, hys.trans hright⟩
      · rintro ⟨hka, hkb, hxs, hys⟩
        obtain ⟨hleft, hright⟩ := hpick hka hk
        exact Or.inr ⟨⟨hka, hk⟩, ⟨hkb, hk⟩, hxs.trans hleft.symm, hys.trans hright.symm⟩
  | case4 r => simp [commonRuns]
  | case5 a l => simp [commonRuns]

/-- **The keys of the runs ascend.** -/
theorem pairwise_commonRuns {l : List α} {r : List β} (hl : l.Pairwise fun x y => ka x ≤ ka y)
    (hr : r.Pairwise fun x y => kb x ≤ kb y) :
    (commonRuns ka kb l r).Pairwise fun run run' => run.1 < run'.1 := by
  induction l, r using commonRuns.induct ka kb with
  | case1 a l b r hlt ih =>
    rw [commonRuns, if_pos hlt]
    exact ih (List.pairwise_cons.mp hl).2 hr
  | case2 a l b r hge hlt ih =>
    rw [commonRuns, if_neg hge, if_pos hlt]
    exact ih hl (List.pairwise_cons.mp hr).2
  | case3 a l b r hge hge' ih =>
    have hsortl := (List.pairwise_cons.mp hl).2.sublist
      (List.dropWhile_sublist fun x => decide (ka x = ka a))
    have hsortr := (List.pairwise_cons.mp hr).2.sublist
      (List.dropWhile_sublist fun y => decide (kb y = ka a))
    rw [commonRuns, if_neg hge, if_neg hge']
    refine List.pairwise_cons.mpr ⟨fun run hrun => ?_, ih hsortl hsortr⟩
    obtain ⟨k, xs, ys⟩ := run
    obtain ⟨hk, -⟩ := (mem_commonRuns hsortl hsortr).mp hrun
    obtain ⟨x, hx, rfl⟩ := List.mem_map.mp hk
    rw [(takeWhile_eq_filter hl).2] at hx
    exact of_decide_eq_true (List.mem_filter.mp hx).2
  | case4 r => simp [commonRuns]
  | case5 a l => simp [commonRuns]

/-- **Runs counted are common keys counted**, where what is counted goes by the key. -/
theorem countP_commonRuns {l : List α} {r : List β} (hl : l.Pairwise fun x y => ka x ≤ ka y)
    (hr : r.Pairwise fun x y => kb x ≤ kb y) {p : κ × List α × List β → Bool} {q : κ → Prop}
    [DecidablePred q] (h : ∀ run ∈ commonRuns ka kb l r, p run = true ↔ q run.1) :
    (commonRuns ka kb l r).countP p =
      (((l.map ka).toFinset ∩ (r.map kb).toFinset).filter q).card := by
  have hnodup : ((commonRuns ka kb l r).map Prod.fst).Nodup :=
    (List.pairwise_map.mpr (pairwise_commonRuns hl hr)).imp fun hlt => hlt.ne
  have hkeys : ((l.map ka).toFinset ∩ (r.map kb).toFinset).filter q =
      (((commonRuns ka kb l r).map Prod.fst).filter q).toFinset := by
    ext k
    rw [Finset.mem_filter, Finset.mem_inter, List.mem_toFinset, List.mem_toFinset,
      List.mem_toFinset, List.mem_filter, decide_eq_true_eq]
    refine and_congr_left fun _ => ⟨fun hk => ?_, fun hk => ?_⟩
    · exact List.mem_map.mpr ⟨_, (mem_commonRuns hl hr).mpr ⟨hk.1, hk.2, rfl, rfl⟩, rfl⟩
    · obtain ⟨⟨k', xs, ys⟩, hrun, rfl⟩ := List.mem_map.mp hk
      obtain ⟨hka, hkb, -⟩ := (mem_commonRuns hl hr).mp hrun
      exact ⟨hka, hkb⟩
  rw [hkeys, List.toFinset_card_of_nodup (hnodup.filter _), ← List.countP_eq_length_filter,
    List.countP_map]
  refine List.countP_congr fun run hrun => ?_
  simpa using h run hrun

end Merge

end ModelFs
