import Mathlib.Data.List.Sort

/-!
# What a stable sort makes of an unordered input

A stable sort leaves equal elements as they came. What comes out therefore depends on the order of
the input exactly as far as equal elements differ: class by class, the input and the output are the
same list.

* `filter_insertionSort` — a class of equal elements passes through a sort unchanged.
* `eq_of_classes` — a sorted list is known by its classes.
* `StrictTotal.lex` — keys of several parts.
* `flatMap_perm_iff` — lists that are put together in any order come to one list **exactly if any
  two of them do**.
-/

namespace ModelFs

namespace StableSort

variable {α β γ : Type*}

section Sorted

variable {r : α → α → Prop} [DecidableRel r]

theorem filter_insertionSort {p : α → Bool} {l : List α}
    (h : ∀ a b, p a = true → p b = true → r a b) :
    (l.insertionSort r).filter p = l.filter p := by
  have hclass : (l.filter p).Pairwise r := by
    refine List.pairwise_iff_forall_sublist.mpr fun {a b} hsub => ?_
    have ha : a ∈ l.filter p := hsub.subset (List.mem_cons_self ..)
    have hb : b ∈ l.filter p := hsub.subset (List.mem_cons_of_mem _ (List.mem_cons_self ..))
    exact h a b (List.mem_filter.mp ha).2 (List.mem_filter.mp hb).2
  have hsub : (l.filter p).Sublist ((l.insertionSort r).filter p) := by
    have hall := (List.sublist_insertionSort hclass List.filter_sublist).filter p
    have htwice : (l.filter p).filter p = l.filter p := by simp
    rwa [htwice] at hall
  have hlen : ((l.insertionSort r).filter p).length = (l.filter p).length :=
    ((List.perm_insertionSort r l).filter p).length_eq
  exact (hsub.eq_of_length hlen.symm).symm

/-- What is neither in front of `k` nor behind it. -/
def cls (r : α → α → Prop) [DecidableRel r] (k a : α) : Bool :=
  decide (r a k) && decide (r k a)

theorem cls_self (hrefl : ∀ a, r a a) (k : α) : cls r k k = true := by
  simp [cls, hrefl k]

theorem eq_of_classes {l l' : List α} (hrefl : ∀ a, r a a) (hl : l.Pairwise r) (hl' : l'.Pairwise r)
    (h : ∀ k, l.filter (cls r k) = l'.filter (cls r k)) : l = l' := by
  induction l generalizing l' with
  | nil =>
    cases l' with
    | nil => rfl
    | cons b l' =>
      have hb := h b
      rw [List.filter_nil, List.filter_cons_of_pos (cls_self hrefl b)] at hb
      cases hb
  | cons a l ih =>
    cases l' with
    | nil =>
      have ha := h a
      rw [List.filter_nil, List.filter_cons_of_pos (cls_self hrefl a)] at ha
      cases ha
    | cons b l' =>
      -- the heads are in one class, so they head it on either side
      have hmem : a ∈ b :: l' := by
        have ha : a ∈ (b :: l').filter (cls r a) := by
          rw [← h a, List.filter_cons_of_pos (cls_self hrefl a)]
          exact List.mem_cons_self ..
        exact (List.mem_filter.mp ha).1
      have hmem' : b ∈ a :: l := by
        have hb : b ∈ (a :: l).filter (cls r b) := by
          rw [h b, List.filter_cons_of_pos (cls_self hrefl b)]
          exact List.mem_cons_self ..
        exact (List.mem_filter.mp hb).1
      have hba : r b a := by
        rcases List.mem_cons.mp hmem with rfl | hmem
        · exact hrefl a
        · exact (List.pairwise_cons.mp hl').1 a hmem
      have hab : r a b := by
        rcases List.mem_cons.mp hmem' with rfl | hmem'
        · exact hrefl b
        · exact (List.pairwise_cons.mp hl).1 b hmem'
      have hcls : cls r a b = true := by simp [cls, hab, hba]
      have hhead := h a
      rw [List.filter_cons_of_pos (cls_self hrefl a), List.filter_cons_of_pos hcls] at hhead
      obtain rfl := (List.cons.inj hhead).1
      refine congrArg (a :: ·) (ih (List.pairwise_cons.mp hl).2 (List.pairwise_cons.mp hl').2 ?_)
      intro k
      have hk := h k
      by_cases hak : cls r k a = true
      · rw [List.filter_cons_of_pos hak, List.filter_cons_of_pos hak] at hk
        exact (List.cons.inj hk).2
      · rwa [List.filter_cons_of_neg hak, List.filter_cons_of_neg hak] at hk

end Sorted

/-! ## Keys compared part by part -/

/-- A strict order in which any two elements compare. -/
structure StrictTotal (lt : α → α → Prop) : Prop where
  irrefl : ∀ a, ¬ lt a a
  trans : ∀ {a b c}, lt a b → lt b c → lt a c
  eq_of_not : ∀ {a b}, ¬ lt a b → ¬ lt b a → a = b

namespace StrictTotal

variable {lt : α → α → Prop} {lt' : β → β → Prop}

theorem asymm (h : StrictTotal lt) {a b : α} (hab : lt a b) : ¬ lt b a := fun hba =>
  h.irrefl a (h.trans hab hba)

/-- Not to be behind is total, and transitive. -/
theorem not_lt_trans (h : StrictTotal lt) {a b c : α} (hab : ¬ lt b a) (hbc : ¬ lt c b) :
    ¬ lt c a := by
  intro hca
  by_cases hlt : lt a b
  · exact hbc (h.trans hca hlt)
  · obtain rfl := h.eq_of_not hlt hab
    exact hbc hca

/-- A linear order, and the same order backwards. -/
theorem of_lt [LinearOrder α] : StrictTotal fun a b : α => a < b where
  irrefl := lt_irrefl
  trans := lt_trans
  eq_of_not := fun hab hba => le_antisymm (not_lt.mp hba) (not_lt.mp hab)

theorem of_gt [LinearOrder α] : StrictTotal fun a b : α => b < a where
  irrefl := lt_irrefl
  trans := fun hab hbc => lt_trans hbc hab
  eq_of_not := fun hab hba => le_antisymm (not_lt.mp hab) (not_lt.mp hba)

/-- The second part decides where the first one does not. -/
theorem lex (h : StrictTotal lt) (h' : StrictTotal lt') :
    StrictTotal fun a b : α × β => lt a.1 b.1 ∨ a.1 = b.1 ∧ lt' a.2 b.2 where
  irrefl := by
    rintro a (hlt | ⟨-, hlt⟩)
    · exact h.irrefl _ hlt
    · exact h'.irrefl _ hlt
  trans := by
    rintro a b c (hab | ⟨hab, hab'⟩) (hbc | ⟨hbc, hbc'⟩)
    · exact Or.inl (h.trans hab hbc)
    · exact Or.inl (hbc ▸ hab)
    · exact Or.inl (hab ▸ hbc)
    · exact Or.inr ⟨hab.trans hbc, h'.trans hab' hbc'⟩
  eq_of_not := by
    intro a b hab hba
    have hfst : a.1 = b.1 := h.eq_of_not (fun hlt => hab (Or.inl hlt)) fun hlt => hba (Or.inl hlt)
    have hsnd : a.2 = b.2 := h'.eq_of_not (fun hlt => hab (Or.inr ⟨hfst, hlt⟩))
      fun hlt => hba (Or.inr ⟨hfst.symm, hlt⟩)
    exact Prod.ext hfst hsnd

/-- A sort that puts nothing behind what is greater. -/
theorem pairwise_insertionSort [DecidableRel lt] (h : StrictTotal lt) (l : List α) :
    (l.insertionSort fun a b => ¬ lt b a).Pairwise fun a b => ¬ lt b a := by
  have htotal : Std.Total fun a b => ¬ lt b a := by
    refine ⟨fun a b => ?_⟩
    by_cases hba : lt b a
    · exact Or.inr (h.asymm hba)
    · exact Or.inl hba
  have htrans : IsTrans α fun a b => ¬ lt b a := ⟨fun _ _ _ hab hbc => h.not_lt_trans hab hbc⟩
  exact List.pairwise_insertionSort _ l

/-- **Where no two elements are equal to the sort**, it gives one list for an input in any order. -/
theorem insertionSort_of_perm [DecidableRel lt] (h : StrictTotal lt) {l l' : List α}
    (hperm : l'.Perm l) :
    (l'.insertionSort fun a b => ¬ lt b a) = l.insertionSort fun a b => ¬ lt b a := by
  refine List.Perm.eq_of_pairwise (fun a b _ _ hab hba => h.eq_of_not hba hab)
    (h.pairwise_insertionSort l') (h.pairwise_insertionSort l) ?_
  exact (List.perm_insertionSort _ l').trans (hperm.trans (List.perm_insertionSort _ l).symm)

end StrictTotal

/-! ## Lists put together in any order -/

theorem flatMap_of_perm {f : α → List β} {l l' : List α} (h : l'.Perm l)
    (hcomm : l.Pairwise fun a b => f a ++ f b = f b ++ f a) : l'.flatMap f = l.flatMap f := by
  have hsymm : ∀ {a b}, f a ++ f b = f b ++ f a → f b ++ f a = f a ++ f b := fun h => h.symm
  induction h with
  | nil => rfl
  | cons a _ ih =>
    rw [List.flatMap_cons, List.flatMap_cons, ih (List.pairwise_cons.mp hcomm).2]
  | swap a b l =>
    have hab := (List.pairwise_cons.mp hcomm).1 b (List.mem_cons_self ..)
    simp only [List.flatMap_cons]
    rw [← List.append_assoc, ← List.append_assoc, hab]
  | trans _ h ih ih' => exact (ih ((h.pairwise_iff hsymm).mpr hcomm)).trans (ih' hcomm)

/-- **Any order, or any two**: each member of a family `f k` of lists is put together. -/
theorem flatMap_perm_iff {f : γ → α → List β} {l : List α} :
    (∀ l' : List α, l'.Perm l → ∀ k, l'.flatMap (f k) = l.flatMap (f k)) ↔
      l.Pairwise fun a b => ∀ k, f k a ++ f k b = f k b ++ f k a := by
  constructor
  · intro h
    refine List.pairwise_iff_forall_sublist.mpr fun {a b} hsub k => ?_
    obtain ⟨rest, hperm⟩ := hsub.exists_perm_append
    have hab := h (a :: b :: rest) hperm.symm k
    have hba := h (b :: a :: rest) ((List.Perm.swap a b rest).trans hperm.symm) k
    have heq := hab.trans hba.symm
    simp only [List.flatMap_cons] at heq
    rw [← List.append_assoc, ← List.append_assoc] at heq
    exact List.append_cancel_right heq
  · intro hcomm l' hperm k
    exact flatMap_of_perm hperm (hcomm.imp fun h => h k)

end StableSort

end ModelFs
