import Mathlib.Data.List.Basic

/-!
# Names of a tree, spelled out

A name in a tree is a list of components, and its spelling puts a separator before each. As long as
no component has the separator in it, a spelling is read back in one way only, and a name is below
another one exactly if its spelling goes on with a separator where the other's ends.

A tree maps names to what they stand for. `regraft` is what a rename does to it: whatever is at or
below the old name is at or below the new one afterwards, and what was there is gone.

* `prefix_iff_spell` — **prefixes of names are prefixes of spellings that end at a separator**.
-/

namespace ModelFs

variable {α ι : Type*}

/-- A separator before each component. -/
def spell (sep : α) (n : List (List α)) : List α := n.flatMap fun c => sep :: c

/-- No component has the separator in it. -/
def Plain (sep : α) (n : List (List α)) : Prop := ∀ c ∈ n, sep ∉ c

variable {sep : α}

@[simp] theorem spell_nil : spell sep [] = [] := rfl

@[simp] theorem spell_cons (c : List α) (n : List (List α)) :
    spell sep (c :: n) = sep :: (c ++ spell sep n) := rfl

theorem spell_append (m n : List (List α)) :
    spell sep (m ++ n) = spell sep m ++ spell sep n := List.flatMap_append

/-- Nothing, or something that begins with the separator. -/
def Broken (sep : α) (l : List α) : Prop := l = [] ∨ ∃ rest, l = sep :: rest

theorem broken_spell (n : List (List α)) : Broken sep (spell sep n) := by
  cases n with
  | nil => exact Or.inl rfl
  | cons c n => exact Or.inr ⟨_, rfl⟩

theorem broken_append {x y : List α} (hx : Broken sep x) (hy : Broken sep y) :
    Broken sep (x ++ y) := by
  rcases hx with rfl | ⟨rest, rfl⟩
  · exact hy
  · exact Or.inr ⟨rest ++ y, rfl⟩

/-- A component ends where the separator comes. -/
theorem component_unique {c d x y : List α} (hc : sep ∉ c) (hd : sep ∉ d) (hx : Broken sep x)
    (hy : Broken sep y) (h : c ++ x = d ++ y) : c = d ∧ x = y := by
  induction c generalizing d with
  | nil =>
    cases d with
    | nil => exact ⟨rfl, h⟩
    | cons b d =>
      rcases hx with rfl | ⟨rest, rfl⟩
      · cases h
      · have hhead : sep = b := (List.cons.inj h).1
        exact absurd (hhead ▸ List.mem_cons_self) hd
  | cons a c ih =>
    cases d with
    | nil =>
      rcases hy with rfl | ⟨rest, rfl⟩
      · cases h
      · have hhead : a = sep := (List.cons.inj h).1
        exact absurd (hhead ▸ List.mem_cons_self) hc
    | cons b d =>
      obtain ⟨hhead, htail⟩ := List.cons.inj h
      obtain ⟨heq, hrest⟩ := ih (fun hmem => hc (List.mem_cons_of_mem _ hmem))
        (fun hmem => hd (List.mem_cons_of_mem _ hmem)) htail
      exact ⟨by rw [hhead, heq], hrest⟩

/-- What follows a spelling in another one is the spelling of the components that follow. -/
theorem spell_append_eq {m n : List (List α)} {rest : List α} (hm : Plain sep m) (hn : Plain sep n)
    (hrest : Broken sep rest) (h : spell sep m ++ rest = spell sep n) :
    ∃ k, n = m ++ k ∧ rest = spell sep k := by
  induction m generalizing n with
  | nil => exact ⟨n, rfl, h⟩
  | cons c m ih =>
    cases n with
    | nil => cases h
    | cons d n =>
      rw [spell_cons, spell_cons, List.cons_append, List.append_assoc] at h
      have htail := (List.cons.inj h).2
      obtain ⟨heq, hsame⟩ := component_unique (hm c List.mem_cons_self) (hn d List.mem_cons_self)
        (broken_append (broken_spell m) hrest) (broken_spell n) htail
      obtain ⟨k, hk, hrest'⟩ := ih (fun c hc => hm c (List.mem_cons_of_mem _ hc))
        (fun c hc => hn c (List.mem_cons_of_mem _ hc)) hsame
      exact ⟨k, by rw [heq, hk, List.cons_append], hrest'⟩

/-- **A name is at or below another exactly if its spelling goes on at a separator.** -/
theorem prefix_iff_spell {m n : List (List α)} (hm : Plain sep m) (hn : Plain sep n) :
    m <+: n ↔ ∃ rest, Broken sep rest ∧ spell sep m ++ rest = spell sep n := by
  constructor
  · rintro ⟨k, rfl⟩
    exact ⟨spell sep k, broken_spell k, (spell_append m k).symm⟩
  · rintro ⟨rest, hrest, h⟩
    obtain ⟨k, hk, -⟩ := spell_append_eq hm hn hrest h
    exact ⟨k, hk.symm⟩

/-! ## Trees of names -/

variable [DecidableEq α]

/-- Everything at or below `old` is gone. -/
def cut (T : List (List α) → Option ι) (old : List (List α)) : List (List α) → Option ι :=
  fun n => if old <+: n then none else T n

/-- A rename of `old` to `new`. -/
def regraft (T : List (List α) → Option ι) (old new : List (List α)) :
    List (List α) → Option ι :=
  fun n => if new <+: n then T (old ++ n.drop new.length) else cut T old n

/-- `old` and `new` trade places. -/
def exchange (T : List (List α) → Option ι) (old new : List (List α)) :
    List (List α) → Option ι :=
  fun n =>
    if new <+: n then T (old ++ n.drop new.length)
    else if old <+: n then T (new ++ n.drop old.length)
    else T n

/-- What a name stands for after a rename: it is below the new name, and stood below the old one,
or neither is above it. -/
theorem regraft_eq_some {T : List (List α) → Option ι} {old new n : List (List α)} {i : ι}
    (h : regraft T old new n = some i) :
    (∃ k, n = new ++ k ∧ T (old ++ k) = some i) ∨ ¬ old <+: n ∧ T n = some i := by
  unfold regraft cut at h
  split_ifs at h with hnew hold
  · obtain ⟨k, rfl⟩ := hnew
    rw [List.drop_left] at h
    exact Or.inl ⟨k, rfl, h⟩
  · exact Or.inr ⟨hold, h⟩

theorem cut_eq_some {T : List (List α) → Option ι} {old n : List (List α)} {i : ι}
    (h : cut T old n = some i) : ¬ old <+: n ∧ T n = some i := by
  unfold cut at h
  split_ifs at h with hold
  exact ⟨hold, h⟩

end ModelFs
