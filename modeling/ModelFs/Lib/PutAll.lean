import Mathlib.Data.List.Induction
import Mathlib.Data.List.Nodup
import Mathlib.Order.Basic

/-!
# Maps built entry by entry

A map filled from a list holds, for each key, the value of the last entry with that key. Key and
value of an entry are functions of it, so one list can fill a map and its reverse index.

* `find?_key_eq_some`, `putAll_eq_some` — without duplicate keys the map is the list.
* `le_of_putAll` — where values ascend along the list, a key has the largest of its values.
-/

namespace ModelFs

variable {α κ β : Type*} [DecidableEq κ] {k : α → κ} {v : α → β}

/-- Without duplicate keys a search by key is a membership. -/
theorem find?_key_eq_some {l : List α} (h : (l.map k).Nodup) {a : κ} {x : α} :
    (l.find? fun y => k y = a) = some x ↔ x ∈ l ∧ k x = a := by
  constructor
  · intro hfind
    exact ⟨List.mem_of_find?_eq_some hfind, by simpa using List.find?_some hfind⟩
  · rintro ⟨hmem, hkey⟩
    obtain ⟨y, hy⟩ : ∃ y, (l.find? fun y => k y = a) = some y :=
      Option.isSome_iff_exists.mp (List.find?_isSome.mpr ⟨x, hmem, by simpa using hkey⟩)
    have hsame : k y = a := by simpa using List.find?_some hy
    rw [hy, List.inj_on_of_nodup_map h (List.mem_of_find?_eq_some hy) hmem
      (hsame.trans hkey.symm)]

/-- Each entry in turn replaces what its key had. -/
def putAll (k : α → κ) (v : α → β) (l : List α) : κ → Option β :=
  l.foldl (fun m x => Function.update m (k x) (some (v x))) fun _ => none

theorem putAll_concat (l : List α) (x : α) :
    putAll k v (l ++ [x]) = Function.update (putAll k v l) (k x) (some (v x)) := by
  rw [putAll, List.foldl_append, List.foldl_cons, List.foldl_nil]
  rfl

/-- What a key has, an entry put there. -/
theorem mem_of_putAll {l : List α} {a : κ} {b : β} (h : putAll k v l a = some b) :
    ∃ x ∈ l, k x = a ∧ v x = b := by
  induction l using List.reverseRecOn with
  | nil => cases h
  | append_singleton l x ih =>
    rw [putAll_concat, Function.update_apply] at h
    split_ifs at h with ha
    · exact ⟨x, List.mem_append_right _ List.mem_cons_self, ha.symm, Option.some.inj h⟩
    · obtain ⟨y, hy, hrest⟩ := ih h
      exact ⟨y, List.mem_append_left _ hy, hrest⟩

/-- The key of an entry has a value. -/
theorem putAll_isSome {l : List α} {x : α} (hx : x ∈ l) : ∃ b, putAll k v l (k x) = some b := by
  induction l using List.reverseRecOn with
  | nil => cases hx
  | append_singleton l y ih =>
    rw [putAll_concat, Function.update_apply]
    split_ifs with hk
    · exact ⟨_, rfl⟩
    · rcases List.mem_append.mp hx with hx | hx
      · exact ih hx
      · exact absurd (congrArg k (List.mem_singleton.mp hx)) hk

/-- **Without duplicate keys the map is the list.** -/
theorem putAll_eq_some {l : List α} (hne : (l.map k).Nodup) {a : κ} {b : β} :
    putAll k v l a = some b ↔ ∃ x ∈ l, k x = a ∧ v x = b := by
  refine ⟨mem_of_putAll, ?_⟩
  rintro ⟨x, hx, rfl, rfl⟩
  obtain ⟨b, hb⟩ := @putAll_isSome _ _ _ _ k v _ _ hx
  obtain ⟨y, hy, hk, rfl⟩ := mem_of_putAll hb
  rw [hb, List.inj_on_of_nodup_map hne hy hx hk]

/-- **Where values ascend, a key has the largest of its values.** -/
theorem le_of_putAll [Preorder β] {l : List α} (hlt : l.Pairwise fun x y => v x < v y) {x : α}
    (hx : x ∈ l) {b : β} (h : putAll k v l (k x) = some b) : v x ≤ b := by
  induction l using List.reverseRecOn with
  | nil => cases hx
  | append_singleton l y ih =>
    obtain ⟨hl, -, hy⟩ := List.pairwise_append.mp hlt
    rw [putAll_concat, Function.update_apply] at h
    rcases List.mem_append.mp hx with hx | hx
    · split_ifs at h
      · obtain rfl := Option.some.inj h
        exact (hy x hx y List.mem_cons_self).le
      · exact ih hl hx h
    · obtain rfl := List.mem_singleton.mp hx
      rw [if_pos rfl] at h
      exact (Option.some.inj h).le

end ModelFs
