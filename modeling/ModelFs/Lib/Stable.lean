import Mathlib.Data.Set.Image

/-!
# Contents a power loss can leave

A file whose writes need not have reached the disk has two sides: what a read returns now, and
the contents a power loss can leave in its place. A write that no sync follows may or may not
survive, each on its own, so it doubles the second side. A sync makes what is there now the only
content left. The content type is a parameter; two files are two values, and their losses are
independent.

A property of what is on disk is one that every content left has (`Survives`).

* `Survives.update` — a write keeps a property that it keeps of a content.
* `survives_sync` — after a sync the property is one of the current content.
-/

namespace ModelFs

/-- A file's current content and the contents a power loss can leave. -/
structure Stable (α : Type) where
  now : α
  may : Set α
  now_mem : now ∈ may

namespace Stable

variable {α : Type}

/-- A file whose content is on disk: nothing else can be left of it. -/
def settled (x : α) : Stable α where
  now := x
  may := {x}
  now_mem := rfl

/-- A write, as a function on contents. -/
def update (s : Stable α) (f : α → α) : Stable α where
  now := f s.now
  may := s.may ∪ f '' s.may
  now_mem := Or.inr ⟨s.now, s.now_mem, rfl⟩

/-- A write that replaces the whole content. -/
def replace (s : Stable α) (x : α) : Stable α := s.update fun _ => x

/-- `fsync`. -/
def sync (s : Stable α) : Stable α := settled s.now

/-- Every content a power loss can leave has the property. -/
def Survives (s : Stable α) (p : α → Prop) : Prop := ∀ x ∈ s.may, p x

@[simp] theorem now_settled (x : α) : (settled x).now = x := rfl

@[simp] theorem now_update (s : Stable α) (f : α → α) : (s.update f).now = f s.now := rfl

@[simp] theorem now_replace (s : Stable α) (x : α) : (s.replace x).now = x := rfl

@[simp] theorem now_sync (s : Stable α) : s.sync.now = s.now := rfl

theorem mem_may_update {s : Stable α} {f : α → α} {x : α} :
    x ∈ (s.update f).may ↔ x ∈ s.may ∨ ∃ y ∈ s.may, f y = x := Iff.rfl

theorem mem_may_replace {s : Stable α} {x y : α} :
    y ∈ (s.replace x).may ↔ y ∈ s.may ∨ x = y := by
  constructor
  · rintro (h | ⟨_, _, h⟩)
    · exact Or.inl h
    · exact Or.inr h
  · rintro (h | h)
    · exact Or.inl h
    · exact Or.inr ⟨s.now, s.now_mem, h⟩

theorem mem_may_sync {s : Stable α} {x : α} : x ∈ s.sync.may ↔ x = s.now := Iff.rfl

variable {s : Stable α} {p q : α → Prop}

theorem Survives.now (h : s.Survives p) : p s.now := h s.now s.now_mem

theorem Survives.mono (h : s.Survives p) (hpq : ∀ x, p x → q x) : s.Survives q :=
  fun x hx => hpq x (h x hx)

/-- **A write.** -/
theorem Survives.update (h : s.Survives p) {f : α → α} (hf : ∀ x, p x → p (f x)) :
    (s.update f).Survives p := by
  rintro x (hx | ⟨y, hy, rfl⟩)
  · exact h x hx
  · exact hf y (h y hy)

theorem Survives.replace (h : s.Survives p) {x : α} (hx : p x) : (s.replace x).Survives p :=
  h.update fun _ _ => hx

/-- **A sync.** -/
theorem survives_sync : s.sync.Survives p ↔ p s.now := by
  constructor
  · intro h
    exact h s.now rfl
  · rintro h x rfl
    exact h

theorem Survives.sync (h : s.Survives p) : s.sync.Survives p := survives_sync.mpr h.now

theorem survives_settled {x : α} : (settled x).Survives p ↔ p x := by
  constructor
  · intro h
    exact h x rfl
  · rintro h y rfl
    exact h

end Stable

end ModelFs
