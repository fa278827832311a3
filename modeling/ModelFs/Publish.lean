import ModelFs.Lib.Machine
import ModelFs.Sections

/-!
# Publishing a manifest while the entry moves

`publishManifest` looks at its entry three times: for the size, for the digests and the identity,
and, after the blob is installed at the origin, for whether the dirty flag may go. Between its
sections any thread runs any section on the entry, and other publishes of the same entry run too.

A publisher carries, as history, the states its entry was in since its first section (`seen`) and
since its second (`since`), the state the second section found (`found`), and what the origin had
when its blob was installed (`put`).

* `clear_exact_iff_of_run` — **a publish loses no digest exactly when its last section sees another
  count, a clean or a dead entry, or no digest has moved since the sample and none lies between the
  two grids.**
* `blob_consistent_of_run` — **a blob describes one state of the entry, if no step between the first
  two sections changes identity or digests of an entry of another size.**
-/

namespace ModelFs

namespace Publish

open Cached

/-- Where a call of `publishManifest` is. -/
inductive Pc (φ δ : Type) where
  | idle
  /-- Past its first section, which saw the size `n`. -/
  | sized (n : Nat) (seen : List (Cached φ δ))
  /-- Past its second section; the blob is not at the origin yet. -/
  | sampled (snap : Sampled δ) (found : Cached φ δ) (since seen : List (Cached φ δ))
  | installed (snap : Sampled δ) (put : Option (Manifest δ)) (found : Cached φ δ)
      (since : List (Cached φ δ))

/-- A blob that was installed, and the states of the entry during the call until then. -/
structure Published (φ δ : Type) where
  blob : Manifest δ
  seen : List (Cached φ δ)

/-- A publish past its last section: its blob, the origin as the publish left it, the entry its
second section found, the states of the entry from then on, and the entry before and after its last
section. -/
structure Ended (φ δ : Type) where
  blob : Manifest δ
  put : Option (Manifest δ)
  found : Cached φ δ
  since : List (Cached φ δ)
  now : Cached φ δ
  after : Cached φ δ

/-- An entry and the publishers at work on it. -/
structure World (τ φ δ : Type) where
  c : Cached φ δ
  pc : τ → Pc φ δ
  /-- The manifest at the origin. -/
  origin : Option (Manifest δ) := none
  published : List (Published φ δ) := []
  ended : List (Ended φ δ) := []

variable {τ φ β δ : Type}

/-- The entry is in state `c`: a publisher sees it, from its first section to its install and from
its second to its last. -/
def Pc.note (c : Cached φ δ) : Pc φ δ → Pc φ δ
  | .idle => .idle
  | .sized n seen => .sized n (c :: seen)
  | .sampled snap found since seen => .sampled snap found (c :: since) (c :: seen)
  | .installed snap put found since => .installed snap put found (c :: since)

def World.tick (s : World τ φ δ) : World τ φ δ := { s with pc := fun t => (s.pc t).note s.c }

section Steps

variable [DecidableEq τ] [DecidableEq δ] (P : Entry.Params β δ)

def World.moveTo (s : World τ φ δ) (t : τ) (pc : Pc φ δ) : World τ φ δ :=
  { s with pc := Function.update s.pc t pc }

/-- The rename of a publish: the blob is the manifest at the origin. -/
def World.install (s : World τ φ δ) (blob : Manifest δ) (seen : List (Cached φ δ)) : World τ φ δ :=
  { s with origin := some blob, published := ⟨blob, seen⟩ :: s.published }

/-- One step, without what the publishers see of it. -/
inductive Core (t : τ) (s : World τ φ δ) : World τ φ δ → Prop where
  /-- A section of another operation. The flag is cleared by publishers alone. -/
  | other (sec : Section φ β δ) (hsec : ∀ n, sec ≠ .publishDone n) :
      Core t s { s with c := sec.run P s.c }
  | size {n : Nat} (hpc : s.pc t = .idle) (hsize : s.c.publishSize = some n) :
      Core t s (s.moveTo t (.sized n []))
  | sample {n : Nat} {seen : List (Cached φ δ)} {snap : Sampled δ}
      (hpc : s.pc t = .sized n seen) (hsnap : s.c.publishSnap P.pieceSize n = some snap) :
      Core t s (s.moveTo t (.sampled snap s.c [] seen))
  /-- A dead or clean entry, nothing in the grid, no memory, no path, a failed write or rename. -/
  | giveUp : Core t s (s.moveTo t .idle)
  | install {snap : Sampled δ} {found : Cached φ δ} {since seen : List (Cached φ δ)}
      (hpc : s.pc t = .sampled snap found since seen) :
      Core t s ((s.install snap.blob seen).moveTo t
        (.installed snap (s.install snap.blob seen).origin found since))
  | done {snap : Sampled δ} {put : Option (Manifest δ)} {found : Cached φ δ}
      {since : List (Cached φ δ)} (hpc : s.pc t = .installed snap put found since) :
      Core t s ({ s with
        c := s.c.publishDone snap.count
        ended := ⟨snap.blob, put, found, since, s.c, s.c.publishDone snap.count⟩ :: s.ended
          }.moveTo t .idle)

def Step (s s' : World τ φ δ) : Prop := ∃ t s₁, Core P t s s₁ ∧ s' = s₁.tick

end Steps

/-- An entry nobody publishes. -/
def start (τ : Type) (c : Cached φ δ) : World τ φ δ where
  c := c
  pc _ := .idle

/-! ## What a publish has to say -/

section Spec

variable (P : Entry.Params β δ)

/-- The identity as a blob has it. -/
def trailer (c : Cached φ δ) : Option OriginId := if c.originId.known then some c.originId else none

/-- The entries are the digests of `c` below the end of its grid. -/
def ListsDigests (c : Cached φ δ) (entries : List (ManifestEntry δ)) : Prop :=
  ∀ i h, (⟨i, h⟩ : ManifestEntry δ) ∈ entries ↔
    c.hashes.lookup i = some h ∧ i < Piece.count c.size P.pieceSize

/-- The last section cleared the flag. -/
def Ended.Clears (k : Ended φ δ) : Prop :=
  k.now.manifestDirty = true ∧ k.after.manifestDirty = false

/-- A digest was recorded, replaced or removed while the blob was written: in a state since the
sample the entry had other digests than those that were sampled. -/
def Ended.Moved (k : Ended φ δ) : Prop :=
  ∃ c ∈ k.since, ∃ i, c.hashes.lookup i ≠ k.found.hashes.lookup i

/-- **No lost digest.** If the flag goes, the manifest the publish put at the origin has exactly the
digests the entry has; and a digest that moved while the blob was written leaves the flag. -/
def Ended.Exact (k : Ended φ δ) : Prop :=
  (k.Clears → ∃ m, k.put = some m ∧ ListsDigests P k.now m.entries) ∧ (k.Moved → ¬ k.Clears)

/-- No recorded digest lies between the grid the blob was cut to and the grid of the entry. -/
def Ended.Gridded (k : Ended φ δ) : Prop :=
  ∀ i h, k.now.hashes.lookup i = some h →
    (i < Piece.count k.blob.fileSize P.pieceSize ↔ i < Piece.count k.now.size P.pieceSize)

/-- Before its last section the entry was dead, or clean, or had another count of digests than the
second section found; or its digests stood still and lie in one grid. -/
def Ended.Heeded (k : Ended φ δ) : Prop :=
  k.now.dead = true ∨ k.now.manifestDirty = false ∨ k.now.hashCount ≠ k.found.hashCount ∨
    ¬ k.Moved ∧ k.Gridded P

/-- The blob says what `c` is. -/
def Describes (c : Cached φ δ) (blob : Manifest δ) : Prop :=
  c.size = blob.fileSize ∧ trailer c = blob.identity ∧ ListsDigests P c blob.entries

/-- In one of the states the entry was in, it had the size, the identity and the digests of the
blob. -/
def Published.Consistent (p : Published φ δ) : Prop :=
  p.blob.pieceSize = P.pieceSize ∧ ∃ c ∈ p.seen, Describes P c p.blob

/-- Identity and digests below the end of the grid of `n` bytes are as they were. -/
def SameDigests (n : Nat) (c c' : Cached φ δ) : Prop :=
  trailer c' = trailer c ∧ ∀ i < Piece.count n P.pieceSize, c'.hashes.lookup i = c.hashes.lookup i

/-- There is no digest below the end of the grid of `n` bytes. -/
def NoDigest (n : Nat) (c : Cached φ δ) : Prop :=
  ∀ i < Piece.count n P.pieceSize, c.hashes.lookup i = none

/-- The condition of a step: while a publisher is between its first two sections, a step that leaves
the entry with another size than the first of them saw leaves identity and digests as they were, or
no digest. -/
def Steady (s s' : World τ φ δ) : Prop :=
  ∀ t n seen, s.pc t = .sized n seen → s'.c.size ≠ n →
    SameDigests P n s.c s'.c ∨ NoDigest P n s'.c

end Spec

variable {P : Entry.Params β δ}

theorem forall_moveTo [DecidableEq τ] {s : World τ φ δ} {p : Pc φ δ → Prop} {t : τ} {pc : Pc φ δ}
    (h : ∀ u, p (s.pc u)) (hpc : p pc) (u : τ) : p ((s.moveTo t pc).pc u) := by
  by_cases hu : u = t
  · rw [hu]
    show p (Function.update s.pc t pc t)
    rwa [Function.update_self]
  · show p (Function.update s.pc t pc u)
    rw [Function.update_of_ne hu]
    exact h u

/-! ## Cleared flags -/

section Clears

variable (P) in
/-- The sample was taken out of `found`. -/
def DrawnFrom (snap : Sampled δ) (found : Cached φ δ) : Prop :=
  snap.count = found.hashCount ∧
    snap.blob.entries = found.gridEntries (Piece.count snap.blob.fileSize P.pieceSize)

variable (P) in
/-- What a publisher has between its second section and its last. -/
def Pc.Drawn : Pc φ δ → Prop
  | .sampled snap found _ _ => DrawnFrom P snap found
  | .installed snap put found _ => DrawnFrom P snap found ∧ put = some snap.blob
  | _ => True

/-- A publisher past its second section has seen the entry as it is. -/
def Pc.Sees (c : Cached φ δ) : Pc φ δ → Prop
  | .sampled _ _ since _ => c ∈ since
  | .installed _ _ _ since => c ∈ since
  | _ => True

variable (P) in
/-- What is left of a publish: its blob was drawn from `found` and put at the origin, its last
section saw `now`, and cleared the flag of a live, dirty entry with the sampled count. -/
structure Ended.Drawn (k : Ended φ δ) : Prop where
  entries : k.blob.entries = k.found.gridEntries (Piece.count k.blob.fileSize P.pieceSize)
  put : k.put = some k.blob
  mem : k.now ∈ k.since
  clears_iff : k.Clears ↔
    k.now.dead = false ∧ k.now.manifestDirty = true ∧ k.now.hashCount = k.found.hashCount

variable (P) in
structure Drawn (s : World τ φ δ) : Prop where
  pc : ∀ t, (s.pc t).Drawn P
  sees : ∀ t, (s.pc t).Sees s.c
  ended : ∀ k ∈ s.ended, k.Drawn P

theorem drawn_note {c : Cached φ δ} {pc : Pc φ δ} (h : pc.Drawn P) : (pc.note c).Drawn P := by
  cases pc <;> exact h

theorem sees_note (c : Cached φ δ) (pc : Pc φ δ) : (pc.note c).Sees c := by
  cases pc <;> first | trivial | exact List.mem_cons_self

theorem drawnFrom_publishSnap {c : Cached φ δ} {n : Nat} {snap : Sampled δ}
    (h : c.publishSnap P.pieceSize n = some snap) : DrawnFrom P snap c := by
  obtain ⟨-, -, hcount, hblob⟩ := publishSnap_cases h
  exact ⟨hcount, by rw [hblob]⟩

/-- What the last section looks at. -/
theorem publishDone_clears_iff (c : Cached φ δ) (n : Nat) :
    (c.manifestDirty = true ∧ (c.publishDone n).manifestDirty = false) ↔
      c.dead = false ∧ c.manifestDirty = true ∧ c.hashCount = n := by
  unfold publishDone
  split_ifs with hclears <;>
    simp only [publishClears, Bool.and_eq_true, Bool.not_eq_true', beq_iff_eq] at hclears
  · exact ⟨fun _ => ⟨hclears.1.1, hclears.1.2, hclears.2⟩, fun h => ⟨h.2.1, rfl⟩⟩
  · constructor
    · rintro ⟨hdirty, hclean⟩
      rw [hdirty] at hclean
      cases hclean
    · rintro ⟨hlive, hdirty, hcount⟩
      exact absurd ⟨⟨hlive, hdirty⟩, hcount⟩ hclears

variable [DecidableEq τ] [DecidableEq δ]

theorem Drawn.step {s s' : World τ φ δ} (h : Drawn P s) (hstep : Step P s s') : Drawn P s' := by
  obtain ⟨t, s₁, hcore, rfl⟩ := hstep
  suffices hs₁ : (∀ u, (s₁.pc u).Drawn P) ∧ ∀ k ∈ s₁.ended, k.Drawn P from
    ⟨fun u => drawn_note (hs₁.1 u), fun u => sees_note s₁.c _, hs₁.2⟩
  cases hcore with
  | other sec hsec => exact ⟨h.pc, h.ended⟩
  | size hpc hsize => exact ⟨forall_moveTo h.pc trivial, h.ended⟩
  | sample hpc hsnap => exact ⟨forall_moveTo h.pc (drawnFrom_publishSnap hsnap), h.ended⟩
  | giveUp => exact ⟨forall_moveTo h.pc trivial, h.ended⟩
  | install hpc =>
    have hdrawn := h.pc t
    rw [hpc] at hdrawn
    exact ⟨forall_moveTo (s := s.install _ _) h.pc ⟨hdrawn, rfl⟩, h.ended⟩
  | @done snap put found since hpc =>
    have hdrawn := h.pc t
    have hmem := h.sees t
    rw [hpc] at hdrawn hmem
    refine ⟨forall_moveTo h.pc trivial, fun k hk => ?_⟩
    rcases List.mem_cons.mp hk with rfl | hold
    · refine ⟨hdrawn.1.2, hdrawn.2, hmem, ?_⟩
      rw [← hdrawn.1.1]
      exact publishDone_clears_iff s.c snap.count
    · exact h.ended k hold

omit [DecidableEq δ] in
theorem Ended.not_moved_iff {k : Ended φ δ} :
    ¬ k.Moved ↔ ∀ c ∈ k.since, ∀ i, c.hashes.lookup i = k.found.hashes.lookup i := by
  unfold Ended.Moved
  push Not
  rfl

omit [DecidableEq τ] [DecidableEq δ] in
/-- What the count of the digests decides, and what it does not. -/
theorem Ended.exact_iff {k : Ended φ δ} (h : k.Drawn P) : k.Exact P ↔ k.Heeded P := by
  constructor
  · rintro ⟨hlists, hmoved⟩
    by_cases hclears : k.Clears
    · obtain ⟨m, hm, hlist⟩ := hlists hclears
      have hstill : ¬ k.Moved := fun hm => hmoved hm hclears
      obtain rfl : k.blob = m := Option.some.inj (h.put.symm.trans hm)
      refine Or.inr (Or.inr (Or.inr ⟨hstill, fun i d hd => ?_⟩))
      have hsame := Ended.not_moved_iff.mp hstill k.now h.mem i
      have hmem := hlist i d
      rw [h.entries, mem_gridEntries, ← hsame] at hmem
      constructor
      · exact fun hlt => (hmem.mp ⟨hd, hlt⟩).2
      · exact fun hlt => (hmem.mpr ⟨hd, hlt⟩).2
    · rw [h.clears_iff, not_and_or, not_and_or, Bool.not_eq_false, Bool.not_eq_true] at hclears
      exact hclears.imp_right fun hrest => hrest.imp_right Or.inl
  · intro hheeded
    by_cases hclears : k.Clears
    · obtain ⟨hlive, hdirty, hcount⟩ := h.clears_iff.mp hclears
      rcases hheeded with hdead | hclean | hother | ⟨hstill, hgrid⟩
      · rw [hlive] at hdead
        cases hdead
      · rw [hdirty] at hclean
        cases hclean
      · exact absurd hcount hother
      · refine ⟨fun _ => ⟨k.blob, h.put, fun i d => ?_⟩, fun hmoved => absurd hmoved hstill⟩
        rw [h.entries, mem_gridEntries, ← Ended.not_moved_iff.mp hstill k.now h.mem i]
        exact and_congr_right fun hd => hgrid i d hd
    · exact ⟨fun hc => absurd hc hclears, fun _ => hclears⟩

/-- **No lost digest.** In every run from any entry nobody publishes, a publish is exact exactly when
its last section sees a dead or clean entry or another count of digests than was sampled, or when
no digest moved since the sample and none lies between the grid of the blob and that of the
entry. -/
theorem clear_exact_iff_of_run (P : Entry.Params β δ) (c : Cached φ δ) {s : World τ φ δ}
    (h : Run (Step P) Always (start τ c) s) {k : Ended φ δ} (hk : k ∈ s.ended) :
    k.Exact P ↔ k.Heeded P := by
  have hstart : Drawn P (start τ c) := ⟨fun _ => trivial, fun _ => trivial, by simp [start]⟩
  have hdrawn : Drawn P s := h.invariant (fun _ _ hd hstep _ => hd.step hstep) hstart
  exact Ended.exact_iff (hdrawn.ended k hk)

end Clears

/-! ## Blobs and the states of the entry -/

section Blobs

variable (P) in
/-- Between its first two sections a publisher has seen a state of the size it is to publish, with
the identity and the digests the entry has now, unless there are none; after them, the state its
blob is about. -/
def Pc.Witnessed (c : Cached φ δ) : Pc φ δ → Prop
  | .sized n seen => (∃ d ∈ seen, d.size = n ∧ SameDigests P n d c) ∨ NoDigest P n c
  | .sampled snap _ _ seen =>
    snap.blob.pieceSize = P.pieceSize ∧ ∃ d ∈ seen, Describes P d snap.blob
  | _ => True

variable (P) in
structure Witnessed (s : World τ φ δ) : Prop where
  pc : ∀ t, (s.pc t).Witnessed P s.c
  published : ∀ p ∈ s.published, p.Consistent P

theorem sameDigests_refl (n : Nat) (c : Cached φ δ) : SameDigests P n c c := ⟨rfl, fun _ _ => rfl⟩

theorem SameDigests.trans {n : Nat} {c c' c'' : Cached φ δ} (h : SameDigests P n c c')
    (h' : SameDigests P n c' c'') : SameDigests P n c c'' :=
  ⟨h'.1.trans h.1, fun i hi => (h'.2 i hi).trans (h.2 i hi)⟩

theorem SameDigests.noDigest {n : Nat} {c c' : Cached φ δ} (h : SameDigests P n c c')
    (hnone : NoDigest P n c) : NoDigest P n c' := fun i hi => (h.2 i hi).trans (hnone i hi)

/-- What a step is to the publishers that take no part in it. -/
theorem witnessed_note {pc : Pc φ δ} {c c' : Cached φ δ} (h : pc.Witnessed P c)
    (hsteady : ∀ n seen, pc = .sized n seen → c'.size ≠ n →
      SameDigests P n c c' ∨ NoDigest P n c') : (pc.note c').Witnessed P c' := by
  cases pc with
  | idle => trivial
  | installed snap put found since => trivial
  | sampled snap found since seen =>
    obtain ⟨hps, d, hd, hdesc⟩ := h
    exact ⟨hps, d, List.mem_cons_of_mem c' hd, hdesc⟩
  | sized n seen =>
    by_cases hsize : c'.size = n
    · exact Or.inl ⟨c', List.mem_cons_self, hsize, sameDigests_refl n c'⟩
    · rcases hsteady n seen rfl hsize with hsame | hnone
      · rcases h with ⟨d, hd, hn, hdc⟩ | hempty
        · exact Or.inl ⟨d, List.mem_cons_of_mem c' hd, hn, hdc.trans hsame⟩
        · exact Or.inr (hsame.noDigest hempty)
      · exact Or.inr hnone

/-- A sample of an entry with the identity and the digests of a state of the size to publish. -/
theorem describes_of_sameDigests {c d : Cached φ δ} {n : Nat} {snap : Sampled δ}
    (hsnap : c.publishSnap P.pieceSize n = some snap) (hsize : d.size = n)
    (hsame : SameDigests P n d c) :
    snap.blob.pieceSize = P.pieceSize ∧ Describes P d snap.blob := by
  obtain ⟨-, -, -, hblob⟩ := publishSnap_cases hsnap
  rw [hblob]
  refine ⟨rfl, hsize, hsame.1.symm, fun i h => ?_⟩
  rw [mem_gridEntries, hsize]
  exact and_congr_left fun hlt => by rw [hsame.2 i hlt]

/-- Of an entry without digests nothing is published. -/
theorem publishSnap_of_noDigest {c : Cached φ δ} {n : Nat} (h : NoDigest P n c) :
    c.publishSnap P.pieceSize n = none := by
  have hempty : c.gridEntries (Piece.count n P.pieceSize) = [] := by
    rw [List.eq_nil_iff_forall_not_mem]
    rintro ⟨i, d⟩ he
    obtain ⟨hlook, hlt⟩ := mem_gridEntries.mp he
    rw [h i hlt] at hlook
    cases hlook
  unfold publishSnap
  rw [hempty]
  split_ifs <;> rfl

variable [DecidableEq τ] [DecidableEq δ]

theorem Witnessed.step {s s' : World τ φ δ} (h : Witnessed P s) (hstep : Step P s s')
    (hsteady : Steady P s s') : Witnessed P s' := by
  obtain ⟨t, s₁, hcore, rfl⟩ := hstep
  have hothers : ∀ u, ((s.pc u).note s₁.c).Witnessed P s₁.c := fun u =>
    witnessed_note (h.pc u) fun n seen hpc => hsteady u n seen hpc
  have hmoved : ∀ pc : Pc φ δ, (pc.note s₁.c).Witnessed P s₁.c →
      ∀ u, (((s.moveTo t pc).pc u).note s₁.c).Witnessed P s₁.c := fun pc hpc =>
    forall_moveTo (p := fun pc => (pc.note s₁.c).Witnessed P s₁.c) hothers hpc
  cases hcore with
  | other sec hsec => exact ⟨hothers, h.published⟩
  | @size n hpc hsize =>
    have hn : s.c.size = n := by
      unfold publishSize at hsize
      split_ifs at hsize
      exact Option.some.inj hsize
    exact ⟨hmoved _ (Or.inl ⟨s.c, List.mem_cons_self, hn, sameDigests_refl n s.c⟩), h.published⟩
  | @sample n seen snap hpc hsnap =>
    refine ⟨hmoved _ ?_, h.published⟩
    have hwit := h.pc t
    rw [hpc] at hwit
    rcases hwit with ⟨d, hd, hsize, hsame⟩ | hnone
    · obtain ⟨hps, hdesc⟩ := describes_of_sameDigests hsnap hsize hsame
      exact ⟨hps, d, List.mem_cons_of_mem s.c hd, hdesc⟩
    · rw [publishSnap_of_noDigest hnone] at hsnap
      cases hsnap
  | giveUp => exact ⟨hmoved _ trivial, h.published⟩
  | @install snap found since seen hpc =>
    refine ⟨hmoved _ trivial, fun p hp => ?_⟩
    rcases List.mem_cons.mp hp with rfl | hold
    · have hw := h.pc t
      rw [hpc] at hw
      exact hw
    · exact h.published p hold
  | done hpc => exact ⟨hmoved _ trivial, h.published⟩

/-- **Blobs describe one state.** In every run from any entry nobody publishes, whose steps between
the first two sections of a publish change nothing of the identity and the digests of an entry of
another size, or leave it no digest, every blob is what the entry was at some instant of its
publish. -/
theorem blob_consistent_of_run (P : Entry.Params β δ) (c : Cached φ δ) {s : World τ φ δ}
    (h : Run (Step P) (Steady P) (start τ c) s) {p : Published φ δ} (hp : p ∈ s.published) :
    p.Consistent P := by
  have hstart : Witnessed P (start τ c) := ⟨fun _ => trivial, by simp [start]⟩
  have hw : Witnessed P s := h.invariant (fun _ _ hw hstep hsteady => hw.step hstep hsteady) hstart
  exact hw.published p hp

end Blobs

/-! ## Publishes of a small entry -/

open Entry (smallPieces)

/-- An entry of an 8-byte file in two pieces with the digest of its first piece. -/
def oneDigest : Cached Nat (List UInt8) where
  size := 8
  bits := Bitfield.init 2
  hashes := (∅ : AList fun _ : Nat => List UInt8).insert 0 [1, 1, 1, 1]
  manifestDirty := true

/-- What a publish of `c` for `fsize` bytes takes out of its second section. -/
def sampleOf (c : Cached Nat (List UInt8)) (fsize : Nat) : Sampled (List UInt8) :=
  ⟨c.hashCount, ⟨4, fsize, c.gridEntries (Piece.count fsize 4), trailer c⟩⟩

theorem publishSnap_oneDigest :
    oneDigest.publishSnap smallPieces.pieceSize 8 = some (sampleOf oneDigest 8) :=
  publishSnap_of_lookup (i := 0) (h := [1, 1, 1, 1]) rfl rfl (by decide) (by decide)

/-- A publisher is past its second section, and nothing else happened. -/
theorem run_sample :
    Run (Step smallPieces) Always (start Unit oneDigest)
      (((((start Unit oneDigest).moveTo () (.sized 8 [])).tick).moveTo ()
        (.sampled (sampleOf oneDigest 8) oneDigest [] [oneDigest])).tick) :=
  ((Run.refl (start Unit oneDigest)).then ⟨(), _, Core.size rfl rfl, rfl⟩).then
    ⟨(), _, Core.sample (P := smallPieces) rfl publishSnap_oneDigest, rfl⟩

/-- A publish during which a transfer begins, and no digest moves. -/
theorem clear_exact_iff_of_run_quiet :
    ∃ (s : World Unit Nat (List UInt8)) (k : Ended Nat (List UInt8)),
      Run (Step smallPieces) Always (start Unit oneDigest) s ∧ k ∈ s.ended ∧ k.Clears ∧
        (k.Exact smallPieces ↔ k.Heeded smallPieces) := by
  have hrun := ((run_sample.then
    ⟨(), _, Core.other .beginXfer (by simp), rfl⟩).then
    ⟨(), _, Core.install rfl, rfl⟩).then ⟨(), _, Core.done rfl, rfl⟩
  exact ⟨_, _, hrun, List.mem_cons_self, ⟨rfl, by decide⟩,
    clear_exact_iff_of_run smallPieces oneDigest hrun List.mem_cons_self⟩

/-- The flag goes although a write-through put another digest under piece 0: the count is what it
was. -/
theorem flag_cleared_over_replaced_digest :
    ∃ s : World Unit Nat (List UInt8), Run (Step smallPieces) Always (start Unit oneDigest) s ∧
      s.c.manifestDirty = false ∧ ∃ k ∈ s.ended, ¬ k.Exact smallPieces := by
  have hrun := ((run_sample.then
    ⟨(), _, Core.install rfl, rfl⟩).then
    ⟨(), _, Core.other (.markCopy 0 [2, 2, 2, 2] true) (by simp), rfl⟩).then
    ⟨(), _, Core.done rfl, rfl⟩
  refine ⟨_, hrun, by decide, _, List.mem_cons_self, fun hexact => ?_⟩
  exact hexact.2 ⟨_, List.mem_cons_self, 0, by decide⟩ ⟨by decide, by decide⟩

theorem publishSnap_grown :
    ((.growForWrite 12 0 true : Section Nat UInt8 (List UInt8)).run smallPieces
      oneDigest).publishSnap smallPieces.pieceSize 8 = some (sampleOf oneDigest 8) :=
  publishSnap_of_lookup (i := 0) (h := [1, 1, 1, 1]) (by decide) (by decide) (by decide) (by decide)

/-- A write-through grows the entry between the first two sections, and leaves the digests of the
eight bytes that are published. -/
theorem blob_consistent_of_run_grow :
    ∃ (s : World Unit Nat (List UInt8)) (p : Published Nat (List UInt8)),
      Run (Step smallPieces) (Steady smallPieces) (start Unit oneDigest) s ∧ s.c.size = 12 ∧
        p ∈ s.published ∧ p.Consistent smallPieces := by
  have h₀ : Run (Step smallPieces) (Steady smallPieces) (start Unit oneDigest)
    (start Unit oneDigest) := Run.refl _
  have h₁ := h₀.tail ⟨(), _, Core.size rfl rfl, rfl⟩ fun _ _ _ hpc => nomatch hpc
  have h₂ := h₁.tail ⟨(), _, Core.other (.growForWrite 12 0 true) (by simp), rfl⟩
    fun _ _ _ hpc _ => by cases hpc; exact Or.inl ⟨by decide, by decide⟩
  have h₃ := h₂.tail ⟨(), _, Core.sample rfl publishSnap_grown, rfl⟩
    fun _ _ _ _ _ => Or.inl (sameDigests_refl _ _)
  have h₄ := h₃.tail ⟨(), _, Core.install rfl, rfl⟩ fun _ _ _ hpc => nomatch hpc
  exact ⟨_, _, h₄, by decide, List.mem_cons_self,
    blob_consistent_of_run smallPieces oneDigest h₄ List.mem_cons_self⟩

/-- The entry after a truncate to 4 bytes and a fill of the piece that is left. -/
def cutAndRefilled : Cached Nat (List UInt8) :=
  Section.runs smallPieces oneDigest
    [.truncateEntry 4 true, .beginFill 0 0, .finishPiece 0 true 4 (some [9, 9, 9, 9]) 0]

theorem publishSnap_cutAndRefilled :
    cutAndRefilled.publishSnap smallPieces.pieceSize 8 = some (sampleOf cutAndRefilled 8) :=
  publishSnap_of_lookup (i := 0) (h := [9, 9, 9, 9]) (by decide) (by decide) (by decide) (by decide)

/-- The size is from before a truncate, the digest from a fill after it: the entry was never
8 bytes long with that digest. -/
theorem blob_mixes_two_states :
    ∃ s : World Unit Nat (List UInt8), Run (Step smallPieces) Always (start Unit oneDigest) s ∧
      ∃ p ∈ s.published, ¬ p.Consistent smallPieces := by
  have hrefl : Run (Step smallPieces) Always (start Unit oneDigest) (start Unit oneDigest) :=
    Run.refl _
  have hrun := (((((hrefl.then ⟨(), _, Core.size rfl rfl, rfl⟩).then
    ⟨(), _, Core.other (.truncateEntry 4 true) (by simp), rfl⟩).then
    ⟨(), _, Core.other (.beginFill 0 0) (by simp), rfl⟩).then
    ⟨(), _, Core.other (.finishPiece 0 true 4 (some [9, 9, 9, 9]) 0) (by simp), rfl⟩).then
    ⟨(), _, Core.sample rfl publishSnap_cutAndRefilled, rfl⟩).then
    ⟨(), _, Core.install rfl, rfl⟩
  refine ⟨_, hrun, _, List.mem_cons_self, fun ⟨_, c, hc, hsize, _, hlists⟩ => ?_⟩
  have hblob : (⟨0, [9, 9, 9, 9]⟩ : ManifestEntry (List UInt8)) ∈
      (sampleOf cutAndRefilled 8).blob.entries := mem_gridEntries.mpr (by decide)
  have hlook := ((hlists 0 [9, 9, 9, 9]).mp hblob).1
  -- none of the six states the publisher saw is 8 bytes long with that digest
  clear hlists
  revert c
  decide

end Publish

end ModelFs
