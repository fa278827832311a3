import ModelFs.Cached

/-!
# Sections that move an entry's size

`reconcile`, the grow of a write-through, the shrink of `cacheFillIdentified` and `mf_truncate`.
All but the first look of `reconcile` run under `content_mu` and `file.mu` together. While a
transfer is in flight (`xferBusy`) none of them replaces the field: the marks are cleared in
place and the resize is left for later.

* `reset_spec` — no mark survives a reset, and it moves the generation.
* `growToLocked_spec` — a mark that survives a grow is of a piece the grow leaves as long as it
  was.
* `cacheFillSize_cases`, `truncateEntry_cases`, `reconcileReset_cases` — a size step is a no-op,
  a grow or a wipe.
-/

namespace ModelFs

namespace Cached

variable {φ δ : Type}

/-! ## Identity -/

/-- Adopt `originId` when the entry has none; persist only when there are marks to protect. -/
def adoptOriginIdLocked (c : Cached φ δ) (originId : OriginId) : Cached φ δ × List (Io φ) :=
  if !originId.known || c.originId.known then (c, [])
  else
    let adopted := { c with originId := originId }
    (adopted, if adopted.bits.lastSet.isSome then [adopted.saveBits false] else [])

/-- Take a newer or first identity over without touching a mark. -/
def noteOriginId (c : Cached φ δ) (id : OriginId) : Cached φ δ × List (Io φ) :=
  if !id.known then (c, [])
  else if !c.originId.known || c.originId.contentChanged id then
    let noted := { c with originId := id }
    (noted, [noted.saveBits false])
  else (c, [])

/-! ## Reconcile -/

/-- What a freshly observed size and identity say about the entry. -/
def differs (c : Cached φ δ) (fileSize : Nat) (originId : OriginId) : Bool :=
  c.size ≠ fileSize || c.originId.contentChanged originId

/-- The first look of `reconcile`, under `file.mu` alone. `true` asks for the reset. -/
def reconcileProbe (c : Cached φ δ) (fileSize : Nat) (originId : OriginId) :
    Cached φ δ × List (Io φ) × Bool :=
  if c.differs fileSize originId then (c, [], true)
  else
    let adopted := c.adoptOriginIdLocked originId
    (adopted.1, adopted.2, false)

/-- Marks, claims and digests dropped for a file of `fileSize` bytes. The field is replaced
unless a transfer is walking it. -/
def reset (pieceSize : Nat) (c : Cached φ δ) (fileSize : Nat) : Cached φ δ :=
  let bits := if c.xferBusy then c.bits.wipe else Bitfield.init (Piece.count fileSize pieceSize)
  clearHashes { c with bits := bits, size := fileSize, writes := c.writes + 1 }

def reconcileReset (pieceSize : Nat) (c : Cached φ δ) (fileSize : Nat) (originId : OriginId) :
    Cached φ δ × List (Io φ) :=
  if c.differs fileSize originId then
    let wiped := c.reset pieceSize fileSize
    let wiped := if originId.known then { wiped with originId := originId } else wiped
    (wiped, wiped.truncateCacheFd fileSize ++ [wiped.saveBits false])
  else c.adoptOriginIdLocked originId

/-! ## Growth -/

/-- Drop the mark of a short last piece before the size moves past it. -/
def dropWideningPieceMark (pieceSize : Nat) (c : Cached φ δ) : Cached φ δ × List (Io φ) :=
  if c.size = 0 ∨ c.size % pieceSize = 0 then (c, [])
  else
    let k := min (c.size / pieceSize) maxU32
    if c.bits.get k then
      let dropped := removeHash { c with bits := c.bits.clear k } k
      (dropped, [dropped.saveBits false])
    else (c.removeHash k, [])

/-- `resized` is whether the field's reallocation succeeds. -/
def growToLocked (pieceSize : Nat) (c : Cached φ δ) (fileEnd : Nat) (resized : Bool) :
    Cached φ δ × List (Io φ) :=
  if fileEnd ≤ c.size then (c, [])
  else
    let dropped := c.dropWideningPieceMark pieceSize
    ({ dropped.1 with
        bits :=
          if dropped.1.xferBusy then dropped.1.bits
          else if resized then dropped.1.bits.resize (Piece.count fileEnd pieceSize)
          else dropped.1.bits
        size := fileEnd }, dropped.2)

/-- The stamp and the identity a write-through leaves after its size step. -/
def adoptOwnWrite (c : Cached φ δ) (originId : OriginId) (nowSec : Int) : Cached φ δ :=
  let stamped := c.stamp nowSec
  if originId.known && (!stamped.originId.known || stamped.originId.contentChanged originId) then
    { stamped with originId := originId }
  else stamped

/-- The size step of `cacheFillIdentified`. `allocated` is whether the field it may need can be
had; `false` as the last component is the early return that leaves the copy out. -/
def cacheFillSize (pieceSize : Nat) (c : Cached φ δ) (fileEnd : Nat) (originId : OriginId)
    (nowSec : Int) (allocated : Bool) : Cached φ δ × List (Io φ) × Bool :=
  if c.size < fileEnd then
    let grown := c.growToLocked pieceSize fileEnd allocated
    (grown.1.adoptOwnWrite originId nowSec, grown.2, true)
  else if fileEnd < c.size then
    if !c.xferBusy && !allocated then
      let wiped := clearHashes { c with bits := c.bits.wipe, writes := c.writes + 1 }
      (wiped, [wiped.saveBits false], false)
    else
      let wiped := c.reset pieceSize fileEnd
      (wiped.adoptOwnWrite originId nowSec,
        wiped.truncateCacheFd fileEnd ++ [wiped.saveBits false], true)
  else (c.adoptOwnWrite originId nowSec, [], true)

/-! ## Truncate -/

/-- The entry's part of `truncateWithClose`. `allocated` is whether the new field, or the resize
of the one under a transfer, can be had; `false` comes back for the `ENOMEM` arm. -/
def truncateEntry (pieceSize : Nat) (c : Cached φ δ) (newSize : Nat) (allocated : Bool) :
    Cached φ δ × List (Io φ) × Bool :=
  if c.size = newSize then (c, c.truncateCacheFd newSize, true)
  else
    let n := Piece.count newSize pieceSize
    let bits :=
      if c.xferBusy then (if allocated then c.bits.wipe.resize n else c.bits.wipe)
      else if allocated then Bitfield.init n
      else c.bits.wipe
    let wiped := clearHashes { c with bits := bits, size := newSize, writes := c.writes + 1 }
    (wiped, wiped.saveBits false :: wiped.truncateCacheFd newSize, c.xferBusy || allocated)

/-! ## What the sections leave -/

theorem adoptOriginIdLocked_spec (c : Cached φ δ) (id : OriginId) :
    Alike c (c.adoptOriginIdLocked id).1 ∧ ∀ o ∈ (c.adoptOriginIdLocked id).2, o.soft = true := by
  unfold adoptOriginIdLocked
  split_ifs
  · exact ⟨Alike.refl c, by simp⟩
  · refine ⟨⟨rfl, rfl, rfl, rfl, rfl, rfl, rfl⟩, ?_⟩
    dsimp only
    split_ifs <;> simp [saveBits, Io.soft]

theorem noteOriginId_spec (c : Cached φ δ) (id : OriginId) :
    Alike c (c.noteOriginId id).1 ∧ ∀ o ∈ (c.noteOriginId id).2, o.soft = true := by
  unfold noteOriginId
  split_ifs
  · exact ⟨Alike.refl c, by simp⟩
  · exact ⟨⟨rfl, rfl, rfl, rfl, rfl, rfl, rfl⟩, by simp [saveBits, Io.soft]⟩
  · exact ⟨Alike.refl c, by simp⟩

theorem reconcileProbe_spec (c : Cached φ δ) (size : Nat) (id : OriginId) :
    Alike c (c.reconcileProbe size id).1 ∧ ∀ o ∈ (c.reconcileProbe size id).2.1, o.soft = true := by
  unfold reconcileProbe
  split_ifs
  · exact ⟨Alike.refl c, by simp⟩
  · exact adoptOriginIdLocked_spec c id

theorem adoptOwnWrite_alike (c : Cached φ δ) (id : OriginId) (nowSec : Int) :
    Alike c (c.adoptOwnWrite id nowSec) := by
  unfold adoptOwnWrite
  dsimp only
  split_ifs <;> exact ⟨rfl, rfl, rfl, rfl, rfl, rfl, rfl⟩

/-- Every mark dropped, the size moved to `n`, the generation bumped, claims and descriptor kept. -/
structure Wiped (c c' : Cached φ δ) (n : Nat) : Prop where
  size : c'.size = n
  get : ∀ i, c'.bits.get i = false
  nbits : c'.bits.nbits ≤ max c.bits.nbits maxU32
  writes : c'.writes = c.writes + 1
  keeps : KeepsHolders c c'

theorem Wiped.alike {c c' c'' : Cached φ δ} {n : Nat} (h : Wiped c c' n) (h' : Alike c' c'') :
    Wiped c c'' n :=
  ⟨h'.size.trans h.size, fun i => by rw [h'.bits, h.get], h'.bits ▸ h.nbits,
    h'.writes.trans h.writes, h.keeps.trans h'.keepsHolders⟩

theorem reset_spec (pieceSize : Nat) (c : Cached φ δ) (n : Nat) :
    Wiped c (c.reset pieceSize n) n := by
  have hcount := Piece.count_le_maxU32 n pieceSize
  unfold reset
  dsimp only
  split_ifs
  · exact ⟨rfl, fun i => Bitfield.get_wipe .., le_max_left .., rfl, ⟨rfl, rfl, rfl, rfl⟩⟩
  · exact ⟨rfl, fun i => Bitfield.get_init .., hcount.trans (le_max_right ..), rfl,
      ⟨rfl, rfl, rfl, rfl⟩⟩

/-- What is left of an entry's file operations after a wipe: a cut of the live descriptor to the
new size, if any, and sidecar work. -/
def CutsTo (c : Cached φ δ) (io : List (Io φ)) (n : Nat) : Prop :=
  (∀ o ∈ io, o.soft = true) ∨
    ∃ fd before after, c.cacheFd = some fd ∧ c.xfer = 0 ∧ io = before ++ .cut fd n :: after ∧
      (∀ o ∈ before, o.soft = true) ∧ ∀ o ∈ after, o.soft = true

theorem cutsTo_truncateCacheFd (c : Cached φ δ) (n : Nat) (before after : List (Io φ))
    (hbefore : ∀ o ∈ before, o.soft = true) (hafter : ∀ o ∈ after, o.soft = true) :
    CutsTo c (before ++ c.truncateCacheFd n ++ after) n := by
  rcases c.truncateCacheFd_cases n with h | ⟨fd, hfd, hxfer, h⟩
  · refine Or.inl fun o ho => ?_
    rw [h, List.append_nil, List.mem_append] at ho
    exact ho.elim (hbefore o) (hafter o)
  · exact Or.inr ⟨fd, before, after, hfd, hxfer, by rw [h]; simp, hbefore, hafter⟩

theorem CutsTo.congr {c c' : Cached φ δ} {io : List (Io φ)} {n : Nat} (h : CutsTo c' io n)
    (hkeeps : KeepsHolders c c') : CutsTo c io n := by
  rcases h with hsoft | ⟨fd, before, after, hfd, hxfer, hio, hbefore, hafter⟩
  · exact Or.inl hsoft
  · exact Or.inr ⟨fd, before, after, hkeeps.cacheFd ▸ hfd, hkeeps.xfer ▸ hxfer, hio, hbefore, hafter⟩

theorem reconcileReset_cases (pieceSize : Nat) (c : Cached φ δ) (n : Nat) (id : OriginId) :
    (c.differs n id = false ∧ Alike c (c.reconcileReset pieceSize n id).1 ∧
        ∀ o ∈ (c.reconcileReset pieceSize n id).2, o.soft = true) ∨
      (c.differs n id = true ∧ Wiped c (c.reconcileReset pieceSize n id).1 n ∧
        CutsTo c (c.reconcileReset pieceSize n id).2 n) := by
  unfold reconcileReset
  split_ifs with hdiff hknown
  · have hwiped : Wiped c { c.reset pieceSize n with originId := id } n :=
      (reset_spec pieceSize c n).alike ⟨rfl, rfl, rfl, rfl, rfl, rfl, rfl⟩
    exact Or.inr ⟨hdiff, hwiped,
      (cutsTo_truncateCacheFd _ n [] _ (by simp) (by simp [saveBits, Io.soft])).congr hwiped.keeps⟩
  · have hwiped := reset_spec pieceSize c n
    exact Or.inr ⟨hdiff, hwiped,
      (cutsTo_truncateCacheFd _ n [] _ (by simp) (by simp [saveBits, Io.soft])).congr hwiped.keeps⟩
  · exact Or.inl ⟨by simpa using hdiff, adoptOriginIdLocked_spec c id⟩

/-- A piece that lies wholly below the size is as long in any longer file. -/
theorem len_of_full {pieceSize i n m : Nat} (hps : 0 < pieceSize) (hi : i < n / pieceSize)
    (hle : n ≤ m) : Piece.len m i pieceSize = Piece.len n i pieceSize := by
  have hfull : (i + 1) * pieceSize ≤ n := (Nat.le_div_iff_mul_le hps).mp hi
  rw [Nat.add_mul, Nat.one_mul] at hfull
  unfold Piece.len Piece.offset
  split_ifs <;> omega

theorem lt_div_of_lt {pieceSize i n : Nat} (hps : 0 < pieceSize) (h : Piece.offset i pieceSize < n)
    (hne : i ≠ n / pieceSize ∨ n % pieceSize = 0) : i < n / pieceSize := by
  have hle : i ≤ n / pieceSize := (Nat.le_div_iff_mul_le hps).mpr h.le
  rcases hne with hne | hmod
  · omega
  · rcases Nat.lt_or_ge i (n / pieceSize) with hlt | hge
    · exact hlt
    · have hsplit := Nat.div_add_mod n pieceSize
      have heq : i = n / pieceSize := by omega
      rw [heq, Piece.offset, Nat.mul_comm] at h
      omega

theorem dropWideningPieceMark_spec (pieceSize : Nat) (c : Cached φ δ) :
    (c.dropWideningPieceMark pieceSize).1.size = c.size ∧
      (c.dropWideningPieceMark pieceSize).1.writes = c.writes ∧
      (c.dropWideningPieceMark pieceSize).1.bits.nbits = c.bits.nbits ∧
      KeepsHolders c (c.dropWideningPieceMark pieceSize).1 ∧
      (∀ i, (c.dropWideningPieceMark pieceSize).1.bits.get i = true → c.bits.get i = true ∧
        (c.size = 0 ∨ c.size % pieceSize = 0 ∨ i ≠ min (c.size / pieceSize) maxU32)) ∧
      ∀ o ∈ (c.dropWideningPieceMark pieceSize).2, o.soft = true := by
  unfold dropWideningPieceMark
  dsimp only
  split_ifs with hedge hbit
  · exact ⟨rfl, rfl, rfl, KeepsHolders.refl c, fun i hi => ⟨hi, hedge.imp_right Or.inl⟩, by simp⟩
  · refine ⟨rfl, rfl, Bitfield.nbits_clear .., ⟨rfl, rfl, rfl, rfl⟩, fun i hi => ?_, ?_⟩
    · have hclear : (c.bits.clear (min (c.size / pieceSize) maxU32)).get i = true := hi
      rw [Bitfield.get_clear, Bool.and_eq_true, decide_eq_true_iff] at hclear
      exact ⟨hclear.1, Or.inr (Or.inr fun h => hclear.2 h.symm)⟩
    · simp [saveBits, Io.soft]
  · refine ⟨rfl, rfl, rfl, (removeHash_alike ..).keepsHolders, fun i hi => ?_, by simp⟩
    have hsame : c.bits.get i = true := hi
    refine ⟨hsame, Or.inr (Or.inr fun h => hbit ?_)⟩
    rwa [h] at hsame

/-- The entry grew to at least `n`, kept its generation and holders, and every mark left is of a
piece that is as long as it was. -/
structure Grown (pieceSize : Nat) (c c' : Cached φ δ) (n : Nat) : Prop where
  size_le : c.size ≤ c'.size
  end_le : n ≤ c'.size
  writes : c'.writes = c.writes
  keeps : KeepsHolders c c'
  nbits : c'.bits.nbits ≤ max c.bits.nbits maxU32
  get : ∀ i, c'.bits.get i = true → c.bits.get i = true
  len : c.bits.nbits ≤ maxU32 → ∀ i, c'.bits.get i = true → 0 < Piece.len c.size i pieceSize →
    Piece.len c'.size i pieceSize = Piece.len c.size i pieceSize

theorem Grown.alike {pieceSize n : Nat} {c c' c'' : Cached φ δ} (h : Grown pieceSize c c' n)
    (h' : Alike c' c'') : Grown pieceSize c c'' n where
  size_le := h'.size ▸ h.size_le
  end_le := h'.size ▸ h.end_le
  writes := h'.writes.trans h.writes
  keeps := h.keeps.trans h'.keepsHolders
  nbits := h'.bits ▸ h.nbits
  get i hi := h.get i (h'.bits ▸ hi)
  len hn i hi hpos := by rw [h'.size]; exact h.len hn i (h'.bits ▸ hi) hpos

theorem growToLocked_spec {pieceSize : Nat} (hps : 0 < pieceSize) (c : Cached φ δ) (n : Nat)
    (resized : Bool) :
    Grown pieceSize c (c.growToLocked pieceSize n resized).1 n ∧
      ∀ o ∈ (c.growToLocked pieceSize n resized).2, o.soft = true := by
  unfold growToLocked
  by_cases hend : n ≤ c.size
  · rw [if_pos hend]
    exact ⟨⟨le_rfl, hend, rfl, KeepsHolders.refl c, le_max_left .., fun _ h => h, fun _ _ _ _ => rfl⟩,
      by simp⟩
  · obtain ⟨hsize, hwrites, hnbits, hkeeps, hget, hsoft⟩ := c.dropWideningPieceMark_spec pieceSize
    have hcount := Piece.count_le_maxU32 n pieceSize
    rw [if_neg hend]
    dsimp only
    generalize c.dropWideningPieceMark pieceSize = d at *
    -- whether the field is replaced or not, a mark of the grown entry was one before the resize
    have hmarks : ∀ i, (if d.1.xferBusy then d.1.bits
        else if resized then d.1.bits.resize (Piece.count n pieceSize) else d.1.bits).get i = true →
        d.1.bits.get i = true := by
      intro i hi
      split_ifs at hi
      · exact hi
      · rw [Bitfield.get_resize, Bool.and_eq_true] at hi
        exact hi.1
      · exact hi
    refine ⟨{
      size_le := by dsimp only; omega
      end_le := le_rfl
      writes := hwrites
      keeps := ⟨hkeeps.filling, hkeeps.cacheFd, hkeeps.dead, hkeeps.xfer⟩
      nbits := ?_
      get := fun i hi => (hget i (hmarks i hi)).1
      len := fun hn i hi hpos => ?_ }, hsoft⟩
    · dsimp only
      split_ifs
      · exact hnbits ▸ le_max_left ..
      · exact hcount.trans (le_max_right ..)
      · exact hnbits ▸ le_max_left ..
    · obtain ⟨hbit, hedge⟩ := hget i (hmarks i hi)
      have hstart : Piece.offset i pieceSize < c.size := (Piece.len_pos_iff hps).mp hpos
      have hnamed : i < maxU32 := lt_of_lt_of_le (Bitfield.lt_of_get hbit) hn
      refine len_of_full hps (lt_div_of_lt hps hstart ?_) (by dsimp only; omega)
      rcases hedge with hzero | hmod | hne
      · omega
      · exact Or.inr hmod
      · exact Or.inl (by omega)

/-- The size step of a write-through: an early return over a wipe, a wipe, or a grow. -/
theorem cacheFillSize_cases {pieceSize : Nat} (hps : 0 < pieceSize) (c : Cached φ δ) (n : Nat)
    (id : OriginId) (nowSec : Int) (allocated : Bool) :
    (n < c.size ∧ (∃ m, Wiped c (c.cacheFillSize pieceSize n id nowSec allocated).1 m ∧
        ((c.cacheFillSize pieceSize n id nowSec allocated).2.2 = true → m = n)) ∧
        CutsTo c (c.cacheFillSize pieceSize n id nowSec allocated).2.1 n) ∨
      (c.size ≤ n ∧ Grown pieceSize c (c.cacheFillSize pieceSize n id nowSec allocated).1 n ∧
        ∀ o ∈ (c.cacheFillSize pieceSize n id nowSec allocated).2.1, o.soft = true) := by
  unfold cacheFillSize
  split_ifs with hgrow hshrink halloc
  · obtain ⟨hgrown, hsoft⟩ := growToLocked_spec hps c n allocated
    exact Or.inr ⟨hgrow.le, hgrown.alike (adoptOwnWrite_alike ..), hsoft⟩
  · refine Or.inl ⟨hshrink, ⟨c.size, ?_, by simp⟩, Or.inl (by simp [saveBits, Io.soft])⟩
    exact ⟨rfl, fun i => Bitfield.get_wipe .., le_max_left .., rfl, ⟨rfl, rfl, rfl, rfl⟩⟩
  · have hwiped := reset_spec pieceSize c n
    exact Or.inl ⟨hshrink, ⟨n, hwiped.alike (adoptOwnWrite_alike ..), fun _ => rfl⟩,
      (cutsTo_truncateCacheFd _ n [] _ (by simp) (by simp [saveBits, Io.soft])).congr hwiped.keeps⟩
  · have halike := adoptOwnWrite_alike c id nowSec
    refine Or.inr ⟨by omega, Grown.alike ⟨le_rfl, by omega, rfl, KeepsHolders.refl c, le_max_left ..,
      fun _ h => h, fun _ _ _ _ => rfl⟩ halike, by simp⟩

theorem truncateEntry_cases (pieceSize : Nat) (c : Cached φ δ) (n : Nat) (allocated : Bool) :
    (c.size = n ∧ (c.truncateEntry pieceSize n allocated).1 = c ∧
        CutsTo c (c.truncateEntry pieceSize n allocated).2.1 n) ∨
      (c.size ≠ n ∧ Wiped c (c.truncateEntry pieceSize n allocated).1 n ∧
        CutsTo c (c.truncateEntry pieceSize n allocated).2.1 n) := by
  have hcount := Piece.count_le_maxU32 n pieceSize
  unfold truncateEntry
  split_ifs with hsame hbusy halloc halloc
  · refine Or.inl ⟨hsame, rfl, ?_⟩
    have := cutsTo_truncateCacheFd c n [] [] (by simp) (by simp)
    simpa using this
  all_goals
    have hsplit : ∀ w : Cached φ δ, KeepsHolders c w →
        CutsTo c (w.saveBits false :: w.truncateCacheFd n) n := fun w hw => by
      have := (cutsTo_truncateCacheFd w n [w.saveBits false] [] (by simp [saveBits, Io.soft])
        (by simp)).congr hw
      simpa using this
  · exact Or.inr ⟨hsame, ⟨rfl, fun i => by simp [clearHashes, Bitfield.get_resize],
      hcount.trans (le_max_right ..), rfl,
      ⟨rfl, rfl, rfl, rfl⟩⟩, hsplit _ ⟨rfl, rfl, rfl, rfl⟩⟩
  · exact Or.inr ⟨hsame, ⟨rfl, fun i => Bitfield.get_wipe .., le_max_left .., rfl,
      ⟨rfl, rfl, rfl, rfl⟩⟩, hsplit _ ⟨rfl, rfl, rfl, rfl⟩⟩
  · exact Or.inr ⟨hsame, ⟨rfl, fun i => Bitfield.get_init .., hcount.trans (le_max_right ..), rfl,
      ⟨rfl, rfl, rfl, rfl⟩⟩, hsplit _ ⟨rfl, rfl, rfl, rfl⟩⟩
  · exact Or.inr ⟨hsame, ⟨rfl, fun i => Bitfield.get_wipe .., le_max_left .., rfl,
      ⟨rfl, rfl, rfl, rfl⟩⟩, hsplit _ ⟨rfl, rfl, rfl, rfl⟩⟩

/-! ## Descriptor, dead flag and transfers -/

theorem reconcileReset_keepsFile (pieceSize : Nat) (c : Cached φ δ) (n : Nat) (id : OriginId) :
    KeepsFile c (c.reconcileReset pieceSize n id).1 ∧
      CutsTo c (c.reconcileReset pieceSize n id).2 n := by
  rcases c.reconcileReset_cases pieceSize n id with ⟨-, halike, hsoft⟩ | ⟨-, hwiped, hcuts⟩
  · exact ⟨halike.keepsHolders.keepsFile, Or.inl hsoft⟩
  · exact ⟨hwiped.keeps.keepsFile, hcuts⟩

theorem cacheFillSize_keepsFile {pieceSize : Nat} (hps : 0 < pieceSize) (c : Cached φ δ) (n : Nat)
    (id : OriginId) (nowSec : Int) (allocated : Bool) :
    KeepsFile c (c.cacheFillSize pieceSize n id nowSec allocated).1 ∧
      CutsTo c (c.cacheFillSize pieceSize n id nowSec allocated).2.1 n := by
  rcases c.cacheFillSize_cases hps n id nowSec allocated with
    ⟨-, ⟨m, hwiped, -⟩, hcuts⟩ | ⟨-, hgrown, hsoft⟩
  · exact ⟨hwiped.keeps.keepsFile, hcuts⟩
  · exact ⟨hgrown.keeps.keepsFile, Or.inl hsoft⟩

theorem truncateEntry_keepsFile (pieceSize : Nat) (c : Cached φ δ) (n : Nat) (allocated : Bool) :
    KeepsFile c (c.truncateEntry pieceSize n allocated).1 ∧
      CutsTo c (c.truncateEntry pieceSize n allocated).2.1 n := by
  rcases c.truncateEntry_cases pieceSize n allocated with ⟨-, h, hcuts⟩ | ⟨-, hwiped, hcuts⟩
  · rw [h]
    exact ⟨⟨rfl, rfl, rfl⟩, hcuts⟩
  · exact ⟨hwiped.keeps.keepsFile, hcuts⟩

end Cached

end ModelFs
