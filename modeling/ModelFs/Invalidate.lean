import ModelFs.Resize

/-!
# Sections that mark a write-through and sections that drop marks

`copyIntoCache` after its write, `distrust`, `forget`, `punchPiece`, `healPiece` and the save of a
discarded sidecar load.

* `markCopy_cases` — a write-through's last section does nothing, marks pieces its bytes fill,
  or unmarks the pieces it overlaps.
* `lookup_markCopy_copied`, `markCopy_uncopied` — the digests it leaves.
* `punchPiece_cases` — a punch holes the piece whose mark it cleared, or leaves every mark.
-/

namespace ModelFs

namespace Cached

variable {φ δ β : Type} [DecidableEq δ]

/-! ## The mark section of `copyIntoCache` -/

/-- The bytes of piece `i` in a write of `data` at `off`. -/
def pieceSlice (pieceSize off : Nat) (data : List β) (i : Nat) : List β :=
  (data.drop (Piece.offset i pieceSize - off)).take pieceSize

/-- The retry check: the write is a whole number of pieces and all of them are marked. -/
def coversMarked (pieceSize : Nat) (c : Cached φ δ) (off : Nat) (data : List β) : Bool :=
  let cov := Piece.fullCover ⟨off, data.length⟩ pieceSize
  cov.start < cov.stop && Piece.offset cov.start pieceSize == off &&
    Piece.offset cov.stop pieceSize - off == data.length && c.bits.allSet cov.start cov.stop

/-- The first fully covered piece whose recorded digest is not that of the write's bytes. -/
def firstChanged (digest : List β → δ) (pieceSize : Nat) (c : Cached φ δ) (off : Nat)
    (data : List β) : Option Nat :=
  let cov := Piece.fullCover ⟨off, data.length⟩ pieceSize
  (List.range' cov.start (cov.stop - cov.start)).find? fun i =>
    c.hashes.lookup i ≠ some (digest (pieceSlice pieceSize off data i))

/-- Where a write-through starts to mark: at its first fully covered piece, or at the first one a
retry finds changed. -/
def copyStart (digest : List β → δ) (pieceSize : Nat) (c : Cached φ δ) (off : Nat)
    (data : List β) : Nat :=
  let cov := Piece.fullCover ⟨off, data.length⟩ pieceSize
  if c.coversMarked pieceSize off data then
    (c.firstChanged digest pieceSize off data).getD cov.start
  else cov.start

/-- A write-through with every byte in the cache sets the mark of piece `i`. -/
def copySets (digest : List β → δ) (pieceSize : Nat) (c : Cached φ δ) (off : Nat) (data : List β)
    (i : Nat) : Bool :=
  !c.dead &&
    !(c.coversMarked pieceSize off data && (c.firstChanged digest pieceSize off data).isNone) &&
    c.copyStart digest pieceSize off data ≤ i &&
    i < (Piece.fullCover ⟨off, data.length⟩ pieceSize).stop

/-- Mark the pieces `[start, stop)` of a landed write and record their digests. -/
def markCovered (digest : List β → δ) (pieceSize : Nat) (c : Cached φ δ) (off : Nat)
    (data : List β) (start stop : Nat) : Cached φ δ :=
  (List.range' start (stop - start)).foldl
    (fun c i =>
      putHash { c with bits := c.bits.set i } i (digest (pieceSlice pieceSize off data i)))
    c

/-- Forget the digests of the pieces `[start, stop)`. -/
def removeHashes (c : Cached φ δ) (start stop : Nat) : Cached φ δ :=
  (List.range' start (stop - start)).foldl removeHash c

/-- Clear the marks of the pieces `[start, stop)` and forget their digests. -/
def unmarkCovered (c : Cached φ δ) (start stop : Nat) : Cached φ δ :=
  (List.range' start (stop - start)).foldl
    (fun c i => removeHash { c with bits := c.bits.clear i } i) c

/-- What `copyIntoCache` does under `file.mu` after its write. `copied` is whether the bytes
reached the cache. -/
def markCopy (digest : List β → δ) (pieceSize : Nat) (c : Cached φ δ) (off : Nat) (data : List β)
    (copied : Bool) : Cached φ δ × List (Io φ) × Bool :=
  if c.dead then (c, [], false)
  else
    let cov := Piece.fullCover ⟨off, data.length⟩ pieceSize
    let retried := c.coversMarked pieceSize off data
    if retried && (c.firstChanged digest pieceSize off data).isNone then (c, [], true)
    else
      let hashStart := if retried then (c.firstChanged digest pieceSize off data).getD cov.start
        else cov.start
      let span := Piece.cover ⟨off, data.length⟩ c.size pieceSize
      let bumped := { c with writes := c.writes + 1 }
      let marked :=
        if copied then
          ((bumped.markCovered digest pieceSize off data hashStart cov.stop).removeHashes
            span.start (min span.stop cov.start)).removeHashes (max span.start cov.stop) span.stop
        else bumped.unmarkCovered span.start span.stop
      (marked, [marked.saveBits false], copied)

/-! ## Dropping marks -/

omit [DecidableEq δ]

def distrust (c : Cached φ δ) : Cached φ δ × List (Io φ) :=
  (clearHashes { c with bits := c.bits.wipe, writes := c.writes + 1 }, [.unlinkMeta])

/-- The `file.mu` window of `forget`. -/
def forget (c : Cached φ δ) : Cached φ δ × List (Io φ) :=
  ({ c with bits := c.bits.wipe, dead := true }, [.unlinkData, .unlinkMeta, .unlinkPin])

/-- Whether `sys.punchHole` cuts a hole of `len` bytes, `granted` being what the file system says to
it: `fallocate` refuses a hole of length 0. -/
def punchHole (len : Nat) (granted : Bool) : Bool := granted && decide (0 < len)

/-- What the outside answers `punchPiece`. -/
structure PunchEnv (φ : Type) where
  nowSec : Int
  pinned : Bool
  opened : Option φ
  saved : Bool
  /-- A cache read raised `xfer` while the durable save ran. -/
  lateXfer : Bool
  punched : Bool

def punchPiece (pieceSize : Nat) (c : Cached φ δ) (idx : Nat) (env : PunchEnv φ) :
    Cached φ δ × List (Io φ) × Bool :=
  if satSubI64 env.nowSec c.lastAccess < recencySecs then (c, [], false)
  else if env.pinned then (c, [], false)
  else if idx ∈ c.filling then (c, [], false)
  else if c.xferBusy then (c, [], false)
  else if !c.bits.get idx then (c, [], false)
  else
    let o := c.openCacheUnlocked env.opened
    match o.1.cacheFd with
    | none => (o.1, o.2, false)
    | some fd =>
      let off := Piece.offset idx pieceSize
      let ln := Piece.len o.1.size idx pieceSize
      let cleared := { o.1 with bits := o.1.bits.clear idx }
      let restored := { cleared with bits := cleared.bits.set idx }
      if !env.saved || env.lateXfer || !punchHole ln env.punched then
        (restored, o.2 ++ [cleared.saveBits true, restored.saveBits false], false)
      else (cleared, o.2 ++ [cleared.saveBits true, .punch fd off ln], true)

def healPiece (c : Cached φ δ) (idx : Nat) : Cached φ δ × List (Io φ) :=
  if c.dead then (c, [])
  else if !c.bits.get idx then (c, [])
  else
    let cleared := { c with bits := c.bits.clear idx }
    (cleared, [cleared.saveBits false])

def persistDiscardedWipe (c : Cached φ δ) : List (Io φ) :=
  if c.dead then [] else [c.saveBits false]

/-! ## What the sections leave -/

/-- Size, generation and holders are as they were, and no mark is new. -/
structure Narrowed (c c' : Cached φ δ) : Prop where
  size : c'.size = c.size
  writes : c'.writes = c.writes
  keeps : KeepsHolders c c'
  nbits : c'.bits.nbits = c.bits.nbits
  get : ∀ i, c'.bits.get i = true → c.bits.get i = true

theorem Alike.narrowed {c c' : Cached φ δ} (h : Alike c c') : Narrowed c c' :=
  ⟨h.size, h.writes, h.keepsHolders, by rw [h.bits], fun i hi => h.bits ▸ hi⟩

theorem distrust_wiped (c : Cached φ δ) : Wiped c c.distrust.1 c.size :=
  ⟨rfl, fun _ => Bitfield.get_wipe .., le_max_left .., rfl, ⟨rfl, rfl, rfl, rfl⟩⟩

theorem distrust_soft (c : Cached φ δ) : ∀ o ∈ c.distrust.2, o.soft = true := by
  simp [distrust, Io.soft]

theorem healPiece_spec (c : Cached φ δ) (idx : Nat) :
    Narrowed c (c.healPiece idx).1 ∧ ∀ o ∈ (c.healPiece idx).2, o.soft = true := by
  unfold healPiece
  split_ifs
  · exact ⟨(Alike.refl c).narrowed, by simp⟩
  · exact ⟨(Alike.refl c).narrowed, by simp⟩
  · refine ⟨⟨rfl, rfl, ⟨rfl, rfl, rfl, rfl⟩, Bitfield.nbits_clear .., fun i hi => ?_⟩,
      by simp [saveBits, Io.soft]⟩
    have hclear : (c.bits.clear idx).get i = true := hi
    rw [Bitfield.get_clear, Bool.and_eq_true] at hclear
    exact hclear.1

theorem get_set_clear {b : Bitfield} {idx : Nat} (h : b.get idx = true) (i : Nat) :
    ((b.clear idx).set idx).get i = b.get i := by
  have hlt := Bitfield.lt_of_get h
  rw [Bitfield.get_set, Bitfield.get_clear, Bitfield.nbits_clear]
  by_cases hi : idx = i
  · subst hi
    simp [h, hlt]
  · simp [hi]

/-- What a punch does past its first checks: nothing but the open, the mark cleared and put back
with a save of each, or the cleared mark saved for good and the hole. -/
theorem punchPiece_outcomes (pieceSize : Nat) (c : Cached φ δ) (idx : Nat) (env : PunchEnv φ) :
    c.punchPiece pieceSize idx env = (c, [], false) ∨
      (c.bits.get idx = true ∧ c.xfer = 0 ∧ idx ∉ c.filling ∧
        ∀ o, o = c.openCacheUnlocked env.opened →
          c.punchPiece pieceSize idx env = (o.1, o.2, false) ∨
          c.punchPiece pieceSize idx env =
            ({ o.1 with bits := (o.1.bits.clear idx).set idx },
              o.2 ++ [saveBits { o.1 with bits := o.1.bits.clear idx } true,
                saveBits { o.1 with bits := (o.1.bits.clear idx).set idx } false], false) ∨
          env.saved = true ∧ ∃ fd, o.1.cacheFd = some fd ∧
            c.punchPiece pieceSize idx env =
              ({ o.1 with bits := o.1.bits.clear idx },
                o.2 ++ [saveBits { o.1 with bits := o.1.bits.clear idx } true,
                  .punch fd (Piece.offset idx pieceSize) (Piece.len o.1.size idx pieceSize)],
                true)) := by
  unfold punchPiece
  by_cases hrecent : satSubI64 env.nowSec c.lastAccess < recencySecs
  · rw [if_pos hrecent]
    exact Or.inl rfl
  by_cases hpinned : env.pinned = true
  · rw [if_neg hrecent, if_pos hpinned]
    exact Or.inl rfl
  by_cases hfilling : idx ∈ c.filling
  · rw [if_neg hrecent, if_neg hpinned, if_pos hfilling]
    exact Or.inl rfl
  by_cases hbusy : c.xferBusy = true
  · rw [if_neg hrecent, if_neg hpinned, if_neg hfilling, if_pos hbusy]
    exact Or.inl rfl
  by_cases hbit : (!c.bits.get idx) = true
  · rw [if_neg hrecent, if_neg hpinned, if_neg hfilling, if_neg hbusy, if_pos hbit]
    exact Or.inl rfl
  rw [if_neg hrecent, if_neg hpinned, if_neg hfilling, if_neg hbusy, if_neg hbit]
  refine Or.inr ⟨by simpa using hbit, by simpa [xferBusy] using hbusy, hfilling, ?_⟩
  rintro o rfl
  generalize c.openCacheUnlocked env.opened = o
  dsimp only
  cases hfd : o.1.cacheFd with
  | none => exact Or.inl rfl
  | some fd =>
    dsimp only
    by_cases hback : (!env.saved || env.lateXfer ||
        !punchHole (Piece.len o.1.size idx pieceSize) env.punched) = true
    · rw [if_pos hback, ← hfd]
      exact Or.inr (Or.inl rfl)
    · rw [if_neg hback, ← hfd]
      simp only [Bool.or_eq_true, not_or, Bool.not_eq_true, Bool.not_eq_false'] at hback
      exact Or.inr (Or.inr ⟨hback.1.1, fd, hfd, rfl⟩)

/-- A punch holes the piece whose mark it just cleared, or leaves every mark where it was; past
its first checks the entry is idle and the piece marked and unclaimed. -/
theorem punchPiece_cases (pieceSize : Nat) (c : Cached φ δ) (idx : Nat) (env : PunchEnv φ) :
    c.punchPiece pieceSize idx env = (c, [], false) ∨
      (c.bits.get idx = true ∧ c.xfer = 0 ∧ idx ∉ c.filling ∧
        ((∃ c' io, c.punchPiece pieceSize idx env =
              (c', (c.openCacheUnlocked env.opened).2 ++ io, false) ∧
            Narrowed (c.openCacheUnlocked env.opened).1 c' ∧
            (∀ i, c'.bits.get i = c.bits.get i) ∧ ∀ o ∈ io, o.soft = true) ∨
          ∃ fd save, (c.openCacheUnlocked env.opened).1.cacheFd = some fd ∧ save.soft = true ∧
            c.punchPiece pieceSize idx env =
              ({ (c.openCacheUnlocked env.opened).1 with bits := c.bits.clear idx },
                (c.openCacheUnlocked env.opened).2 ++
                  [save, .punch fd (Piece.offset idx pieceSize) (Piece.len c.size idx pieceSize)],
                true))) := by
  rcases c.punchPiece_outcomes pieceSize idx env with h | ⟨hbit, hidle, hfilling, h⟩
  · exact Or.inl h
  refine Or.inr ⟨hbit, hidle, hfilling, ?_⟩
  have halike := c.openCacheUnlocked_alike env.opened
  have hsize : (c.openCacheUnlocked env.opened).1.size = c.size := halike.size
  have hbits : (c.openCacheUnlocked env.opened).1.bits = c.bits := halike.bits
  rcases h _ rfl with h | h | ⟨-, fd, hfd, h⟩ <;> rw [h]
  · exact Or.inl ⟨_, [], by simp, (Alike.refl _).narrowed, fun i => by rw [hbits], by simp⟩
  · have hback : ∀ i, (((c.openCacheUnlocked env.opened).1.bits.clear idx).set idx).get i =
        c.bits.get i := fun i => by
      rw [get_set_clear (by rw [hbits]; exact hbit), hbits]
    refine Or.inl ⟨_, _, rfl, ?_, hback, by simp [saveBits, Io.soft]⟩
    exact ⟨rfl, rfl, ⟨rfl, rfl, rfl, rfl⟩, by simp, fun i hi => by rw [hbits, ← hback i]; exact hi⟩
  · refine Or.inr ⟨fd, _, hfd, ?_, by rw [hsize, hbits]⟩
    rfl

theorem punchPiece_xfer (pieceSize : Nat) (c : Cached φ δ) (idx : Nat) (env : PunchEnv φ) :
    (c.punchPiece pieceSize idx env).1.xfer = c.xfer := by
  have halike := c.openCacheUnlocked_alike env.opened
  rcases c.punchPiece_cases pieceSize idx env with
    h | ⟨-, -, -, ⟨c', io, h, hnarrow, -⟩ | ⟨fd, save, -, -, h⟩⟩ <;> rw [h]
  · exact hnarrow.keeps.xfer.trans halike.xfer
  · exact halike.xfer

/-! ## What a write-through leaves -/

variable (digest : List β → δ) (pieceSize : Nat) (off : Nat) (data : List β)

theorem removeHashes_alike (c : Cached φ δ) (start stop : Nat) :
    Alike c (c.removeHashes start stop) := by
  unfold removeHashes
  induction List.range' start (stop - start) generalizing c with
  | nil => exact Alike.refl c
  | cons k ks ih => exact (removeHash_alike c k).trans (ih (c.removeHash k))

/-- Size, generation and holders as they were, and the marks changed by `p` and `q`: those of `p`
may be new, those of `q` are gone. -/
structure Marked (c c' : Cached φ δ) (p q : Nat → Prop) : Prop where
  size : c'.size = c.size
  writes : c'.writes = c.writes
  keeps : KeepsHolders c c'
  nbits : c'.bits.nbits = c.bits.nbits
  get : ∀ i, c'.bits.get i = true → c.bits.get i = true ∧ ¬ q i ∨ p i

theorem Marked.alike {c c' c'' : Cached φ δ} {p q : Nat → Prop} (h : Marked c c' p q)
    (h' : Alike c' c'') : Marked c c'' p q :=
  ⟨h'.size.trans h.size, h'.writes.trans h.writes, h.keeps.trans h'.keepsHolders,
    by rw [h'.bits, h.nbits], fun i hi => h.get i (h'.bits ▸ hi)⟩

theorem Marked.weaken {c c' : Cached φ δ} {p p' q q' : Nat → Prop} (h : Marked c c' p q)
    (hp : ∀ i, p i → p' i) (hq : ∀ i, q' i → q i) : Marked c c' p' q' :=
  ⟨h.size, h.writes, h.keeps, h.nbits, fun i hi =>
    (h.get i hi).imp (fun hold => ⟨hold.1, fun hgone => hold.2 (hq i hgone)⟩) (hp i)⟩

theorem markCovered_spec (c : Cached φ δ) (start stop : Nat) :
    Marked c (c.markCovered digest pieceSize off data start stop)
      (fun i => start ≤ i ∧ i < stop) (fun _ => False) := by
  have hlist : ∀ i, i ∈ List.range' start (stop - start) → start ≤ i ∧ i < stop := fun i hi => by
    rw [List.mem_range'_1] at hi
    omega
  unfold markCovered
  generalize List.range' start (stop - start) = ks at hlist ⊢
  induction ks generalizing c with
  | nil => exact ⟨rfl, rfl, KeepsHolders.refl c, rfl, fun i hi => Or.inl ⟨hi, id⟩⟩
  | cons k ks ih =>
    rw [List.foldl_cons]
    have hrest := ih (putHash { c with bits := c.bits.set k } k
      (digest (pieceSlice pieceSize off data k))) fun i hi => hlist i (List.mem_cons_of_mem k hi)
    refine ⟨hrest.size, hrest.writes, ?_, ?_, fun i hi => ?_⟩
    · exact ⟨hrest.keeps.filling, hrest.keeps.cacheFd, hrest.keeps.dead, hrest.keeps.xfer⟩
    · exact hrest.nbits.trans (Bitfield.nbits_set ..)
    · rcases hrest.get i hi with ⟨hset, -⟩ | hp
      · have hone : (c.bits.set k).get i = true := hset
        rw [Bitfield.get_set, Bool.or_eq_true, Bool.and_eq_true, decide_eq_true_iff] at hone
        rcases hone with hold | ⟨rfl, -⟩
        · exact Or.inl ⟨hold, id⟩
        · exact Or.inr (hlist k List.mem_cons_self)
      · exact Or.inr hp

theorem unmarkCovered_spec (c : Cached φ δ) (start stop : Nat) :
    Marked c (c.unmarkCovered start stop) (fun _ => False) (fun i => start ≤ i ∧ i < stop) := by
  have hlist : ∀ i, start ≤ i ∧ i < stop → i ∈ List.range' start (stop - start) := fun i hi => by
    rw [List.mem_range'_1]
    omega
  have hfold : ∀ (ks : List Nat) (c : Cached φ δ),
      Marked c (ks.foldl (fun c i => removeHash { c with bits := c.bits.clear i } i) c)
        (fun _ => False) (fun i => i ∈ ks) := by
    intro ks
    induction ks with
    | nil => exact fun c => ⟨rfl, rfl, KeepsHolders.refl c, rfl, fun i hi => Or.inl ⟨hi, by simp⟩⟩
    | cons k ks ih =>
      intro c
      rw [List.foldl_cons]
      have hrest := ih (removeHash { c with bits := c.bits.clear k } k)
      refine ⟨hrest.size, hrest.writes, ?_, ?_, fun i hi => ?_⟩
      · exact ⟨hrest.keeps.filling, hrest.keeps.cacheFd, hrest.keeps.dead, hrest.keeps.xfer⟩
      · exact hrest.nbits.trans (Bitfield.nbits_clear ..)
      · rcases hrest.get i hi with ⟨hclear, hnot⟩ | hp
        · have hone : (c.bits.clear k).get i = true := hclear
          rw [Bitfield.get_clear, Bool.and_eq_true, decide_eq_true_iff] at hone
          exact Or.inl ⟨hone.1, by simpa [List.mem_cons] using ⟨fun h => hone.2 h.symm, hnot⟩⟩
        · exact hp.elim
  have h := hfold (List.range' start (stop - start)) c
  exact ⟨h.size, h.writes, h.keeps, h.nbits, fun i hi => (h.get i hi).imp
    (fun ⟨hbit, hnot⟩ => ⟨hbit, fun hq => hnot (hlist i hq)⟩) id⟩

variable [DecidableEq δ]

theorem start_le_of_firstChanged {c : Cached φ δ} {i : Nat}
    (h : c.firstChanged digest pieceSize off data = some i) :
    (Piece.fullCover ⟨off, data.length⟩ pieceSize).start ≤ i := by
  have hmem := List.mem_of_find?_eq_some h
  rw [List.mem_range'_1] at hmem
  exact hmem.1

/-- The last section of a write-through: nothing on a dead entry and on a retry whose bytes are
already in place; otherwise it bumps the generation and marks pieces its bytes fill, when they
landed, or drops the mark of every piece it overlaps. -/
theorem markCopy_cases (c : Cached φ δ) (ok : Bool) :
    ((c.markCopy digest pieceSize off data ok).1 = c ∧
        (c.markCopy digest pieceSize off data ok).2.1 = []) ∨
      (c.dead = false ∧ (∀ o ∈ (c.markCopy digest pieceSize off data ok).2.1, o.soft = true) ∧
        Marked { c with writes := c.writes + 1 } (c.markCopy digest pieceSize off data ok).1
          (fun i => ok = true ∧ (Piece.fullCover ⟨off, data.length⟩ pieceSize).start ≤ i ∧
            i < (Piece.fullCover ⟨off, data.length⟩ pieceSize).stop)
          (fun i => ok = false ∧ (Piece.cover ⟨off, data.length⟩ c.size pieceSize).start ≤ i ∧
            i < (Piece.cover ⟨off, data.length⟩ c.size pieceSize).stop)) := by
  unfold markCopy
  dsimp only
  by_cases hdead : c.dead = true
  · rw [if_pos hdead]
    exact Or.inl ⟨rfl, rfl⟩
  rw [if_neg hdead]
  by_cases hretry : (c.coversMarked pieceSize off data &&
      (c.firstChanged digest pieceSize off data).isNone) = true
  · rw [if_pos hretry]
    exact Or.inl ⟨rfl, rfl⟩
  rw [if_neg hretry]
  refine Or.inr ⟨by simpa using hdead, by simp [saveBits, Io.soft], ?_⟩
  cases ok with
  | true =>
    have hstart : (Piece.fullCover ⟨off, data.length⟩ pieceSize).start ≤
        if c.coversMarked pieceSize off data then
          (c.firstChanged digest pieceSize off data).getD
            (Piece.fullCover ⟨off, data.length⟩ pieceSize).start
        else (Piece.fullCover ⟨off, data.length⟩ pieceSize).start := by
      split_ifs
      · cases hfirst : c.firstChanged digest pieceSize off data with
        | none => exact le_rfl
        | some i => exact start_le_of_firstChanged digest pieceSize off data hfirst
      · exact le_rfl
    have hmark := markCovered_spec digest pieceSize off data { c with writes := c.writes + 1 }
      (if c.coversMarked pieceSize off data then
          (c.firstChanged digest pieceSize off data).getD
            (Piece.fullCover ⟨off, data.length⟩ pieceSize).start
        else (Piece.fullCover ⟨off, data.length⟩ pieceSize).start)
      (Piece.fullCover ⟨off, data.length⟩ pieceSize).stop
    exact ((hmark.weaken (fun i h => ⟨rfl, hstart.trans h.1, h.2⟩) (by simp)).alike
      (removeHashes_alike _ _ _)).alike (removeHashes_alike _ _ _)
  | false =>
    have hunmark := unmarkCovered_spec { c with writes := c.writes + 1 }
      (Piece.cover ⟨off, data.length⟩ c.size pieceSize).start
      (Piece.cover ⟨off, data.length⟩ c.size pieceSize).stop
    exact hunmark.weaken (fun _ => False.elim) fun i h => h.2

/-- A mark after the last section of a write-through is an old one or one it sets. -/
theorem get_markCopy {c : Cached φ δ} {ok : Bool} {i : Nat}
    (h : (c.markCopy digest pieceSize off data ok).1.bits.get i = true) :
    c.bits.get i = true ∨ ok = true ∧ c.copySets digest pieceSize off data i = true := by
  unfold markCopy at h
  dsimp only at h
  by_cases hdead : c.dead = true
  · rw [if_pos hdead] at h
    exact Or.inl h
  rw [if_neg hdead] at h
  by_cases hretry : (c.coversMarked pieceSize off data &&
      (c.firstChanged digest pieceSize off data).isNone) = true
  · rw [if_pos hretry] at h
    exact Or.inl h
  rw [if_neg hretry] at h
  cases ok with
  | true =>
    have hmark := markCovered_spec digest pieceSize off data { c with writes := c.writes + 1 }
      (c.copyStart digest pieceSize off data) (Piece.fullCover ⟨off, data.length⟩ pieceSize).stop
    have hall := (hmark.alike (removeHashes_alike _
      (Piece.cover ⟨off, data.length⟩ c.size pieceSize).start
      (min (Piece.cover ⟨off, data.length⟩ c.size pieceSize).stop
        (Piece.fullCover ⟨off, data.length⟩ pieceSize).start))).alike (removeHashes_alike _
      (max (Piece.cover ⟨off, data.length⟩ c.size pieceSize).start
        (Piece.fullCover ⟨off, data.length⟩ pieceSize).stop)
      (Piece.cover ⟨off, data.length⟩ c.size pieceSize).stop)
    rcases hall.get i h with ⟨hold, -⟩ | ⟨hlo, hhi⟩
    · exact Or.inl hold
    · refine Or.inr ⟨rfl, ?_⟩
      have hlive : c.dead = false := by simpa using hdead
      rw [Bool.not_eq_true] at hretry
      simp only [copySets, hlive, hretry, Bool.not_false, Bool.true_and, Bool.and_eq_true,
        decide_eq_true_iff]
      exact ⟨hlo, hhi⟩
  | false =>
    have hunmark := unmarkCovered_spec { c with writes := c.writes + 1 }
      (Piece.cover ⟨off, data.length⟩ c.size pieceSize).start
      (Piece.cover ⟨off, data.length⟩ c.size pieceSize).stop
    rcases hunmark.get i h with ⟨hold, -⟩ | hnone
    · exact Or.inl hold
    · exact hnone.elim

/-- The last section of a write-through saves nothing, or what it leaves. -/
theorem markCopy_saves (c : Cached φ δ) (ok : Bool) :
    (c.markCopy digest pieceSize off data ok).2.1 = [] ∨
      (c.markCopy digest pieceSize off data ok).2.1 =
        [(c.markCopy digest pieceSize off data ok).1.saveBits false] := by
  unfold markCopy
  split
  · exact Or.inl rfl
  · dsimp only
    split
    · exact Or.inl rfl
    · exact Or.inr rfl

omit [DecidableEq δ] in
theorem originId_foldl {f : Cached φ δ → Nat → Cached φ δ}
    (hf : ∀ c k, (f c k).originId = c.originId) (ks : List Nat) (c : Cached φ δ) :
    (ks.foldl f c).originId = c.originId := by
  induction ks generalizing c with
  | nil => rfl
  | cons k ks ih => exact (ih (f c k)).trans (hf c k)

theorem originId_markCopy (c : Cached φ δ) (ok : Bool) :
    (c.markCopy digest pieceSize off data ok).1.originId = c.originId := by
  unfold markCopy
  split
  · rfl
  · dsimp only
    split
    · rfl
    · cases ok with
      | true =>
        rw [if_pos rfl]
        unfold removeHashes markCovered
        refine (originId_foldl ?_ _ _).trans ((originId_foldl ?_ _ _).trans (originId_foldl ?_ _ _))
        all_goals exact fun _ _ => rfl
      | false =>
        rw [if_neg Bool.false_ne_true]
        unfold unmarkCovered
        refine originId_foldl ?_ _ _
        exact fun _ _ => rfl

theorem markCopy_keepsFile (c : Cached φ δ) (ok : Bool) :
    KeepsFile c (c.markCopy digest pieceSize off data ok).1 ∧
      ∀ o ∈ (c.markCopy digest pieceSize off data ok).2.1, o.soft = true := by
  rcases markCopy_cases digest pieceSize off data c ok with ⟨h, hio⟩ | ⟨-, hsoft, h⟩
  · rw [h, hio]
    exact ⟨⟨rfl, rfl, rfl⟩, by simp⟩
  · exact ⟨⟨h.keeps.cacheFd, h.keeps.dead, h.keeps.xfer⟩, hsoft⟩

end Cached

/-! ## Digests after a write-through -/

namespace Cached

variable {φ δ β : Type}

/-- A loop that sets or drops the digest of one piece after the other. -/
theorem lookup_foldl {f : Cached φ δ → Nat → Cached φ δ} {v : Nat → Option δ}
    (hf : ∀ c k i, (f c k).hashes.lookup i = if i = k then v i else c.hashes.lookup i)
    (ks : List Nat) (c : Cached φ δ) (i : Nat) :
    (ks.foldl f c).hashes.lookup i = if i ∈ ks then v i else c.hashes.lookup i := by
  induction ks generalizing c with
  | nil => simp
  | cons k ks ih =>
    rw [List.foldl_cons, ih, hf]
    by_cases hk : i = k
    · simp [hk]
    · simp [hk]

theorem lookup_removeHash (c : Cached φ δ) (k i : Nat) :
    (c.removeHash k).hashes.lookup i = if i = k then none else c.hashes.lookup i := by
  by_cases hk : i = k
  · subst hk
    simp [removeHash]
  · simp [removeHash, hk, AList.lookup_erase_ne]

theorem lookup_putHash (c : Cached φ δ) (k : Nat) (h : δ) (i : Nat) :
    (c.putHash k h).hashes.lookup i = if i = k then some h else c.hashes.lookup i := by
  by_cases hk : i = k
  · subst hk
    simp [putHash]
  · simp [putHash, hk, AList.lookup_insert_ne]

theorem mem_pieces {i start stop : Nat} :
    i ∈ List.range' start (stop - start) ↔ start ≤ i ∧ i < stop := by
  rw [List.mem_range'_1]
  omega

theorem lookup_removeHashes (c : Cached φ δ) (start stop i : Nat) :
    (c.removeHashes start stop).hashes.lookup i =
      if start ≤ i ∧ i < stop then none else c.hashes.lookup i := by
  unfold removeHashes
  rw [lookup_foldl lookup_removeHash]
  simp only [mem_pieces]

theorem lookup_unmarkCovered (c : Cached φ δ) (start stop i : Nat) :
    (c.unmarkCovered start stop).hashes.lookup i =
      if start ≤ i ∧ i < stop then none else c.hashes.lookup i := by
  unfold unmarkCovered
  rw [lookup_foldl fun c k => lookup_removeHash { c with bits := c.bits.clear k } k]
  simp only [mem_pieces]

theorem lookup_markCovered (digest : List β → δ) (pieceSize : Nat) (c : Cached φ δ) (off : Nat)
    (data : List β) (start stop i : Nat) :
    (c.markCovered digest pieceSize off data start stop).hashes.lookup i =
      if start ≤ i ∧ i < stop then some (digest (pieceSlice pieceSize off data i))
      else c.hashes.lookup i := by
  have hput : ∀ (c : Cached φ δ) (k i : Nat),
      (putHash { c with bits := c.bits.set k } k
        (digest (pieceSlice pieceSize off data k))).hashes.lookup i =
        if i = k then some (digest (pieceSlice pieceSize off data i))
        else c.hashes.lookup i := by
    intro c k i
    rw [lookup_putHash]
    split_ifs with hk
    · rw [hk]
    · rfl
  unfold markCovered
  rw [lookup_foldl hput]
  simp only [mem_pieces]

variable [DecidableEq δ] {digest : List β → δ} {pieceSize off : Nat} {c : Cached φ δ}
  {data : List β}

/-- The retry path of `copyIntoCache`: every piece of the range is marked, under the digest of the
bytes at hand. -/
def retries (digest : List β → δ) (pieceSize : Nat) (c : Cached φ δ) (off : Nat)
    (data : List β) : Bool :=
  c.coversMarked pieceSize off data && (c.firstChanged digest pieceSize off data).isNone

theorem markCopy_of_dead (hdead : c.dead = true) (ok : Bool) :
    c.markCopy digest pieceSize off data ok = (c, [], false) := if_pos hdead

theorem markCopy_of_retries (hlive : c.dead = false)
    (hretry : c.retries digest pieceSize off data = true) (ok : Bool) :
    c.markCopy digest pieceSize off data ok = (c, [], true) := by
  unfold markCopy
  rw [if_neg (by simp [hlive])]
  exact if_pos hretry

/-- Before the first changed piece of a retry the recorded digests are those of the bytes. -/
theorem lookup_of_lt_copyStart {i : Nat}
    (hlo : (Piece.fullCover ⟨off, data.length⟩ pieceSize).start ≤ i)
    (hhi : i < (Piece.fullCover ⟨off, data.length⟩ pieceSize).stop)
    (hlt : i < c.copyStart digest pieceSize off data) :
    c.hashes.lookup i = some (digest (pieceSlice pieceSize off data i)) := by
  unfold copyStart at hlt
  dsimp only at hlt
  split at hlt
  · cases hfirst : c.firstChanged digest pieceSize off data with
    | none => rw [hfirst, Option.getD_none] at hlt; omega
    | some k =>
      rw [hfirst, Option.getD_some] at hlt
      obtain ⟨-, before, after, hsplit, hbefore⟩ := List.find?_eq_some_iff_append.mp hfirst
      have hsorted : (before ++ k :: after).Pairwise (· < ·) := by
        rw [← hsplit]
        exact List.pairwise_lt_range'
      have hmem : i ∈ before ++ k :: after := by
        rw [← hsplit]
        exact mem_pieces.mpr ⟨hlo, hhi⟩
      rcases List.mem_append.mp hmem with hin | hin
      · have hsame := hbefore i hin
        simpa using hsame
      · rw [List.pairwise_append] at hsorted
        rcases List.mem_cons.mp hin with rfl | hlater
        · exact absurd hlt (lt_irrefl _)
        · have := List.rel_of_pairwise_cons hsorted.2.1 hlater
          omega
  · omega

/-- A retry has the digest of each piece of its range on record. -/
theorem lookup_of_retries (hretry : c.retries digest pieceSize off data = true) {i : Nat}
    (hlo : (Piece.fullCover ⟨off, data.length⟩ pieceSize).start ≤ i)
    (hhi : i < (Piece.fullCover ⟨off, data.length⟩ pieceSize).stop) :
    c.hashes.lookup i = some (digest (pieceSlice pieceSize off data i)) := by
  unfold retries at hretry
  rw [Bool.and_eq_true, Option.isNone_iff_eq_none] at hretry
  have hnone := List.find?_eq_none.mp hretry.2 i (mem_pieces.mpr ⟨hlo, hhi⟩)
  simpa using hnone

/-- A copied write that is no retry. -/
theorem markCopy_copied_eq (hlive : c.dead = false)
    (hretry : c.retries digest pieceSize off data = false) :
    (c.markCopy digest pieceSize off data true).1 =
      (((({ c with writes := c.writes + 1 } : Cached φ δ).markCovered digest pieceSize off data
        (c.copyStart digest pieceSize off data)
        (Piece.fullCover ⟨off, data.length⟩ pieceSize).stop).removeHashes
          (Piece.cover ⟨off, data.length⟩ c.size pieceSize).start
          (min (Piece.cover ⟨off, data.length⟩ c.size pieceSize).stop
            (Piece.fullCover ⟨off, data.length⟩ pieceSize).start)).removeHashes
          (max (Piece.cover ⟨off, data.length⟩ c.size pieceSize).start
            (Piece.fullCover ⟨off, data.length⟩ pieceSize).stop)
          (Piece.cover ⟨off, data.length⟩ c.size pieceSize).stop) := by
  unfold markCopy
  rw [if_neg (by simp [hlive])]
  dsimp only
  unfold retries at hretry
  rw [if_neg (by rw [hretry]; exact Bool.false_ne_true)]
  rfl

/-- A write that was not copied and is no retry. -/
theorem markCopy_uncopied_eq (hlive : c.dead = false)
    (hretry : c.retries digest pieceSize off data = false) :
    (c.markCopy digest pieceSize off data false).1 =
      ({ c with writes := c.writes + 1 } : Cached φ δ).unmarkCovered
        (Piece.cover ⟨off, data.length⟩ c.size pieceSize).start
        (Piece.cover ⟨off, data.length⟩ c.size pieceSize).stop := by
  unfold markCopy
  rw [if_neg (by simp [hlive])]
  dsimp only
  unfold retries at hretry
  rw [if_neg (by rw [hretry]; exact Bool.false_ne_true)]
  rfl

/-- What is no retry moves the generation. -/
theorem writes_markCopy (hlive : c.dead = false)
    (hretry : c.retries digest pieceSize off data = false) (ok : Bool) :
    (c.markCopy digest pieceSize off data ok).1.writes = c.writes + 1 := by
  cases ok with
  | true =>
    rw [markCopy_copied_eq hlive hretry, (removeHashes_alike _ _ _).writes,
      (removeHashes_alike _ _ _).writes]
    exact (markCovered_spec digest pieceSize off data _ _ _).writes
  | false =>
    rw [markCopy_uncopied_eq hlive hretry]
    exact (unmarkCovered_spec _ _ _).writes

/-- **The digests a copied write leaves** in its range: of the pieces it covers those of its
bytes, of the pieces it only touches none. -/
theorem lookup_markCopy_copied (hlive : c.dead = false)
    (hretry : c.retries digest pieceSize off data = false) {i : Nat}
    (hlo : (Piece.cover ⟨off, data.length⟩ c.size pieceSize).start ≤ i)
    (hhi : i < (Piece.cover ⟨off, data.length⟩ c.size pieceSize).stop) :
    (c.markCopy digest pieceSize off data true).1.hashes.lookup i =
      if (Piece.fullCover ⟨off, data.length⟩ pieceSize).start ≤ i ∧
          i < (Piece.fullCover ⟨off, data.length⟩ pieceSize).stop then
        some (digest (pieceSlice pieceSize off data i))
      else none := by
  rw [markCopy_copied_eq hlive hretry, lookup_removeHashes, lookup_removeHashes,
    lookup_markCovered]
  by_cases hcov : (Piece.fullCover ⟨off, data.length⟩ pieceSize).start ≤ i ∧
      i < (Piece.fullCover ⟨off, data.length⟩ pieceSize).stop
  · rw [if_neg (by omega), if_neg (by omega), if_pos hcov]
    by_cases hset : c.copyStart digest pieceSize off data ≤ i
    · rw [if_pos ⟨hset, hcov.2⟩]
    · rw [if_neg (fun h => hset h.1)]
      have hold : c.hashes.lookup i = some (digest (pieceSlice pieceSize off data i)) :=
        lookup_of_lt_copyStart hcov.1 hcov.2 (by omega)
      exact hold
  · rw [if_neg hcov]
    by_cases habove : (Piece.fullCover ⟨off, data.length⟩ pieceSize).stop ≤ i
    · rw [if_pos (by omega)]
    · rw [if_neg (by omega), if_pos (by omega)]

/-- **A write that was not copied** leaves no digest and no mark in its range. -/
theorem markCopy_uncopied (hlive : c.dead = false)
    (hretry : c.retries digest pieceSize off data = false) {i : Nat}
    (hlo : (Piece.cover ⟨off, data.length⟩ c.size pieceSize).start ≤ i)
    (hhi : i < (Piece.cover ⟨off, data.length⟩ c.size pieceSize).stop) :
    (c.markCopy digest pieceSize off data false).1.hashes.lookup i = none ∧
      (c.markCopy digest pieceSize off data false).1.bits.get i = false := by
  rw [markCopy_uncopied_eq hlive hretry, lookup_unmarkCovered, if_pos ⟨hlo, hhi⟩]
  refine ⟨rfl, Bool.eq_false_iff.mpr fun hmark => ?_⟩
  rcases (unmarkCovered_spec _ _ _).get i hmark with ⟨-, hout⟩ | hnone
  · exact hout ⟨hlo, hhi⟩
  · exact hnone

/-- A byte of a covered piece, in the piece's own bytes and in the whole write. -/
theorem getElem?_pieceSlice {i o : Nat} (hoff : off ≤ Piece.offset i pieceSize)
    (hlo : Piece.offset i pieceSize ≤ o) (hhi : o < Piece.offset i pieceSize + pieceSize) :
    (pieceSlice pieceSize off data i)[o - Piece.offset i pieceSize]? = data[o - off]? := by
  unfold pieceSlice
  rw [List.getElem?_take_of_lt (by omega), List.getElem?_drop]
  congr 1
  omega

/-- A byte of a retried range is in a piece the range covers. -/
theorem covered_of_retries {i o : Nat}
    (hretry : c.retries digest pieceSize off data = true) (hlo : off ≤ o)
    (hhi : o < off + data.length) (hfrom : Piece.offset i pieceSize ≤ o)
    (hto : o < Piece.offset i pieceSize + pieceSize) :
    (Piece.fullCover ⟨off, data.length⟩ pieceSize).start ≤ i ∧
      i < (Piece.fullCover ⟨off, data.length⟩ pieceSize).stop := by
  unfold retries coversMarked at hretry
  simp only [Bool.and_eq_true, decide_eq_true_iff, beq_iff_eq] at hretry
  obtain ⟨⟨⟨⟨-, hstart⟩, hlen⟩, -⟩, -⟩ := hretry
  have hnext : Piece.offset (i + 1) pieceSize = Piece.offset i pieceSize + pieceSize := by
    unfold Piece.offset
    ring
  have hbegin : Piece.offset (Piece.fullCover ⟨off, data.length⟩ pieceSize).start pieceSize <
      Piece.offset (i + 1) pieceSize := by omega
  have hend : Piece.offset i pieceSize <
      Piece.offset (Piece.fullCover ⟨off, data.length⟩ pieceSize).stop pieceSize := by omega
  exact ⟨Nat.lt_succ_iff.mp (Nat.lt_of_mul_lt_mul_right hbegin), Nat.lt_of_mul_lt_mul_right hend⟩

end Cached

end ModelFs
