import ModelFs.Lib.Machine
import ModelFs.Sections

/-!
# The storage of the bitfield

A reader that holds a transfer indexes `bits.bytes` without a lock, so while one is in flight the
buffer has to stay where it is and keep its bit count. `Section.fieldOps` lists what each section
of the source does to the field; `Section.run_bits` says that these are what changes it. A state
of `Storage` carries, beside the entry, the allocation its buffer lives in.

* `Storage.pinned_iff_of_run` — **in every run, a section under a transfer keeps the buffer and
  the bit count exactly when it is no truncate that resizes.**
* `Storage.buffer_of_transfer` — over a whole transfer without such a truncate the buffer stays.
* `Storage.run_of_step` — the threads of `Entry` run no other sections than these.
-/

namespace ModelFs

open Cached

/-- What the source does to an entry's field. -/
inductive FieldOp where
  | set (i : Nat)
  | clear (i : Nat)
  /-- `@memset(bytes, 0)`. -/
  | wipe
  /-- `Bitfield.resize`: a `realloc` of the buffer. -/
  | resize (nbits : Nat)
  /-- A fresh `Bitfield.init` takes the field's place, and the old buffer is freed. -/
  | swap (nbits : Nat)

namespace FieldOp

def run (b : Bitfield) : FieldOp → Bitfield
  | .set i => b.set i
  | .clear i => b.clear i
  | .wipe => b.wipe
  | .resize n => b.resize n
  | .swap n => Bitfield.init n

/-- The buffer stays in place: `realloc` moves it on a change of its length only. -/
def inPlace (b : Bitfield) : FieldOp → Bool
  | .resize n => byteLen n == byteLen b.nbits
  | .swap _ => false
  | _ => true

/-- Every operation of the list stays in place, at the field it finds. -/
def allInPlace (b : Bitfield) : List FieldOp → Bool
  | [] => true
  | op :: ops => op.inPlace b && allInPlace (op.run b) ops

/-- The operation sets or clears bits and does nothing else. -/
def marksOnly : FieldOp → Bool
  | .resize _ => false
  | .swap _ => false
  | _ => true

theorem nbits_of_marksOnly {ops : List FieldOp} (h : ∀ op ∈ ops, op.marksOnly = true)
    (b : Bitfield) : allInPlace b ops = true ∧ (ops.foldl run b).nbits = b.nbits := by
  induction ops generalizing b with
  | nil => exact ⟨rfl, rfl⟩
  | cons op ops ih =>
    obtain ⟨hplace, hnbits⟩ := ih (fun o ho => h o (List.mem_cons_of_mem op ho)) (op.run b)
    have hop := h op List.mem_cons_self
    cases op with
    | set i => exact ⟨hplace, hnbits.trans (Bitfield.nbits_set ..)⟩
    | clear i => exact ⟨hplace, hnbits.trans (Bitfield.nbits_clear ..)⟩
    | wipe => exact ⟨hplace, hnbits⟩
    | resize n => exact absurd hop (by simp [marksOnly])
    | swap n => exact absurd hop (by simp [marksOnly])

end FieldOp

namespace Cached

variable {φ δ β : Type}

/-- `dropWideningPieceMark`. -/
def wideningOps (pieceSize : Nat) (c : Cached φ δ) : List FieldOp :=
  if c.size = 0 ∨ c.size % pieceSize = 0 then []
  else if c.bits.get (min (c.size / pieceSize) maxU32) then
    [.clear (min (c.size / pieceSize) maxU32)]
  else []

/-- `growToLocked`. -/
def growOps (pieceSize : Nat) (c : Cached φ δ) (fileEnd : Nat) (resized : Bool) : List FieldOp :=
  if fileEnd ≤ c.size then []
  else c.wideningOps pieceSize ++
    if c.xferBusy then [] else if resized then [.resize (Piece.count fileEnd pieceSize)] else []

/-- The swap of a reset, or the wipe in place under a transfer. -/
def resetOps (pieceSize : Nat) (c : Cached φ δ) (fileSize : Nat) : List FieldOp :=
  if c.xferBusy then [.wipe] else [.swap (Piece.count fileSize pieceSize)]

def reconcileOps (pieceSize : Nat) (c : Cached φ δ) (fileSize : Nat) (id : OriginId) :
    List FieldOp :=
  if c.differs fileSize id then c.resetOps pieceSize fileSize else []

/-- The size step of `cacheFillIdentified`. -/
def shrinkOps (pieceSize : Nat) (c : Cached φ δ) (fileEnd : Nat) (allocated : Bool) :
    List FieldOp :=
  if c.size < fileEnd then c.growOps pieceSize fileEnd allocated
  else if fileEnd < c.size then
    if !c.xferBusy && !allocated then [.wipe] else c.resetOps pieceSize fileEnd
  else []

def truncateOps (pieceSize : Nat) (c : Cached φ δ) (newSize : Nat) (allocated : Bool) :
    List FieldOp :=
  if c.size = newSize then []
  else if c.xferBusy then
    .wipe :: if allocated then [.resize (Piece.count newSize pieceSize)] else []
  else if allocated then [.swap (Piece.count newSize pieceSize)]
  else [.wipe]

def finishOps (pieceSize : Nat) (c : Cached φ δ) (idx : Nat) (ok : Bool) (fillLen : Nat) :
    List FieldOp :=
  if c.dead then [] else if ok && c.claimStands pieceSize idx fillLen then [.set idx] else []

def punchOps (pieceSize : Nat) (c : Cached φ δ) (idx : Nat) (env : PunchEnv φ) : List FieldOp :=
  if satSubI64 env.nowSec c.lastAccess < recencySecs then []
  else if env.pinned then []
  else if idx ∈ c.filling then []
  else if c.xferBusy then []
  else if !c.bits.get idx then []
  else
    match (c.openCacheUnlocked env.opened).1.cacheFd with
    | none => []
    | some _ =>
      if !env.saved || env.lateXfer || !punchHole (Piece.len c.size idx pieceSize) env.punched then
        [.clear idx, .set idx]
      else [.clear idx]

def healOps (c : Cached φ δ) (idx : Nat) : List FieldOp :=
  if c.dead then [] else if !c.bits.get idx then [] else [.clear idx]

/-- The marks of `copyIntoCache`. -/
def copyOps [DecidableEq δ] (digest : List β → δ) (pieceSize : Nat) (c : Cached φ δ) (off : Nat)
    (data : List β) (copied : Bool) : List FieldOp :=
  if c.dead then []
  else
    let cov := Piece.fullCover ⟨off, data.length⟩ pieceSize
    let retried := c.coversMarked pieceSize off data
    if retried && (c.firstChanged digest pieceSize off data).isNone then []
    else if copied then
      let start := if retried then (c.firstChanged digest pieceSize off data).getD cov.start
        else cov.start
      (List.range' start (cov.stop - start)).map .set
    else
      let span := Piece.cover ⟨off, data.length⟩ c.size pieceSize
      (List.range' span.start (span.stop - span.start)).map .clear

/-! ## The operations are what changes the field -/

theorem bits_wideningOps (pieceSize : Nat) (c : Cached φ δ) :
    (c.dropWideningPieceMark pieceSize).1.bits =
      (c.wideningOps pieceSize).foldl FieldOp.run c.bits := by
  unfold dropWideningPieceMark wideningOps
  dsimp only
  split_ifs <;> rfl

theorem bits_growOps (pieceSize : Nat) (c : Cached φ δ) (fileEnd : Nat) (resized : Bool) :
    (c.growToLocked pieceSize fileEnd resized).1.bits =
      (c.growOps pieceSize fileEnd resized).foldl FieldOp.run c.bits := by
  obtain ⟨-, -, -, hkeeps, -⟩ := c.dropWideningPieceMark_spec pieceSize
  have hbusy : (c.dropWideningPieceMark pieceSize).1.xferBusy = c.xferBusy := by
    unfold xferBusy
    rw [hkeeps.xfer]
  unfold growToLocked growOps
  by_cases hend : fileEnd ≤ c.size
  · rw [if_pos hend, if_pos hend]
    rfl
  · rw [if_neg hend, if_neg hend, List.foldl_append, ← bits_wideningOps]
    dsimp only
    rw [hbusy]
    split_ifs <;> rfl

theorem bits_resetOps (pieceSize : Nat) (c : Cached φ δ) (n : Nat) :
    (c.reset pieceSize n).bits = (c.resetOps pieceSize n).foldl FieldOp.run c.bits := by
  unfold reset resetOps
  split_ifs <;> rfl

theorem bits_reconcileOps (pieceSize : Nat) (c : Cached φ δ) (n : Nat) (id : OriginId) :
    (c.reconcileReset pieceSize n id).1.bits =
      (c.reconcileOps pieceSize n id).foldl FieldOp.run c.bits := by
  unfold reconcileReset reconcileOps
  split_ifs
  · exact bits_resetOps ..
  · exact bits_resetOps ..
  · exact (adoptOriginIdLocked_spec c id).1.bits

theorem bits_closeIdle (c : Cached φ δ) (now minIdle : Int) :
    (c.closeIdle now minIdle).bits = c.bits := (c.closeIdle_alike now minIdle).bits

theorem bits_shrinkOps (pieceSize : Nat) (c : Cached φ δ) (fileEnd : Nat) (id : OriginId)
    (now : Int) (allocated : Bool) :
    (c.cacheFillSize pieceSize fileEnd id now allocated).1.bits =
      (c.shrinkOps pieceSize fileEnd allocated).foldl FieldOp.run c.bits := by
  unfold cacheFillSize shrinkOps
  split_ifs
  · exact ((adoptOwnWrite_alike ..).bits).trans (bits_growOps ..)
  · rfl
  · exact ((adoptOwnWrite_alike ..).bits).trans (bits_resetOps ..)
  · exact (adoptOwnWrite_alike ..).bits

theorem bits_truncateOps (pieceSize : Nat) (c : Cached φ δ) (n : Nat) (allocated : Bool) :
    (c.truncateEntry pieceSize n allocated).1.bits =
      (c.truncateOps pieceSize n allocated).foldl FieldOp.run c.bits := by
  unfold truncateEntry truncateOps
  split_ifs <;> rfl

theorem bits_finishOps (pieceSize : Nat) (c : Cached φ δ) (idx : Nat) (ok : Bool) (fillLen : Nat)
    (hash : Option δ) (now : Int) :
    (c.finishPiece pieceSize idx ok fillLen hash now).1.bits =
      (c.finishOps pieceSize idx ok fillLen).foldl FieldOp.run c.bits := by
  unfold finishPiece finishOps
  split_ifs
  · rfl
  · cases hash <;> rfl
  · rfl

theorem bits_punchOps (pieceSize : Nat) (c : Cached φ δ) (idx : Nat) (env : PunchEnv φ) :
    (c.punchPiece pieceSize idx env).1.bits =
      (c.punchOps pieceSize idx env).foldl FieldOp.run c.bits := by
  have hopen : (c.openCacheUnlocked env.opened).1.bits = c.bits :=
    (c.openCacheUnlocked_alike env.opened).bits
  have hsize : (c.openCacheUnlocked env.opened).1.size = c.size :=
    (c.openCacheUnlocked_alike env.opened).size
  unfold punchPiece punchOps
  by_cases hrecent : satSubI64 env.nowSec c.lastAccess < recencySecs
  · rw [if_pos hrecent, if_pos hrecent]
    rfl
  rw [if_neg hrecent, if_neg hrecent]
  by_cases hpinned : env.pinned = true
  · rw [if_pos hpinned, if_pos hpinned]
    rfl
  rw [if_neg hpinned, if_neg hpinned]
  by_cases hfilling : idx ∈ c.filling
  · rw [if_pos hfilling, if_pos hfilling]
    rfl
  rw [if_neg hfilling, if_neg hfilling]
  by_cases hbusy : c.xferBusy = true
  · rw [if_pos hbusy, if_pos hbusy]
    rfl
  rw [if_neg hbusy, if_neg hbusy]
  by_cases hbit : (!c.bits.get idx) = true
  · rw [if_pos hbit, if_pos hbit]
    rfl
  rw [if_neg hbit, if_neg hbit]
  dsimp only
  generalize c.openCacheUnlocked env.opened = o at hopen hsize ⊢
  cases hfd : o.1.cacheFd with
  | none => exact hopen
  | some fd =>
    dsimp only
    rw [← hopen, ← hsize]
    split_ifs <;> rfl

theorem bits_healOps (c : Cached φ δ) (idx : Nat) :
    (c.healPiece idx).1.bits = (c.healOps idx).foldl FieldOp.run c.bits := by
  unfold healPiece healOps
  split_ifs <;> rfl

theorem bits_markCovered (digest : List β → δ) (pieceSize : Nat) (c : Cached φ δ) (off : Nat)
    (data : List β) (start stop : Nat) :
    (c.markCovered digest pieceSize off data start stop).bits =
      ((List.range' start (stop - start)).map FieldOp.set).foldl FieldOp.run c.bits := by
  unfold markCovered
  generalize List.range' start (stop - start) = ks
  induction ks generalizing c with
  | nil => rfl
  | cons k ks ih => exact ih _

theorem bits_unmarkCovered (c : Cached φ δ) (start stop : Nat) :
    (c.unmarkCovered start stop).bits =
      ((List.range' start (stop - start)).map FieldOp.clear).foldl FieldOp.run c.bits := by
  unfold unmarkCovered
  generalize List.range' start (stop - start) = ks
  induction ks generalizing c with
  | nil => rfl
  | cons k ks ih => exact ih _

theorem bits_copyOps [DecidableEq δ] (digest : List β → δ) (pieceSize : Nat) (c : Cached φ δ)
    (off : Nat) (data : List β) (copied : Bool) :
    (c.markCopy digest pieceSize off data copied).1.bits =
      (c.copyOps digest pieceSize off data copied).foldl FieldOp.run c.bits := by
  unfold markCopy copyOps
  by_cases hdead : c.dead = true
  · rw [if_pos hdead, if_pos hdead]
    rfl
  rw [if_neg hdead, if_neg hdead]
  dsimp only
  by_cases hretry : (c.coversMarked pieceSize off data &&
      (c.firstChanged digest pieceSize off data).isNone) = true
  · rw [if_pos hretry, if_pos hretry]
    rfl
  rw [if_neg hretry, if_neg hretry]
  cases copied with
  | true =>
    rw [if_pos rfl, if_pos rfl, (removeHashes_alike _ _ _).bits, (removeHashes_alike _ _ _).bits]
    exact bits_markCovered ..
  | false => exact bits_unmarkCovered ..

end Cached

namespace Section

variable {φ β δ : Type} [DecidableEq δ]

/-- What a section does to the field, in order. -/
def fieldOps (P : Entry.Params β δ) (c : Cached φ δ) : Section φ β δ → List FieldOp
  | .finishPiece idx ok len _ _ => c.finishOps P.pieceSize idx ok len
  | .reconcileReset size id => c.reconcileOps P.pieceSize size id
  | .cacheFillSize fileEnd _ _ allocated => c.shrinkOps P.pieceSize fileEnd allocated
  | .growForWrite fileEnd _ resized => c.growOps P.pieceSize fileEnd resized
  | .truncateEntry size allocated => c.truncateOps P.pieceSize size allocated
  | .markCopy off data copied => c.copyOps P.digest P.pieceSize off data copied
  | .distrust => [.wipe]
  | .forget => [.wipe]
  | .punch idx env => c.punchOps P.pieceSize idx env
  | .heal idx => c.healOps idx
  | _ => []

/-- **What a section leaves of the field is what its operations make of it.** -/
theorem run_bits (P : Entry.Params β δ) (c : Cached φ δ) (sec : Section φ β δ) :
    (sec.run P c).bits = (sec.fieldOps P c).foldl FieldOp.run c.bits := by
  cases sec with
  | beginFill idx now => exact bits_beginFill ..
  | dropClaim idx => rfl
  | finishPiece idx ok len hash now => exact bits_finishOps ..
  | openCache opened => exact (c.openCacheUnlocked_alike opened).bits
  | stamp now => rfl
  | beginXfer => rfl
  | endXfer => rfl
  | closeIdle now minIdle => exact bits_closeIdle ..
  | noteOriginId id => exact (c.noteOriginId_spec id).1.bits
  | reconcileProbe size id => exact (c.reconcileProbe_spec size id).1.bits
  | reconcileReset size id => exact bits_reconcileOps ..
  | cacheFillSize fileEnd id now allocated => exact bits_shrinkOps ..
  | growForWrite fileEnd now resized => exact bits_growOps ..
  | truncateEntry size allocated => exact bits_truncateOps ..
  | markCopy off data copied => exact bits_copyOps ..
  | distrust => rfl
  | forget => rfl
  | stampDead => rfl
  | punch idx env => exact bits_punchOps ..
  | heal idx => exact bits_healOps ..
  | expectedHash idx nowMs => exact (alike_of_manifest P c rfl).bits
  | landManifest gen0 read retryAt => exact (alike_of_manifest P c rfl).bits
  | loadDone => rfl
  | publishDone snapCount => exact (alike_of_manifest P c rfl).bits

/-- The section is a truncate under which the field is resized: another size, another piece
count, and an allocation that succeeds. -/
def Resizes (P : Entry.Params β δ) (c : Cached φ δ) (sec : Section φ β δ) : Prop :=
  ∃ n, sec = .truncateEntry n true ∧ n ≠ c.size ∧ Piece.count n P.pieceSize ≠ c.bits.nbits

end Section

namespace Cached

variable {φ δ β : Type} {c : Cached φ δ}

/-! ## Under a transfer -/

theorem marksOnly_growOps (pieceSize fileEnd : Nat) (resized : Bool) (hbusy : c.xferBusy = true) :
    ∀ op ∈ c.growOps pieceSize fileEnd resized, op.marksOnly = true := by
  unfold growOps wideningOps
  rw [if_pos hbusy]
  split_ifs <;> simp [FieldOp.marksOnly]

theorem marksOnly_resetOps (pieceSize n : Nat) (hbusy : c.xferBusy = true) :
    ∀ op ∈ c.resetOps pieceSize n, op.marksOnly = true := by
  unfold resetOps
  rw [if_pos hbusy]
  simp [FieldOp.marksOnly]

theorem marksOnly_shrinkOps (pieceSize fileEnd : Nat) (allocated : Bool)
    (hbusy : c.xferBusy = true) :
    ∀ op ∈ c.shrinkOps pieceSize fileEnd allocated, op.marksOnly = true := by
  unfold shrinkOps
  split_ifs
  · exact marksOnly_growOps _ _ _ hbusy
  · simp [FieldOp.marksOnly]
  · exact marksOnly_resetOps _ _ hbusy
  · simp

theorem marksOnly_reconcileOps (pieceSize n : Nat) (id : OriginId) (hbusy : c.xferBusy = true) :
    ∀ op ∈ c.reconcileOps pieceSize n id, op.marksOnly = true := by
  unfold reconcileOps
  split_ifs
  · exact marksOnly_resetOps _ _ hbusy
  · simp

theorem marksOnly_finishOps (pieceSize idx : Nat) (ok : Bool) (fillLen : Nat) :
    ∀ op ∈ c.finishOps pieceSize idx ok fillLen, op.marksOnly = true := by
  unfold finishOps
  split_ifs <;> simp [FieldOp.marksOnly]

theorem marksOnly_punchOps (pieceSize idx : Nat) (env : PunchEnv φ) :
    ∀ op ∈ c.punchOps pieceSize idx env, op.marksOnly = true := by
  unfold punchOps
  cases (c.openCacheUnlocked env.opened).1.cacheFd <;> dsimp only <;> split_ifs <;>
    simp [FieldOp.marksOnly]

theorem marksOnly_healOps (idx : Nat) : ∀ op ∈ c.healOps idx, op.marksOnly = true := by
  unfold healOps
  split_ifs <;> simp [FieldOp.marksOnly]

theorem marksOnly_copyOps [DecidableEq δ] (digest : List β → δ) (pieceSize off : Nat)
    (data : List β) (copied : Bool) :
    ∀ op ∈ c.copyOps digest pieceSize off data copied, op.marksOnly = true := by
  intro op hop
  unfold copyOps at hop
  dsimp only at hop
  by_cases hdead : c.dead = true
  · simp [hdead] at hop
  rw [if_neg hdead] at hop
  by_cases hretry : (c.coversMarked pieceSize off data &&
      (c.firstChanged digest pieceSize off data).isNone) = true
  · rw [if_pos hretry] at hop
    exact absurd hop (List.not_mem_nil)
  rw [if_neg hretry] at hop
  cases copied with
  | true =>
    rw [if_pos rfl] at hop
    obtain ⟨i, -, rfl⟩ := List.mem_map.mp hop
    rfl
  | false =>
    rw [if_neg (by simp)] at hop
    obtain ⟨i, -, rfl⟩ := List.mem_map.mp hop
    rfl

/-- Under a transfer a truncate wipes in place, and then resizes if it can. -/
theorem truncateOps_of_busy (pieceSize n : Nat) (allocated : Bool) (hbusy : c.xferBusy = true) :
    c.truncateOps pieceSize n allocated =
      if c.size = n then []
      else if allocated then [.wipe, .resize (Piece.count n pieceSize)] else [.wipe] := by
  unfold truncateOps
  rw [if_pos hbusy]
  split_ifs <;> rfl

end Cached

namespace Section

variable {φ β δ : Type} [DecidableEq δ]

/-- **Under a transfer a section keeps buffer and bit count, unless it resizes.** -/
theorem inPlace_iff (P : Entry.Params β δ) {c : Cached φ δ} (hx : 0 < c.xfer)
    (sec : Section φ β δ) :
    FieldOp.allInPlace c.bits (sec.fieldOps P c) = true ∧
        (sec.run P c).bits.nbits = c.bits.nbits ↔ ¬ sec.Resizes P c := by
  have hbusy : c.xferBusy = true := by simpa [Cached.xferBusy] using Nat.pos_iff_ne_zero.mp hx
  have hmarks : (∀ op ∈ sec.fieldOps P c, op.marksOnly = true) →
      (∀ n, sec ≠ .truncateEntry n true) →
      (FieldOp.allInPlace c.bits (sec.fieldOps P c) = true ∧
        (sec.run P c).bits.nbits = c.bits.nbits ↔ ¬ sec.Resizes P c) := by
    intro h hsec
    have hkept := FieldOp.nbits_of_marksOnly h c.bits
    rw [run_bits]
    refine iff_of_true hkept fun h => ?_
    obtain ⟨n, heq, -⟩ := h
    exact hsec n heq
  cases sec with
  | finishPiece idx ok len hash now => exact hmarks (marksOnly_finishOps _ _ _ _) (by simp)
  | reconcileReset size id => exact hmarks (marksOnly_reconcileOps _ _ _ hbusy) (by simp)
  | cacheFillSize fileEnd id now alloc => exact hmarks (marksOnly_shrinkOps _ _ _ hbusy) (by simp)
  | growForWrite fileEnd now resized => exact hmarks (marksOnly_growOps _ _ _ hbusy) (by simp)
  | markCopy off data copied => exact hmarks (marksOnly_copyOps _ _ _ _ _) (by simp)
  | punch idx env => exact hmarks (marksOnly_punchOps _ _ _) (by simp)
  | heal idx => exact hmarks (marksOnly_healOps _) (by simp)
  | distrust => exact hmarks (by simp [fieldOps, FieldOp.marksOnly]) (by simp)
  | forget => exact hmarks (by simp [fieldOps, FieldOp.marksOnly]) (by simp)
  | truncateEntry size allocated =>
    rw [run_bits]
    show FieldOp.allInPlace c.bits (c.truncateOps P.pieceSize size allocated) = true ∧
      ((c.truncateOps P.pieceSize size allocated).foldl FieldOp.run c.bits).nbits = _ ↔ _
    rw [truncateOps_of_busy _ _ _ hbusy]
    by_cases hsize : c.size = size
    · rw [if_pos hsize]
      refine iff_of_true ⟨rfl, rfl⟩ ?_
      rintro ⟨n, heq, hne, -⟩
      exact hne (by rw [hsize]; injection heq with h; exact h.symm)
    rw [if_neg hsize]
    cases allocated with
    | false =>
      refine iff_of_true ⟨rfl, rfl⟩ fun h => ?_
      obtain ⟨n, heq, -⟩ := h
      injection heq with _ h
      simp at h
    | true =>
      have hresizes : (truncateEntry size true : Section φ β δ).Resizes P c ↔
          Piece.count size P.pieceSize ≠ c.bits.nbits := by
        constructor
        · rintro ⟨n, heq, -, hne⟩
          injection heq with h
          rwa [h]
        · exact fun hne => ⟨size, rfl, fun h => hsize h.symm, hne⟩
      rw [if_pos rfl, hresizes, not_not]
      constructor
      · exact And.right
      · intro heq
        refine ⟨?_, heq⟩
        simp [FieldOp.allInPlace, FieldOp.inPlace, FieldOp.run, heq]
  | _ => exact hmarks (by simp [fieldOps]) (by simp)

end Section

/-! ## Runs -/

namespace Storage

variable {τ β δ φ : Type} [DecidableEq δ]

/-- A section that was run: the entry and its allocation before, and after. -/
structure Taken (φ β δ : Type) where
  sec : Section φ β δ
  before : Cached φ δ
  after : Cached φ δ
  ptr : Nat
  ptr' : Nat

/-- An entry and the allocation behind `bits.bytes`. Allocations are numbered and not reused. -/
structure World (φ β δ : Type) where
  c : Cached φ δ
  ptr : Nat := 0
  next : Nat := 1
  /-- The sections run so far, the last one first. -/
  taken : List (Taken φ β δ) := []

/-- Run a section: an operation that does not stay in place takes a new allocation. -/
def World.exec (P : Entry.Params β δ) (s : World φ β δ) (sec : Section φ β δ) : World φ β δ :=
  let ptr' := if FieldOp.allInPlace s.c.bits (sec.fieldOps P s.c) then s.ptr else s.next
  { c := sec.run P s.c
    ptr := ptr'
    next := s.next + 1
    taken := ⟨sec, s.c, sec.run P s.c, s.ptr, ptr'⟩ :: s.taken }

/-- Some thread runs some section. -/
inductive Step (P : Entry.Params β δ) : World φ β δ → World φ β δ → Prop where
  | exec (s : World φ β δ) (sec : Section φ β δ) : Step P s (s.exec P sec)

/-- The buffer and its bit count are the ones there were. -/
def Taken.Pinned (k : Taken φ β δ) : Prop :=
  k.ptr' = k.ptr ∧ k.after.bits.nbits = k.before.bits.nbits

instance (k : Taken φ β δ) : Decidable k.Pinned := inferInstanceAs (Decidable (_ ∧ _))

/-- What the history says about each section is what the section did, and the allocation in use
is an old one. -/
structure Kept (P : Entry.Params β δ) (s : World φ β δ) : Prop where
  ptr_lt : s.ptr < s.next
  after : ∀ k ∈ s.taken, k.after = k.sec.run P k.before
  ptr : ∀ k ∈ s.taken,
    (k.ptr' = k.ptr ↔ FieldOp.allInPlace k.before.bits (k.sec.fieldOps P k.before) = true)

theorem Kept.exec {P : Entry.Params β δ} {s : World φ β δ} (h : Kept P s) (sec : Section φ β δ) :
    Kept P (s.exec P sec) where
  ptr_lt := by
    have := h.ptr_lt
    unfold World.exec
    dsimp only
    split_ifs <;> omega
  after k hk := by
    rcases List.mem_cons.mp hk with rfl | hold
    · rfl
    · exact h.after k hold
  ptr k hk := by
    rcases List.mem_cons.mp hk with rfl | hold
    · have := h.ptr_lt
      dsimp only
      split_ifs with hplace
      · exact iff_of_true rfl hplace
      · exact iff_of_false (by omega) hplace
    · exact h.ptr k hold

theorem kept_of_run {P : Entry.Params β δ} {Cond : World φ β δ → World φ β δ → Prop}
    {s s' : World φ β δ} (hs : Kept P s) (h : Run (Step P) Cond s s') : Kept P s' :=
  h.invariant (fun _ _ hk hstep _ => by cases hstep; exact hk.exec _) hs

/-- **The buffer under a transfer.** In every run from any entry, a section run while a transfer
is in flight keeps the buffer and its bit count, unless it is a truncate that resizes. -/
theorem pinned_iff_of_run (P : Entry.Params β δ) (c : Cached φ δ) {s : World φ β δ}
    (h : Run (Step P) Always { c := c } s) {k : Taken φ β δ} (hk : k ∈ s.taken)
    (hx : 0 < k.before.xfer) : k.Pinned ↔ ¬ k.sec.Resizes P k.before := by
  have hkept : Kept P s := kept_of_run ⟨Nat.zero_lt_one, by simp, by simp⟩ h
  rw [← Section.inPlace_iff P hx, Taken.Pinned, hkept.ptr k hk, hkept.after k hk]

/-- The step starts under a transfer and is no truncate that resizes. -/
def Busy (P : Entry.Params β δ) (s s' : World φ β δ) : Prop :=
  0 < s.c.xfer ∧ ∀ sec, s' = s.exec P sec → ¬ sec.Resizes P s.c

/-- Over a transfer under which no truncate resizes, a reader's buffer stays where it is. -/
theorem buffer_of_transfer {P : Entry.Params β δ} {s s' : World φ β δ}
    (h : Run (Step P) (Busy P) s s') :
    s'.ptr = s.ptr ∧ s'.c.bits.nbits = s.c.bits.nbits := by
  induction h with
  | refl => exact ⟨rfl, rfl⟩
  | @tail w _ _ hlast ih =>
    obtain ⟨hstep, hx, hsec⟩ := hlast
    cases hstep with
    | exec sec =>
      obtain ⟨hplace, hnbits⟩ := (Section.inPlace_iff P hx sec).mpr (hsec sec rfl)
      refine ⟨?_, hnbits.trans ih.2⟩
      show (if _ then w.ptr else w.next) = s.ptr
      rw [if_pos hplace, ih.1]

theorem run_execs (P : Entry.Params β δ) (s : World φ β δ) (secs : List (Section φ β δ)) :
    ∃ s', Run (Step P) Always s s' ∧ s'.c = Section.runs P s.c secs := by
  induction secs generalizing s with
  | nil => exact ⟨s, Run.refl s, rfl⟩
  | cons sec secs ih =>
    obtain ⟨s', hrun, hc⟩ := ih (s.exec P sec)
    exact ⟨s', Relation.ReflTransGen.head ⟨Step.exec s sec, trivial⟩ hrun, hc⟩

/-- Whatever the threads of `Entry` do in a step, they do by a run of sections. -/
theorem run_of_step [DecidableEq τ] {P : Entry.Params β δ} {w w' : Entry.World τ β δ}
    (h : Entry.Step P w w') (s : World Nat β δ) (hs : s.c = w.c) :
    ∃ s', Run (Step P) Always s s' ∧ s'.c = w'.c := by
  obtain ⟨t, w₁, hcore, rfl⟩ := h
  obtain ⟨secs, hsecs⟩ := hcore.sections
  obtain ⟨s', hrun, hc⟩ := run_execs P s secs
  exact ⟨s', hrun, by rw [hc, hs, ← hsecs]; rfl⟩

/-! ## A truncate that moves the buffer -/

open Entry (smallPieces)

/-- An entry of an 8-byte file in two pieces. -/
def twoPieces : World Nat UInt8 (List UInt8) where
  c := { size := 8, bits := Bitfield.init 2 }

theorem run_sections (s : World Nat UInt8 (List UInt8))
    (secs : List (Section Nat UInt8 (List UInt8))) :
    Run (Step smallPieces) Always s (secs.foldl (fun w sec => w.exec smallPieces sec) s) := by
  induction secs generalizing s with
  | nil => exact Run.refl s
  | cons sec secs ih => exact Relation.ReflTransGen.head ⟨Step.exec s sec, trivial⟩ (ih _)

/-- Under one transfer a write grows the entry, the origin's size shrinks it, and a truncate grows
it again. -/
def resized : World Nat UInt8 (List UInt8) :=
  [.beginXfer, .growForWrite 12 0 true, .reconcileReset 4 {}, .truncateEntry 40 true].foldl
    (fun w sec => w.exec smallPieces sec) twoPieces

/-- The first two keep the buffer, the truncate does not. -/
theorem pinned_iff_of_run_resized : ∃ grow reset cut : Taken Nat UInt8 (List UInt8),
    resized.taken.take 3 = [cut, reset, grow] ∧ grow.Pinned ∧ reset.Pinned ∧ ¬ cut.Pinned := by
  have hrun := run_sections twoPieces
    [.beginXfer, .growForWrite 12 0 true, .reconcileReset 4 {}, .truncateEntry 40 true]
  refine ⟨_, _, _, rfl, ?_, ?_, fun hpinned => ?_⟩
  · refine (pinned_iff_of_run smallPieces twoPieces.c hrun
      (List.mem_cons_of_mem _ (List.mem_cons_of_mem _ List.mem_cons_self)) (by decide)).mpr ?_
    exact fun ⟨n, hsec, _⟩ => nomatch hsec
  · refine (pinned_iff_of_run smallPieces twoPieces.c hrun
      (List.mem_cons_of_mem _ List.mem_cons_self) (by decide)).mpr ?_
    exact fun ⟨n, hsec, _⟩ => nomatch hsec
  · refine (pinned_iff_of_run smallPieces twoPieces.c hrun List.mem_cons_self
      (by decide)).mp hpinned ⟨40, rfl, by decide, by decide⟩

/-- A transfer is in flight, the file is truncated to 40 bytes, and the buffer is another one. -/
theorem buffer_moves_under_transfer :
    ∃ s : World Nat UInt8 (List UInt8), Run (Step smallPieces) Always twoPieces s ∧
      ∃ k ∈ s.taken, 0 < k.before.xfer ∧ k.ptr' ≠ k.ptr ∧
        k.after.bits.nbits ≠ k.before.bits.nbits :=
  ⟨_, run_sections twoPieces [.beginXfer, .truncateEntry 40 true], _, List.mem_cons_self,
    by decide, by decide, by decide⟩

end Storage

end ModelFs
