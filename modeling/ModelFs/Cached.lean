import Mathlib.Data.List.AList
import ModelFs.Bitfield
import ModelFs.OriginId

/-!
# A live cache entry

`Store.Cached` and the sections that claim, land and probe pieces. Each section of the source
that runs under `file.mu` is a function from the entry to the entry and the file operations it
issues, in order; what the outside decides (an allocation, a `stat`, the outcome of an operation
the section waits for) is an argument. The descriptor type `φ` and the digest type `δ` are
parameters: the machines over this layer choose how much of the kernel they show.

The modules after this one add the sections that move the size and the ones that drop marks. Each
section has one lemma that says what it leaves, stated with two frames: `Alike`, nothing but
bookkeeping changed, and `KeepsHolders`, the claims, the descriptor, the dead flag and the
transfers are as they were.

* `beginFill_cases` — a claim is taken on an unmarked, unclaimed piece, or nothing changes.
* `get_finishPiece` — the one mark a finished fill can set.
-/

namespace ModelFs

/-- A file operation a section issues. -/
inductive Io (φ : Type) where
  /-- `saveBits`: the sidecar is rewritten from these fields. -/
  | save (size : Nat) (bits : Bitfield) (originId : OriginId) (durable : Bool)
  /-- `ftruncate` on the cache descriptor. -/
  | cut (fd : φ) (size : Nat)
  /-- `fallocate(PUNCH_HOLE)` on the cache descriptor. -/
  | punch (fd : φ) (off len : Nat)
  | unlinkData
  | unlinkMeta
  | unlinkPin

/-- The operation leaves the data file alone. -/
def Io.soft {φ : Type} : Io φ → Bool
  | .save .. => true
  | .unlinkMeta => true
  | .unlinkPin => true
  | _ => false

/-- The guarded state of a live cache entry. The counters do not wrap: `writes` is 64 bits wide and
goes up by one at a mutation, `xfer` counts what calls have raised and drop before they return. -/
structure Cached (φ δ : Type) where
  size : Nat
  bits : Bitfield
  /-- In-flight fill claims: piece index to the `writes` sampled at `beginFill`. -/
  filling : AList (fun _ : Nat => Nat) := ∅
  cacheFd : Option φ := none
  lastAccess : Int := 0
  /-- Local mutations seen on this entry. -/
  writes : Nat := 0
  dead : Bool := false
  /-- Transfers and cache reads in flight. -/
  xfer : Nat := 0
  /-- Trusted digests by piece. -/
  hashes : AList (fun _ : Nat => δ) := ∅
  manifestSize : Option Nat := none
  manifestRetryAt : Int := 0
  manifestLoading : Bool := false
  manifestDirty : Bool := false
  originId : OriginId := {}

/-- `Store.recency_secs`. -/
def recencySecs : Int := 10

/-- Zig's `-|` on `i64`. -/
def satSubI64 (a b : Int) : Int := max (-(2 ^ 63)) (min (a - b) (2 ^ 63 - 1))

namespace Cached

variable {φ δ : Type}

def xferBusy (c : Cached φ δ) : Bool := c.xfer ≠ 0

def fetchAddXfer (c : Cached φ δ) : Cached φ δ := { c with xfer := c.xfer + 1 }

def fetchSubXfer (c : Cached φ δ) : Cached φ δ := { c with xfer := c.xfer - 1 }

def saveBits (c : Cached φ δ) (durable : Bool) : Io φ :=
  .save c.size c.bits c.originId durable

def clearHashes (c : Cached φ δ) : Cached φ δ :=
  { c with hashes := ∅, manifestSize := none, manifestRetryAt := 0, manifestDirty := true }

/-- `if (file.hashes.remove(k)) file.manifest_dirty = true`. -/
def removeHash (c : Cached φ δ) (k : Nat) : Cached φ δ :=
  { c with
    hashes := c.hashes.erase k
    manifestDirty := c.manifestDirty || (c.hashes.lookup k).isSome }

/-- Cut the live cache descriptor, unless a transfer is reading from it. -/
def truncateCacheFd (c : Cached φ δ) (newSize : Nat) : List (Io φ) :=
  match c.cacheFd with
  | some fd => if c.xferBusy then [] else [.cut fd newSize]
  | none => []

/-- `opened` is what opening the data file by path comes to, asked for only when the entry has
no descriptor; the open cuts the file to the entry's size. -/
def openCacheUnlocked (c : Cached φ δ) (opened : Option φ) : Cached φ δ × List (Io φ) :=
  match c.cacheFd, opened with
  | some _, _ => (c, [])
  | none, some fd => ({ c with cacheFd := some fd }, [.cut fd c.size])
  | none, none => (c, [])

/-! ## Probes -/

def rangeFilled (c : Cached φ δ) (span : Piece.Span) (fileSize pieceSize : Nat) : Bool :=
  if !Piece.rangeTracked span fileSize pieceSize then false
  else
    let cov := Piece.cover span fileSize pieceSize
    c.bits.allSet cov.start cov.stop

def stamp (c : Cached φ δ) (nowSec : Int) : Cached φ δ := { c with lastAccess := nowSec }

def hasPiece (c : Cached φ δ) (idx : Nat) (nowSec : Int) : Cached φ δ × Bool :=
  (c.stamp nowSec, c.bits.get idx)

def touchRangeFilled (c : Cached φ δ) (span : Piece.Span) (fileSize pieceSize : Nat)
    (nowSec : Int) : Cached φ δ × Bool :=
  (c.stamp nowSec, c.rangeFilled span fileSize pieceSize)

def wroteLocally (c : Cached φ δ) : Bool := c.writes ≠ 0

/-- A span that is filled has each byte of its clipped range in a marked piece. -/
theorem marked_of_rangeFilled {c : Cached φ δ} {span : Piece.Span} {fileSize pieceSize o : Nat}
    (hps : 0 < pieceSize) (hfit : pieceSize ≤ maxU32) (hsize : fileSize ≤ maxU64)
    (hfilled : c.rangeFilled span fileSize pieceSize = true) (hlo : span.off ≤ o)
    (hhi : o < min (span.off + span.len) fileSize) : c.bits.get (o / pieceSize) = true := by
  unfold rangeFilled at hfilled
  split_ifs at hfilled with htracked
  have hin := Piece.covered_of_rangeTracked hps hfit hsize (by simpa using htracked) hlo hhi
  exact (Bitfield.allSet_iff ..).mp hfilled _ hin.1.1 hin.1.2

/-- What the covers of a span say, at the limits of the fixed-width arithmetic too. -/
structure CoverLaws (φ δ : Type) (span : Piece.Span) (fileSize pieceSize : Nat) : Prop where
  /-- The cover has the pieces of the file that meet the clipped range. -/
  cover : ∀ i, (Piece.cover span fileSize pieceSize).start ≤ i ∧
      i < (Piece.cover span fileSize pieceSize).stop ↔
    i < Piece.count fileSize pieceSize ∧ ∃ o, (Piece.offset i pieceSize ≤ o ∧
      o < Piece.offset i pieceSize + Piece.len fileSize i pieceSize) ∧
        span.off ≤ o ∧ o < min (span.off + span.len) fileSize
  /-- A tracked range has each byte in a covered piece. -/
  tracked : Piece.rangeTracked span fileSize pieceSize = true → ∀ o, span.off ≤ o →
    o < min (span.off + span.len) fileSize → ∃ i,
      ((Piece.cover span fileSize pieceSize).start ≤ i ∧
        i < (Piece.cover span fileSize pieceSize).stop) ∧
      Piece.offset i pieceSize ≤ o ∧
        o < Piece.offset i pieceSize + Piece.len fileSize i pieceSize
  /-- The full cover has the pieces whose whole nominal span lies in the range. -/
  fullCover : 0 < span.len → ∀ i, (Piece.fullCover span pieceSize).start ≤ i ∧
      i < (Piece.fullCover span pieceSize).stop ↔
    i < 2 ^ 32 - 1 ∧ span.off ≤ i * pieceSize ∧ (i + 1) * pieceSize ≤ span.off + span.len
  /-- A filled range has each byte in a marked piece. -/
  filled : ∀ c : Cached φ δ, c.rangeFilled span fileSize pieceSize = true → ∀ o, span.off ≤ o →
    o < min (span.off + span.len) fileSize → ∃ i, c.bits.get i = true ∧
      Piece.offset i pieceSize ≤ o ∧
        o < Piece.offset i pieceSize + Piece.len fileSize i pieceSize

/-- **The laws of the piece covers**, for every range, size and piece size. -/
theorem cover_laws (φ δ : Type) (off len size : UInt64) {pieceSize : UInt32}
    (hps : pieceSize ≠ 0) :
    CoverLaws φ δ ⟨off.toNat, len.toNat⟩ size.toNat pieceSize.toNat := by
  have hpos : 0 < pieceSize.toNat :=
    Nat.pos_of_ne_zero fun h => hps (UInt32.toNat_inj.mp h)
  have hfit : pieceSize.toNat ≤ maxU32 := Nat.le_sub_one_of_lt pieceSize.toNat_lt
  have hsize : size.toNat ≤ maxU64 := Nat.le_sub_one_of_lt size.toNat_lt
  refine ⟨fun i => Piece.mem_cover_iff hpos hsize, fun htracked o hlo hhi => ?_,
    fun hlen i => Piece.mem_fullCover_iff hpos hfit hlen, fun c hfilled o hlo hhi => ?_⟩
  · exact ⟨_, Piece.covered_of_rangeTracked hpos hfit hsize htracked hlo hhi⟩
  · have hbit := marked_of_rangeFilled hpos hfit hsize hfilled hlo hhi
    have htracked :
        Piece.rangeTracked ⟨off.toNat, len.toNat⟩ size.toNat pieceSize.toNat = true := by
      unfold rangeFilled at hfilled
      split_ifs at hfilled with h
      simpa using h
    exact ⟨_, hbit, (Piece.covered_of_rangeTracked hpos hfit hsize htracked hlo hhi).2⟩

/-- The last piece the bitfield can name of a file of the largest size, under the largest piece. -/
theorem cover_laws_largest :
    CoverLaws Nat Nat ⟨(18446744073709551615 : UInt64).toNat, (1 : UInt64).toNat⟩
      (18446744073709551615 : UInt64).toNat (4294967295 : UInt32).toNat :=
  cover_laws Nat Nat 18446744073709551615 1 18446744073709551615 (by decide)

/-! ## Fills -/

/-- Outcome of claiming one piece for a fill. -/
inductive FillClaim where
  | filled
  | raced
  | len (n : Nat)
  deriving DecidableEq, Repr

/-- One pass of the claim loop; `none` is the pass that finds another claim and sleeps. -/
def beginFill (pieceSize : Nat) (c : Cached φ δ) (idx : Nat) (nowSec : Int) :
    Cached φ δ × Option FillClaim :=
  if c.dead then (c, some .raced)
  else if c.bits.get idx then (c, some .filled)
  else if idx ∈ c.filling then (c, none)
  else
    let claimed := { c with filling := c.filling.insert idx c.writes, lastAccess := nowSec }
    let ln := Piece.len c.size idx pieceSize
    if ln = 0 then ({ claimed with filling := claimed.filling.erase idx }, some .raced)
    else (claimed, some (.len ln))

/-- The check of `completeFill` before its write: true when the claim no longer stands. -/
def fillSkips (pieceSize : Nat) (c : Cached φ δ) (idx bufLen : Nat) : Bool :=
  if c.dead then true
  else if c.bits.get idx then true
  else
    match c.filling.lookup idx with
    | none => true
    | some gen =>
      if gen ≠ c.writes then true else Piece.len c.size idx pieceSize ≠ bufLen

def dropClaim (c : Cached φ δ) (idx : Nat) : Cached φ δ :=
  { c with filling := c.filling.erase idx }

/-- The claim still stands at the mark instant: its generation and its length are the entry's. -/
def claimStands (pieceSize : Nat) (c : Cached φ δ) (idx fillLen : Nat) : Bool :=
  match c.filling.lookup idx with
  | none => false
  | some gen => gen == c.writes && Piece.len c.size idx pieceSize == fillLen

/-- Record a digest: `hashes.put` and the dirty flag. -/
def putHash (c : Cached φ δ) (idx : Nat) (h : δ) : Cached φ δ :=
  { c with hashes := c.hashes.insert idx h, manifestDirty := true }

def finishPiece (pieceSize : Nat) (c : Cached φ δ) (idx : Nat) (ok : Bool) (fillLen : Nat)
    (hash : Option δ) (nowSec : Int) : Cached φ δ × List (Io φ) :=
  if c.dead then (c.dropClaim idx, [])
  else
    let dropped := c.dropClaim idx
    let landed :=
      if ok && c.claimStands pieceSize idx fillLen then
        let marked := { dropped with bits := dropped.bits.set idx, lastAccess := nowSec }
        match hash with
        | some h => marked.putHash idx h
        | none => marked
      else dropped
    (landed, [landed.saveBits false])

def abortFill (pieceSize : Nat) (c : Cached φ δ) (idx : Nat) (nowSec : Int) :
    Cached φ δ × List (Io φ) :=
  c.finishPiece pieceSize idx false 0 none nowSec

/-! ## Frames -/

/-- Only stamps, digests, manifest state and the identity differ. -/
structure Alike (c c' : Cached φ δ) : Prop where
  size : c'.size = c.size
  bits : c'.bits = c.bits
  filling : c'.filling = c.filling
  cacheFd : c'.cacheFd = c.cacheFd
  writes : c'.writes = c.writes
  dead : c'.dead = c.dead
  xfer : c'.xfer = c.xfer

/-- Claims, descriptor, dead flag and transfers are as they were. -/
structure KeepsHolders (c c' : Cached φ δ) : Prop where
  filling : c'.filling = c.filling
  cacheFd : c'.cacheFd = c.cacheFd
  dead : c'.dead = c.dead
  xfer : c'.xfer = c.xfer

/-- Descriptor, dead flag and transfers are as they were. -/
structure KeepsFile (c c' : Cached φ δ) : Prop where
  cacheFd : c'.cacheFd = c.cacheFd
  dead : c'.dead = c.dead
  xfer : c'.xfer = c.xfer

theorem Alike.refl (c : Cached φ δ) : Alike c c := ⟨rfl, rfl, rfl, rfl, rfl, rfl, rfl⟩

theorem Alike.trans {a b c : Cached φ δ} (h : Alike a b) (h' : Alike b c) : Alike a c :=
  ⟨h'.size.trans h.size, h'.bits.trans h.bits, h'.filling.trans h.filling,
    h'.cacheFd.trans h.cacheFd, h'.writes.trans h.writes, h'.dead.trans h.dead,
    h'.xfer.trans h.xfer⟩

theorem Alike.keepsHolders {c c' : Cached φ δ} (h : Alike c c') : KeepsHolders c c' :=
  ⟨h.filling, h.cacheFd, h.dead, h.xfer⟩

theorem KeepsHolders.keepsFile {c c' : Cached φ δ} (h : KeepsHolders c c') : KeepsFile c c' :=
  ⟨h.cacheFd, h.dead, h.xfer⟩

theorem KeepsHolders.refl (c : Cached φ δ) : KeepsHolders c c := ⟨rfl, rfl, rfl, rfl⟩

theorem KeepsHolders.trans {a b c : Cached φ δ} (h : KeepsHolders a b) (h' : KeepsHolders b c) :
    KeepsHolders a c :=
  ⟨h'.filling.trans h.filling, h'.cacheFd.trans h.cacheFd, h'.dead.trans h.dead,
    h'.xfer.trans h.xfer⟩

theorem stamp_alike (c : Cached φ δ) (nowSec : Int) : Alike c (c.stamp nowSec) :=
  ⟨rfl, rfl, rfl, rfl, rfl, rfl, rfl⟩

theorem removeHash_alike (c : Cached φ δ) (k : Nat) : Alike c (c.removeHash k) :=
  ⟨rfl, rfl, rfl, rfl, rfl, rfl, rfl⟩

/-! ## What the sections leave -/

/-- Opening touches the descriptor alone, and keeps the one there is. -/
theorem openCacheUnlocked_cases (c : Cached φ δ) (opened : Option φ) :
    c.openCacheUnlocked opened = (c, []) ∨
      c.cacheFd = none ∧ ∃ fd, opened = some fd ∧
        c.openCacheUnlocked opened = ({ c with cacheFd := some fd }, [.cut fd c.size]) := by
  unfold openCacheUnlocked
  cases hfd : c.cacheFd with
  | some fd => exact Or.inl rfl
  | none =>
    cases opened with
    | none => exact Or.inl rfl
    | some fd => exact Or.inr ⟨rfl, fd, rfl, rfl⟩

theorem openCacheUnlocked_alike (c : Cached φ δ) (opened : Option φ) :
    Alike { c with cacheFd := (c.openCacheUnlocked opened).1.cacheFd }
      (c.openCacheUnlocked opened).1 := by
  rcases c.openCacheUnlocked_cases opened with h | ⟨-, fd, -, h⟩ <;> rw [h] <;>
    exact ⟨rfl, rfl, rfl, rfl, rfl, rfl, rfl⟩

theorem truncateCacheFd_cases (c : Cached φ δ) (n : Nat) :
    c.truncateCacheFd n = [] ∨
      ∃ fd, c.cacheFd = some fd ∧ c.xfer = 0 ∧ c.truncateCacheFd n = [.cut fd n] := by
  unfold truncateCacheFd
  cases hfd : c.cacheFd with
  | none => exact Or.inl rfl
  | some fd =>
    by_cases hbusy : c.xfer = 0
    · exact Or.inr ⟨fd, rfl, hbusy, by simp [xferBusy, hbusy]⟩
    · exact Or.inl (by simp [xferBusy, hbusy])

theorem erase_insert {α : Type} (l : AList (fun _ : Nat => α)) {k : Nat} (v : α) (hk : k ∉ l) :
    (l.insert k v).erase k = l := by
  apply AList.ext
  rw [AList.insert_of_notMem hk]
  exact List.kerase_cons_eq rfl

variable {pieceSize : Nat} {c : Cached φ δ} {idx : Nat} {nowSec : Int}

/-- A pass of the claim loop takes an unmarked, unclaimed piece of a live entry, or leaves
everything. -/
theorem beginFill_cases (pieceSize : Nat) (c : Cached φ δ) (idx : Nat) (nowSec : Int) :
    ((∀ n, (c.beginFill pieceSize idx nowSec).2 ≠ some (.len n)) ∧
        Alike c (c.beginFill pieceSize idx nowSec).1) ∨
      (c.dead = false ∧ c.bits.get idx = false ∧ idx ∉ c.filling ∧
        0 < Piece.len c.size idx pieceSize ∧
        c.beginFill pieceSize idx nowSec =
          ({ c with filling := c.filling.insert idx c.writes, lastAccess := nowSec },
            some (.len (Piece.len c.size idx pieceSize)))) := by
  unfold beginFill
  dsimp only
  split_ifs with hdead hbit hclaim hlen
  · exact Or.inl ⟨fun n => by simp, Alike.refl c⟩
  · exact Or.inl ⟨fun n => by simp, Alike.refl c⟩
  · exact Or.inl ⟨fun n => by simp, Alike.refl c⟩
  · exact Or.inl ⟨fun n => by simp, rfl, rfl, erase_insert c.filling c.writes hclaim, rfl, rfl, rfl,
      rfl⟩
  · exact Or.inr ⟨by simpa using hdead, by simpa using hbit, hclaim, Nat.pos_of_ne_zero hlen, rfl⟩

theorem beginFill_keepsFile (pieceSize : Nat) (c : Cached φ δ) (idx : Nat) (nowSec : Int) :
    KeepsFile c (c.beginFill pieceSize idx nowSec).1 := by
  rcases c.beginFill_cases pieceSize idx nowSec with ⟨-, h⟩ | ⟨-, -, -, -, h⟩
  · exact h.keepsHolders.keepsFile
  · rw [h]
    exact ⟨rfl, rfl, rfl⟩

theorem bits_beginFill (pieceSize : Nat) (c : Cached φ δ) (idx : Nat) (now : Int) :
    (c.beginFill pieceSize idx now).1.bits = c.bits := by
  rcases c.beginFill_cases pieceSize idx now with ⟨-, h⟩ | ⟨-, -, -, -, h⟩
  · exact h.bits
  · rw [h]

/-- What a pass that takes no claim says about the piece. -/
theorem beginFill_answer {pieceSize : Nat} {c : Cached φ δ} {idx : Nat} {nowSec : Int} :
    ((c.beginFill pieceSize idx nowSec).2 = some .filled → c.bits.get idx = true) ∧
      ((c.beginFill pieceSize idx nowSec).2 = some .raced →
        c.dead = true ∨ Piece.len c.size idx pieceSize = 0) := by
  unfold beginFill
  dsimp only
  split_ifs with hdead hbit hclaim hlen <;> simp_all

theorem fillSkips_eq_false {bufLen : Nat} (h : c.fillSkips pieceSize idx bufLen = false) :
    c.dead = false ∧ c.bits.get idx = false ∧ c.filling.lookup idx = some c.writes ∧
      Piece.len c.size idx pieceSize = bufLen := by
  unfold fillSkips at h
  cases hlook : c.filling.lookup idx with
  | none => simp [hlook] at h
  | some gen =>
    simp only [hlook] at h
    split_ifs at h with hdead hbit hgen
    exact ⟨by simpa using hdead, by simpa using hbit, by simpa using hgen, by simpa using h⟩

variable {ok : Bool} {fillLen : Nat} {hash : Option δ}

theorem finishPiece_keeps (pieceSize : Nat) (c : Cached φ δ) (idx : Nat) (ok : Bool)
    (fillLen : Nat) (hash : Option δ) (nowSec : Int) :
    (c.finishPiece pieceSize idx ok fillLen hash nowSec).1.size = c.size ∧
      (c.finishPiece pieceSize idx ok fillLen hash nowSec).1.writes = c.writes ∧
      (c.finishPiece pieceSize idx ok fillLen hash nowSec).1.bits.nbits = c.bits.nbits ∧
      KeepsHolders (c.dropClaim idx) (c.finishPiece pieceSize idx ok fillLen hash nowSec).1 ∧
      ∀ o ∈ (c.finishPiece pieceSize idx ok fillLen hash nowSec).2, o.soft = true := by
  unfold finishPiece
  split_ifs with hdead hmark
  · exact ⟨rfl, rfl, rfl, KeepsHolders.refl _, by simp⟩
  · cases hash <;>
      exact ⟨rfl, rfl, Bitfield.nbits_set .., ⟨rfl, rfl, rfl, rfl⟩, by simp [saveBits, Io.soft]⟩
  · exact ⟨rfl, rfl, rfl, KeepsHolders.refl _, by simp [saveBits, Io.soft]⟩

theorem finishPiece_keepsFile (pieceSize : Nat) (c : Cached φ δ) (idx : Nat) (ok : Bool)
    (fillLen : Nat) (hash : Option δ) (nowSec : Int) :
    KeepsFile c (c.finishPiece pieceSize idx ok fillLen hash nowSec).1 := by
  obtain ⟨-, -, -, hkeeps, -⟩ := c.finishPiece_keeps pieceSize idx ok fillLen hash nowSec
  exact ⟨hkeeps.cacheFd, hkeeps.dead, hkeeps.xfer⟩

/-- A finished fill marks its piece, if it landed on a live entry and its claim still stands. -/
theorem get_finishPiece {i : Nat}
    (h : (c.finishPiece pieceSize idx ok fillLen hash nowSec).1.bits.get i = true) :
    c.bits.get i = true ∨
      i = idx ∧ ok = true ∧ c.dead = false ∧ c.claimStands pieceSize idx fillLen = true := by
  unfold finishPiece at h
  split_ifs at h with hdead hmark
  · exact Or.inl h
  · have hbits : (c.bits.set idx).get i = true := by cases hash <;> exact h
    rw [Bool.and_eq_true] at hmark
    rw [Bitfield.get_set, Bool.or_eq_true, Bool.and_eq_true, decide_eq_true_iff] at hbits
    rcases hbits with hold | ⟨rfl, -⟩
    · exact Or.inl hold
    · exact Or.inr ⟨rfl, hmark.1, by simpa using hdead, hmark.2⟩
  · exact Or.inl h

theorem bits_abortFill : (c.abortFill pieceSize idx nowSec).1.bits = c.bits := by
  unfold abortFill finishPiece
  split_ifs with hdead hmark
  · rfl
  · cases hmark
  · rfl

theorem originId_finishPiece :
    (c.finishPiece pieceSize idx ok fillLen hash nowSec).1.originId = c.originId := by
  unfold finishPiece
  split_ifs
  · rfl
  · cases hash <;> rfl
  · rfl

/-- A finished or aborted fill of a dead entry saves nothing, any other what it leaves. -/
theorem finishPiece_saves :
    (c.finishPiece pieceSize idx ok fillLen hash nowSec).2 = [] ∨
      (c.finishPiece pieceSize idx ok fillLen hash nowSec).2 =
        [(c.finishPiece pieceSize idx ok fillLen hash nowSec).1.saveBits false] := by
  unfold finishPiece
  split_ifs
  · exact Or.inl rfl
  · exact Or.inr rfl
  · exact Or.inr rfl

theorem abortFill_saves :
    (c.abortFill pieceSize idx nowSec).2 = [] ∨
      (c.abortFill pieceSize idx nowSec).2 =
        [(c.abortFill pieceSize idx nowSec).1.saveBits false] :=
  finishPiece_saves

theorem claimStands_iff {fillLen : Nat} :
    c.claimStands pieceSize idx fillLen = true ↔
      c.filling.lookup idx = some c.writes ∧ Piece.len c.size idx pieceSize = fillLen := by
  unfold claimStands
  cases hlook : c.filling.lookup idx with
  | none => simp
  | some gen => simp

end Cached

end ModelFs
