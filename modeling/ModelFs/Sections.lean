import ModelFs.EntryRequest
import ModelFs.Manifest

/-!
# The critical sections of an entry

Everything that happens to the guarded fields of an entry happens in one of its critical sections.
`Section` names them, with what the outside decides as arguments, and `Section.run` is what each
does. The machines of the modules after this one let any thread run any of them between two steps
of the calls they are about, which is at least what the threads of `Entry` can do.

* `Section.alike_of_manifest` — the manifest sections leave all but the digests and their flags.
* `Section.lets_run` — outside of fills no claim moves, the generation does not fall, and new marks
  are a write-through's.
* `Section.unmarked_run` — a dead entry has no mark.
* `Entry.Core.sections` — **every step of a thread on an entry is a list of these sections.**
-/

namespace ModelFs

namespace Cached

variable {φ δ : Type}

/-- Phase 2 of `reapIdle`: the descriptor of an idle entry is closed. -/
def closeIdle (c : Cached φ δ) (nowSec minIdle : Int) : Cached φ δ :=
  if c.filling.entries.isEmpty && !c.xferBusy && minIdle ≤ satSubI64 nowSec c.lastAccess then
    { c with cacheFd := none }
  else c

/-- Phase 3 of `reapIdle`. -/
def stampDead (c : Cached φ δ) : Cached φ δ := { c with dead := true }

theorem closeIdle_alike (c : Cached φ δ) (now minIdle : Int) :
    Alike { c with cacheFd := (c.closeIdle now minIdle).cacheFd } (c.closeIdle now minIdle) := by
  unfold closeIdle
  split_ifs <;> exact ⟨rfl, rfl, rfl, rfl, rfl, rfl, rfl⟩

theorem punchPiece_keeps (pieceSize : Nat) (c : Cached φ δ) (idx : Nat) (env : PunchEnv φ) :
    (c.punchPiece pieceSize idx env).1.filling = c.filling ∧
      (c.punchPiece pieceSize idx env).1.writes = c.writes ∧
      ∀ i, (c.punchPiece pieceSize idx env).1.bits.get i = true → c.bits.get i = true := by
  have halike := c.openCacheUnlocked_alike env.opened
  rcases c.punchPiece_cases pieceSize idx env with
    h | ⟨-, -, -, ⟨c', io, h, hnarrow, hget, -⟩ | ⟨fd, save, -, -, h⟩⟩ <;> rw [h]
  · exact ⟨rfl, rfl, fun i hi => hi⟩
  · exact ⟨hnarrow.keeps.filling.trans halike.filling, hnarrow.writes.trans halike.writes,
      fun i hi => by rwa [← hget i]⟩
  · refine ⟨halike.filling, halike.writes, fun i hi => ?_⟩
    have hclear : (c.bits.clear idx).get i = true := hi
    rw [Bitfield.get_clear, Bool.and_eq_true] at hclear
    exact hclear.1

end Cached

/-- A critical section on an entry. -/
inductive Section (φ β δ : Type) where
  -- claims and fills
  | beginFill (idx : Nat) (nowSec : Int)
  /-- The skip of `completeFill`. -/
  | dropClaim (idx : Nat)
  | finishPiece (idx : Nat) (ok : Bool) (fillLen : Nat) (hash : Option δ) (nowSec : Int)
  -- descriptor, stamps and transfers
  | openCache (opened : Option φ)
  | stamp (nowSec : Int)
  | beginXfer
  | endXfer
  | closeIdle (nowSec minIdle : Int)
  -- size and identity
  | noteOriginId (id : OriginId)
  | reconcileProbe (size : Nat) (id : OriginId)
  | reconcileReset (size : Nat) (id : OriginId)
  | cacheFillSize (fileEnd : Nat) (id : OriginId) (nowSec : Int) (allocated : Bool)
  /-- The size step of a write-through whose identity is not known. -/
  | growForWrite (fileEnd : Nat) (nowSec : Int) (resized : Bool)
  | truncateEntry (size : Nat) (allocated : Bool)
  -- marks
  | markCopy (off : Nat) (data : List β) (copied : Bool)
  | distrust
  | forget
  | stampDead
  | punch (idx : Nat) (env : Cached.PunchEnv φ)
  | heal (idx : Nat)
  -- manifest
  | expectedHash (idx : Nat) (nowMs : Int)
  | landManifest (gen0 : Nat) (read : ManifestRead δ) (retryAt : Int)
  | loadDone
  | publishDone (snapCount : Nat)

namespace Section

open Cached

variable {φ β δ : Type}

/-- The sections of fills: they alone take and drop claims. -/
def ofFill : Section φ β δ → Bool
  | .beginFill .. => true
  | .dropClaim _ => true
  | .finishPiece .. => true
  | _ => false

/-- The sections of `expectedHash`, `tryLoadManifest` and `publishManifest`. -/
def ofManifest : Section φ β δ → Bool
  | .expectedHash .. => true
  | .landManifest .. => true
  | .loadDone => true
  | .publishDone _ => true
  | _ => false

/-! ## What every section leaves -/

/-- What a section that is no fill's leaves of claims, generation and marks: no claim is taken or
dropped, the generation does not fall, and a new mark is a write-through's. -/
structure Lets (P : Entry.Params β δ) (c c' : Cached φ δ) (sec : Section φ β δ) : Prop where
  filling : c'.filling = c.filling
  writes : c.writes ≤ c'.writes
  get : ∀ i, c'.bits.get i = true → c.bits.get i = true ∨ ∃ off data,
    sec = .markCopy off data true ∧ (Piece.fullCover ⟨off, data.length⟩ P.pieceSize).start ≤ i ∧
      i < (Piece.fullCover ⟨off, data.length⟩ P.pieceSize).stop

theorem Lets.of_same {P : Entry.Params β δ} {c c' : Cached φ δ} {sec : Section φ β δ}
    (hfilling : c'.filling = c.filling) (hwrites : c'.writes = c.writes)
    (hbits : c'.bits = c.bits) : Lets P c c' sec :=
  ⟨hfilling, hwrites.ge, fun i hi => Or.inl (by rwa [hbits] at hi)⟩

theorem Lets.of_alike {P : Entry.Params β δ} {c c' : Cached φ δ} {sec : Section φ β δ}
    (h : Alike c c') : Lets P c c' sec :=
  Lets.of_same h.filling h.writes h.bits

theorem Lets.of_wiped {P : Entry.Params β δ} {c c' : Cached φ δ} {sec : Section φ β δ} {n : Nat}
    (h : Wiped c c' n) : Lets P c c' sec :=
  ⟨h.keeps.filling, by rw [h.writes]; omega, fun i hi => absurd hi (by rw [h.get]; simp)⟩

theorem Lets.of_grown {P : Entry.Params β δ} {c c' : Cached φ δ} {sec : Section φ β δ}
    {pieceSize n : Nat} (h : Grown pieceSize c c' n) : Lets P c c' sec :=
  ⟨h.keeps.filling, h.writes.ge, fun i hi => Or.inl (h.get i hi)⟩

variable [DecidableEq δ]

def run (P : Entry.Params β δ) (c : Cached φ δ) : Section φ β δ → Cached φ δ
  | .beginFill idx now => (c.beginFill P.pieceSize idx now).1
  | .dropClaim idx => c.dropClaim idx
  | .finishPiece idx ok len hash now => (c.finishPiece P.pieceSize idx ok len hash now).1
  | .openCache opened => (c.openCacheUnlocked opened).1
  | .stamp now => c.stamp now
  | .beginXfer => c.fetchAddXfer
  | .endXfer => c.fetchSubXfer
  | .closeIdle now minIdle => c.closeIdle now minIdle
  | .noteOriginId id => (c.noteOriginId id).1
  | .reconcileProbe size id => (c.reconcileProbe size id).1
  | .reconcileReset size id => (c.reconcileReset P.pieceSize size id).1
  | .cacheFillSize fileEnd id now allocated =>
    (c.cacheFillSize P.pieceSize fileEnd id now allocated).1
  | .growForWrite fileEnd now resized => (c.growToLocked P.pieceSize fileEnd resized).1.stamp now
  | .truncateEntry size allocated => (c.truncateEntry P.pieceSize size allocated).1
  | .markCopy off data copied => (c.markCopy P.digest P.pieceSize off data copied).1
  | .distrust => c.distrust.1
  | .forget => c.forget.1
  | .stampDead => c.stampDead
  | .punch idx env => (c.punchPiece P.pieceSize idx env).1
  | .heal idx => (c.healPiece idx).1
  | .expectedHash idx nowMs => (c.expectedHashLook idx nowMs).1
  | .landManifest gen0 read retryAt => c.landManifest P.pieceSize gen0 read retryAt
  | .loadDone => c.loadDone
  | .publishDone snapCount => c.publishDone snapCount

def runs (P : Entry.Params β δ) (c : Cached φ δ) (secs : List (Section φ β δ)) : Cached φ δ :=
  secs.foldl (run P) c

/-- What a section does to files, in order. -/
def io (P : Entry.Params β δ) (c : Cached φ δ) : Section φ β δ → List (Io φ)
  | .finishPiece idx ok len hash now => (c.finishPiece P.pieceSize idx ok len hash now).2
  | .openCache opened => (c.openCacheUnlocked opened).2
  | .noteOriginId id => (c.noteOriginId id).2
  | .reconcileProbe size id => (c.reconcileProbe size id).2.1
  | .reconcileReset size id => (c.reconcileReset P.pieceSize size id).2
  | .cacheFillSize fileEnd id now allocated =>
    (c.cacheFillSize P.pieceSize fileEnd id now allocated).2.1
  | .growForWrite fileEnd _ resized => (c.growToLocked P.pieceSize fileEnd resized).2
  | .truncateEntry size allocated => (c.truncateEntry P.pieceSize size allocated).2.1
  | .markCopy off data copied => (c.markCopy P.digest P.pieceSize off data copied).2.1
  | .distrust => c.distrust.2
  | .forget => c.forget.2
  | .punch idx env => (c.punchPiece P.pieceSize idx env).2.1
  | .heal idx => (c.healPiece idx).2
  | _ => []

theorem alike_of_manifest (P : Entry.Params β δ) (c : Cached φ δ) {sec : Section φ β δ}
    (h : sec.ofManifest = true) : Alike c (sec.run P c) := by
  cases sec with
  | expectedHash idx nowMs => exact c.expectedHashLook_alike idx nowMs
  | landManifest gen0 read retryAt => exact c.landManifest_alike P.pieceSize gen0 read retryAt
  | loadDone => exact c.loadDone_alike
  | publishDone snapCount => exact c.publishDone_alike snapCount
  | _ => exact absurd h (by simp [ofManifest])

/-- **What the sections of other operations leave.** -/
theorem lets_run (P : Entry.Params β δ) (c : Cached φ δ) (sec : Section φ β δ)
    (h : sec.ofFill = false) : Lets P c (sec.run P c) sec := by
  cases sec with
  | beginFill idx now => exact absurd h (by simp [ofFill])
  | dropClaim idx => exact absurd h (by simp [ofFill])
  | finishPiece idx ok len hash now => exact absurd h (by simp [ofFill])
  | openCache opened =>
    have halike := c.openCacheUnlocked_alike opened
    exact Lets.of_same halike.filling halike.writes halike.bits
  | stamp now => exact Lets.of_alike (c.stamp_alike now)
  | beginXfer => exact Lets.of_same rfl rfl rfl
  | endXfer => exact Lets.of_same rfl rfl rfl
  | closeIdle now minIdle =>
    have halike := c.closeIdle_alike now minIdle
    exact Lets.of_same halike.filling halike.writes halike.bits
  | noteOriginId id => exact Lets.of_alike (c.noteOriginId_spec id).1
  | reconcileProbe size id => exact Lets.of_alike (c.reconcileProbe_spec size id).1
  | reconcileReset size id =>
    rcases c.reconcileReset_cases P.pieceSize size id with ⟨-, halike, -⟩ | ⟨-, hwiped, -⟩
    · exact Lets.of_alike halike
    · exact Lets.of_wiped hwiped
  | cacheFillSize fileEnd id now alloc =>
    rcases c.cacheFillSize_cases P.pieceSize_pos fileEnd id now alloc with
      ⟨-, ⟨m, hwiped, -⟩, -⟩ | ⟨-, hgrown, -⟩
    · exact Lets.of_wiped hwiped
    · exact Lets.of_grown hgrown
  | growForWrite fileEnd now resized =>
    exact Lets.of_grown ((growToLocked_spec P.pieceSize_pos c fileEnd resized).1.alike
      (stamp_alike _ now))
  | truncateEntry size alloc =>
    rcases c.truncateEntry_cases P.pieceSize size alloc with ⟨-, hsame, -⟩ | ⟨-, hwiped, -⟩
    · exact Lets.of_alike (by rw [show run P c (truncateEntry size alloc) = c from hsame]
                              exact Alike.refl c)
    · exact Lets.of_wiped hwiped
  | markCopy off data copied =>
    rcases markCopy_cases P.digest P.pieceSize off data c copied with ⟨hsame, -⟩ | ⟨-, -, hmarked⟩
    · exact Lets.of_alike (by rw [show run P c (markCopy off data copied) = c from hsame]
                              exact Alike.refl c)
    · refine ⟨hmarked.keeps.filling, ?_, fun i hi => ?_⟩
      · exact (Nat.le_succ _).trans hmarked.writes.ge
      · rcases hmarked.get i hi with ⟨hold, -⟩ | ⟨rfl, hlo, hhi⟩
        · exact Or.inl hold
        · exact Or.inr ⟨off, data, rfl, hlo, hhi⟩
  | distrust => exact Lets.of_wiped c.distrust_wiped
  | forget => exact ⟨rfl, le_rfl, fun i hi => absurd hi (by simp [run, Cached.forget])⟩
  | stampDead => exact Lets.of_same rfl rfl rfl
  | punch idx env =>
    obtain ⟨hfilling, hwrites, hget⟩ := punchPiece_keeps P.pieceSize c idx env
    exact ⟨hfilling, hwrites.ge, fun i hi => Or.inl (hget i hi)⟩
  | heal idx =>
    have hnarrow := (c.healPiece_spec idx).1
    exact ⟨hnarrow.keeps.filling, hnarrow.writes.ge, fun i hi => Or.inl (hnarrow.get i hi)⟩
  | expectedHash idx nowMs => exact Lets.of_alike (alike_of_manifest P c rfl)
  | landManifest gen0 read retryAt => exact Lets.of_alike (alike_of_manifest P c rfl)
  | loadDone => exact Lets.of_alike (alike_of_manifest P c rfl)
  | publishDone snapCount => exact Lets.of_alike (alike_of_manifest P c rfl)

/-- The generation does not fall. -/
theorem writes_le_run (P : Entry.Params β δ) (c : Cached φ δ) (sec : Section φ β δ) :
    c.writes ≤ (sec.run P c).writes := by
  by_cases hfill : sec.ofFill = true
  · cases sec with
    | beginFill idx now =>
      show c.writes ≤ (c.beginFill P.pieceSize idx now).1.writes
      rcases c.beginFill_cases P.pieceSize idx now with ⟨-, h⟩ | ⟨-, -, -, -, h⟩
      · exact h.writes.ge
      · rw [h]
    | dropClaim idx => exact le_rfl
    | finishPiece idx ok len hash now =>
      exact (c.finishPiece_keeps P.pieceSize idx ok len hash now).2.1.ge
    | _ => exact absurd hfill (by simp [ofFill])
  · exact (lets_run P c sec (by simpa using hfill)).writes

/-! ## Dead entries and open descriptors -/

/-- Descriptor and dead flag are as they were. -/
structure KeepsOpen (c c' : Cached φ δ) : Prop where
  cacheFd : c.cacheFd.isSome = true → c'.cacheFd = c.cacheFd
  dead : c'.dead = c.dead

omit [DecidableEq δ] in
theorem KeepsOpen.of_keepsFile {c c' : Cached φ δ} (h : KeepsFile c c') : KeepsOpen c c' :=
  ⟨fun _ => h.cacheFd, h.dead⟩

omit [DecidableEq δ] in
theorem openCacheUnlocked_of_open {c : Cached φ δ} (hfd : c.cacheFd.isSome = true)
    (opened : Option φ) : c.openCacheUnlocked opened = (c, []) := by
  rcases c.openCacheUnlocked_cases opened with h | ⟨hnone, -⟩
  · exact h
  · rw [hnone] at hfd
    cases hfd

omit [DecidableEq δ] in
theorem keepsOpen_openCache (c : Cached φ δ) (opened : Option φ) :
    KeepsOpen c (c.openCacheUnlocked opened).1 :=
  ⟨fun hfd => by rw [openCacheUnlocked_of_open hfd], (c.openCacheUnlocked_alike opened).dead⟩

omit [DecidableEq δ] in
theorem keepsOpen_punch (P : Entry.Params β δ) (c : Cached φ δ) (idx : Nat)
    (env : Cached.PunchEnv φ) : KeepsOpen c (c.punchPiece P.pieceSize idx env).1 := by
  have hopen := keepsOpen_openCache c env.opened
  rcases c.punchPiece_cases P.pieceSize idx env with
    h | ⟨-, -, -, ⟨c', io, h, hnarrow, -⟩ | ⟨fd, save, -, -, h⟩⟩ <;> rw [h]
  · exact ⟨fun _ => rfl, rfl⟩
  · exact ⟨fun hfd => hnarrow.keeps.cacheFd.trans (hopen.cacheFd hfd),
      hnarrow.keeps.dead.trans hopen.dead⟩
  · exact ⟨hopen.cacheFd, hopen.dead⟩

/-- The sections of the reaper, which takes entries that nobody has a reference to. -/
def ofReaper : Section φ β δ → Bool
  | .closeIdle .. => true
  | .stampDead => true
  | _ => false

/-- **No section but `forget` stamps an entry dead**, the reaper's aside; none revives it, and
none closes its descriptor. -/
theorem keepsOpen_run (P : Entry.Params β δ) (c : Cached φ δ) (sec : Section φ β δ)
    (hreap : sec.ofReaper = false) : KeepsOpen c (sec.run P c) ∨ sec = .forget := by
  cases sec with
  | beginFill idx now => exact Or.inl (KeepsOpen.of_keepsFile (c.beginFill_keepsFile ..))
  | dropClaim idx => exact Or.inl ⟨fun _ => rfl, rfl⟩
  | finishPiece idx ok len hash now =>
    exact Or.inl (KeepsOpen.of_keepsFile (c.finishPiece_keepsFile ..))
  | openCache opened => exact Or.inl (keepsOpen_openCache c opened)
  | stamp now => exact Or.inl ⟨fun _ => rfl, rfl⟩
  | beginXfer => exact Or.inl ⟨fun _ => rfl, rfl⟩
  | endXfer => exact Or.inl ⟨fun _ => rfl, rfl⟩
  | closeIdle now minIdle => exact absurd hreap (by simp [ofReaper])
  | noteOriginId id =>
    exact Or.inl (KeepsOpen.of_keepsFile (c.noteOriginId_spec id).1.keepsHolders.keepsFile)
  | reconcileProbe size id =>
    exact Or.inl (KeepsOpen.of_keepsFile (c.reconcileProbe_spec size id).1.keepsHolders.keepsFile)
  | reconcileReset size id =>
    exact Or.inl (KeepsOpen.of_keepsFile (c.reconcileReset_keepsFile ..).1)
  | cacheFillSize fileEnd id now alloc =>
    exact Or.inl (KeepsOpen.of_keepsFile (c.cacheFillSize_keepsFile P.pieceSize_pos ..).1)
  | growForWrite fileEnd now resized =>
    exact Or.inl (KeepsOpen.of_keepsFile ((growToLocked_spec P.pieceSize_pos c fileEnd
      resized).1.alike (stamp_alike _ now)).keeps.keepsFile)
  | truncateEntry size alloc =>
    exact Or.inl (KeepsOpen.of_keepsFile (c.truncateEntry_keepsFile ..).1)
  | markCopy off data copied =>
    exact Or.inl (KeepsOpen.of_keepsFile
      (markCopy_keepsFile P.digest P.pieceSize off data c copied).1)
  | distrust => exact Or.inl (KeepsOpen.of_keepsFile c.distrust_wiped.keeps.keepsFile)
  | forget => exact Or.inr rfl
  | stampDead => exact absurd hreap (by simp [ofReaper])
  | punch idx env => exact Or.inl (keepsOpen_punch P c idx env)
  | heal idx => exact Or.inl (KeepsOpen.of_keepsFile (c.healPiece_spec idx).1.keeps.keepsFile)
  | expectedHash idx nowMs =>
    exact Or.inl (KeepsOpen.of_keepsFile
      (c.expectedHashLook_alike idx nowMs).keepsHolders.keepsFile)
  | landManifest gen0 read retryAt =>
    exact Or.inl (KeepsOpen.of_keepsFile
      (c.landManifest_alike P.pieceSize gen0 read retryAt).keepsHolders.keepsFile)
  | loadDone => exact Or.inl ⟨fun _ => rfl, rfl⟩
  | publishDone snapCount =>
    exact Or.inl (KeepsOpen.of_keepsFile (c.publishDone_alike snapCount).keepsHolders.keepsFile)

/-- The sections that run under `content_mu` too. -/
def underContent : Section φ β δ → Bool
  | .reconcileReset .. => true
  | .cacheFillSize .. => true
  | .growForWrite .. => true
  | .truncateEntry .. => true
  | .punch .. => true
  | .heal _ => true
  | _ => false

/-- On an entry with an open descriptor: the size stays, and so does the file. -/
structure Light (c c' : Cached φ δ) (io : List (Io φ)) : Prop where
  size : c'.size = c.size
  io : c.cacheFd.isSome = true → ∀ o ∈ io, o.soft = true ∨ o = .unlinkData

omit [DecidableEq δ] in
theorem Light.of_soft {c c' : Cached φ δ} {io : List (Io φ)} (hsize : c'.size = c.size)
    (hsoft : ∀ o ∈ io, o.soft = true) : Light c c' io :=
  ⟨hsize, fun _ o ho => Or.inl (hsoft o ho)⟩

/-- **What does not take `content_mu` leaves the size and the open file.** -/
theorem light_run (P : Entry.Params β δ) (c : Cached φ δ) (sec : Section φ β δ)
    (h : sec.underContent = false) : Light c (sec.run P c) (sec.io P c) := by
  have hnone : ∀ o ∈ ([] : List (Io φ)), o.soft = true := by simp
  cases sec with
  | beginFill idx now =>
    refine Light.of_soft ?_ hnone
    show (c.beginFill P.pieceSize idx now).1.size = c.size
    rcases c.beginFill_cases P.pieceSize idx now with ⟨-, halike⟩ | ⟨-, -, -, -, h⟩
    · exact halike.size
    · rw [h]
  | dropClaim idx => exact Light.of_soft rfl hnone
  | finishPiece idx ok len hash now =>
    obtain ⟨hsize, -, -, -, hsoft⟩ := c.finishPiece_keeps P.pieceSize idx ok len hash now
    exact Light.of_soft hsize hsoft
  | openCache opened =>
    refine ⟨(c.openCacheUnlocked_alike opened).size, fun hfd o ho => ?_⟩
    have hempty : o ∈ (c.openCacheUnlocked opened).2 := ho
    rw [openCacheUnlocked_of_open hfd] at hempty
    cases hempty
  | stamp now => exact Light.of_soft rfl hnone
  | beginXfer => exact Light.of_soft rfl hnone
  | endXfer => exact Light.of_soft rfl hnone
  | closeIdle now minIdle => exact Light.of_soft (c.closeIdle_alike now minIdle).size hnone
  | noteOriginId id =>
    exact Light.of_soft (c.noteOriginId_spec id).1.size (c.noteOriginId_spec id).2
  | reconcileProbe size id =>
    exact Light.of_soft (c.reconcileProbe_spec size id).1.size (c.reconcileProbe_spec size id).2
  | markCopy off data copied =>
    have hsoft := (markCopy_keepsFile P.digest P.pieceSize off data c copied).2
    rcases markCopy_cases P.digest P.pieceSize off data c copied with ⟨hsame, -⟩ | ⟨-, -, hmarked⟩
    · exact Light.of_soft (congrArg Cached.size hsame) hsoft
    · exact Light.of_soft hmarked.size hsoft
  | distrust => exact Light.of_soft rfl c.distrust_soft
  | forget =>
    refine ⟨rfl, fun _ o ho => ?_⟩
    have hmem : o ∈ [Io.unlinkData, Io.unlinkMeta, Io.unlinkPin] := ho
    simp only [List.mem_cons, List.not_mem_nil, or_false] at hmem
    rcases hmem with rfl | rfl | rfl
    · exact Or.inr rfl
    · exact Or.inl rfl
    · exact Or.inl rfl
  | stampDead => exact Light.of_soft rfl hnone
  | expectedHash idx nowMs => exact Light.of_soft (alike_of_manifest P c rfl).size hnone
  | landManifest gen0 read retryAt => exact Light.of_soft (alike_of_manifest P c rfl).size hnone
  | loadDone => exact Light.of_soft (alike_of_manifest P c rfl).size hnone
  | publishDone snapCount => exact Light.of_soft (alike_of_manifest P c rfl).size hnone
  | _ => exact absurd h (by simp [underContent])

/-- A mark a section sets is a fill's whose claim stands, or a write-through's, and either on a
live entry. -/
theorem live_of_new_mark (P : Entry.Params β δ) (c : Cached φ δ) (sec : Section φ β δ) {i : Nat}
    (hnew : (sec.run P c).bits.get i = true) (hold : c.bits.get i = false) : c.dead = false := by
  by_cases hfill : sec.ofFill = true
  · cases sec with
    | beginFill idx now =>
      have hsame : (c.beginFill P.pieceSize idx now).1.bits.get i = true := hnew
      rw [bits_beginFill, hold] at hsame
      cases hsame
    | dropClaim idx =>
      have hsame : c.bits.get i = true := hnew
      rw [hold] at hsame
      cases hsame
    | finishPiece idx ok len hash now =>
      rcases get_finishPiece hnew with hmark | ⟨-, -, hlive, -⟩
      · rw [hold] at hmark
        cases hmark
      · exact hlive
    | _ => exact absurd hfill (by simp [ofFill])
  · rcases (lets_run P c sec (by simpa using hfill)).get i hnew with hmark | ⟨off, data, rfl, -⟩
    · rw [hold] at hmark
      cases hmark
    · rcases markCopy_cases P.digest P.pieceSize off data c true with ⟨hsame, -⟩ | ⟨hlive, -⟩
      · have hmark : (c.markCopy P.digest P.pieceSize off data true).1.bits.get i = true := hnew
        rw [hsame, hold] at hmark
        cases hmark
      · exact hlive

/-- **A dead entry has no mark**, and no section of a call gives it one. -/
theorem unmarked_run (P : Entry.Params β δ) (c : Cached φ δ) (sec : Section φ β δ)
    (hreap : sec.ofReaper = false) (hc : c.dead = true → ∀ i, c.bits.get i = false)
    (hdead : (sec.run P c).dead = true) (i : Nat) : (sec.run P c).bits.get i = false := by
  rcases keepsOpen_run P c sec hreap with hkeeps | rfl
  · rw [hkeeps.dead] at hdead
    refine Bool.eq_false_iff.mpr fun hnew => ?_
    have hlive := live_of_new_mark P c sec hnew (hc hdead i)
    rw [hdead] at hlive
    cases hlive
  · exact Bitfield.get_wipe ..

end Section

namespace Entry

open World

variable {τ β δ : Type} [DecidableEq τ] [DecidableEq δ] {P : Params β δ}

/-- Dropping several references is dropping one at a time. -/
theorem runs_endXfer (c : Cached Nat δ) (n : Nat) :
    ({ c with xfer := c.xfer - n } : Cached Nat δ) =
      Section.runs P c (List.replicate n .endXfer) := by
  induction n generalizing c with
  | zero => rfl
  | succ n ih =>
    show _ = Section.runs P c.fetchSubXfer (List.replicate n .endXfer)
    rw [← ih c.fetchSubXfer]
    simp only [Cached.fetchSubXfer, Nat.sub_sub, Nat.add_comm n 1]

theorem leave_sections (s : World τ β δ) (t : τ) :
    ∃ secs, (s.leave t).c = Section.runs P s.c secs :=
  ⟨_, runs_endXfer s.c (s.role t).holds⟩

/-- **Every step of a thread is a list of sections.** -/
theorem Core.sections {t : τ} {s s' : World τ β δ} (h : Core P t s s') :
    ∃ secs, s'.c = Section.runs P s.c secs := by
  cases h with
  | beginFill idx now => exact ⟨[.beginFill idx now], commit_c ..⟩
  | @abortFill idx _ _ now => exact ⟨[.finishPiece idx false 0 none now], commit_c ..⟩
  | @completeSkip idx => exact ⟨[.dropClaim idx], commit_c ..⟩
  | landOpen ok => exact ⟨[.openCache (s.opened ok)], commit_c ..⟩
  | @finishFill idx len _ ok hash now => exact ⟨[.finishPiece idx ok len hash now], commit_c ..⟩
  | @cacheFillSize off truncs data id now alloc =>
    exact ⟨[.cacheFillSize (off + data.length) id now alloc], (cut_c ..).trans (commit_c ..)⟩
  | @growForWrite off truncs data now resized =>
    exact ⟨[.growForWrite (off + data.length) now resized], commit_c ..⟩
  | distrustWrite => exact ⟨[.distrust], commit_c ..⟩
  | copyOpen ok => exact ⟨[.openCache (s.opened ok)], commit_c ..⟩
  | @copyMark off data ok => exact ⟨[.markCopy off data ok], commit_c ..⟩
  | noteOriginId id => exact ⟨[.noteOriginId id], commit_c ..⟩
  | reconcileProbe size id => exact ⟨[.reconcileProbe size id], commit_c ..⟩
  | @reconcileReset size id =>
    exact ⟨[.reconcileReset size id], (cut_c ..).trans (commit_c ..)⟩
  | @truncateEntry size serial alloc =>
    exact ⟨[.truncateEntry size alloc], (cut_c ..).trans (commit_c ..)⟩
  | distrust => exact ⟨[.distrust], commit_c ..⟩
  | forget => exact ⟨[.forget], commit_c ..⟩
  | punch idx ok env => exact ⟨[.punch idx env], commit_c ..⟩
  | heal idx => exact ⟨[.heal idx], commit_c ..⟩
  | readEnter => exact ⟨[.beginXfer], rfl⟩
  | readSample now => exact ⟨[.stamp now], rfl⟩
  | serveEnter => exact ⟨[.beginXfer], rfl⟩
  | probeRange now => exact ⟨[.stamp now], rfl⟩
  | @hydrateClaim _ idx _ now => exact ⟨[.beginFill idx now], commit_c ..⟩
  | streamOpen ok => exact ⟨[.openCache (s.opened ok)], commit_c ..⟩
  | streamSend now => exact ⟨[.stamp now], rfl⟩
  | streamShort now =>
    exact ⟨.stamp now :: List.replicate (s.role t).holds .endXfer, runs_endXfer (s.c.stamp now) _⟩
  | streamFirstFailed now => exact ⟨[.stamp now], rfl⟩
  | servedFromCache => exact ⟨[.beginXfer], rfl⟩
  | fetchOpen ok => exact ⟨[.openCache (s.opened ok)], commit_c ..⟩
  | fetchRead now =>
    exact ⟨.stamp now :: List.replicate (s.role t).holds .endXfer, runs_endXfer (s.c.stamp now) _⟩
  | fetchSend now => exact ⟨[.stamp now, .endXfer], rfl⟩
  | fetchFailed => exact ⟨[.endXfer], rfl⟩
  | fallbackRead => exact leave_sections _ t
  | leave => exact leave_sections s t
  | _ => exact ⟨[], rfl⟩

end Entry

end ModelFs
