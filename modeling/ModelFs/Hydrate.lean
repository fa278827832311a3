import ModelFs.Lib.Machine
import ModelFs.Sections

/-!
# Filling pieces

`hydratePiece` for a FUSE read and `hydrateRange` for a peer's request fill the pieces of an entry
through the same claim: `beginFill`, bytes from a peer or from the origin, `completeFill` or
`abortFill`. A step is one section, one fetch, or one unlocked look at a mark; between two steps of
a fill any other thread runs any section on the entry, and other fills go on.

`past`, `reads`, `marks`, `granted` and `dropped` are history. `granted` and `dropped` look at the
map of claims alone: thread `t` is granted piece `i` by the step in which the map gains `i`, and
drops it by the step in which the map loses it.
-/

namespace ModelFs

namespace Hydrate

open Cached

/-- The call a fill belongs to. -/
inductive Caller where
  /-- `hydratePiece`, with `prefer_origin` and the discards so far. -/
  | fuse (prefer : Bool) (retries : Nat)
  /-- `hydrateRange`, with the end of its cover. -/
  | range (stop : Nat)
  deriving DecidableEq

/-- A claim `beginFill` granted: the length it answered, and the generation it recorded. -/
structure Claim where
  idx : Nat
  len : Nat
  gen : Nat
  deriving DecidableEq

/-- Where the bytes of a mark came from. -/
inductive Source (β : Type) where
  | peer
  | origin
  /-- A write-through of `data` at `off`. -/
  | own (off : Nat) (data : List β)
  deriving DecidableEq

/-- Where a fill is, from its claim on. -/
inductive Stage (β δ : Type) where
  | claimed
  /-- `expectedHash` is to load the manifest. -/
  | loading
  | reading (gen0 : Nat)
  | merged
  /-- Before the last section of `expectedHash`. -/
  | looking
  /-- `fillFromPeers` is next. -/
  | asking (expect : δ)
  | atOrigin
  /-- The buffer is full; `completeFill` is next. -/
  | filled (buf : List β) (src : Source β)
  /-- `completeFill` past its check, `content_mu` held. -/
  | writing (buf : List β) (src : Source β)
  | written (buf : List β) (src : Source β) (ok : Bool)
  deriving DecidableEq

/-- Where a thread is. -/
inductive Pc (β δ : Type) where
  | idle
  /-- The top of the loop of `hydratePiece`. -/
  | piece (idx : Nat) (prefer : Bool) (retries : Nat)
  /-- The loop of `hydrateRange` at piece `idx`. -/
  | ranging (idx stop : Nat)
  | filling (who : Caller) (k : Claim) (stage : Stage β δ)
  /-- After a fill that came back without an error. -/
  | after (who : Caller) (idx : Nat)
  deriving DecidableEq

def Pc.claim {β δ : Type} : Pc β δ → Option Claim
  | .filling _ k _ => some k
  | _ => none

/-- A mark that was set: the bytes the piece was filled with, the generation and the size of the
entry at that moment, and the claim, for a fill. -/
structure Mark (β : Type) where
  idx : Nat
  bytes : List β
  gen : Nat
  size : Nat
  src : Source β
  claim : Option Claim
  deriving DecidableEq

structure World (τ φ β δ : Type) where
  c : Cached φ δ
  contentMu : Option τ := none
  pc : τ → Pc β δ
  /-- Every state the entry was in, the present one first. -/
  past : List (Cached φ δ)
  /-- What `originPread` returned for pieces so far. -/
  reads : List (Nat × List β) := []
  marks : List (Mark β) := []
  granted : τ → Nat → Nat := fun _ _ => 0
  dropped : τ → Nat → Nat := fun _ _ => 0

/-- An entry nobody fills. -/
def start (τ β : Type) {φ δ : Type} (c : Cached φ δ) : World τ φ β δ where
  c := c
  pc _ := .idle
  past := [c]

variable {τ φ β δ : Type} [DecidableEq τ]

/-- Thread `t` leaves the entry as `c`. -/
def World.act (s : World τ φ β δ) (t : τ) (c : Cached φ δ) : World τ φ β δ :=
  { s with
    c := c
    past := c :: s.past
    granted := fun u i =>
      s.granted u i + if u = t ∧ i ∉ s.c.filling ∧ i ∈ c.filling then 1 else 0
    dropped := fun u i =>
      s.dropped u i + if u = t ∧ i ∈ s.c.filling ∧ i ∉ c.filling then 1 else 0 }

def World.moveTo (s : World τ φ β δ) (t : τ) (pc : Pc β δ) : World τ φ β δ :=
  { s with pc := Function.update s.pc t pc }

/-! ## Answers -/

/-- Where a pass of the claim loop leaves `hydratePiece`. -/
def pieceClaim (idx : Nat) (prefer : Bool) (retries gen : Nat) : Option FillClaim → Pc β δ
  | none => .piece idx prefer retries
  | some (.len n) => .filling (.fuse prefer retries) ⟨idx, n, gen⟩ .claimed
  | some .filled => .idle
  | some .raced => .idle

/-- Where a pass of the claim loop leaves `hydrateRange`. -/
def rangeClaim (idx stop gen : Nat) : Option FillClaim → Pc β δ
  | none => .ranging idx stop
  | some (.len n) => .filling (.range stop) ⟨idx, n, gen⟩ .claimed
  | some .filled => .after (.range stop) idx
  | some .raced => .ranging (idx + 1) stop

/-- A trusted digest lets a peer supply the piece. -/
def trustOr : Option δ → Stage β δ
  | some expect => .asking expect
  | none => .atOrigin

def lookStage : HashLook δ → Stage β δ
  | .known h => trustOr h
  | .load => .loading
  | .again => .looking

/-- Where a call goes whose piece is marked after its fill. -/
def markedNext : Caller → Nat → Pc β δ
  | .fuse _ _, _ => .idle
  | .range stop, idx => .ranging (idx + 1) stop

/-- Where a call goes whose piece is not: one retry from the origin, or an error. -/
def unmarkedNext : Caller → Nat → Pc β δ
  | .fuse _ retries, idx => if retries < 1 then .piece idx true (retries + 1) else .idle
  | .range _, _ => .idle

/-- Whether a fresh claim goes to the origin without a look at the digests. -/
def Caller.atOnce : Caller → Bool
  | .fuse prefer _ => prefer
  | .range _ => true

variable [DecidableEq δ]

/-- The marks a section leaves behind that is no fill's. -/
def ownMarks (P : Entry.Params β δ) (c : Cached φ δ) : Section φ β δ → List (Mark β)
  | .markCopy off data true =>
    let cov := Piece.fullCover ⟨off, data.length⟩ P.pieceSize
    ((List.range' cov.start (cov.stop - cov.start)).filter c.bits.get).map fun i =>
      ⟨i, pieceSlice P.pieceSize off data i, c.writes, c.size, .own off data, none⟩
  | _ => []

/-- The mark the last section of `completeFill` sets, if it sets one. -/
def fillMarks (P : Entry.Params β δ) (c : Cached φ δ) (k : Claim) (buf : List β) (src : Source β)
    (ok : Bool) : List (Mark β) :=
  if !c.dead && (ok && c.claimStands P.pieceSize k.idx buf.length) then
    [⟨k.idx, buf, c.writes, c.size, src, some k⟩]
  else []

variable (P : Entry.Params β δ)

/-- One step of thread `t`. -/
inductive Core (t : τ) (s : World τ φ β δ) : World τ φ β δ → Prop where
  /-- A thread outside of fills runs a section. -/
  | other (sec : Section φ β δ) (hpc : s.pc t = .idle) (hsec : sec.ofFill = false) :
      Core t s { s.act t (sec.run P s.c) with
        marks := ownMarks P (sec.run P s.c) sec ++ s.marks }
  -- hydratePiece
  | startPiece (idx : Nat) (hpc : s.pc t = .idle) :
      Core t s (s.moveTo t (.piece idx s.c.wroteLocally 0))
  /-- A dead entry, or no memory for the claim. -/
  | quitPiece {idx retries : Nat} {prefer : Bool} (hpc : s.pc t = .piece idx prefer retries) :
      Core t s (s.moveTo t .idle)
  | claimPiece {idx retries : Nat} {prefer : Bool} (now : Int)
      (hpc : s.pc t = .piece idx prefer retries) :
      Core t s ((s.act t (s.c.beginFill P.pieceSize idx now).1).moveTo t
        (pieceClaim idx prefer retries s.c.writes (s.c.beginFill P.pieceSize idx now).2))
  -- hydrateRange
  | startRange (idx stop : Nat) (hpc : s.pc t = .idle) :
      Core t s (s.moveTo t (.ranging idx stop))
  /-- The cover is done, or there is no memory for the buffer or for the claim. -/
  | quitRange {idx stop : Nat} (hpc : s.pc t = .ranging idx stop) : Core t s (s.moveTo t .idle)
  | rangeMarked {idx stop : Nat} (hpc : s.pc t = .ranging idx stop)
      (hbit : s.c.bits.get idx = true) : Core t s (s.moveTo t (.ranging (idx + 1) stop))
  | claimRange {idx stop : Nat} (now : Int) (hpc : s.pc t = .ranging idx stop) (hlt : idx < stop) :
      Core t s ((s.act t (s.c.beginFill P.pieceSize idx now).1).moveTo t
        (rangeClaim idx stop s.c.writes (s.c.beginFill P.pieceSize idx now).2))
  -- which bytes
  | toOrigin {who : Caller} {k : Claim} (hpc : s.pc t = .filling who k .claimed)
      (hwho : who.atOnce = true) : Core t s (s.moveTo t (.filling who k .atOrigin))
  | look {who : Caller} {k : Claim} (nowMs : Int) (hpc : s.pc t = .filling who k .claimed)
      (hwho : who.atOnce = false) :
      Core t s ((s.act t (s.c.expectedHashLook k.idx nowMs).1).moveTo t
        (.filling who k (lookStage (s.c.expectedHashLook k.idx nowMs).2)))
  | sampleGen {who : Caller} {k : Claim} (hpc : s.pc t = .filling who k .loading) :
      Core t s (s.moveTo t (.filling who k (.reading s.c.writes)))
  | land {who : Caller} {k : Claim} {gen0 : Nat} (read : ManifestRead δ) (retryAt : Int)
      (hpc : s.pc t = .filling who k (.reading gen0)) :
      Core t s ((s.act t (s.c.landManifest P.pieceSize gen0 read retryAt)).moveTo t
        (.filling who k .merged))
  | loadDone {who : Caller} {k : Claim} (hpc : s.pc t = .filling who k .merged) :
      Core t s ((s.act t s.c.loadDone).moveTo t (.filling who k .looking))
  | lookup {who : Caller} {k : Claim} (hpc : s.pc t = .filling who k .looking) :
      Core t s (s.moveTo t (.filling who k (trustOr (s.c.hashes.lookup k.idx))))
  | peerFails {who : Caller} {k : Claim} {expect : δ}
      (hpc : s.pc t = .filling who k (.asking expect)) :
      Core t s (s.moveTo t (.filling who k .atOrigin))
  /-- Verify before admit. -/
  | peerAnswers {who : Caller} {k : Claim} {expect : δ} (buf : List β) (hlen : buf.length = k.len)
      (hpc : s.pc t = .filling who k (.asking expect)) :
      Core t s (s.moveTo t (.filling who k
        (if P.digest buf = expect then .filled buf .peer else .atOrigin)))
  | originRead {who : Caller} {k : Claim} (buf : List β) (hlen : buf.length = k.len)
      (hpc : s.pc t = .filling who k .atOrigin) :
      Core t s ({ s with reads := (k.idx, buf) :: s.reads }.moveTo t
        (.filling who k (.filled buf .origin)))
  /-- A failed or short read: the claim is given up and the call ends. -/
  | originFails {who : Caller} {k : Claim} (now : Int) (hpc : s.pc t = .filling who k .atOrigin) :
      Core t s ((s.act t (s.c.abortFill P.pieceSize k.idx now).1).moveTo t .idle)
  -- completeFill
  | completeSkip {who : Caller} {k : Claim} {buf : List β} {src : Source β}
      (hpc : s.pc t = .filling who k (.filled buf src)) (hfree : s.contentMu = none)
      (hskip : s.c.fillSkips P.pieceSize k.idx buf.length = true) :
      Core t s ((s.act t (s.c.dropClaim k.idx)).moveTo t (.after who k.idx))
  | completeStart {who : Caller} {k : Claim} {buf : List β} {src : Source β}
      (hpc : s.pc t = .filling who k (.filled buf src)) (hfree : s.contentMu = none)
      (hskip : s.c.fillSkips P.pieceSize k.idx buf.length = false) :
      Core t s ({ s with contentMu := some t }.moveTo t (.filling who k (.writing buf src)))
  | writePiece {who : Caller} {k : Claim} {buf : List β} {src : Source β} (opened : Option φ)
      (ok : Bool) (hpc : s.pc t = .filling who k (.writing buf src)) :
      Core t s ((s.act t (s.c.openCacheUnlocked opened).1).moveTo t
        (.filling who k (.written buf src
          (ok && (s.c.openCacheUnlocked opened).1.cacheFd.isSome))))
  | finish {who : Caller} {k : Claim} {buf : List β} {src : Source β} {ok : Bool} (now : Int)
      (hpc : s.pc t = .filling who k (.written buf src ok)) :
      Core t s ({ s.act t (s.c.finishPiece P.pieceSize k.idx ok buf.length
          (some (P.digest buf)) now).1 with
        contentMu := none
        marks := fillMarks P s.c k buf src ok ++ s.marks }.moveTo t
          (if ok then .after who k.idx else .idle))
  -- after the fill
  | marked {who : Caller} {idx : Nat} (hpc : s.pc t = .after who idx)
      (hbit : s.c.bits.get idx = true) : Core t s (s.moveTo t (markedNext who idx))
  | unmarked {who : Caller} {idx : Nat} (hpc : s.pc t = .after who idx)
      (hbit : s.c.bits.get idx = false) : Core t s (s.moveTo t (unmarkedNext who idx))

def Step (s s' : World τ φ β δ) : Prop := ∃ t, Core P t s s'

end Hydrate

end ModelFs
