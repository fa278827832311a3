import Mathlib.Data.Fintype.Basic
import Mathlib.Logic.Function.Basic
import ModelFs.Invalidate
import ModelFs.Lib.Machine
import ModelFs.Lib.SparseFile

/-!
# Threads on one entry

Any number of threads run the store's operations on one live entry, its data file and the origin
file behind it. A step is one critical section, one system call on a descriptor, or one atomic
access outside a lock. `content_mu` is held across several steps and has an owner; `file.mu` is
held for the length of a section and needs none.

A thread has a role and an act. The act is the storage operation it is inside of: a fill, a
write-through, a reset. The role is the request it serves: `mf_read` or `serveData`, which hold a
transfer reference, hydrate their range piece by piece through acts of their own, and then
read the range from the cache descriptor.

Cells of the data file carry, besides their byte, how far the entry and the origin were when the
operation that put them began. This and the fields `cuts`, `truncs`, `truncAt`, `landed`, `inval`,
`hist`, `answers` and `sent` are history: no section reads them.
-/

namespace ModelFs

namespace Entry

/-- How old bytes are: the cuts of the entry and the truncates of the origin that had been when they
were asked for or written. A fill is stamped at its claim. A write-through is stamped with the
truncates at its origin write, and with the cuts at its size step, where the entry takes over the
identity found after that write. -/
structure Stamp where
  cuts : Nat
  truncs : Nat
  deriving DecidableEq

/-- A byte of the data file, stamped by its writer. -/
structure Cell (β : Type) where
  byte : β
  born : Stamp
  deriving DecidableEq

/-- What a mount fixes for all its entries. -/
structure Params (β δ : Type) where
  pieceSize : Nat
  pieceSize_pos : 0 < pieceSize
  /-- The source's piece size is a `u32`. -/
  pieceSize_le : pieceSize ≤ maxU32
  /-- What a hole reads as. -/
  zero : β
  digest : List β → δ

/-- The storage operation a thread is inside of. -/
inductive Act (β : Type) where
  | resting
  /-- `beginFill` answered `.len`. -/
  | claimed (idx len : Nat) (born : Stamp)
  /-- `completeFill` past its check, `content_mu` held. -/
  | landing (idx : Nat) (buf : List β) (born : Stamp)
  | landFd (idx : Nat) (buf : List β) (born : Stamp) (fd : Nat)
  | landed (idx len : Nat) (ok : Bool) (born : Stamp)
  /-- A fill that came back with an error. -/
  | refused
  /-- `reconcile` past its first look. -/
  | resetting (size : Nat) (id : OriginId)
  /-- `mf_write` past its origin write, at `truncs` truncates. -/
  | written (off : Nat) (data : List β) (truncs : Nat)
  /-- A write-through past its size step. -/
  | sized (off : Nat) (data : List β) (born : Stamp)
  /-- `copyIntoCache` with no transfer in the way, `content_mu` held. -/
  | copying (off : Nat) (data : List β) (born : Stamp)
  | copyFd (off : Nat) (data : List β) (born : Stamp) (fd : Nat)
  | copied (off : Nat) (data : List β) (ok : Bool)
  /-- `truncateWithClose` past its origin truncate, which was the one of that number. -/
  | truncated (size serial : Nat)
  deriving DecidableEq

/-- Which request a range is read for. -/
inductive Kind where
  | read
  | serve
  deriving DecidableEq

/-- A range under a transfer reference, the size its cover is taken against, and the length of
the history when the reference was taken. -/
structure Job where
  kind : Kind
  off : Nat
  len : Nat
  fsize : Nat
  start : Nat
  deriving DecidableEq

def Job.span (job : Job) : Piece.Span := ⟨job.off, job.len⟩

/-- The request a thread serves. -/
inductive Role where
  | free
  /-- `mf_read` with its transfer reference, before the size sample. -/
  | entered (off want start : Nat)
  | probing (job : Job)
  /-- The hydration loop at piece `idx`. -/
  | hydrating (job : Job) (idx retries : Nat)
  /-- A fill of piece `idx` was started; the loop looks at the mark when it is over. -/
  | settling (job : Job) (idx retries : Nat)
  /-- `hydrateRange` after a `.filled` answer. -/
  | checking (job : Job) (idx : Nat)
  /-- `streamRange` before its open. -/
  | starting (job : Job)
  | streaming (job : Job) (done fd : Nat)
  /-- `readServed` is next, for the bytes from `done` on. -/
  | serving (job : Job) (done : Nat)
  /-- `readCache` with its own transfer reference. -/
  | fetching (job : Job) (done take : Nat)
  | fetchFd (job : Job) (done take fd : Nat)
  /-- The read goes to the origin. -/
  | fallback (job : Job)
  deriving DecidableEq

/-- The transfer references a role holds. -/
def Role.holds : Role → Nat
  | .free => 0
  | .fetching .. => 2
  | .fetchFd .. => 2
  | _ => 1

structure Thread (β : Type) where
  act : Act β
  role : Role
  deriving DecidableEq

/-- One instant of the history: what the origin and the cache last held, and the marks. -/
structure Snap (β : Type) where
  origin : Nat → Option β
  landed : Nat → Option β
  marked : Nat → Bool
  inval : Nat → Nat

/-- Bytes `mf_read` returned for `off`, and the instants from its transfer reference on. -/
structure Answer (β : Type) where
  off : Nat
  bytes : List β
  window : List (Snap β)

/-- Bytes of the cache descriptor sent to a peer: the range, the instants of the request so far,
the marks and the invalidations each piece had seen, and which bytes were holes. -/
structure Sent (β : Type) where
  off : Nat
  len : Nat
  window : List (Snap β)
  marked : Nat → Bool
  inval : Nat → Nat
  hole : Nat → Bool

/-- The entry, its files and its threads. -/
structure World (τ β δ : Type) where
  c : Cached Nat δ
  inode : Nat → SparseFile (Cell β)
  /-- The next unused inode. -/
  next : Nat
  /-- The inode at the entry's data path. -/
  path : Option Nat
  contentMu : Option τ := none
  thread : τ → Thread β
  origin : SparseFile β
  /-- Truncates, resets and shrinks of the entry so far. -/
  cuts : Nat := 0
  /-- Truncates of the origin so far. -/
  truncs : Nat := 0
  /-- The last of them that has reached the entry and took the byte at an offset. -/
  truncAt : Nat → Nat := fun _ => 0
  /-- The byte a fill or write-through last put at each offset. -/
  landed : Nat → Option β
  /-- Invalidations of each piece so far. -/
  inval : Nat → Nat := fun _ => 0
  hist : List (Snap β) := []
  answers : List (Answer β) := []
  sent : List (Sent β) := []

namespace World

variable {τ β δ : Type} [DecidableEq τ]

/-! ## Files -/

/-- Creating the data file where the path names none (`O_CREAT`). -/
def ensureData (s : World τ β δ) : World τ β δ :=
  match s.path with
  | some _ => s
  | none =>
    { s with
      inode := Function.update s.inode s.next SparseFile.empty
      path := some s.next
      next := s.next + 1 }

/-- What opening the data file by path comes to; `ok` is whether the system lets it. -/
def opened (s : World τ β δ) (ok : Bool) : Option Nat :=
  if ok then some (s.path.getD s.next) else none

def applyIo (s : World τ β δ) : Io Nat → World τ β δ
  | .save .. => s
  | .cut fd n => { s with inode := Function.update s.inode fd ((s.inode fd).ftruncate n) }
  | .punch fd off n => { s with inode := Function.update s.inode fd ((s.inode fd).punch off n) }
  | .unlinkData => { s with path := none }
  | .unlinkMeta => s
  | .unlinkPin => s

/-- A section's outcome takes effect. A descriptor the entry did not have comes from an open by
path. -/
def commit (s : World τ β δ) (c : Cached Nat δ) (io : List (Io Nat)) : World τ β δ :=
  let s := if s.c.cacheFd.isNone && c.cacheFd.isSome then s.ensureData else s
  io.foldl applyIo { s with c := c }

/-- The file the entry's marks are about: the one behind its descriptor, else the one its path
names. -/
def dataFile (s : World τ β δ) : SparseFile (Cell β) :=
  match s.c.cacheFd, s.path with
  | some fd, _ => s.inode fd
  | none, some ino => s.inode ino
  | none, none => SparseFile.empty

/-- `pwrite` of `bytes` on a cache descriptor. -/
def land (s : World τ β δ) (fd off : Nat) (bytes : List β) (born : Stamp) : World τ β δ :=
  { s with
    inode := Function.update s.inode fd ((s.inode fd).pwrite off (bytes.map (⟨·, born⟩)))
    landed := fun o =>
      if off ≤ o ∧ o < off + bytes.length then bytes[o - off]? else s.landed o }

/-- The origin's byte at `o`; its holes read as zeros. -/
def originByte (P : Params β δ) (s : World τ β δ) (o : Nat) : Option β :=
  if o < s.origin.len then some ((s.origin.cell o).getD P.zero) else none

/-! ## Threads -/

def act (s : World τ β δ) (t : τ) : Act β := (s.thread t).act

def role (s : World τ β δ) (t : τ) : Role := (s.thread t).role

def setAct (s : World τ β δ) (t : τ) (a : Act β) : World τ β δ :=
  { s with thread := Function.update s.thread t { s.thread t with act := a } }

def setRole (s : World τ β δ) (t : τ) (r : Role) : World τ β δ :=
  { s with thread := Function.update s.thread t { s.thread t with role := r } }

/-- A request ends: its transfer references go. -/
def leave (s : World τ β δ) (t : τ) : World τ β δ :=
  { s with c := { s.c with xfer := s.c.xfer - (s.role t).holds } }.setRole t .free

def lock (s : World τ β δ) (t : τ) : World τ β δ := { s with contentMu := some t }

def unlock (s : World τ β δ) : World τ β δ := { s with contentMu := none }

/-! ## History -/

/-- A cut: every piece is invalidated. -/
def cut (s : World τ β δ) (really : Bool) : World τ β δ :=
  if really then { s with cuts := s.cuts + 1, inval := fun i => s.inval i + 1 } else s

/-- A truncate reaches the entry: the bytes from `start` on are older than it. -/
def truncate (s : World τ β δ) (serial start : Nat) : World τ β δ :=
  { s with truncAt := fun o => if start ≤ o then max (s.truncAt o) serial else s.truncAt o }

/-- What an operation is stamped with that begins now. -/
def epoch (s : World τ β δ) : Stamp := ⟨s.cuts, s.truncs⟩

/-- The pieces `p` holds of are invalidated. -/
def invalidate (s : World τ β δ) (p : Nat → Bool) : World τ β δ :=
  { s with inval := fun i => if p i then s.inval i + 1 else s.inval i }

def snap (P : Params β δ) (s : World τ β δ) : Snap β where
  origin := s.originByte P
  landed := s.landed
  marked := s.c.bits.get
  inval := s.inval

def tick (P : Params β δ) (s : World τ β δ) : World τ β δ := { s with hist := s.snap P :: s.hist }

/-- The instants since the history had length `start`. -/
def since (s : World τ β δ) (start : Nat) : List (Snap β) := s.hist.take (s.hist.length - start)

def answer (s : World τ β δ) (off : Nat) (bytes : List β) (start : Nat) : World τ β δ :=
  { s with answers := ⟨off, bytes, s.since start⟩ :: s.answers }

def send (s : World τ β δ) (fd off len start : Nat) : World τ β δ :=
  { s with sent := ⟨off, len, s.since start, s.c.bits.get, s.inval,
      fun o => ((s.inode fd).cell o).isNone⟩ :: s.sent }

end World

open World

variable {τ β δ : Type} [DecidableEq τ] [DecidableEq δ]

/-- The act a claim leaves its thread in. -/
def claimAct (β : Type) (idx : Nat) (born : Stamp) : Option Cached.FillClaim → Act β
  | some (.len n) => .claimed idx n born
  | _ => .resting

/-- The role a claim leaves the hydration loop in. -/
def claimRole (job : Job) (idx retries : Nat) : Option Cached.FillClaim → Role
  | none => .hydrating job idx retries
  | some (.len _) => .settling job idx retries
  | some .raced => .hydrating job (idx + 1) 0
  | some .filled => if job.kind = .read then .hydrating job (idx + 1) 0 else .checking job idx

/-- Where a hydrated range goes next. -/
def hydrated (job : Job) : Role := if job.kind = .read then .serving job 0 else .starting job

/-- The bytes a read of the cache descriptor hands back. -/
def resolve (P : Params β δ) (cells : List (Option (Cell β))) : List β :=
  cells.map fun a => (a.map Cell.byte).getD P.zero

variable (P : Params β δ)

/-- One step of thread `t`, without the entry it leaves in the history. -/
inductive Core (t : τ) (s : World τ β δ) : World τ β δ → Prop where
  -- fills
  | beginFill (idx : Nat) (now : Int) (hact : s.act t = .resting) (hrole : s.role t = .free) :
      Core t s ((s.commit (s.c.beginFill P.pieceSize idx now).1 []).setAct t
        (claimAct β idx s.epoch (s.c.beginFill P.pieceSize idx now).2))
  | abortFill {idx len : Nat} {born : Stamp} (now : Int) (hact : s.act t = .claimed idx len born) :
      Core t s ((s.commit (s.c.abortFill P.pieceSize idx now).1
        (s.c.abortFill P.pieceSize idx now).2).setAct t .refused)
  | completeSkip {idx len : Nat} {born : Stamp} (hact : s.act t = .claimed idx len born)
      (hfree : s.contentMu = none) (hskip : s.c.fillSkips P.pieceSize idx len = true) :
      Core t s ((s.commit (s.c.dropClaim idx) []).setAct t .resting)
  | completeStart {idx len : Nat} {born : Stamp} (buf : List β)
      (hact : s.act t = .claimed idx len born) (hlen : buf.length = len)
      (hfree : s.contentMu = none) (hskip : s.c.fillSkips P.pieceSize idx len = false) :
      Core t s ((s.lock t).setAct t (.landing idx buf born))
  | landOpen {idx : Nat} {born : Stamp} {buf : List β} (ok : Bool)
      (hact : s.act t = .landing idx buf born) :
      Core t s ((s.commit (s.c.openCacheUnlocked (s.opened ok)).1
        (s.c.openCacheUnlocked (s.opened ok)).2).setAct t
          (match (s.c.openCacheUnlocked (s.opened ok)).1.cacheFd with
          | some fd => .landFd idx buf born fd
          | none => .landed idx buf.length false born))
  | landWrite {idx fd : Nat} {born : Stamp} {buf : List β} (k : Nat) (hk : k ≤ buf.length)
      (hact : s.act t = .landFd idx buf born fd) :
      Core t s ((s.land fd (Piece.offset idx P.pieceSize) (buf.take k) born).setAct t
        (.landed idx buf.length (k = buf.length) born))
  | finishFill {idx len : Nat} {born : Stamp} {ok : Bool} (hash : Option δ) (now : Int)
      (hact : s.act t = .landed idx len ok born) :
      Core t s ((s.commit (s.c.finishPiece P.pieceSize idx ok len hash now).1
        (s.c.finishPiece P.pieceSize idx ok len hash now).2).unlock.setAct t
          (if ok then .resting else .refused))
  | refusedDone (hact : s.act t = .refused) (hrole : s.role t = .free) :
      Core t s (s.setAct t .resting)
  -- write-through
  | originWrite (off : Nat) (data : List β) (hact : s.act t = .resting) (hrole : s.role t = .free) :
      Core t s ({ s with origin := s.origin.pwrite off data }.setAct t
        (.written off data s.truncs))
  | cacheFillSize {off truncs : Nat} {data : List β} (id : OriginId) (now : Int) (alloc : Bool)
      (hact : s.act t = .written off data truncs) (hfree : s.contentMu = none) :
      Core t s (((s.commit (s.c.cacheFillSize P.pieceSize (off + data.length) id now alloc).1
        (s.c.cacheFillSize P.pieceSize (off + data.length) id now alloc).2.1).cut
          (off + data.length < s.c.size)).setAct t
          (if (s.c.cacheFillSize P.pieceSize (off + data.length) id now alloc).2.2 then
            .sized off data ⟨s.cuts + if off + data.length < s.c.size then 1 else 0, truncs⟩
          else .resting))
  | growForWrite {off truncs : Nat} {data : List β} (now : Int) (resized : Bool)
      (hact : s.act t = .written off data truncs) (hfree : s.contentMu = none) :
      Core t s ((s.commit
        ((s.c.growToLocked P.pieceSize (off + data.length) resized).1.stamp now)
        (s.c.growToLocked P.pieceSize (off + data.length) resized).2).setAct t
          (.sized off data ⟨s.cuts, truncs⟩))
  | distrustWrite {off truncs : Nat} {data : List β} (hact : s.act t = .written off data truncs) :
      Core t s (((s.commit s.c.distrust.1 s.c.distrust.2).invalidate fun _ => true).setAct t
        .resting)
  | copyLock {off : Nat} {born : Stamp} {data : List β} (hact : s.act t = .sized off data born)
      (hfree : s.contentMu = none) :
      Core t s ((s.lock t).setAct t
        (if s.c.xferBusy then .copied off data false else .copying off data born))
  | copyOpen {off : Nat} {born : Stamp} {data : List β} (ok : Bool)
      (hact : s.act t = .copying off data born) :
      Core t s ((s.commit (s.c.openCacheUnlocked (s.opened ok)).1
        (s.c.openCacheUnlocked (s.opened ok)).2).setAct t
          (match (s.c.openCacheUnlocked (s.opened ok)).1.cacheFd with
          | some fd => .copyFd off data born fd
          | none => .copied off data false))
  | copyWrite {off fd : Nat} {born : Stamp} {data : List β} (k : Nat) (hk : k ≤ data.length)
      (hact : s.act t = .copyFd off data born fd) :
      Core t s ((s.land fd off (data.take k) born).setAct t
        (.copied off data (k = data.length)))
  | copyMark {off : Nat} {data : List β} {ok : Bool} (hact : s.act t = .copied off data ok) :
      Core t s (((s.commit (s.c.markCopy P.digest P.pieceSize off data ok).1
        (s.c.markCopy P.digest P.pieceSize off data ok).2.1).unlock.invalidate fun i =>
          !ok && !s.c.dead && !(s.c.markCopy P.digest P.pieceSize off data ok).1.bits.get i &&
            decide ((Piece.cover ⟨off, data.length⟩ s.c.size P.pieceSize).start ≤ i) &&
            decide (i < (Piece.cover ⟨off, data.length⟩ s.c.size P.pieceSize).stop)).setAct t
          .resting)
  | noteOriginId (id : OriginId) (hact : s.act t = .resting) (hrole : s.role t = .free) :
      Core t s (s.commit (s.c.noteOriginId id).1 (s.c.noteOriginId id).2)
  -- size and trust
  | reconcileProbe (size : Nat) (id : OriginId) (hact : s.act t = .resting)
      (hrole : s.role t = .free) :
      Core t s ((s.commit (s.c.reconcileProbe size id).1 (s.c.reconcileProbe size id).2.1).setAct t
        (if (s.c.reconcileProbe size id).2.2 then .resetting size id else .resting))
  | reconcileReset {size : Nat} {id : OriginId} (hact : s.act t = .resetting size id)
      (hfree : s.contentMu = none) :
      Core t s (((s.commit (s.c.reconcileReset P.pieceSize size id).1
        (s.c.reconcileReset P.pieceSize size id).2).cut (s.c.differs size id)).setAct t .resting)
  | originTruncate (size : Nat) (hact : s.act t = .resting) (hrole : s.role t = .free) :
      Core t s ({ s with origin := s.origin.ftruncate size, truncs := s.truncs + 1 }.setAct t
        (.truncated size (s.truncs + 1)))
  -- one to the size the entry has drops no mark, but takes what lies past it
  | truncateEntry {size serial : Nat} (alloc : Bool) (hact : s.act t = .truncated size serial)
      (hfree : s.contentMu = none) :
      Core t s ((((s.commit (s.c.truncateEntry P.pieceSize size alloc).1
        (s.c.truncateEntry P.pieceSize size alloc).2.1).cut (s.c.size ≠ size)).truncate serial
          (if s.c.size = size then size else 0)).setAct t .resting)
  | distrust (hact : s.act t = .resting) (hrole : s.role t = .free) :
      Core t s ((s.commit s.c.distrust.1 s.c.distrust.2).invalidate fun _ => true)
  | forget (hact : s.act t = .resting) (hrole : s.role t = .free) (hlive : s.c.dead = false) :
      Core t s ((s.commit s.c.forget.1 s.c.forget.2).invalidate fun _ => true)
  | punch (idx : Nat) (ok : Bool) (env : Cached.PunchEnv Nat) (hact : s.act t = .resting)
      (hrole : s.role t = .free) (hfree : s.contentMu = none) (hopen : env.opened = s.opened ok) :
      Core t s ((s.commit (s.c.punchPiece P.pieceSize idx env).1
        (s.c.punchPiece P.pieceSize idx env).2.1).invalidate fun i =>
          (s.c.punchPiece P.pieceSize idx env).2.2 && i == idx)
  | heal (idx : Nat) (hact : s.act t = .resting) (hfree : s.contentMu = none) :
      Core t s ((s.commit (s.c.healPiece idx).1 (s.c.healPiece idx).2).invalidate fun i =>
        !s.c.dead && i == idx)
  -- requests
  | readEnter (off want : Nat) (hact : s.act t = .resting) (hrole : s.role t = .free)
      (hfree : s.contentMu = none) :
      Core t s ({ s with c := s.c.fetchAddXfer }.setRole t (.entered off want s.hist.length))
  | readSample {off want start : Nat} (now : Int) (hact : s.act t = .resting)
      (hrole : s.role t = .entered off want start) (hoff : off < s.c.size) :
      Core t s ({ s with c := s.c.stamp now }.setRole t
        (if s.c.rangeFilled ⟨off, min want (s.c.size - off)⟩ s.c.size P.pieceSize then
          .serving ⟨.read, off, min want (s.c.size - off), s.c.size, start⟩ 0
        else .probing ⟨.read, off, min want (s.c.size - off), s.c.size, start⟩))
  | serveEnter (off len fsize : Nat) (hact : s.act t = .resting) (hrole : s.role t = .free)
      (hfree : s.contentMu = none) (hlen : 0 < len) (hrange : off + len ≤ fsize) :
      Core t s ({ s with c := s.c.fetchAddXfer }.setRole t
        (.probing ⟨.serve, off, len, fsize, s.hist.length⟩))
  | probeEmpty {job : Job} (hact : s.act t = .resting) (hrole : s.role t = .probing job)
      (hcov : (Piece.cover job.span job.fsize P.pieceSize).stop ≤
        (Piece.cover job.span job.fsize P.pieceSize).start) :
      Core t s (s.setRole t (hydrated job))
  | probeRange {job : Job} (now : Int) (hact : s.act t = .resting)
      (hrole : s.role t = .probing job)
      (hcov : (Piece.cover job.span job.fsize P.pieceSize).start <
        (Piece.cover job.span job.fsize P.pieceSize).stop) :
      Core t s ({ s with c := (s.c.touchRangeFilled job.span job.fsize P.pieceSize now).1 }.setRole t
        (if (s.c.touchRangeFilled job.span job.fsize P.pieceSize now).2 then hydrated job
        else .hydrating job (Piece.cover job.span job.fsize P.pieceSize).start 0))
  | hydrateDone {job : Job} {idx retries : Nat} (hact : s.act t = .resting)
      (hrole : s.role t = .hydrating job idx retries)
      (hend : (Piece.cover job.span job.fsize P.pieceSize).stop ≤ idx) :
      Core t s (s.setRole t (hydrated job))
  | hydrateMarked {job : Job} {idx retries : Nat} (hact : s.act t = .resting)
      (hrole : s.role t = .hydrating job idx retries) (hbit : s.c.bits.get idx = true) :
      Core t s (s.setRole t (.hydrating job (idx + 1) 0))
  | hydrateDead {job : Job} {idx retries : Nat} (hact : s.act t = .resting)
      (hrole : s.role t = .hydrating job idx retries) (hkind : job.kind = .read)
      (hdead : s.c.dead = true) :
      Core t s (s.setRole t (.hydrating job (idx + 1) 0))
  | hydrateClaim {job : Job} {idx retries : Nat} (now : Int) (hact : s.act t = .resting)
      (hrole : s.role t = .hydrating job idx retries)
      (hmore : idx < (Piece.cover job.span job.fsize P.pieceSize).stop) :
      Core t s (((s.commit (s.c.beginFill P.pieceSize idx now).1 []).setAct t
        (claimAct β idx s.epoch (s.c.beginFill P.pieceSize idx now).2)).setRole t
          (claimRole job idx retries (s.c.beginFill P.pieceSize idx now).2))
  | settled {job : Job} {idx retries : Nat} (hact : s.act t = .resting)
      (hrole : s.role t = .settling job idx retries) (hbit : s.c.bits.get idx = true) :
      Core t s (s.setRole t (.hydrating job (idx + 1) 0))
  | unsettled {job : Job} {idx retries : Nat} (hact : s.act t = .resting)
      (hrole : s.role t = .settling job idx retries) (hkind : job.kind = .read)
      (hbit : s.c.bits.get idx = false) :
      Core t s (s.setRole t
        (if retries < 1 then .hydrating job idx (retries + 1) else .fallback job))
  | settleFailed {job : Job} {idx retries : Nat} (hact : s.act t = .refused)
      (hrole : s.role t = .settling job idx retries) :
      Core t s ((s.setAct t .resting).setRole t (.fallback job))
  | checked {job : Job} {idx : Nat} (hact : s.act t = .resting)
      (hrole : s.role t = .checking job idx) (hbit : s.c.bits.get idx = true) :
      Core t s (s.setRole t (.hydrating job (idx + 1) 0))
  | streamOpen {job : Job} (ok : Bool) (hact : s.act t = .resting)
      (hrole : s.role t = .starting job)
      (htracked : Piece.rangeTracked job.span job.fsize P.pieceSize = true) :
      Core t s ((s.commit (s.c.openCacheUnlocked (s.opened ok)).1
        (s.c.openCacheUnlocked (s.opened ok)).2).setRole t
          (match (s.c.openCacheUnlocked (s.opened ok)).1.cacheFd with
          | some fd => .streaming job 0 fd
          | none => .serving job 0))
  | streamUntracked {job : Job} (hact : s.act t = .resting) (hrole : s.role t = .starting job)
      (htracked : Piece.rangeTracked job.span job.fsize P.pieceSize = false) :
      Core t s (s.setRole t (.serving job 0))
  | streamSend {job : Job} {done fd : Nat} (now : Int) (hact : s.act t = .resting)
      (hrole : s.role t = .streaming job done fd) (hmore : done < job.len)
      (hfull : job.off + done + min (job.len - done) P.pieceSize ≤ (s.inode fd).len) :
      Core t s (({ s with c := s.c.stamp now }.send fd (job.off + done)
        (min (job.len - done) P.pieceSize) job.start).setRole t
          (.streaming job (done + min (job.len - done) P.pieceSize) fd))
  | streamShort {job : Job} {done fd k : Nat} (now : Int) (hact : s.act t = .resting)
      (hrole : s.role t = .streaming job done fd)
      (hk : k < min (job.len - done) P.pieceSize)
      (hlen : k ≤ (s.inode fd).len - (job.off + done)) (hsome : 0 < k) :
      Core t s (({ s with c := s.c.stamp now }.send fd (job.off + done) k job.start).leave t)
  | streamFirstFailed {job : Job} {fd : Nat} (now : Int) (hact : s.act t = .resting)
      (hrole : s.role t = .streaming job 0 fd) :
      Core t s ({ s with c := s.c.stamp now }.setRole t (.serving job 0))
  | servedFromOrigin {job : Job} {done : Nat} (take : Nat) (hact : s.act t = .resting)
      (hrole : s.role t = .serving job done) (hmore : done + take ≤ job.len)
      (hwhole : job.kind = .read → take = job.len)
      (hcache : s.c.dead = true ∨
        Piece.rangeTracked ⟨job.off + done, take⟩ s.c.size P.pieceSize = false) :
      Core t s (s.setRole t
        (if job.kind = .read then .fallback job else .serving job (done + take)))
  | servedFromCache {job : Job} {done : Nat} (take : Nat) (hact : s.act t = .resting)
      (hrole : s.role t = .serving job done) (hmore : done + take ≤ job.len)
      (hwhole : job.kind = .read → take = job.len) (hlive : s.c.dead = false)
      (htracked : Piece.rangeTracked ⟨job.off + done, take⟩ s.c.size P.pieceSize = true) :
      Core t s ({ s with c := s.c.fetchAddXfer }.setRole t (.fetching job done take))
  | fetchOpen {job : Job} {done take : Nat} (ok : Bool) (hact : s.act t = .resting)
      (hrole : s.role t = .fetching job done take) :
      Core t s ((s.commit (s.c.openCacheUnlocked (s.opened ok)).1
        (s.c.openCacheUnlocked (s.opened ok)).2).setRole t
          (match (s.c.openCacheUnlocked (s.opened ok)).1.cacheFd with
          | some fd => .fetchFd job done take fd
          | none => .fetching job done take))
  | fetchRead {job : Job} {done take fd : Nat} (now : Int) (hact : s.act t = .resting)
      (hrole : s.role t = .fetchFd job done take fd) (hkind : job.kind = .read) :
      Core t s (({ s with c := s.c.stamp now }.answer (job.off + done)
        (resolve P ((s.inode fd).pread (job.off + done) take)) job.start).leave t)
  | fetchSend {job : Job} {done take fd : Nat} (now : Int) (hact : s.act t = .resting)
      (hrole : s.role t = .fetchFd job done take fd) (hkind : job.kind = .serve)
      (hfull : job.off + done + take ≤ (s.inode fd).len) :
      Core t s (({ s with c := (s.c.stamp now).fetchSubXfer }.send fd (job.off + done) take
        job.start).setRole t (.serving job (done + take)))
  | fetchFailed {job : Job} {done take : Nat} (hact : s.act t = .resting)
      (hrole : s.role t = .fetching job done take ∨ ∃ fd, s.role t = .fetchFd job done take fd) :
      Core t s ({ s with c := s.c.fetchSubXfer }.setRole t
        (if job.kind = Kind.read then .fallback job else .serving job (done + take)))
  | fallbackRead {job : Job} (hact : s.act t = .resting) (hrole : s.role t = .fallback job)
      (hkind : job.kind = .read) :
      Core t s ((s.answer job.off ((List.range (min job.len (s.origin.len - job.off))).map
        fun k => ((s.origin.cell (job.off + k)).getD P.zero)) job.start).leave t)
  | leave (hact : s.act t = .resting) (hrole : s.role t ≠ .free) : Core t s (s.leave t)

/-- One step of some thread. -/
def Step (s s' : World τ β δ) : Prop := ∃ t s₁, Core P t s s₁ ∧ s' = s₁.tick P

end Entry

end ModelFs
