import Mathlib.Data.Fintype.Basic
import Mathlib.Logic.Function.Basic
import ModelFs.Cached
import ModelFs.Lib.Machine
import ModelFs.Lib.RefCount

/-!
# Threads on the entry table

The map from paths to entries, the references threads take on them, and the descriptors the
entries open. Any number of threads run `getIdentified`, `lookupRef`, `releaseFile`, `forget`,
`reapIdle` and `cullOne`, and use cache descriptors in between.

A step is one critical section of `store.mu` or `file.mu`, or one atomic access outside of them.
The sections of `reapIdle` and `cullOne` that walk many entries take `store.mu` and do one entry a
step: other threads get in between with their atomic accesses, but with no section of their own.
`releaseFile` is three steps after its decrement: the load of `dead`, the swap of `freed`, the
`deinit`.

Of an entry the table's operations read, the slot keeps all; its bits are there as whether any is
set, its claims as their number. What `file.mu` sections do to these and to the stamp is left open
(`fileSection`), and `content_mu`, which no step here relies on, is left out. Entries are named by
number and never reused, so that an access to a destroyed entry shows (`late`). `deinits`,
`closes`, `late` and `uses` are history.
-/

namespace ModelFs

namespace Table

/-- The fields of `Cached` the table's operations use. `refs` and `xfer` are 32-bit atomics in the
source; a reference or a transfer lives inside a call, which drops it on every exit, so that there
are never more of them than the open calls take and neither counter wraps. `filling` is the size
of a map. -/
structure Slot (ρ : Type) where
  rel : ρ
  refs : Nat := 0
  dead : Bool := false
  freed : Bool := false
  cacheFd : Option Nat := none
  lastAccess : Int := 0
  /-- Claims in `filling`. -/
  filling : Nat := 0
  xfer : Nat := 0
  /-- `bits.lastSet() != null`. -/
  marked : Bool := false
  deinits : Nat := 0
  /-- How often its descriptor was closed. -/
  closes : Nat := 0
  deriving DecidableEq

/-- What keeps a descriptor open while a thread uses it outside of the lock. -/
inductive Guard where
  /-- `readCache` and `streamRange` raise `xfer`. -/
  | transfer
  /-- `writePiece` runs under a fill claim. -/
  | claim
  /-- `copyIntoCache` has the entry's reference and nothing else. -/
  | reference
  deriving DecidableEq

/-- A thread between the start of an operation on a cache descriptor and its end. `fd` is the
descriptor it has, with the number of times the entry's descriptor had been closed by then. -/
structure User where
  entry : Nat
  guard : Guard
  fd : Option (Nat × Nat)
  deriving DecidableEq

/-- Where a call is. -/
inductive Pc (ρ : Type) where
  | idle
  /-- `getIdentified` past a miss, with the `purge_epoch` it sampled. -/
  | building (rel : ρ) (epoch0 : Nat)
  | onFd (user : User)
  /-- Phase 1 of `reapIdle` (with its idle time) or of `cullOne`, `store.mu` held. -/
  | sampling (now : Int) (minIdle : Option Int)
  /-- Phase 2 of `reapIdle`; `evict` once the section on the next candidate is over. -/
  | closing (now minIdle : Int) (evict : Option Bool)
  /-- Phase 3, `store.mu` held. -/
  | evicting
  /-- Phase 2 of `cullOne`. -/
  | culling
  deriving DecidableEq

/-- Where `releaseFile` is after a decrement to zero. -/
inductive Drop where
  | dropped
  | sawDead
  | won
  deriving DecidableEq

structure Thread (ρ : Type) where
  pc : Pc ρ := .idle
  /-- References from `getIdentified` and `lookupRef`. -/
  held : List Nat := []
  /-- Candidates of phase 1 that phase 2 has not dropped or kept yet. -/
  pins : List Nat := []
  /-- Candidates for phase 3. -/
  evict : List Nat := []
  drop : Option (Nat × Drop) := none
  deriving DecidableEq

/-- An operation on a descriptor number: for which entry the number was obtained, what the entry's
descriptor is now, how often it was closed since, and whose data file the number reaches. -/
structure Use where
  entry : Nat
  num : Nat
  cacheFd : Option Nat
  closed : Nat
  reached : Option Nat
  deriving DecidableEq

structure World (τ ρ : Type) where
  files : ρ → Option Nat
  slot : Nat → Slot ρ
  /-- The next unused entry. -/
  next : Nat
  purgeEpoch : Nat := 0
  storeMu : Option τ := none
  /-- Open descriptors: whose data file a number is open on. -/
  desc : Nat → Option Nat := fun _ => none
  thread : τ → Thread ρ
  /-- A destroyed entry was accessed. -/
  late : Bool := false
  uses : List Use := []

namespace World

variable {τ ρ : Type} [DecidableEq τ] [DecidableEq ρ]

def setSlot (s : World τ ρ) (e : Nat) (c : Slot ρ) : World τ ρ :=
  { s with slot := Function.update s.slot e c }

def moveTo (s : World τ ρ) (t : τ) (th : Thread ρ) : World τ ρ :=
  { s with thread := Function.update s.thread t th }

/-- A field of entry `e` is read or written. -/
def touch (s : World τ ρ) (e : Nat) : World τ ρ :=
  { s with late := s.late || decide (0 < (s.slot e).deinits) }

/-- `refs.fetchAdd(1)`. -/
def fetchAdd (s : World τ ρ) (e : Nat) : World τ ρ :=
  (s.touch e).setSlot e { s.slot e with refs := (s.slot e).refs + 1 }

/-- `refs.fetchSub(1)`. -/
def fetchSub (s : World τ ρ) (e : Nat) : World τ ρ :=
  (s.touch e).setSlot e { s.slot e with refs := (s.slot e).refs - 1 }

/-- What `releaseFile` does next: nothing, unless its decrement answered 1. -/
def released (s : World τ ρ) (e : Nat) : Option (Nat × Drop) :=
  if (s.slot e).refs = 1 then some (e, .dropped) else none

def closeFd (s : World τ ρ) (e : Nat) : World τ ρ :=
  match (s.slot e).cacheFd with
  | some n =>
    { s with desc := Function.update s.desc n none }.setSlot e
      { s.slot e with cacheFd := none, closes := (s.slot e).closes + 1 }
  | none => s

/-- `Cached.deinit`. -/
def deinit (s : World τ ρ) (e : Nat) : World τ ρ :=
  let s := (s.touch e).closeFd e
  s.setSlot e { s.slot e with deinits := (s.slot e).deinits + 1 }

/-- The map entry goes and the entry is stamped dead. -/
def stampDead (s : World τ ρ) (e : Nat) : World τ ρ :=
  { (s.touch e).setSlot e { s.slot e with dead := true, marked := false } with
    files := Function.update s.files (s.slot e).rel none
    purgeEpoch := s.purgeEpoch + 1 }

/-- `if (refs.load() == 0) if (!freed.swap(true)) deinit()`. -/
def destroyIdle (s : World τ ρ) (e : Nat) : World τ ρ :=
  if (s.slot e).refs = 0 then
    if (s.slot e).freed then s else (s.setSlot e { s.slot e with freed := true }).deinit e
  else s

/-- An operation on number `n`, obtained for `e` when its descriptor had been closed `closes`
times. -/
def operate (s : World τ ρ) (e n closes : Nat) : World τ ρ :=
  { s with uses := ⟨e, n, (s.slot e).cacheFd, (s.slot e).closes - closes, s.desc n⟩ :: s.uses }

/-- `openCacheUnlocked` of an entry without a descriptor; the system answers `n`. -/
def openFd (s : World τ ρ) (e n : Nat) : World τ ρ :=
  { s with desc := Function.update s.desc n (some e) }.setSlot e
    { s.slot e with cacheFd := some n }

/-- An operation's guard goes up. -/
def raise (s : World τ ρ) (e : Nat) : Guard → World τ ρ
  | .transfer => s.setSlot e { s.slot e with xfer := (s.slot e).xfer + 1 }
  | .claim => s.setSlot e { s.slot e with filling := (s.slot e).filling + 1 }
  | .reference => s

def lower (s : World τ ρ) (e : Nat) : Guard → World τ ρ
  | .transfer => s.setSlot e { s.slot e with xfer := (s.slot e).xfer - 1 }
  | .claim => s.setSlot e { s.slot e with filling := (s.slot e).filling - 1 }
  | .reference => s

def lock (s : World τ ρ) (t : τ) : World τ ρ := { s with storeMu := some t }

def unlock (s : World τ ρ) : World τ ρ := { s with storeMu := none }

end World

open World

variable {τ ρ : Type} [DecidableEq τ] [DecidableEq ρ]

/-- Nothing claims, streams or has lately used the entry: `reapIdle` may close its descriptor. -/
def Slot.quiet (c : Slot ρ) (now minIdle : Int) : Bool :=
  c.filling = 0 && c.xfer = 0 && minIdle ≤ satSubI64 now c.lastAccess

/-- It holds nothing worth keeping either. -/
def Slot.empty (c : Slot ρ) (now minIdle : Int) : Bool := c.quiet now minIdle && !c.marked

/-- One step of thread `t` outside of `releaseFile`'s tail. `th` is the thread before it. -/
inductive Call (t : τ) (s : World τ ρ) (th : Thread ρ) : World τ ρ → Prop where
  -- references
  /-- A map hit, of `lookupRef` or of either probe of `getIdentified`. -/
  | hit {rel : ρ} {e : Nat} (hpc : th.pc = .idle ∨ ∃ epoch0, th.pc = .building rel epoch0)
      (hfree : s.storeMu = none) (hmap : s.files rel = some e) :
      Call t s th ((s.fetchAdd e).moveTo t { th with pc := .idle, held := e :: th.held })
  | getMiss (rel : ρ) (hpc : th.pc = .idle) (hfree : s.storeMu = none)
      (hmap : s.files rel = none) :
      Call t s th (s.moveTo t { th with pc := .building rel s.purgeEpoch })
  /-- A purge invalidated the build, which starts over; or it failed. -/
  | getDiscard {rel : ρ} {epoch0 : Nat} (hpc : th.pc = .building rel epoch0) :
      Call t s th (s.moveTo t { th with pc := .idle })
  | getPut {rel : ρ} {epoch0 : Nat} (now : Int) (marked : Bool)
      (hpc : th.pc = .building rel epoch0) (hfree : s.storeMu = none)
      (hmap : s.files rel = none) (hepoch : s.purgeEpoch = epoch0) :
      Call t s th ({ s.setSlot s.next { rel := rel, refs := 1, lastAccess := now, marked := marked }
        with files := Function.update s.files rel (some s.next), next := s.next + 1 }.moveTo t
          { th with pc := .idle, held := s.next :: th.held })
  /-- A `file.mu` section of a holder. -/
  | fileSection {e : Nat} (now : Int) (marked : Bool) (hpc : th.pc = .idle) (hheld : e ∈ th.held) :
      Call t s th ((s.touch e).setSlot e { s.slot e with lastAccess := now, marked := marked })
  | releaseFile {e : Nat} (hpc : th.pc = .idle) (hheld : e ∈ th.held) :
      Call t s th ((s.fetchSub e).moveTo t
        { th with held := th.held.erase e, drop := s.released e })
  -- forget
  | forget (rel : ρ) {e : Nat} (hpc : th.pc = .idle) (hfree : s.storeMu = none)
      (hmap : s.files rel = some e) :
      Call t s th ((s.stampDead e).destroyIdle e)
  | forgetMiss (rel : ρ) (hpc : th.pc = .idle) (hfree : s.storeMu = none)
      (hmap : s.files rel = none) :
      Call t s th { s with purgeEpoch := s.purgeEpoch + 1 }
  -- phase 1 of reapIdle and cullOne
  | sample (now : Int) (minIdle : Option Int) (hpc : th.pc = .idle) (hfree : s.storeMu = none) :
      Call t s th ((s.lock t).moveTo t { th with pc := .sampling now minIdle })
  | reapPin {rel : ρ} {e : Nat} {now minIdle : Int} (hpc : th.pc = .sampling now (some minIdle))
      (hmap : s.files rel = some e) (hrefs : (s.slot e).refs = 0)
      (hidle : minIdle ≤ satSubI64 now (s.slot e).lastAccess) :
      Call t s th ((s.fetchAdd e).moveTo t { th with pins := e :: th.pins })
  | cullPin {rel : ρ} {e : Nat} {now : Int} (hpc : th.pc = .sampling now none)
      (hmap : s.files rel = some e) (hidle : recencySecs ≤ satSubI64 now (s.slot e).lastAccess) :
      Call t s th ((s.fetchAdd e).moveTo t { th with pins := e :: th.pins })
  /-- A pin goes back under the lock: the sample is full, or the list cannot grow. -/
  | unpin {e : Nat} {now : Int} {minIdle : Option Int} (hpc : th.pc = .sampling now minIdle)
      (hpin : e ∈ th.pins) :
      Call t s th ((s.fetchSub e).moveTo t { th with pins := th.pins.erase e })
  | reapSampled {now minIdle : Int} (hpc : th.pc = .sampling now (some minIdle)) :
      Call t s th (s.unlock.moveTo t { th with pc := .closing now minIdle none })
  | cullSampled {now : Int} (hpc : th.pc = .sampling now none) :
      Call t s th (s.unlock.moveTo t { th with pc := .culling })
  -- phase 2 of reapIdle
  | reapClose {e : Nat} {rest : List Nat} {now minIdle : Int}
      (hpc : th.pc = .closing now minIdle none) (hpins : th.pins = e :: rest) :
      Call t s th ((if (s.slot e).quiet now minIdle then (s.touch e).closeFd e
          else s.touch e).moveTo t
        { th with pc := .closing now minIdle (some ((s.slot e).empty now minIdle)) })
  | reapKeep {e : Nat} {rest : List Nat} {now minIdle : Int}
      (hpc : th.pc = .closing now minIdle (some true)) (hpins : th.pins = e :: rest) :
      Call t s th ((s.touch e).moveTo t
        { th with pc := .closing now minIdle none, pins := rest, evict := e :: th.evict })
  /-- The candidate is not evicted, or `pinExists` says no. -/
  | reapRelease {e : Nat} {rest : List Nat} {now minIdle : Int} {evict : Bool}
      (hpc : th.pc = .closing now minIdle (some evict)) (hpins : th.pins = e :: rest) :
      Call t s th ((s.fetchSub e).moveTo t
        { th with pc := .closing now minIdle none, pins := rest, drop := s.released e })
  | reapEnd {now minIdle : Int} (hpc : th.pc = .closing now minIdle none) (hpins : th.pins = [])
      (hevict : th.evict = []) :
      Call t s th (s.moveTo t { th with pc := .idle })
  -- phase 3
  | reapLock {now minIdle : Int} (hpc : th.pc = .closing now minIdle none) (hpins : th.pins = [])
      (hfree : s.storeMu = none) :
      Call t s th ((s.lock t).moveTo t { th with pc := .evicting })
  /-- A candidate was taken again, filled, pinned or forgotten. -/
  | evictSkip {e : Nat} {rest : List Nat} (hpc : th.pc = .evicting) (hevict : th.evict = e :: rest) :
      Call t s th ((s.fetchSub e).moveTo t { th with evict := rest, drop := s.released e })
  | evictEntry {e : Nat} {rest : List Nat} (hpc : th.pc = .evicting)
      (hevict : th.evict = e :: rest) (hlive : (s.slot e).dead = false)
      (hrefs : (s.slot e).refs = 1) (hfilling : (s.slot e).filling = 0)
      (hmarked : (s.slot e).marked = false) (hmap : (s.files (s.slot e).rel).isSome = true) :
      Call t s th (((s.stampDead e).fetchSub e).moveTo t
        { th with evict := rest, drop := s.released e })
  | evictEnd (hpc : th.pc = .evicting) (hevict : th.evict = []) :
      Call t s th (s.unlock.moveTo t { th with pc := .idle })
  -- phase 2 of cullOne
  | cullRelease {e : Nat} {rest : List Nat} (hpc : th.pc = .culling) (hpins : th.pins = e :: rest) :
      Call t s th ((s.fetchSub e).moveTo t { th with pins := rest, drop := s.released e })
  | cullEnd (hpc : th.pc = .culling) (hpins : th.pins = []) :
      Call t s th (s.moveTo t { th with pc := .idle })
  -- descriptors
  /-- `punchPiece` past its checks, with the descriptor the entry has. -/
  | punchPiece {e n : Nat} (hheld : th.pc = .idle ∧ e ∈ th.held ∨ th.pc = .culling ∧ e ∈ th.pins)
      (hidle : (s.slot e).xfer = 0) (hfd : (s.slot e).cacheFd = some n) :
      Call t s th ((s.touch e).operate e n (s.slot e).closes)
  /-- `punchPiece` with the descriptor it opens. -/
  | punchOpen {e n : Nat} (hheld : th.pc = .idle ∧ e ∈ th.held ∨ th.pc = .culling ∧ e ∈ th.pins)
      (hidle : (s.slot e).xfer = 0) (hfd : (s.slot e).cacheFd = none) (hnew : s.desc n = none) :
      Call t s th (((s.touch e).openFd e n).operate e n (s.slot e).closes)
  | truncateCacheFd {e n : Nat} (hpc : th.pc = .idle) (hheld : e ∈ th.held)
      (hidle : (s.slot e).xfer = 0) (hfd : (s.slot e).cacheFd = some n) :
      Call t s th ((s.touch e).operate e n (s.slot e).closes)
  | enter {e : Nat} (guard : Guard) (hpc : th.pc = .idle) (hheld : e ∈ th.held) :
      Call t s th (((s.touch e).raise e guard).moveTo t { th with pc := .onFd ⟨e, guard, none⟩ })
  | openCache {e n : Nat} {guard : Guard} (hpc : th.pc = .onFd ⟨e, guard, none⟩)
      (hfd : (s.slot e).cacheFd = some n) :
      Call t s th ((s.touch e).moveTo t
        { th with pc := .onFd ⟨e, guard, some (n, (s.slot e).closes)⟩ })
  | openNew {e n : Nat} {guard : Guard} (hpc : th.pc = .onFd ⟨e, guard, none⟩)
      (hfd : (s.slot e).cacheFd = none) (hnew : s.desc n = none) :
      Call t s th (((s.touch e).openFd e n).moveTo t
        { th with pc := .onFd ⟨e, guard, some (n, (s.slot e).closes)⟩ })
  /-- A `pread`, `pwrite` or `sendfile`. -/
  | io {e n closes : Nat} {guard : Guard} (hpc : th.pc = .onFd ⟨e, guard, some (n, closes)⟩) :
      Call t s th (s.operate e n closes)
  | exit {e : Nat} {guard : Guard} {fd : Option (Nat × Nat)} (hpc : th.pc = .onFd ⟨e, guard, fd⟩) :
      Call t s th (((s.touch e).lower e guard).moveTo t { th with pc := .idle })

/-- One step of the tail of `releaseFile`, past a decrement to zero. -/
inductive Tail (t : τ) (s : World τ ρ) (th : Thread ρ) : World τ ρ → Prop where
  | spare {e : Nat} (hdrop : th.drop = some (e, .dropped)) (hlive : (s.slot e).dead = false) :
      Tail t s th ((s.touch e).moveTo t { th with drop := none })
  | sawDead {e : Nat} (hdrop : th.drop = some (e, .dropped)) (hdead : (s.slot e).dead = true) :
      Tail t s th ((s.touch e).moveTo t { th with drop := some (e, .sawDead) })
  | won {e : Nat} (hdrop : th.drop = some (e, .sawDead)) (hfirst : (s.slot e).freed = false) :
      Tail t s th (((s.touch e).setSlot e { s.slot e with freed := true }).moveTo t
        { th with drop := some (e, .won) })
  | lost {e : Nat} (hdrop : th.drop = some (e, .sawDead)) (hlast : (s.slot e).freed = true) :
      Tail t s th ((s.touch e).moveTo t { th with drop := none })
  | deinit {e : Nat} (hdrop : th.drop = some (e, .won)) :
      Tail t s th ((s.deinit e).moveTo t { th with drop := none })

/-- One step of thread `t`: it finishes a `releaseFile` before it goes on. -/
inductive Core (t : τ) (s s' : World τ ρ) : Prop where
  | call (hdrop : (s.thread t).drop = none) (h : Call t s (s.thread t) s')
  | tail (h : Tail t s (s.thread t) s')

/-- One step of some thread. -/
def Step (s s' : World τ ρ) : Prop := ∃ t, Core t s s'

end Table

end ModelFs
