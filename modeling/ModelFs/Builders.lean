import Mathlib.Logic.Function.Basic
import ModelFs.Disk
import ModelFs.Lib.Machine

/-!
# Builders against purges

`getIdentified` reads a sidecar outside of `store.mu`, while `forget`, `distrust`, `reapIdle` and
`punchDisk` take artifacts away. Any number of threads run these on any paths. A builder samples
the purge epoch with its map miss and inserts only under the epoch it sampled; whoever takes
artifacts away raises the epoch when that is over.

A step is one critical section, or a part of one between which a read outside the lock can fall:
each section of `store.mu` that touches a sidecar is a lock, what it does to the file, and the end
that raises the epoch. Holders save the sidecars of their entries at any time, with any content.
A map hit changes nothing here and is left out. Entries are named by number and never reused.
`log` is history, newest event first.

* `EntryInv.core` — the entries that are not dead are those of the map, and those a purge has just
  taken out of it.
* `inserted_of_run` — **freshness.** One live entry a path at any time, and no insertion of bits
  older than the last purge, distrust or punch of the path.
-/

namespace ModelFs

namespace Builders

/-- What the machine remembers. -/
inductive Event (τ ρ : Type) where
  /-- A builder missed the map and sampled the epoch. -/
  | missed (thread : τ) (rel : ρ)
  /-- It read the sidecar, and asked for this size and identity. -/
  | read (thread : τ) (rel : ρ) (file : SidecarRead) (size : UInt64) (originId : OriginId)
  | inserted (thread : τ) (rel : ρ) (entry : Nat) (bits : Bitfield)
  /-- A removal, an invalidation or a punch of the artifacts of `rel` is complete. -/
  | mutated (rel : ρ)

/-- The fields of an entry that matter here. -/
structure Slot (ρ : Type) where
  rel : ρ
  bits : Bitfield
  dead : Bool := false

/-- Where a thread is. -/
inductive Pc (ρ : Type) where
  | idle
  /-- `getIdentified` past a miss, with the epoch it sampled. -/
  | building (rel : ρ) (size : UInt64) (originId : OriginId) (epoch0 : Nat)
  | built (rel : ρ) (epoch0 : Nat) (loaded : LoadedBits)
  /-- `forget`, `store.mu` held, with the entry it took out of the map. -/
  | forgetting (rel : ρ) (file : Option Nat)
  /-- `distrust`, `store.mu` held. -/
  | distrusting (rel : ρ)
  /-- `reapIdle` between its phases. -/
  | reaping (cands : List Nat)
  /-- Phase 3 of `reapIdle`, `store.mu` held. -/
  | evicting (cands : List Nat)
  /-- Phase 3 with an entry out of the map. -/
  | purging (file : Nat) (cands : List Nat)
  /-- `punchDisk` with the epoch it sampled. -/
  | sampled (rel : ρ) (epoch0 : Nat)
  | loaded (rel : ρ) (epoch0 : Nat) (size : UInt64) (loaded : LoadedBits)
  /-- `punchDisk`, `store.mu` held; `saved` once the cleared field is durable. -/
  | punching (rel : ρ) (blob : List UInt8) (saved : Bool)

/-- The thread holds `store.mu`. -/
def Pc.locked {ρ : Type} : Pc ρ → Bool
  | .forgetting .. => true
  | .distrusting .. => true
  | .evicting .. => true
  | .purging .. => true
  | .punching .. => true
  | _ => false

/-- The entry it took out of the map and has not stamped dead. -/
def Pc.victim {ρ : Type} : Pc ρ → Option Nat
  | .forgetting _ file => file
  | .purging file _ => some file
  | _ => none

/-- The candidates of a reap. -/
def Pc.cands {ρ : Type} : Pc ρ → List Nat
  | .reaping cands => cands
  | .evicting cands => cands
  | .purging _ cands => cands
  | _ => []

structure World (τ ρ : Type) where
  files : ρ → Option Nat
  slot : Nat → Slot ρ
  /-- The next unused entry. -/
  next : Nat
  purgeEpoch : Nat := 0
  storeMu : Option τ := none
  /-- The sidecars, `none` where there is no file. -/
  disk : ρ → Option (List UInt8)
  pc : τ → Pc ρ
  log : List (Event τ ρ) := []

/-- The field a disk punch saves: without its last mark, or the empty one it found. -/
def clearedBlob (pieceSize : UInt32) (size : UInt64) (loaded : LoadedBits) : List UInt8 :=
  match loaded.bits.lastSet with
  | none => loaded.bits.encodeTo pieceSize size
  | some idx => saveBits pieceSize size (loaded.bits.clear idx) loaded.id

namespace World

variable {τ ρ : Type} [DecidableEq τ] [DecidableEq ρ]

def goto (w : World τ ρ) (t : τ) (pc : Pc ρ) : World τ ρ :=
  { w with pc := Function.update w.pc t pc }

def note (w : World τ ρ) (event : Event τ ρ) : World τ ρ := { w with log := event :: w.log }

def lock (w : World τ ρ) (t : τ) : World τ ρ := { w with storeMu := some t }

def unlock (w : World τ ρ) : World τ ρ := { w with storeMu := none }

def setSlot (w : World τ ρ) (e : Nat) (c : Slot ρ) : World τ ρ :=
  { w with slot := Function.update w.slot e c }

/-- `@memset(bits.bytes, 0)`. -/
def wipe (w : World τ ρ) (e : Nat) : World τ ρ :=
  w.setSlot e { w.slot e with bits := (w.slot e).bits.wipe }

def stampDead (w : World τ ρ) (e : Nat) : World τ ρ :=
  w.setSlot e { w.slot e with dead := true }

/-- `files.remove(rel)`. -/
def unmap (w : World τ ρ) (rel : ρ) : World τ ρ :=
  { w with files := Function.update w.files rel none }

def setSidecar (w : World τ ρ) (rel : ρ) (content : Option (List UInt8)) : World τ ρ :=
  { w with disk := Function.update w.disk rel content }

/-- `purge_epoch += 1`, with what it stands for over. -/
def raiseEpoch (w : World τ ρ) (rel : ρ) : World τ ρ :=
  { w with purgeEpoch := w.purgeEpoch + 1 }.note (.mutated rel)

/-- `files.put(rel, f)` of a new entry. -/
def put (w : World τ ρ) (t : τ) (rel : ρ) (bits : Bitfield) : World τ ρ :=
  { w.setSlot w.next { rel := rel, bits := bits } with
    files := Function.update w.files rel (some w.next)
    next := w.next + 1 }.note (.inserted t rel w.next bits)

/-- No entry, no thread at work, no history; any artifacts. -/
def Start (w : World τ ρ) : Prop :=
  (∀ rel, w.files rel = none) ∧ w.next = 0 ∧ w.storeMu = none ∧ (∀ t, w.pc t = .idle) ∧ w.log = []

end World

open World

variable {τ ρ : Type}

section Steps

variable [DecidableEq τ] [DecidableEq ρ]

/-- One step of thread `t`. -/
inductive Core (pieceSize : UInt32) (t : τ) (w : World τ ρ) : World τ ρ → Prop where
  -- getIdentified
  | getMiss (rel : ρ) (size : UInt64) (originId : OriginId) (hpc : w.pc t = .idle)
      (hfree : w.storeMu = none) (hmap : w.files rel = none) :
      Core pieceSize t w
        ((w.note (.missed t rel)).goto t (.building rel size originId w.purgeEpoch))
  | getLoad {rel : ρ} {size : UInt64} {originId : OriginId} {epoch0 : Nat}
      (hpc : w.pc t = .building rel size originId epoch0) :
      Core pieceSize t w
        ((w.note (.read t rel (readContent (w.disk rel)) size originId)).goto t
          (.built rel epoch0 (loadBits pieceSize (readContent (w.disk rel)) size originId)))
  | getPut {rel : ρ} {epoch0 : Nat} {loaded : LoadedBits}
      (hpc : w.pc t = .built rel epoch0 loaded) (hfree : w.storeMu = none)
      (hmap : w.files rel = none) (hepoch : w.purgeEpoch = epoch0) :
      Core pieceSize t w ((w.put t rel loaded.bits).goto t .idle)
  /-- Another builder won, the epoch moved, or the build failed. -/
  | getGiveUp {rel : ρ} {epoch0 : Nat}
      (hpc : (∃ size originId, w.pc t = .building rel size originId epoch0) ∨
        ∃ loaded, w.pc t = .built rel epoch0 loaded) :
      Core pieceSize t w (w.goto t .idle)
  -- forget
  | forget (rel : ρ) {e : Nat} (hpc : w.pc t = .idle) (hfree : w.storeMu = none)
      (hmap : w.files rel = some e) :
      Core pieceSize t w
        ((((w.lock t).unmap rel).wipe e).goto t (.forgetting rel (some e)))
  | forgetMiss (rel : ρ) (hpc : w.pc t = .idle) (hfree : w.storeMu = none)
      (hmap : w.files rel = none) :
      Core pieceSize t w ((w.lock t).goto t (.forgetting rel none))
  | forgetUnlink {rel : ρ} {file : Option Nat} (hpc : w.pc t = .forgetting rel file) :
      Core pieceSize t w (w.setSidecar rel none)
  | forgetEnd {rel : ρ} {e : Nat} (hpc : w.pc t = .forgetting rel (some e)) :
      Core pieceSize t w ((((w.stampDead e).raiseEpoch rel).unlock).goto t .idle)
  | forgetMissEnd {rel : ρ} (hpc : w.pc t = .forgetting rel none) :
      Core pieceSize t w (((w.raiseEpoch rel).unlock).goto t .idle)
  -- distrust
  | distrust (rel : ρ) (hpc : w.pc t = .idle) (hfree : w.storeMu = none) :
      Core pieceSize t w ((w.lock t).goto t (.distrusting rel))
  | distrustUnlink {rel : ρ} (hpc : w.pc t = .distrusting rel) :
      Core pieceSize t w (w.setSidecar rel none)
  | distrustEnd {rel : ρ} {e : Nat} (hpc : w.pc t = .distrusting rel)
      (hmap : w.files rel = some e) :
      Core pieceSize t w ((((w.raiseEpoch rel).wipe e).unlock).goto t .idle)
  | distrustMissEnd {rel : ρ} (hpc : w.pc t = .distrusting rel) (hmap : w.files rel = none) :
      Core pieceSize t w (((w.raiseEpoch rel).unlock).goto t .idle)
  -- reapIdle
  | reapSample (cands : List Nat) (hpc : w.pc t = .idle) (hfree : w.storeMu = none)
      (hcands : ∀ e ∈ cands, ∃ rel, w.files rel = some e) :
      Core pieceSize t w (w.goto t (.reaping cands))
  /-- Phase 2 lets a candidate go. -/
  | reapKeep {cands : List Nat} (e : Nat) (hpc : w.pc t = .reaping cands) :
      Core pieceSize t w (w.goto t (.reaping (cands.erase e)))
  | reapNothing (hpc : w.pc t = .reaping []) : Core pieceSize t w (w.goto t .idle)
  | reapLock {cands : List Nat} (hpc : w.pc t = .reaping cands) (hfree : w.storeMu = none) :
      Core pieceSize t w ((w.lock t).goto t (.evicting cands))
  /-- The candidate is dead, referenced, filled or pinned. -/
  | evictSkip {e : Nat} {rest : List Nat} (hpc : w.pc t = .evicting (e :: rest)) :
      Core pieceSize t w (w.goto t (.evicting rest))
  | evict {e : Nat} {rest : List Nat} (hpc : w.pc t = .evicting (e :: rest))
      (hlive : (w.slot e).dead = false) (hempty : (w.slot e).bits.lastSet = none)
      (hmap : (w.files (w.slot e).rel).isSome = true) :
      Core pieceSize t w ((w.unmap (w.slot e).rel).goto t (.purging e rest))
  | evictUnlink {e : Nat} {rest : List Nat} (hpc : w.pc t = .purging e rest) :
      Core pieceSize t w (w.setSidecar (w.slot e).rel none)
  | evictEnd {e : Nat} {rest : List Nat} (hpc : w.pc t = .purging e rest) :
      Core pieceSize t w
        (((w.stampDead e).raiseEpoch (w.slot e).rel).goto t (.evicting rest))
  | reapEnd (hpc : w.pc t = .evicting []) :
      Core pieceSize t w (w.unlock.goto t .idle)
  -- punchDisk
  | punchSample (rel : ρ) (hpc : w.pc t = .idle) (hfree : w.storeMu = none) :
      Core pieceSize t w (w.goto t (.sampled rel w.purgeEpoch))
  | punchLoad {rel : ρ} {epoch0 : Nat} (size : UInt64) (hpc : w.pc t = .sampled rel epoch0) :
      Core pieceSize t w (w.goto t
        (.loaded rel epoch0 size (loadBits pieceSize (readContent (w.disk rel)) size {})))
  | punchLock {rel : ρ} {epoch0 : Nat} {size : UInt64} {loaded : LoadedBits}
      (hpc : w.pc t = .loaded rel epoch0 size loaded) (hfree : w.storeMu = none)
      (hmap : w.files rel = none) (hepoch : w.purgeEpoch = epoch0)
      (hsize : loaded.bits.lastSet = none → size ≠ 0) :
      Core pieceSize t w
        ((w.lock t).goto t (.punching rel (clearedBlob pieceSize size loaded) false))
  /-- The entry is live, the epoch moved, or something failed before the lock. -/
  | punchGiveUp {rel : ρ} {epoch0 : Nat}
      (hpc : w.pc t = .sampled rel epoch0 ∨
        ∃ size loaded, w.pc t = .loaded rel epoch0 size loaded) :
      Core pieceSize t w (w.goto t .idle)
  | punchWrite {rel : ρ} {blob : List UInt8} (n : Nat) (hpc : w.pc t = .punching rel blob false) :
      Core pieceSize t w (w.setSidecar rel (some (blob.take n)))
  | punchSaved {rel : ρ} {blob : List UInt8} (hpc : w.pc t = .punching rel blob false) :
      Core pieceSize t w ((w.setSidecar rel (some blob)).goto t (.punching rel blob true))
  /-- The save failed, or the hole was not cut. -/
  | punchFail {rel : ρ} {blob : List UInt8} {saved : Bool}
      (hpc : w.pc t = .punching rel blob saved) :
      Core pieceSize t w (w.unlock.goto t .idle)
  | punchEnd {rel : ρ} {blob : List UInt8} (hpc : w.pc t = .punching rel blob true) :
      Core pieceSize t w (((w.raiseEpoch rel).unlock).goto t .idle)
  -- holders
  /-- A `file.mu` section of a holder, on a live entry or on a dead one. -/
  | fileSection {e : Nat} (bits : Bitfield) (content : Option (List UInt8)) (he : e < w.next) :
      Core pieceSize t w
        ((w.setSlot e { w.slot e with bits := bits }).setSidecar (w.slot e).rel content)

/-- One step of some thread. -/
def Step (pieceSize : UInt32) (w w' : World τ ρ) : Prop := ∃ t, Core pieceSize t w w'

end Steps

/-! ## Entries and the lock -/

/-- The map names live entries under their paths, a live entry is in the map or just out of it in
the hands of the lock's holder, and a thread in a section of `store.mu` is that holder. -/
structure EntryInv (w : World τ ρ) : Prop where
  mapped : ∀ rel e, w.files rel = some e →
    e < w.next ∧ (w.slot e).rel = rel ∧ (w.slot e).dead = false
  live : ∀ e < w.next, (w.slot e).dead = false → w.files (w.slot e).rel = some e ∨
    ∃ t, w.storeMu = some t ∧ (w.pc t).victim = some e ∧ w.files (w.slot e).rel = none
  out : ∀ t e, (w.pc t).victim = some e → w.files (w.slot e).rel = none
  locked : ∀ t, (w.pc t).locked = true → w.storeMu = some t

theorem Pc.locked_of_victim {pc : Pc ρ} {e : Nat} (h : pc.victim = some e) : pc.locked = true := by
  cases pc with
  | forgetting => rfl
  | purging => rfl
  | _ => cases h

namespace EntryInv

variable {w w' : World τ ρ} {t : τ}

/-- Two live entries of one path are one. -/
theorem unique (h : EntryInv w) {e e' : Nat} (he : e < w.next) (he' : e' < w.next)
    (hlive : (w.slot e).dead = false) (hlive' : (w.slot e').dead = false)
    (hrel : (w.slot e).rel = (w.slot e').rel) : e = e' := by
  rcases h.live e he hlive with hmap | ⟨u, hmu, hvictim, hnone⟩ <;>
    rcases h.live e' he' hlive' with hmap' | ⟨u', hmu', hvictim', hnone'⟩
  · rw [hrel, hmap'] at hmap
    exact (Option.some_inj.mp hmap).symm
  · rw [hrel, hnone'] at hmap
    cases hmap
  · rw [hrel, hmap'] at hnone
    cases hnone
  · rw [hmu] at hmu'
    obtain rfl := Option.some_inj.mp hmu'
    rw [hvictim] at hvictim'
    exact Option.some_inj.mp hvictim'

/-- What a step of `t` does to the lock: nothing, take it, or give it back. -/
inductive Mu (t : τ) (w w' : World τ ρ) : Prop where
  | keep (hmu : w'.storeMu = w.storeMu)
      (hlocked : (w'.pc t).locked = true → (w.pc t).locked = true)
  | take (hfree : w.storeMu = none) (hmu : w'.storeMu = some t)
  | give (hlocked : (w.pc t).locked = true) (hvictim : (w.pc t).victim = none)
      (hmu : w'.storeMu = none) (hpc : (w'.pc t).locked = false)

theorem Mu.locked (hmu : Mu t w w') (h : EntryInv w) (hpc : ∀ u, u ≠ t → w'.pc u = w.pc u) (u : τ)
    (hu : (w'.pc u).locked = true) : w'.storeMu = some u := by
  by_cases hut : u = t
  · subst hut
    cases hmu with
    | keep hmu hlocked => exact hmu.trans (h.locked u (hlocked hu))
    | take hfree hmu => exact hmu
    | give hlocked hvictim hmu hpc =>
      rw [hpc] at hu
      cases hu
  · rw [hpc u hut] at hu
    have hold := h.locked u hu
    cases hmu with
    | keep hmu hlocked => exact hmu.trans hold
    | take hfree hmu =>
      rw [hfree] at hold
      cases hold
    | give hlocked hvictim hmu hpc =>
      rw [h.locked t hlocked] at hold
      exact absurd (Option.some_inj.mp hold).symm hut

/-- A step that leaves the map, and of the entries all but their bits. -/
theorem neutral (h : EntryInv w) (hfiles : w'.files = w.files) (hnext : w'.next = w.next)
    (hslot : ∀ e, (w'.slot e).rel = (w.slot e).rel ∧ (w'.slot e).dead = (w.slot e).dead)
    (hpc : ∀ u, u ≠ t → w'.pc u = w.pc u) (hvictim : (w'.pc t).victim = (w.pc t).victim)
    (hmu : Mu t w w') : EntryInv w' := by
  have hvictims : ∀ u, (w'.pc u).victim = (w.pc u).victim := fun u => by
    by_cases hut : u = t
    · rw [hut]
      exact hvictim
    · rw [hpc u hut]
  refine ⟨fun rel e hmap => ?_, fun e he hlive => ?_, fun u e hv => ?_, hmu.locked h hpc⟩
  · rw [hfiles] at hmap
    rw [hnext, (hslot e).1, (hslot e).2]
    exact h.mapped rel e hmap
  · rw [hnext] at he
    rw [(hslot e).2] at hlive
    rw [hfiles, (hslot e).1]
    rcases h.live e he hlive with hmap | ⟨u, hu, hv, hnone⟩
    · exact Or.inl hmap
    · cases hmu with
      | keep hmu hlocked => exact Or.inr ⟨u, hmu.trans hu, (hvictims u).trans hv, hnone⟩
      | take hfree hmu =>
        rw [hfree] at hu
        cases hu
      | give hlocked hvictim hmu hpc =>
        rw [h.locked t hlocked] at hu
        obtain rfl := Option.some_inj.mp hu
        rw [hvictim] at hv
        cases hv
  · rw [hfiles, (hslot e).1]
    exact h.out u e ((hvictims u).symm.trans hv)

/-- `t` takes the lock if it has not got it, and entry `e` out of the map. -/
theorem takeOut [DecidableEq ρ] (h : EntryInv w) {rel : ρ} {e : Nat} (hmap : w.files rel = some e)
    (hold : w.storeMu = none ∨ w.storeMu = some t ∧ (w.pc t).victim = none)
    (hfiles : ∀ r, w'.files r = if r = rel then none else w.files r) (hnext : w'.next = w.next)
    (hslot : ∀ e, (w'.slot e).rel = (w.slot e).rel ∧ (w'.slot e).dead = (w.slot e).dead)
    (hpc : ∀ u, u ≠ t → w'.pc u = w.pc u) (hvictim : (w'.pc t).victim = some e)
    (hmu : w'.storeMu = some t) : EntryInv w' := by
  obtain ⟨-, hrel, -⟩ := h.mapped rel e hmap
  have hothers : ∀ u, u ≠ t → (w'.pc u).locked = false := fun u hut => by
    rw [hpc u hut, ← Bool.not_eq_true]
    intro hu
    have hown := h.locked u hu
    rcases hold with hfree | ⟨hmine, -⟩
    · rw [hfree] at hown
      cases hown
    · rw [hmine] at hown
      exact hut (Option.some_inj.mp hown).symm
  refine ⟨fun r e' hmap' => ?_, fun e' he' hlive => ?_, fun u e' hv => ?_, fun u hu => ?_⟩
  · rw [hfiles] at hmap'
    split_ifs at hmap'
    rw [hnext, (hslot e').1, (hslot e').2]
    exact h.mapped r e' hmap'
  · rw [hnext] at he'
    rw [(hslot e').2] at hlive
    rw [hfiles, (hslot e').1]
    rcases h.live e' he' hlive with hin | ⟨u, hu, hv, -⟩
    · by_cases hr : (w.slot e').rel = rel
      · rw [hr, hmap] at hin
        obtain rfl := Option.some_inj.mp hin
        exact Or.inr ⟨t, hmu, hvictim, if_pos hr⟩
      · rw [if_neg hr]
        exact Or.inl hin
    · rcases hold with hfree | ⟨hown, hnone⟩
      · rw [hfree] at hu
        cases hu
      · rw [hown] at hu
        obtain rfl := Option.some_inj.mp hu
        rw [hnone] at hv
        cases hv
  · by_cases hut : u = t
    · subst hut
      rw [hvictim] at hv
      obtain rfl := Option.some_inj.mp hv
      rw [hfiles, (hslot e).1, if_pos hrel]
    · have hfree := hothers u hut
      rw [Pc.locked_of_victim hv] at hfree
      cases hfree
  · by_cases hut : u = t
    · rw [hut]
      exact hmu
    · rw [hothers u hut] at hu
      cases hu

/-- The lock's holder stamps the entry it took out dead. -/
theorem stamp (h : EntryInv w) {e : Nat} (hvictim : (w.pc t).victim = some e)
    (hfiles : w'.files = w.files) (hnext : w'.next = w.next)
    (hdead : (w'.slot e).dead = true) (hslot : ∀ e', e' ≠ e → w'.slot e' = w.slot e')
    (hpc : ∀ u, u ≠ t → w'.pc u = w.pc u) (hdone : (w'.pc t).victim = none)
    (hmu : w'.storeMu = some t ∨ w'.storeMu = none ∧ (w'.pc t).locked = false) :
    EntryInv w' := by
  have hmine := h.locked t (Pc.locked_of_victim hvictim)
  have hrel := h.out t e hvictim
  have hothers : ∀ u, u ≠ t → (w'.pc u).locked = false := fun u hut => by
    rw [hpc u hut, ← Bool.not_eq_true]
    intro hu
    have hown := h.locked u hu
    rw [hmine] at hown
    exact hut (Option.some_inj.mp hown).symm
  refine ⟨fun r e' hmap' => ?_, fun e' he' hlive => ?_, fun u e' hv => ?_, fun u hu => ?_⟩
  · rw [hfiles] at hmap'
    obtain ⟨hlt, hrel', hlive⟩ := h.mapped r e' hmap'
    have hne : e' ≠ e := by
      rintro rfl
      rw [hrel', hmap'] at hrel
      cases hrel
    rw [hnext, hslot e' hne]
    exact ⟨hlt, hrel', hlive⟩
  · have hne : e' ≠ e := by
      rintro rfl
      rw [hdead] at hlive
      cases hlive
    rw [hnext] at he'
    rw [hslot e' hne] at hlive ⊢
    rw [hfiles]
    rcases h.live e' he' hlive with hin | ⟨u, hu, hv, -⟩
    · exact Or.inl hin
    · rw [hmine] at hu
      obtain rfl := Option.some_inj.mp hu
      rw [hvictim] at hv
      exact absurd (Option.some_inj.mp hv).symm hne
  · by_cases hut : u = t
    · subst hut
      rw [hdone] at hv
      cases hv
    · have hfree := hothers u hut
      rw [Pc.locked_of_victim hv] at hfree
      cases hfree
  · by_cases hut : u = t
    · subst hut
      rcases hmu with hmu | ⟨-, hlocked⟩
      · exact hmu
      · rw [hlocked] at hu
        cases hu
    · rw [hothers u hut] at hu
      cases hu

/-- A new entry under a path that has none, with the lock free. -/
theorem put [DecidableEq ρ] (h : EntryInv w) {rel : ρ} (bits : Bitfield)
    (hfree : w.storeMu = none) (hmap : w.files rel = none) (thread : τ) :
    EntryInv (w.put thread rel bits) := by
  have hslot : ∀ e, e ≠ w.next → (w.put thread rel bits).slot e = w.slot e := fun e hne =>
    Function.update_of_ne hne ..
  have hnew : (w.put thread rel bits).slot w.next = { rel := rel, bits := bits } :=
    Function.update_self ..
  have hfiles : ∀ r, (w.put thread rel bits).files r =
      if r = rel then some w.next else w.files r := fun r => by
    rw [World.put]
    exact Function.update_apply ..
  refine ⟨fun r e hin => ?_, fun e he hlive => ?_, fun u e hv => ?_, h.locked⟩
  · rw [hfiles] at hin
    split_ifs at hin with hr
    · cases hin
      rw [hnew]
      exact ⟨Nat.lt_succ_self _, hr.symm, rfl⟩
    · obtain ⟨hlt, hrest⟩ := h.mapped r e hin
      rw [hslot e (Nat.ne_of_lt hlt)]
      exact ⟨Nat.lt_succ_of_lt hlt, hrest⟩
  · by_cases hlast : e = w.next
    · subst hlast
      rw [hnew, hfiles, if_pos rfl]
      exact Or.inl rfl
    · have hlt : e < w.next := Nat.lt_of_le_of_ne (Nat.le_of_lt_succ he) hlast
      rw [hslot e hlast] at hlive ⊢
      rw [hfiles]
      rcases h.live e hlt hlive with hin | ⟨u, hu, -⟩
      · rw [if_neg (fun hr => by rw [hr, hmap] at hin; cases hin)]
        exact Or.inl hin
      · rw [hfree] at hu
        cases hu
  · have hown := h.locked u (Pc.locked_of_victim hv)
    rw [hfree] at hown
    cases hown

end EntryInv

section Frames

variable [DecidableEq τ] [DecidableEq ρ] {pieceSize : UInt32} {t : τ} {w w' : World τ ρ}

omit [DecidableEq ρ] in
@[simp] theorem pc_goto (w : World τ ρ) (t : τ) (pc : Pc ρ) : (w.goto t pc).pc t = pc :=
  Function.update_self ..

omit [DecidableEq ρ] in
theorem pc_goto_of_ne (w : World τ ρ) {t u : τ} (hu : u ≠ t) (pc : Pc ρ) :
    (w.goto t pc).pc u = w.pc u := Function.update_of_ne hu ..

omit [DecidableEq τ] [DecidableEq ρ] in
/-- A section on the bits leaves path and dead flag. -/
theorem slot_setBits (w : World τ ρ) (e : Nat) (bits : Bitfield) (e' : Nat) :
    ((w.setSlot e { w.slot e with bits := bits }).slot e').rel = (w.slot e').rel ∧
      ((w.setSlot e { w.slot e with bits := bits }).slot e').dead = (w.slot e').dead := by
  unfold setSlot
  dsimp only
  rw [Function.update_apply]
  split_ifs with he
  · subst he
    exact ⟨rfl, rfl⟩
  · exact ⟨rfl, rfl⟩

omit [DecidableEq τ] [DecidableEq ρ] in
theorem dead_stampDead (w : World τ ρ) (e : Nat) : ((w.stampDead e).slot e).dead = true := by
  simp [stampDead, setSlot]

omit [DecidableEq τ] [DecidableEq ρ] in
theorem slot_stampDead_of_ne (w : World τ ρ) {e e' : Nat} (h : e' ≠ e) :
    (w.stampDead e).slot e' = w.slot e' := Function.update_of_ne h ..

/-- Candidates are entries. -/
def CandsInv (w : World τ ρ) : Prop := ∀ u, ∀ e ∈ (w.pc u).cands, e < w.next

omit [DecidableEq ρ] in
theorem CandsInv.goto (h : CandsInv w) {v : World τ ρ} (hpcs : v.pc = w.pc)
    (hnext : w.next ≤ v.next) {pc : Pc ρ} (hpc : ∀ e ∈ pc.cands, e < w.next) :
    CandsInv (v.goto t pc) := by
  intro u e he
  refine Nat.lt_of_lt_of_le ?_ hnext
  by_cases hut : u = t
  · subst hut
    rw [pc_goto] at he
    exact hpc e he
  · rw [pc_goto_of_ne v hut, hpcs] at he
    exact h u e he

theorem CandsInv.core (h : CandsInv w) (hentry : EntryInv w) (hcore : Core pieceSize t w w') :
    CandsInv w' := by
  have hmine := h t
  cases hcore with
  | forgetUnlink _ | distrustUnlink _ | evictUnlink _ | punchWrite _ _ | fileSection _ _ _ =>
    exact h
  | reapSample cands _ _ hcands =>
    refine h.goto rfl le_rfl fun e he => ?_
    obtain ⟨rel, hmap⟩ := hcands e he
    exact (hentry.mapped rel e hmap).1
  | reapKeep e hpc =>
    rw [hpc] at hmine
    exact h.goto rfl le_rfl fun e' he' => hmine e' (List.mem_of_mem_erase he')
  | reapLock hpc _ | evictEnd hpc =>
    rw [hpc] at hmine
    exact h.goto rfl le_rfl hmine
  | evictSkip hpc | evict hpc _ _ _ =>
    rw [hpc] at hmine
    exact h.goto rfl le_rfl fun e' he' => hmine e' (List.mem_cons_of_mem _ he')
  | getPut => exact h.goto (v := w.put t _ _) rfl (Nat.le_succ _) (fun e he => nomatch he)
  | _ => exact h.goto rfl le_rfl (fun e he => nomatch he)

/-- **The table.** Every step keeps it. -/
theorem EntryInv.core (h : EntryInv w) (hcands : CandsInv w) (hcore : Core pieceSize t w w') :
    EntryInv w' := by
  have hsame : ∀ e, (w.slot e).rel = (w.slot e).rel ∧ (w.slot e).dead = (w.slot e).dead :=
    fun _ => ⟨rfl, rfl⟩
  cases hcore with
  -- the thread moves on, and the lock stays as it is
  | getMiss _ _ _ hpc _ _ | getLoad hpc | reapSample _ hpc _ _ | reapKeep _ hpc | reapNothing hpc
  | evictSkip hpc | punchSample _ hpc _ | punchLoad _ hpc | punchSaved hpc =>
    exact h.neutral rfl rfl hsame (fun u hu => pc_goto_of_ne _ hu _) (by simp [hpc, Pc.victim])
      (.keep rfl (by simp [hpc, Pc.locked]))
  -- it takes the lock
  | forgetMiss _ hpc hfree _ | distrust _ hpc hfree | reapLock hpc hfree
  | punchLock hpc hfree _ _ _ =>
    exact h.neutral rfl rfl hsame (fun u hu => pc_goto_of_ne _ hu _) (by simp [hpc, Pc.victim])
      (.take hfree rfl)
  -- it gives the lock back
  | forgetMissEnd hpc | distrustMissEnd hpc _ | reapEnd hpc | punchFail hpc | punchEnd hpc =>
    exact h.neutral rfl rfl hsame (fun u hu => pc_goto_of_ne _ hu _) (by simp [hpc, Pc.victim])
      (.give (by rw [hpc]; rfl) (by rw [hpc]; rfl) rfl (by simp [Pc.locked]))
  -- a sidecar changes
  | forgetUnlink _ | distrustUnlink _ | evictUnlink _ | punchWrite _ _ =>
    exact h.neutral (t := t) rfl rfl hsame (fun _ _ => rfl) rfl (.keep rfl id)
  | fileSection bits content he =>
    exact h.neutral (t := t) rfl rfl (fun e' => slot_setBits w _ bits e') (fun _ _ => rfl) rfl
      (.keep rfl id)
  | distrustEnd hpc hmap =>
    exact h.neutral rfl rfl (fun e' => slot_setBits w _ _ e') (fun u hu => pc_goto_of_ne _ hu _)
      (by simp [hpc, Pc.victim])
      (.give (by rw [hpc]; rfl) (by rw [hpc]; rfl) rfl (by simp [Pc.locked]))
  | getPut hpc hfree hmap hepoch =>
    refine (h.put _ hfree hmap t).neutral (t := t) rfl rfl (fun _ => ⟨rfl, rfl⟩)
      (fun u hu => pc_goto_of_ne _ hu _) ?_ (.keep rfl (by simp [Pc.locked]))
    rw [pc_goto, show (w.put t _ _).pc t = w.pc t from rfl, hpc]
    rfl
  | getGiveUp hpc =>
    have hvictim : (w.pc t).victim = none := by
      rcases hpc with ⟨size, originId, hpc⟩ | ⟨loaded, hpc⟩ <;> rw [hpc] <;> rfl
    exact h.neutral rfl rfl hsame (fun u hu => pc_goto_of_ne _ hu _)
      (by rw [pc_goto, hvictim]; rfl) (.keep rfl (by simp [Pc.locked]))
  | punchGiveUp hpc =>
    have hvictim : (w.pc t).victim = none := by
      rcases hpc with hpc | ⟨size, loaded, hpc⟩ <;> rw [hpc] <;> rfl
    exact h.neutral rfl rfl hsame (fun u hu => pc_goto_of_ne _ hu _)
      (by rw [pc_goto, hvictim]; rfl) (.keep rfl (by simp [Pc.locked]))
  -- an entry leaves the map
  | forget rel hpc hfree hmap =>
    refine h.takeOut (t := t) hmap (Or.inl hfree) (fun r => ?_) rfl
      (fun e' => slot_setBits w _ _ e') (fun u hu => pc_goto_of_ne _ hu _) (by simp [Pc.victim]) rfl
    exact Function.update_apply ..
  | @evict e rest hpc hlive hempty hmap =>
    have hmine := h.locked t (by rw [hpc]; rfl)
    have hvictim : (w.pc t).victim = none := by rw [hpc]; rfl
    have he := hcands t e (by rw [hpc]; exact List.mem_cons_self)
    obtain ⟨e', hmap'⟩ := Option.isSome_iff_exists.mp hmap
    obtain ⟨he', hrel', hlive'⟩ := h.mapped _ e' hmap'
    -- what is in the map under the candidate's path is the candidate
    obtain rfl := h.unique he' he hlive' hlive hrel'
    refine h.takeOut (t := t) hmap' (Or.inr ⟨hmine, hvictim⟩) (fun r => ?_) rfl hsame
      (fun u hu => pc_goto_of_ne _ hu _) (by simp [Pc.victim]) hmine
    exact Function.update_apply ..
  -- and is stamped dead
  | forgetEnd hpc =>
    exact h.stamp (by rw [hpc]; rfl) rfl rfl (dead_stampDead w _)
      (fun e' hne => slot_stampDead_of_ne w hne) (fun u hu => pc_goto_of_ne _ hu _)
      (by simp [Pc.victim]) (Or.inr ⟨rfl, by simp [Pc.locked]⟩)
  | evictEnd hpc =>
    refine h.stamp (by rw [hpc]; rfl) rfl rfl (dead_stampDead w _)
      (fun e' hne => slot_stampDead_of_ne w hne) (fun u hu => pc_goto_of_ne _ hu _)
      (by simp [Pc.victim]) (Or.inl ?_)
    exact h.locked t (by rw [hpc]; rfl)

end Frames

/-! ## The history -/

/-- Since `t` missed `rel`, no purge, distrust or punch of `rel` was completed. -/
def Missed (log : List (Event τ ρ)) (t : τ) (rel : ρ) (since : List (Event τ ρ)) : Prop :=
  (∃ before, log = since ++ .missed t rel :: before) ∧ .mutated rel ∉ since

/-- Nor since it read the sidecar, and what it read shows these marks. -/
def Loaded (pieceSize : UInt32) (log : List (Event τ ρ)) (t : τ) (rel : ρ) (bits : Bitfield) :
    Prop :=
  ∃ since, Missed log t rel since ∧ ∃ file size originId,
    .read t rel file size originId ∈ since ∧ bits = (loadBits pieceSize file size originId).bits

/-- Every insertion was of bits that nothing had made stale. -/
def Sound (pieceSize : UInt32) (log : List (Event τ ρ)) : Prop :=
  ∀ newer t rel e bits older, log = newer ++ .inserted t rel e bits :: older →
    Loaded pieceSize older t rel bits

/-- What a builder's epoch says while it is still the current one. -/
def Traced (pieceSize : UInt32) (log : List (Event τ ρ)) (purgeEpoch : Nat) (t : τ) :
    Pc ρ → Prop
  | .building rel _ _ epoch0 =>
    epoch0 ≤ purgeEpoch ∧ (epoch0 = purgeEpoch → ∃ since, Missed log t rel since)
  | .built rel epoch0 loaded =>
    epoch0 ≤ purgeEpoch ∧ (epoch0 = purgeEpoch → Loaded pieceSize log t rel loaded.bits)
  | _ => True

section History

variable {pieceSize : UInt32} {log : List (Event τ ρ)} {t u : τ} {rel : ρ} {n n' : Nat}
  {event : Event τ ρ}

theorem Missed.cons {since : List (Event τ ρ)} (h : Missed log t rel since)
    (hevent : event ≠ .mutated rel) : Missed (event :: log) t rel (event :: since) := by
  obtain ⟨⟨before, rfl⟩, hnone⟩ := h
  refine ⟨⟨before, rfl⟩, ?_⟩
  rw [List.mem_cons, not_or]
  exact ⟨hevent.symm, hnone⟩

theorem Loaded.cons {bits : Bitfield} (h : Loaded pieceSize log t rel bits)
    (hevent : event ≠ .mutated rel) : Loaded pieceSize (event :: log) t rel bits := by
  obtain ⟨since, hmissed, file, size, originId, hread, hbits⟩ := h
  exact ⟨_, hmissed.cons hevent, file, size, originId, List.mem_cons_of_mem _ hread, hbits⟩

/-- A logged event ages no builder, unless it raises the epoch. -/
theorem Traced.cons {pc : Pc ρ} (h : Traced pieceSize log n t pc) (hn : n ≤ n')
    (hevent : ∀ rel, event = .mutated rel → n < n') :
    Traced pieceSize (event :: log) n' t pc := by
  cases pc with
  | building rel size originId epoch0 =>
    obtain ⟨hle, hmissed⟩ := h
    refine ⟨hle.trans hn, fun heq => ?_⟩
    obtain ⟨since, hsince⟩ := hmissed (by omega)
    exact ⟨_, hsince.cons fun hmut => by have := hevent rel hmut; omega⟩
  | built rel epoch0 loaded =>
    obtain ⟨hle, hloaded⟩ := h
    refine ⟨hle.trans hn, fun heq => (hloaded (by omega)).cons fun hmut => ?_⟩
    have := hevent rel hmut
    omega
  | _ => trivial

theorem Sound.cons (h : Sound pieceSize log)
    (hevent : ∀ t rel e bits, event = .inserted t rel e bits → Loaded pieceSize log t rel bits) :
    Sound pieceSize (event :: log) := by
  intro newer t rel e bits older heq
  cases newer with
  | nil =>
    rw [List.nil_append] at heq
    obtain ⟨rfl, rfl⟩ := List.cons.inj heq
    exact hevent t rel e bits rfl
  | cons event' newer =>
    rw [List.cons_append] at heq
    obtain ⟨-, hlog⟩ := List.cons.inj heq
    exact h newer t rel e bits older hlog

end History

/-- What the history says of the threads at work and of the insertions. -/
structure LogInv (pieceSize : UInt32) (w : World τ ρ) : Prop where
  traced : ∀ t, Traced pieceSize w.log w.purgeEpoch t (w.pc t)
  sound : Sound pieceSize w.log

section Runs

variable [DecidableEq τ] [DecidableEq ρ] {pieceSize : UInt32} {t : τ} {w w' : World τ ρ}

omit [DecidableEq ρ] in
/-- The thread moves, and nothing is logged. -/
theorem LogInv.goto (h : LogInv pieceSize w) {v : World τ ρ} {pc : Pc ρ} (hpcs : v.pc = w.pc)
    (hlog : v.log = w.log) (hepoch : v.purgeEpoch = w.purgeEpoch)
    (ht : Traced pieceSize w.log w.purgeEpoch t pc) : LogInv pieceSize (v.goto t pc) := by
  refine ⟨fun u => ?_, ?_⟩
  · rw [show (v.goto t pc).log = w.log from hlog,
      show (v.goto t pc).purgeEpoch = w.purgeEpoch from hepoch]
    by_cases hut : u = t
    · subst hut
      rw [pc_goto]
      exact ht
    · rw [pc_goto_of_ne v hut, hpcs]
      exact h.traced u
  · rw [show (v.goto t pc).log = w.log from hlog]
    exact h.sound

omit [DecidableEq ρ] in
/-- The thread moves, and an event is logged. -/
theorem LogInv.goto_note (h : LogInv pieceSize w) {v : World τ ρ} {pc : Pc ρ}
    {event : Event τ ρ} (hpcs : v.pc = w.pc) (hlog : v.log = event :: w.log)
    (hn : w.purgeEpoch ≤ v.purgeEpoch)
    (hmutated : ∀ rel, event = .mutated rel → w.purgeEpoch < v.purgeEpoch)
    (hinserted : ∀ t rel e bits, event = .inserted t rel e bits →
      Loaded pieceSize w.log t rel bits)
    (ht : Traced pieceSize (event :: w.log) v.purgeEpoch t pc) :
    LogInv pieceSize (v.goto t pc) := by
  refine ⟨fun u => ?_, ?_⟩
  · rw [show (v.goto t pc).log = event :: w.log from hlog]
    by_cases hut : u = t
    · subst hut
      rw [pc_goto]
      exact ht
    · rw [pc_goto_of_ne v hut, hpcs]
      exact (h.traced u).cons hn hmutated
  · rw [show (v.goto t pc).log = event :: w.log from hlog]
    exact h.sound.cons hinserted

theorem LogInv.core (h : LogInv pieceSize w) (hcore : Core pieceSize t w w') :
    LogInv pieceSize w' := by
  have hmine := h.traced t
  cases hcore with
  | getMiss rel size originId hpc hfree hmap =>
    refine h.goto_note (v := w.note _) rfl rfl le_rfl (fun _ hne => nomatch hne)
      (fun _ _ _ _ hne => nomatch hne) ⟨le_rfl, fun _ => ⟨[], ⟨w.log, rfl⟩, ?_⟩⟩
    exact List.not_mem_nil
  | @getLoad rel size originId epoch0 hpc =>
    rw [hpc] at hmine
    obtain ⟨hle, hmissed⟩ := hmine
    refine h.goto_note (v := w.note _) rfl rfl le_rfl (fun _ hne => nomatch hne)
      (fun _ _ _ _ hne => nomatch hne) ⟨hle, fun heq => ?_⟩
    obtain ⟨since, hsince⟩ := hmissed heq
    exact ⟨_, hsince.cons (fun hne => nomatch hne), _, size, originId, List.mem_cons_self, rfl⟩
  | @getPut rel epoch0 loaded hpc hfree hmap hepoch =>
    rw [hpc] at hmine
    refine h.goto_note (v := w.put t rel loaded.bits) rfl rfl le_rfl (fun _ hne => nomatch hne)
      (fun t' rel' e bits heq => ?_) trivial
    obtain ⟨rfl, rfl, rfl, rfl⟩ := Event.inserted.inj heq
    exact hmine.2 hepoch.symm
  | forgetEnd _ | forgetMissEnd _ | distrustEnd _ _ | distrustMissEnd _ _ | evictEnd _
    | punchEnd _ =>
    exact h.goto_note rfl rfl (Nat.le_succ _) (fun _ _ => Nat.lt_succ_self _)
      (fun _ _ _ _ hne => nomatch hne) trivial
  | forgetUnlink _ | distrustUnlink _ | evictUnlink _ | punchWrite _ _ | fileSection _ _ _ =>
    exact ⟨h.traced, h.sound⟩
  | _ => exact h.goto rfl rfl rfl trivial

/-- What holds in every state of a run. -/
structure Inv (pieceSize : UInt32) (w : World τ ρ) : Prop where
  entry : EntryInv w
  cands : CandsInv w
  log : LogInv pieceSize w

omit [DecidableEq τ] [DecidableEq ρ] in
theorem Inv.of_start (h : w.Start) : Inv pieceSize w := by
  obtain ⟨hfiles, hnext, hmu, hpc, hlog⟩ := h
  refine ⟨⟨?_, ?_, ?_, ?_⟩, ?_, ?_, ?_⟩
  · intro rel e hmap
    rw [hfiles] at hmap
    cases hmap
  · intro e he
    omega
  · intro t e hv
    rw [hpc] at hv
    cases hv
  · intro t hl
    rw [hpc] at hl
    cases hl
  · intro t e he
    rw [hpc] at he
    cases he
  · intro t
    rw [hpc]
    trivial
  · intro newer t rel e bits older heq
    rw [hlog] at heq
    cases newer <;> cases heq

theorem Inv.step (h : Inv pieceSize w) (hstep : Step pieceSize w w') : Inv pieceSize w' := by
  obtain ⟨t, hcore⟩ := hstep
  exact ⟨h.entry.core h.cands hcore, h.cands.core h.entry hcore, h.log.core hcore⟩

/-- **Freshness.** The map names live entries under their paths, no path has two live entries, and
between the miss of a builder that inserts and its insertion lies the read its bits come from, and
no completed purge, distrust or punch of the path. -/
theorem inserted_of_run {w₀ : World τ ρ} (hstart : w₀.Start)
    (hrun : Run (Step pieceSize) Always w₀ w) :
    (∀ rel e, w.files rel = some e →
        e < w.next ∧ (w.slot e).rel = rel ∧ (w.slot e).dead = false) ∧
      (∀ e < w.next, ∀ e' < w.next, (w.slot e).dead = false → (w.slot e').dead = false →
        (w.slot e).rel = (w.slot e').rel → e = e') ∧
      ∀ newer t rel e bits older, w.log = newer ++ .inserted t rel e bits :: older →
        ∃ since, (∃ before, older = since ++ .missed t rel :: before) ∧ .mutated rel ∉ since ∧
          ∃ file size originId, .read t rel file size originId ∈ since ∧
            bits = (loadBits pieceSize file size originId).bits := by
  have h : Inv pieceSize w :=
    Run.invariant (fun _ _ h hstep _ => h.step hstep) (Inv.of_start hstart) hrun
  refine ⟨h.entry.mapped, fun e he e' he' hlive hlive' hrel => ?_, ?_⟩
  · exact h.entry.unique he he' hlive hlive' hrel
  · intro newer t rel e bits older heq
    obtain ⟨since, ⟨hbefore, hnone⟩, hread⟩ := h.log.sound newer t rel e bits older heq
    exact ⟨since, hbefore, hnone, hread⟩

end Runs

/-- No entry yet, and a sidecar with the second of two pieces marked. -/
def coldStart : World Bool Unit where
  files _ := none
  slot _ := { rel := (), bits := Bitfield.init 0 }
  next := 0
  disk _ := some (saveBits 4 8 ((Bitfield.init 2).set 1) {})
  pc _ := .idle

/-- A purge falls between the load of a builder and its insertion: the builder starts over, and what
it inserts has nothing of the sidecar that is gone. -/
theorem inserted_of_run_purged :
    ∃ w, Run (Step 4) Always coldStart w ∧ w.files () = some 0 ∧ .mutated () ∈ w.log ∧
      (w.slot 0).bits.get 1 = false ∧
      ∃ since before, w.log = .inserted false () 0 (w.slot 0).bits :: (since ++
        .missed false () :: before) ∧ .mutated () ∉ since := by
  have hstart : coldStart.Start := ⟨fun _ => rfl, rfl, rfl, fun _ => rfl, rfl⟩
  have h₀ : Run (Step 4) Always coldStart coldStart := Run.refl _
  have h₁ := h₀.then ⟨false, .getMiss () 8 {} rfl rfl rfl⟩
  have h₂ := h₁.then ⟨false, .getLoad rfl⟩
  have h₃ := h₂.then ⟨true, .forgetMiss () rfl rfl rfl⟩
  have h₄ := h₃.then ⟨true, .forgetUnlink rfl⟩
  have h₅ := h₄.then ⟨true, .forgetMissEnd rfl⟩
  have h₆ := h₅.then ⟨false, .getGiveUp (Or.inr ⟨_, rfl⟩)⟩
  have h₇ := h₆.then ⟨false, .getMiss () 8 {} rfl rfl rfl⟩
  have h₈ := h₇.then ⟨false, .getLoad rfl⟩
  have h₉ := h₈.then ⟨false, .getPut rfl rfl rfl rfl⟩
  obtain ⟨-, -, hfresh⟩ := inserted_of_run hstart h₉
  obtain ⟨since, ⟨before, hbefore⟩, hnone, -⟩ := hfresh [] false () 0 _ _ rfl
  refine ⟨_, h₉, rfl, ?_, by decide, since, before, congrArg (List.cons _) hbefore, hnone⟩
  -- behind the insertion are its read and its miss, and then the purge
  exact List.mem_cons_of_mem _ (List.mem_cons_of_mem _
    (List.mem_cons_of_mem _ List.mem_cons_self))

end Builders

end ModelFs
