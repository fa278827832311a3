import ModelFs.InodesKernel
import ModelFs.Invalidate
import ModelFs.Sidecar
import ModelFs.Entry

/-!
# The cache under the mount's names

The cache is keyed by name: a live entry, a sidecar and a data file each belong to a name, and a
read that finds a live entry asks the origin nothing. Unlink and rename therefore drop the entries
of the names they are given. This module has the mount operations one after the other, each as its
handler does it: what it does on the origin, to the entry of its name, and to the inode tables. For
each mark it keeps which file the bytes were read from. The source has no such field.

`renameOrigin` drops the two names of the request. What is below a renamed directory moves with it
and keeps its marks under the old names.

* `Sound` — every mark, in an entry or in a sidecar, was made for the file the name stands for.
* `coherent_of_run` — **so it is in every run whose renames find no mark below the names they
  move, and in which the two dropped names' sidecars go** (`Clear`); a read through any handle then
  has the bytes of the file its path stands for.
* `sound_rename_iff` — and only then, for a rename.
* `stale_after_exchange` — two directories trade places.
-/

namespace ModelFs

namespace Mount

open Inodes (Tables Name Component Fails Order spelled internPath dropLookup renameNodes
  rememberOpen forgetOpen pathForOp)

/-! ## State -/

/-- What a name of the origin stands for; `id` tells the files apart. -/
inductive Object where
  | dir
  | file (id : Nat)
  deriving DecidableEq

def Object.fileId : Object → Option Nat
  | .dir => none
  | .file id => some id

/-- A live entry, and the file that each mark was made for. -/
structure Live (φ δ : Type) where
  entry : Cached φ δ
  madeFor : Nat → Nat

/-- A sidecar as it was saved, and the file that each mark was made for. -/
structure SavedBits where
  size : Nat
  bits : Bitfield
  originId : OriginId
  madeFor : Nat → Nat

/-- The origin, the cache and the inode tables of one mount. -/
structure World (φ δ : Type) where
  tables : Tables := {}
  origin : Name → Option Object
  /-- The next file to be created. -/
  nextFile : Nat
  live : Name → Option (Live φ δ) := fun _ => none
  sidecars : Name → Option SavedBits := fun _ => none

variable {φ β δ : Type}

namespace World

def fileAt (w : World φ δ) (n : Name) : Option Nat := (w.origin n).bind Object.fileId

end World

/-- The marks a section adds were made for `file`. -/
def Live.after (l : Live φ δ) (file : Nat) (c : Cached φ δ) : Live φ δ where
  entry := c
  madeFor i := if l.entry.bits.get i then l.madeFor i else file

/-- What a file operation leaves of the sidecar; `saved` is whether a save reaches it. -/
def Live.onSidecar (l : Live φ δ) (saved : Bool) (side : Option SavedBits) :
    Io φ → Option SavedBits
  | .save size bits id _ => if saved then some ⟨size, bits, id, l.madeFor⟩ else side
  | .unlinkMeta => none
  | _ => side

namespace World

/-- The entry of `n` and its sidecar after a section. -/
def commit (w : World φ δ) (n : Name) (l : Live φ δ) (saved : Bool) (io : List (Io φ)) :
    World φ δ :=
  { w with
    live := Function.update w.live n (some l)
    sidecars := Function.update w.sidecars n (io.foldl (l.onSidecar saved) (w.sidecars n)) }

/-- A section of the entry `l` of `n`. -/
def afterSection (w : World φ δ) (n : Name) (file : Nat) (saved : Bool) (l : Live φ δ)
    (r : Cached φ δ × List (Io φ)) : World φ δ :=
  w.commit n (l.after file r.1) saved r.2

end World

/-! ## Entries -/

section Handlers

variable (P : Entry.Params β δ)

/-- What the outside answers to an entry's sections. -/
structure Env (φ : Type) where
  alloc : Bool := true
  saved : Bool := true
  opened : Option φ := none
  nowSec : Int := 0

/-- `loadBits` on a sidecar as it was saved. -/
def loadSaved (pieceSize : Nat) (side : Option SavedBits) (size : Nat) (id : OriginId) :
    LoadedBits :=
  match side with
  | none => { bits := Bitfield.init (Piece.count size pieceSize), discarded := false }
  | some s =>
    if s.size ≠ size then { bits := Bitfield.init (Piece.count size pieceSize), discarded := true }
    else if s.originId.contentChanged id then
      { bits := s.bits.wipe, discarded := true, id := s.originId }
    else { bits := s.bits, discarded := false, id := s.originId }

def reconcile (w : World φ δ) (n : Name) (file : Nat) (l : Live φ δ) (size : Nat) (id : OriginId)
    (env : Env φ) : World φ δ :=
  let probe := l.entry.reconcileProbe size id
  if probe.2.2 then
    if env.alloc then w.afterSection n file env.saved l (l.entry.reconcileReset P.pieceSize size id)
    else w
  else w.afterSection n file env.saved l (probe.1, probe.2.1)

/-- The entry that a miss builds, and the wipe of a sidecar it could not use. -/
def built (pieceSize : Nat) (side : Option SavedBits) (file size : Nat) (id : OriginId)
    (nowSec : Int) : Live φ δ × List (Io φ) :=
  let loaded := loadSaved pieceSize side size id
  let entry : Cached φ δ :=
    { size := size, bits := loaded.bits, lastAccess := nowSec, originId := loaded.id }
  (⟨entry, fun i => (side.map fun s => s.madeFor i).getD file⟩,
    if loaded.discarded then entry.persistDiscardedWipe else [])

def getIdentified (w : World φ δ) (n : Name) (file size : Nat) (id : OriginId) (env : Env φ) :
    World φ δ :=
  match w.live n with
  | some l => reconcile P w n file l size id env
  | none =>
    if env.alloc then
      let b := built P.pieceSize (w.sidecars n) file size id env.nowSec
      reconcile P (w.commit n b.1 env.saved b.2) n file b.1 size id env
    else w

/-- `distrust`; `unlinked` is whether the sidecar can be unlinked. -/
def distrust (w : World φ δ) (n : Name) (unlinked : Bool) : World φ δ :=
  { w with
    live := Function.update w.live n
      ((w.live n).map fun l => { l with entry := l.entry.distrust.1 })
    sidecars := if unlinked then Function.update w.sidecars n none else w.sidecars }

/-- `forget`: nobody holds the entry between two operations. -/
def forget (w : World φ δ) (n : Name) (unlinked : Bool) : World φ δ :=
  { w with
    live := Function.update w.live n none
    sidecars := if unlinked then Function.update w.sidecars n none else w.sidecars }

/-! ## Handlers -/

/-- One pass of `hydratePiece`. `landed` is whether the piece's bytes come, from the origin or from
a peer that has the same file, and reach the cache. -/
structure Fill (φ δ : Type) extends Env φ where
  idx : Nat
  landed : Bool
  hash : Option δ := none

def hydratePiece (n : Name) (w : World φ δ) (e : Fill φ δ) : World φ δ :=
  match w.live n with
  | none => w
  | some l =>
    let claim := l.entry.beginFill P.pieceSize e.idx e.nowSec
    match claim.2 with
    | some (.len len) =>
      let c := (claim.1.openCacheUnlocked e.opened).1
      match w.fileAt n with
      | some file =>
        w.afterSection n file e.saved l
          (c.finishPiece P.pieceSize e.idx e.landed len e.hash e.nowSec)
      | none => w.afterSection n 0 e.saved l (c.abortFill P.pieceSize e.idx e.nowSec)
    | _ => w.commit n { l with entry := claim.1 } e.saved []

/-- A read and what the outside answers it. -/
structure Read (φ δ : Type) extends Env φ where
  span : Piece.Span
  /-- Size and identity, if the origin is asked. -/
  stat : Nat × OriginId
  fills : List (Fill φ δ)
  /-- The cache file can be read. -/
  cached : Bool := true

/-- `fileForRead`: a live entry is taken without a look at the origin. -/
def fileForRead (w : World φ δ) (n : Name) (e : Read φ δ) : World φ δ :=
  match w.live n with
  | some _ => w
  | none =>
    match w.fileAt n with
    | some file => getIdentified P w n file e.stat.1 e.stat.2 e.toEnv
    | none => w

def mfRead (w : World φ δ) (n : Name) (e : Read φ δ) : World φ δ :=
  e.fills.foldl (hydratePiece P n) (fileForRead P w n e)

/-- The files the bytes of a read are from, once `mfRead` has left `w`: those of the pieces in the
cache if all are marked, and otherwise the origin's. -/
def readSources (w : World φ δ) (n : Name) (e : Read φ δ) : List Nat :=
  match w.live n with
  | none => []
  | some l =>
    let cov := Piece.cover e.span l.entry.size P.pieceSize
    if e.cached && l.entry.bits.allSet cov.start cov.stop then
      (List.range' cov.start (cov.stop - cov.start)).map l.madeFor
    else (w.fileAt n).toList

/-- A write and what the outside answers it. -/
structure Write (φ β : Type) extends Env φ where
  off : Nat
  /-- What the origin took. -/
  data : List β
  /-- The origin's write and close succeed. -/
  landed : Bool
  stat : Option (Nat × OriginId)
  /-- A second `stat`, after a failed one. -/
  retry : Option (Nat × OriginId) := none
  copied : Bool
  unlinked : Bool := true

variable [DecidableEq δ]

def copyIntoCache (w : World φ δ) (n : Name) (file : Nat) (l : Live φ δ) (e : Write φ β) :
    World φ δ :=
  let c := (l.entry.openCacheUnlocked e.opened).1
  let marked := c.markCopy P.digest P.pieceSize e.off e.data (e.copied && c.cacheFd.isSome)
  w.afterSection n file e.saved l (marked.1, marked.2.1)

def cacheFillIdentified (w : World φ δ) (n : Name) (file : Nat) (fileEnd : Nat) (id : OriginId)
    (e : Write φ β) : World φ δ :=
  let w := match w.live n with
    | some _ => w
    | none => getIdentified P w n file fileEnd id e.toEnv
  match w.live n with
  | none => w
  | some l =>
    let sized := l.entry.cacheFillSize P.pieceSize fileEnd id e.nowSec e.alloc
    let w := w.afterSection n file e.saved l (sized.1, sized.2.1)
    if sized.2.2 then copyIntoCache P w n file (l.after file sized.1) e else w

/-- The tail of `mf_write` for a size that is not the write's end. -/
def growAndCopy (w : World φ δ) (n : Name) (file : Nat) (stat : Nat × OriginId) (regular : Bool)
    (e : Write φ β) : World φ δ :=
  let w := getIdentified P w n file stat.1 stat.2 e.toEnv
  match w.live n with
  | none => distrust w n e.unlinked
  | some l =>
    let grown := l.entry.growToLocked P.pieceSize (e.off + e.data.length) e.alloc
    let l' := l.after file (grown.1.stamp e.nowSec)
    let w := w.afterSection n file e.saved l (grown.1.stamp e.nowSec, grown.2)
    let w := copyIntoCache P w n file l' e
    match w.live n with
    | some l => if regular then w.afterSection n file e.saved l (l.entry.noteOriginId stat.2) else w
    | none => w

def mfWrite (w : World φ δ) (n : Name) (file : Nat) (e : Write φ β) : World φ δ :=
  if e.landed then
    match e.stat with
    | some stat =>
      if stat.1 = e.off + e.data.length then
        cacheFillIdentified P w n file (e.off + e.data.length) stat.2 e
      else growAndCopy P w n file stat true e
    | none =>
      match e.retry with
      | some stat => growAndCopy P w n file stat false e
      | none => distrust w n e.unlinked
  else distrust w n e.unlinked

/-- `mf_truncate`, once the origin is cut. -/
def mfTruncate (w : World φ δ) (n : Name) (file size : Nat) (unlinked : Bool) (env : Env φ) :
    World φ δ :=
  match w.live n with
  | some l =>
    let cut := l.entry.truncateEntry P.pieceSize size env.alloc
    w.afterSection n file env.saved l (cut.1, cut.2.1)
  | none => distrust w n unlinked

/-- `mf_open` on a file. -/
def mfOpen (w : World φ δ) (n : Name) (file : Nat) (stat : Nat × OriginId) (env : Env φ) :
    World φ δ :=
  let w := getIdentified P w n file stat.1 stat.2 env
  match w.live n with
  | some l => w.afterSection n file env.saved l (l.entry.openCacheUnlocked env.opened)
  | none => w

/-- `mf_create`, once the origin has opened or made the file; `closed` is whether its close
succeeds. -/
def mfCreate (w : World φ δ) (n : Name) (file : Nat) (closed unlinked : Bool) (env : Env φ) :
    World φ δ :=
  let w := distrust w n unlinked
  if closed then getIdentified P w n file 0 {} env else w

/-! ## Names

The kernel names no request's file by the root. -/

/-- Below a name, and not the name itself. -/
def Below (m n : Name) : Prop := m <+: n ∧ n ≠ m

/-- What the origin lets a plain rename do. -/
def Renames (origin : Name → Option Object) (old new : Name) : Prop :=
  old ≠ [] ∧ new ≠ [] ∧ (origin old).isSome = true ∧ (old = new ∨ ¬ old <+: new) ∧
    ∀ n, Below new n → old = new ∨ origin n = none

/-- What it lets an exchange do. -/
def Exchanges (origin : Name → Option Object) (old new : Name) : Prop :=
  old ≠ [] ∧ new ≠ [] ∧ (origin old).isSome = true ∧ (origin new).isSome = true ∧
    ¬ old <+: new ∧ ¬ new <+: old

/-- Which of the unlinks of a sidecar succeed: before the origin's step, and after it. -/
structure Unlinks where
  before : Bool := true
  after : Bool := true

/-- The two `forget`s of one name around the origin's step. -/
def forgetTwice (w : World φ δ) (n : Name) (u : Unlinks) : World φ δ :=
  forget (forget w n u.before) n u.after

/-- The `forget`s of a rename. The same name twice is left alone. -/
def forgetBoth (w : World φ δ) (old new : Name) (uo un : Unlinks) : World φ δ :=
  if old = new then w else forgetTwice (forgetTwice w old uo) new un

/-- An unlink or a rename, as the condition on a run sees it. -/
inductive Change where
  | unlink (n : Name) (u : Unlinks)
  | rename (old new : Name) (uo un : Unlinks)
  | exchange (old new : Name) (uo un : Unlinks)

/-- One mount operation, with any arguments and whatever the outside answers. Handlers that fail
before they change anything are not listed. `Allowed` is asked about each change of names. -/
inductive Op (Allowed : World φ δ → Change → Prop) (w : World φ δ) : World φ δ → Prop where
  | lookup {n : Name} {alloc : Bool} {ino : Nat} {t : Tables}
      (h : internPath w.tables (spelled n) alloc = some (ino, t)) :
      Op Allowed w { w with tables := t }
  | forgetNode (ino k : Nat) : Op Allowed w { w with tables := dropLookup w.tables ino k }
  | openFile {n : Name} {file : Nat} (hfile : w.fileAt n = some file) (stat : Nat × OriginId)
      (env : Env φ) (alloc : Bool) :
      Op Allowed w { mfOpen P w n file stat env with
        tables := (rememberOpen w.tables (spelled n) alloc).2 }
  /-- An open with `O_TRUNC`. -/
  | openTruncated {n : Name} {file : Nat} (hfile : w.fileAt n = some file) (unlinked : Bool)
      (env : Env φ) (alloc : Bool) :
      Op Allowed w { mfTruncate P w n file 0 unlinked env with
        tables := (rememberOpen w.tables (spelled n) alloc).2 }
  /-- A new file, or the cut of the one there is. -/
  | create {n : Name} {file ino : Nat} {t : Tables} {allocNode : Bool}
      (hfile : w.origin n = none ∧ file = w.nextFile ∨ w.fileAt n = some file)
      (closed unlinked : Bool) (env : Env φ) (alloc : Bool)
      (h : internPath w.tables (spelled n) allocNode = some (ino, t)) :
      Op Allowed w { mfCreate P { w with
          origin := Function.update w.origin n (some (.file file))
          nextFile := w.nextFile + 1 } n file closed unlinked env with
        tables := (rememberOpen t (spelled n) alloc).2 }
  | read {n : Name} {ino fh : Nat} (hpath : pathForOp w.tables ino fh = some (spelled n))
      (e : Read φ δ) : Op Allowed w (mfRead P w n e)
  | write {n : Name} {ino fh file : Nat} (hpath : pathForOp w.tables ino fh = some (spelled n))
      (hfile : w.fileAt n = some file) (e : Write φ β) : Op Allowed w (mfWrite P w n file e)
  | truncate {n : Name} {ino fh file : Nat} (hpath : pathForOp w.tables ino fh = some (spelled n))
      (hfile : w.fileAt n = some file) (size : Nat) (unlinked : Bool) (env : Env φ) :
      Op Allowed w (mfTruncate P w n file size unlinked env)
  | release (fh : Nat) : Op Allowed w { w with tables := forgetOpen w.tables fh }
  | mkdir {n : Name} (hnone : w.origin n = none) :
      Op Allowed w { w with origin := Function.update w.origin n (some .dir) }
  | rmdir {n : Name} (hdir : w.origin n = some .dir)
      (hempty : ∀ m, Below n m → w.origin m = none) :
      Op Allowed w { w with origin := Function.update w.origin n none }
  /-- The origin drops the file, or has none of that name, or refuses. -/
  | unlink {n : Name} (hroot : n ≠ []) (u : Unlinks) (refused : Bool)
      (hkind : refused = false → w.origin n ≠ some .dir) (hallowed : Allowed w (.unlink n u)) :
      Op Allowed w { forgetTwice w n u with
        origin := if refused then w.origin else Function.update w.origin n none }
  | rename {old new : Name} {order : List Nat} {fails : Fails} (uo un : Unlinks)
      (hrename : Renames w.origin old new) (horder : Order w.tables order)
      (hallowed : Allowed w (.rename old new uo un)) :
      Op Allowed w { forgetBoth w old new uo un with
        origin := regraft w.origin old new
        tables := Inodes.renameNodes w.tables order (spelled old) (spelled new) fails }
  | exchange {old new : Name} (uo un : Unlinks) (hexchange : Exchanges w.origin old new)
      (hallowed : Allowed w (.exchange old new uo un)) :
      Op Allowed w { forgetBoth w old new uo un with origin := ModelFs.exchange w.origin old new }
  /-- The origin refuses, or has moved the file in an earlier attempt of the request. -/
  | renameRefused {old new : Name} (uo un : Unlinks) (t : Tables) :
      Op Allowed w { forgetBoth w old new uo un with tables := t }

end Handlers

/-! ## What a run keeps -/

/-- Every mark of an entry or a sidecar was made for the file its name stands for. -/
def Sound (w : World φ δ) : Prop := ∀ n,
  (∀ l, w.live n = some l → ∀ i, l.entry.bits.get i = true → w.fileAt n = some (l.madeFor i)) ∧
  ∀ s, w.sidecars n = some s → ∀ i, s.bits.get i = true → w.fileAt n = some (s.madeFor i)

/-- A name has a mark. -/
def Marked (w : World φ δ) (n : Name) : Prop :=
  (∃ l, w.live n = some l ∧ ∃ i, l.entry.bits.get i = true) ∨
    ∃ s, w.sidecars n = some s ∧ ∃ i, s.bits.get i = true

/-- One of the two unlinks succeeds. -/
def Unlinks.gone (u : Unlinks) : Prop := u.before = true ∨ u.after = true

/-- The condition: dropped names lose their sidecars, and no name below a moved one has a mark. -/
def Clear (w : World φ δ) : Change → Prop
  | .unlink _ u => u.gone
  | .rename old _ uo un => uo.gone ∧ un.gone ∧ ∀ n, Below old n → ¬ Marked w n
  | .exchange old new uo un =>
    uo.gone ∧ un.gone ∧ ∀ n, Below old n ∨ Below new n → ¬ Marked w n

variable {P : Entry.Params β δ} {w w' : World φ δ} {n m : Name} {file : Nat} {l : Live φ δ}

/-- The marks of an entry were made for the file `n` stands for. -/
def Fits (w : World φ δ) (n : Name) (l : Live φ δ) : Prop :=
  ∀ i, l.entry.bits.get i = true → w.fileAt n = some (l.madeFor i)

/-- What an operation on one file leaves: the origin, and the marks sound. -/
structure Kept (w w' : World φ δ) : Prop where
  origin : w'.origin = w.origin
  sound : Sound w'

theorem Kept.trans {w'' : World φ δ} (h : Kept w w') (h' : Kept w' w'') : Kept w w'' :=
  ⟨h'.origin.trans h.origin, h'.sound⟩

theorem Kept.fileAt (h : Kept w w') (n : Name) : w'.fileAt n = w.fileAt n := by
  unfold World.fileAt
  rw [h.origin]

theorem Sound.fits (h : Sound w) (hlive : w.live n = some l) : Fits w n l := (h n).1 l hlive

theorem fits_after (h : Fits w n l) (hfile : w.fileAt n = some file) (c : Cached φ δ) (i : Nat) :
    w.fileAt n = some ((l.after file c).madeFor i) := by
  unfold Live.after
  dsimp only
  split_ifs with hi
  · exact h i hi
  · exact hfile

@[simp] theorem live_commit (saved : Bool) (io : List (Io φ)) :
    (w.commit n l saved io).live n = some l := Function.update_self ..

@[simp] theorem live_afterSection (saved : Bool) (r : Cached φ δ × List (Io φ)) :
    (w.afterSection n file saved l r).live n = some (l.after file r.1) := live_commit ..

@[simp] theorem sidecars_commit (saved : Bool) (io : List (Io φ)) :
    (w.commit n l saved io).sidecars n = io.foldl (l.onSidecar saved) (w.sidecars n) :=
  Function.update_self ..

theorem commit_of_ne (hm : m ≠ n) (saved : Bool) (io : List (Io φ)) :
    (w.commit n l saved io).live m = w.live m ∧
      (w.commit n l saved io).sidecars m = w.sidecars m :=
  ⟨Function.update_of_ne hm .., Function.update_of_ne hm ..⟩

/-- A section's saves leave a sidecar whose marks are the entry's, or the old one. -/
theorem Sound.commit (h : Sound w) {saved : Bool} {io : List (Io φ)} (hl : Fits w n l)
    (hio : ∀ size bits id durable, .save size bits id durable ∈ io →
      ∀ i, bits.get i = true → w.fileAt n = some (l.madeFor i)) :
    Sound (w.commit n l saved io) := by
  have hside : ∀ (io' : List (Io φ)) (side : Option SavedBits), (∀ op ∈ io', op ∈ io) →
      (∀ s, side = some s → ∀ i, s.bits.get i = true → w.fileAt n = some (s.madeFor i)) →
      ∀ s, io'.foldl (l.onSidecar saved) side = some s →
        ∀ i, s.bits.get i = true → w.fileAt n = some (s.madeFor i) := by
    intro io'
    induction io' with
    | nil => exact fun side _ hs => hs
    | cons op io' ih =>
      intro side hmem hs
      refine ih _ (fun op' hop => hmem op' (List.mem_cons_of_mem _ hop)) fun s heq i hi => ?_
      cases op with
      | save size bits id durable =>
        unfold Live.onSidecar at heq
        split_ifs at heq
        · obtain rfl := Option.some.inj heq
          exact hio _ _ _ _ (hmem _ List.mem_cons_self) i hi
        · exact hs s heq i hi
      | unlinkMeta => cases heq
      | _ => exact hs s heq i hi
  intro m
  by_cases hm : m = n
  · subst hm
    refine ⟨fun l' hl' i hi => ?_, fun s hs i hi => ?_⟩
    · rw [live_commit] at hl'
      obtain rfl := Option.some.inj hl'
      exact hl i hi
    · rw [sidecars_commit] at hs
      exact hside io (w.sidecars m) (fun _ hop => hop) (h m).2 s hs i hi
  · obtain ⟨hlive, hsidecar⟩ := @commit_of_ne φ δ w n m l hm saved io
    refine ⟨fun l' hl' => ?_, fun s hs => ?_⟩
    · exact (h m).1 l' (hlive.symm.trans hl')
    · exact (h m).2 s (hsidecar.symm.trans hs)

/-- **Any section of the entry of a file keeps the marks sound**: what it adds is that file's. -/
theorem Sound.afterSection (h : Sound w) (hl : Fits w n l) (hfile : w.fileAt n = some file)
    (saved : Bool) (r : Cached φ δ × List (Io φ)) : Kept w (w.afterSection n file saved l r) :=
  ⟨rfl, h.commit (fun i _ => fits_after hl hfile r.1 i)
    fun _ _ _ _ _ i _ => fits_after hl hfile r.1 i⟩

/-- A section that adds no mark keeps them sound, whatever the origin has. -/
theorem Sound.afterDrop (h : Sound w) (hl : Fits w n l) {saved : Bool}
    {r : Cached φ δ × List (Io φ)}
    (hbits : ∀ i, r.1.bits.get i = true → l.entry.bits.get i = true)
    (hio : ∀ size bits id durable, .save size bits id durable ∈ r.2 →
      ∀ i, bits.get i = true → l.entry.bits.get i = true) :
    Kept w (w.afterSection n file saved l r) := by
  have hmade : ∀ i, l.entry.bits.get i = true → (l.after file r.1).madeFor i = l.madeFor i :=
    fun i hi => if_pos hi
  refine ⟨rfl, h.commit (fun i hi => ?_) fun size bits id durable hop i hi => ?_⟩
  · rw [hmade i (hbits i hi)]
    exact hl i (hbits i hi)
  · rw [hmade i (hio size bits id durable hop i hi)]
    exact hl i (hio size bits id durable hop i hi)

theorem Sound.reconcile (h : Sound w) (hl : Fits w n l) (hfile : w.fileAt n = some file)
    (size : Nat) (id : OriginId) (env : Env φ) : Kept w (reconcile P w n file l size id env) := by
  unfold Mount.reconcile
  dsimp only
  split_ifs
  · exact h.afterSection hl hfile _ _
  · exact ⟨rfl, h⟩
  · exact h.afterSection hl hfile _ _

/-- A load shows no more marks than were saved. -/
theorem get_loadSaved {pieceSize size : Nat} {id : OriginId} {side : Option SavedBits} {i : Nat}
    (hi : (loadSaved pieceSize side size id).bits.get i = true) :
    ∃ s, side = some s ∧ s.bits.get i = true := by
  unfold loadSaved at hi
  cases side with
  | none => simp at hi
  | some s =>
    dsimp only at hi
    split_ifs at hi
    · simp at hi
    · simp at hi
    · exact ⟨s, rfl, hi⟩

/-- What a miss builds is as sound as the sidecar. -/
theorem Sound.built (h : Sound w) (n : Name) (pieceSize file size : Nat) (id : OriginId)
    (nowSec : Int) : Fits w n (built pieceSize (w.sidecars n) file size id nowSec).1 := by
  intro i hi
  obtain ⟨s, hs, hbit⟩ := get_loadSaved hi
  rw [(h n).2 s hs i hbit]
  unfold Mount.built
  rw [hs]
  rfl

theorem saves_built {pieceSize size' : Nat} {side : Option SavedBits} {id' : OriginId}
    {nowSec : Int} {size : Nat} {bits : Bitfield} {id : OriginId} {durable : Bool}
    {b : Live φ δ × List (Io φ)} (hb : built pieceSize side file size' id' nowSec = b)
    (h : Io.save size bits id durable ∈ b.2) : bits = b.1.entry.bits := by
  subst hb
  unfold Mount.built at h ⊢
  dsimp only at h ⊢
  unfold Cached.persistDiscardedWipe at h
  split_ifs at h <;> simp_all [Cached.saveBits]

theorem Sound.getIdentified (h : Sound w) (hfile : w.fileAt n = some file) (size : Nat)
    (id : OriginId) (env : Env φ) : Kept w (getIdentified P w n file size id env) := by
  unfold Mount.getIdentified
  cases hlive : w.live n with
  | some l => exact h.reconcile ((h n).1 l hlive) hfile size id env
  | none =>
    by_cases halloc : env.alloc = true
    · simp only [halloc, if_true]
      have hfits := h.built n P.pieceSize file size id env.nowSec
      have hsound : Sound (w.commit n _ env.saved _) := h.commit hfits fun _ bits _ _ hio i hi =>
        hfits i (by rwa [← saves_built rfl hio])
      have hkept : Kept w (w.commit n _ env.saved _) := ⟨rfl, hsound⟩
      exact hkept.trans (hsound.reconcile hfits hfile size id env)
    · simp only [halloc]
      exact ⟨rfl, h⟩

/-- A mark dropped, a sidecar unlinked: what is left is as it was. -/
theorem Sound.narrow (h : Sound w) (horigin : w'.origin = w.origin)
    (hlive : ∀ m l, w'.live m = some l → ∃ l₀, w.live m = some l₀ ∧ l.madeFor = l₀.madeFor ∧
      ∀ i, l.entry.bits.get i = true → l₀.entry.bits.get i = true)
    (hsidecars : ∀ m s, w'.sidecars m = some s → w.sidecars m = some s) : Kept w w' := by
  refine ⟨horigin, fun m => ⟨fun l hl i hi => ?_, fun s hs i hi => ?_⟩⟩
  · obtain ⟨l₀, hl₀, hmade, hget⟩ := hlive m l hl
    rw [hmade, ← (h m).1 l₀ hl₀ i (hget i hi), World.fileAt, World.fileAt, horigin]
  · rw [← (h m).2 s (hsidecars m s hs) i hi, World.fileAt, World.fileAt, horigin]

theorem Sound.distrust (h : Sound w) (n : Name) (unlinked : Bool) :
    Kept w (distrust w n unlinked) := by
  refine h.narrow rfl (fun m l hl => ?_) fun m s hs => ?_
  · by_cases hm : m = n
    · subst hm
      unfold Mount.distrust at hl
      dsimp only at hl
      rw [Function.update_self] at hl
      obtain ⟨l₀, hl₀, rfl⟩ := Option.map_eq_some_iff.mp hl
      refine ⟨l₀, hl₀, rfl, fun i hi => absurd hi ?_⟩
      simp [Cached.distrust, Cached.clearHashes]
    · unfold Mount.distrust at hl
      dsimp only at hl
      rw [Function.update_of_ne hm] at hl
      exact ⟨l, hl, rfl, fun i hi => hi⟩
  · unfold Mount.distrust at hs
    dsimp only at hs
    split_ifs at hs
    · by_cases hm : m = n
      · rw [hm, Function.update_self] at hs
        cases hs
      · rwa [Function.update_of_ne hm] at hs
    · exact hs

theorem forget_of_ne (hm : m ≠ n) (unlinked : Bool) :
    (forget w n unlinked).live m = w.live m ∧ (forget w n unlinked).sidecars m = w.sidecars m := by
  unfold forget
  refine ⟨Function.update_of_ne hm .., ?_⟩
  dsimp only
  split_ifs
  · exact Function.update_of_ne hm ..
  · rfl

theorem forgetTwice_of_ne (hm : m ≠ n) (u : Unlinks) :
    (forgetTwice w n u).live m = w.live m ∧ (forgetTwice w n u).sidecars m = w.sidecars m := by
  obtain ⟨hlive, hside⟩ := @forget_of_ne φ δ w n m hm u.before
  obtain ⟨hlive', hside'⟩ := @forget_of_ne φ δ (forget w n u.before) n m hm u.after
  exact ⟨hlive'.trans hlive, hside'.trans hside⟩

/-- A dropped name has no entry, and no sidecar if an unlink succeeds. -/
theorem forgetTwice_self (u : Unlinks) :
    (forgetTwice w n u).live n = none ∧ (u.gone → (forgetTwice w n u).sidecars n = none) := by
  unfold forgetTwice forget
  refine ⟨Function.update_self .., fun hgone => ?_⟩
  dsimp only
  by_cases hafter : u.after = true
  · rw [if_pos hafter]
    exact Function.update_self ..
  · have hbefore : u.before = true := hgone.resolve_right hafter
    rw [if_neg hafter, if_pos hbefore]
    exact Function.update_self ..

theorem Sound.forget (h : Sound w) (n : Name) (unlinked : Bool) : Kept w (forget w n unlinked) := by
  refine h.narrow rfl (fun m l hl => ?_) fun m s hs => ?_
  · by_cases hm : m = n
    · subst hm
      unfold Mount.forget at hl
      dsimp only at hl
      rw [Function.update_self] at hl
      cases hl
    · rw [(forget_of_ne hm unlinked).1] at hl
      exact ⟨l, hl, rfl, fun i hi => hi⟩
  · by_cases hm : m = n
    · subst hm
      unfold Mount.forget at hs
      dsimp only at hs
      split_ifs at hs
      · rw [Function.update_self] at hs
        cases hs
      · exact hs
    · rwa [(forget_of_ne hm unlinked).2] at hs

theorem Sound.forgetTwice (h : Sound w) (n : Name) (u : Unlinks) : Kept w (forgetTwice w n u) :=
  (h.forget n u.before).trans ((h.forget n u.before).sound.forget n u.after)

theorem Sound.forgetBoth (h : Sound w) (old new : Name) (uo un : Unlinks) :
    Kept w (forgetBoth w old new uo un) := by
  unfold Mount.forgetBoth
  split_ifs
  · exact ⟨rfl, h⟩
  · exact (h.forgetTwice old uo).trans ((h.forgetTwice old uo).sound.forgetTwice new un)

/-! ## The handlers keep the marks sound -/

/-- A claim and an open add no mark. -/
theorem bits_opened (l : Live φ δ) (e : Fill φ δ) :
    ((l.entry.beginFill P.pieceSize e.idx e.nowSec).1.openCacheUnlocked e.opened).1.bits =
      l.entry.bits := by
  have halike := Cached.openCacheUnlocked_alike
    (l.entry.beginFill P.pieceSize e.idx e.nowSec).1 e.opened
  rw [halike.bits]
  exact Cached.bits_beginFill ..

theorem bits_of_abortFill {c : Cached φ δ} {idx : Nat} {nowSec : Int} {pieceSize size : Nat}
    {bits : Bitfield} {id : OriginId} {durable : Bool}
    (h : Io.save size bits id durable ∈ (c.abortFill pieceSize idx nowSec).2) :
    bits = (c.abortFill pieceSize idx nowSec).1.bits := by
  unfold Cached.abortFill Cached.finishPiece at h ⊢
  split_ifs at h ⊢ <;> simp_all [Cached.saveBits]

theorem Sound.hydratePiece (h : Sound w) (n : Name) (e : Fill φ δ) :
    Kept w (hydratePiece P n w e) := by
  unfold Mount.hydratePiece
  cases hlive : w.live n with
  | none => exact ⟨rfl, h⟩
  | some l =>
    have hl := (h n).1 l hlive
    have hbits := Cached.bits_beginFill P.pieceSize l.entry e.idx e.nowSec
    have hclaimed : Fits w n { l with entry := (l.entry.beginFill P.pieceSize e.idx e.nowSec).1 } :=
      fun i hi => hl i (by rwa [← hbits])
    have hother : Kept w (w.commit n
        { l with entry := (l.entry.beginFill P.pieceSize e.idx e.nowSec).1 } e.saved []) :=
      ⟨rfl, h.commit hclaimed nofun⟩
    dsimp only
    split
    · split
      · next file hfile => exact h.afterSection hl hfile _ _
      · refine h.afterDrop hl (fun i hi => ?_) fun size bits id durable hio i hi => ?_
        · rw [← bits_opened l e]
          exact Cached.bits_abortFill ▸ hi
        · rw [bits_of_abortFill hio] at hi
          rw [← bits_opened l e]
          exact Cached.bits_abortFill ▸ hi
    · exact hother

theorem Sound.mfRead (h : Sound w) (n : Name) (e : Read φ δ) : Kept w (mfRead P w n e) := by
  have hfills : ∀ (fills : List (Fill φ δ)) (v : World φ δ), Sound v →
      Kept v (fills.foldl (Mount.hydratePiece P n) v) := by
    intro fills
    induction fills with
    | nil => exact fun v hv => ⟨rfl, hv⟩
    | cons f fills ih =>
      intro v hv
      have hfirst : Kept v (Mount.hydratePiece P n v f) := hv.hydratePiece n f
      exact hfirst.trans (ih _ hfirst.sound)
  have hentry : Kept w (fileForRead P w n e) := by
    unfold fileForRead
    cases hlive : w.live n with
    | some l => exact ⟨rfl, h⟩
    | none =>
      cases hfile : w.fileAt n with
      | none => exact ⟨rfl, h⟩
      | some file => exact h.getIdentified hfile _ _ _
  exact hentry.trans (hfills e.fills _ hentry.sound)

section Writes

variable [DecidableEq δ]

theorem Sound.copyIntoCache (h : Sound w) (hlive : w.live n = some l)
    (hfile : w.fileAt n = some file) (e : Write φ β) : Kept w (copyIntoCache P w n file l e) :=
  h.afterSection (h.fits hlive) hfile _ _

theorem Sound.cacheFillIdentified (h : Sound w) (hfile : w.fileAt n = some file) (fileEnd : Nat)
    (id : OriginId) (e : Write φ β) : Kept w (cacheFillIdentified P w n file fileEnd id e) := by
  unfold Mount.cacheFillIdentified
  dsimp only
  have hentry : Kept w (match w.live n with
      | some _ => w
      | none => Mount.getIdentified P w n file fileEnd id e.toEnv) := by
    split
    · exact ⟨rfl, h⟩
    · exact h.getIdentified hfile _ _ _
  generalize (match w.live n with
    | some _ => w
    | none => Mount.getIdentified P w n file fileEnd id e.toEnv) = w₁ at hentry ⊢
  have hfile₁ : w₁.fileAt n = some file := (hentry.fileAt n).trans hfile
  cases hlive : w₁.live n with
  | none => exact hentry
  | some l =>
    dsimp only
    have hsized := hentry.sound.afterSection (hentry.sound.fits hlive) hfile₁ e.saved
      ((l.entry.cacheFillSize P.pieceSize fileEnd id e.nowSec e.alloc).1,
        (l.entry.cacheFillSize P.pieceSize fileEnd id e.nowSec e.alloc).2.1)
    have hfile₂ := (hsized.fileAt n).trans hfile₁
    refine hentry.trans ?_
    split_ifs
    · exact hsized.trans (hsized.sound.copyIntoCache (live_afterSection ..) hfile₂ e)
    · exact hsized

theorem Sound.growAndCopy (h : Sound w) (hfile : w.fileAt n = some file) (stat : Nat × OriginId)
    (regular : Bool) (e : Write φ β) : Kept w (growAndCopy P w n file stat regular e) := by
  unfold Mount.growAndCopy
  dsimp only
  have hentry := h.getIdentified (P := P) hfile stat.1 stat.2 e.toEnv
  generalize Mount.getIdentified P w n file stat.1 stat.2 e.toEnv = w₁ at hentry ⊢
  have hfile₁ : w₁.fileAt n = some file := (hentry.fileAt n).trans hfile
  refine hentry.trans ?_
  cases hlive : w₁.live n with
  | none => exact hentry.sound.distrust n e.unlinked
  | some l =>
    dsimp only
    have hgrown := hentry.sound.afterSection (hentry.sound.fits hlive) hfile₁ e.saved
      ((l.entry.growToLocked P.pieceSize (e.off + e.data.length) e.alloc).1.stamp e.nowSec,
        (l.entry.growToLocked P.pieceSize (e.off + e.data.length) e.alloc).2)
    have hfile₂ := (hgrown.fileAt n).trans hfile₁
    have hcopied := hgrown.trans
      (hgrown.sound.copyIntoCache (P := P) (live_afterSection ..) hfile₂ e)
    have hfile₃ := (hcopied.fileAt n).trans hfile₁
    refine hcopied.trans ?_
    split
    · next l' hlive' =>
      split_ifs
      · exact hcopied.sound.afterSection (hcopied.sound.fits hlive') hfile₃ _ _
      · exact ⟨rfl, hcopied.sound⟩
    · exact ⟨rfl, hcopied.sound⟩

theorem Sound.mfWrite (h : Sound w) (hfile : w.fileAt n = some file) (e : Write φ β) :
    Kept w (mfWrite P w n file e) := by
  unfold Mount.mfWrite
  split_ifs
  · cases e.stat with
    | some stat =>
      dsimp only
      split_ifs
      · exact h.cacheFillIdentified hfile _ _ e
      · exact h.growAndCopy hfile _ _ e
    | none =>
      cases e.retry with
      | some stat => exact h.growAndCopy hfile _ _ e
      | none => exact h.distrust n e.unlinked
  · exact h.distrust n e.unlinked

end Writes

theorem Sound.mfTruncate (h : Sound w) (hfile : w.fileAt n = some file) (size : Nat)
    (unlinked : Bool) (env : Env φ) : Kept w (mfTruncate P w n file size unlinked env) := by
  unfold Mount.mfTruncate
  cases hlive : w.live n with
  | some l => exact h.afterSection (h.fits hlive) hfile _ _
  | none => exact h.distrust n unlinked

theorem Sound.mfOpen (h : Sound w) (hfile : w.fileAt n = some file) (stat : Nat × OriginId)
    (env : Env φ) : Kept w (mfOpen P w n file stat env) := by
  unfold Mount.mfOpen
  dsimp only
  have hentry := h.getIdentified (P := P) hfile stat.1 stat.2 env
  refine hentry.trans ?_
  split
  · next l hlive =>
    exact hentry.sound.afterSection (hentry.sound.fits hlive)
      ((hentry.fileAt n).trans hfile) _ _
  · exact ⟨rfl, hentry.sound⟩

theorem Sound.mfCreate (h : Sound w) (hfile : w.fileAt n = some file) (closed unlinked : Bool)
    (env : Env φ) : Kept w (mfCreate P w n file closed unlinked env) := by
  unfold Mount.mfCreate
  dsimp only
  have hdistrust := h.distrust n unlinked
  split_ifs
  · exact hdistrust.trans
      (hdistrust.sound.getIdentified ((hdistrust.fileAt n).trans hfile) _ _ env)
  · exact hdistrust

/-! ## Changes of names -/

theorem Sound.file_of_marked (h : Sound w) (hm : Marked w m) : ∃ file, w.fileAt m = some file := by
  rcases hm with ⟨l, hl, i, hi⟩ | ⟨s, hs, i, hi⟩
  · exact ⟨_, (h m).1 l hl i hi⟩
  · exact ⟨_, (h m).2 s hs i hi⟩

/-- The origin may change where nothing is marked. -/
theorem Sound.moved (h : Sound w) (hlive : w'.live = w.live) (hsidecars : w'.sidecars = w.sidecars)
    (hsame : ∀ m, Marked w m → w'.origin m = w.origin m) : Sound w' := by
  have hfile : ∀ m, Marked w m → w'.fileAt m = w.fileAt m := by
    intro m hm
    unfold World.fileAt
    rw [hsame m hm]
  intro m
  refine ⟨fun l hl i hi => ?_, fun s hs i hi => ?_⟩
  · rw [hlive] at hl
    rw [hfile m (Or.inl ⟨l, hl, i, hi⟩)]
    exact (h m).1 l hl i hi
  · rw [hsidecars] at hs
    rw [hfile m (Or.inr ⟨s, hs, i, hi⟩)]
    exact (h m).2 s hs i hi

theorem marked_congr (hlive : w'.live m = w.live m) (hsidecars : w'.sidecars m = w.sidecars m) :
    Marked w' m ↔ Marked w m := by
  unfold Marked
  rw [hlive, hsidecars]

theorem marked_forgetTwice (hm : m ≠ n) (u : Unlinks) :
    Marked (forgetTwice w n u) m ↔ Marked w m :=
  marked_congr (forgetTwice_of_ne hm u).1 (forgetTwice_of_ne hm u).2

/-- Nothing of a dropped name is marked, if its sidecar went. -/
theorem not_marked_forgetTwice {u : Unlinks} (hgone : u.gone) :
    ¬ Marked (forgetTwice w n u) n := by
  obtain ⟨hlive, hside⟩ := @forgetTwice_self φ δ w n u
  rintro (⟨l, hl, -⟩ | ⟨s, hs, -⟩)
  · rw [hlive] at hl
    cases hl
  · rw [hside hgone] at hs
    cases hs

/-- After the two names are dropped, what is marked is another name, marked before. -/
theorem marked_forgetBoth {old new : Name} {uo un : Unlinks} (hne : old ≠ new) (ho : uo.gone)
    (hn : un.gone) (hm : Marked (forgetBoth w old new uo un) m) :
    m ≠ old ∧ m ≠ new ∧ Marked w m := by
  unfold forgetBoth at hm
  rw [if_neg hne] at hm
  have hnew : m ≠ new := by
    rintro rfl
    exact not_marked_forgetTwice hn hm
  rw [marked_forgetTwice hnew] at hm
  have hold : m ≠ old := by
    rintro rfl
    exact not_marked_forgetTwice ho hm
  rw [marked_forgetTwice hold] at hm
  exact ⟨hold, hnew, hm⟩

theorem origin_forgetBoth (old new : Name) (uo un : Unlinks) :
    (forgetBoth w old new uo un).origin = w.origin := by
  unfold forgetBoth
  split_ifs <;> rfl

theorem regraft_self (origin : Name → Option Object) (n : Name) :
    regraft origin n n = origin := by
  funext m
  unfold regraft cut
  by_cases hm : n <+: m
  · rw [if_pos hm]
    obtain ⟨k, rfl⟩ := hm
    rw [List.drop_left]
  · rw [if_neg hm, if_neg hm]

theorem regraft_of_apart {origin : Name → Option Object} {old new : Name}
    (hold : ¬ old <+: m) (hnew : ¬ new <+: m) : regraft origin old new m = origin m := by
  unfold regraft cut
  rw [if_neg hnew, if_neg hold]

theorem exchange_of_apart {origin : Name → Option Object} {old new : Name}
    (hold : ¬ old <+: m) (hnew : ¬ new <+: m) : exchange origin old new m = origin m := by
  unfold ModelFs.exchange
  rw [if_neg hnew, if_neg hold]

variable {old new : Name} {uo un : Unlinks}

/-- **A rename with no mark below the name it moves keeps the marks sound.** -/
theorem Sound.rename (h : Sound w) (hrename : Renames w.origin old new)
    (hclear : Clear w (.rename old new uo un)) (t : Tables) :
    Sound { Mount.forgetBoth w old new uo un with
      origin := regraft w.origin old new, tables := t } := by
  obtain ⟨-, -, -, -, hempty⟩ := hrename
  obtain ⟨ho, hn, hbelow⟩ := hclear
  have hforgot := (h.forgetBoth old new uo un).sound
  by_cases hne : old = new
  · subst hne
    refine hforgot.moved rfl rfl fun m _ => ?_
    dsimp only
    rw [regraft_self, origin_forgetBoth]
  · refine hforgot.moved rfl rfl fun m hm => ?_
    obtain ⟨hmold, hmnew, hmarked⟩ := marked_forgetBoth hne ho hn hm
    have hold : ¬ old <+: m := fun hpre => hbelow m ⟨hpre, hmold⟩ hmarked
    have hnew : ¬ new <+: m := by
      intro hpre
      obtain ⟨file, hfile⟩ := h.file_of_marked hmarked
      have hnone : w.origin m = none := (hempty m ⟨hpre, hmnew⟩).resolve_left hne
      rw [World.fileAt, hnone] at hfile
      cases hfile
    dsimp only
    rw [regraft_of_apart hold hnew, origin_forgetBoth]

/-- An exchange with no mark below either name keeps the marks sound. -/
theorem Sound.exchange (h : Sound w) (hexchange : Exchanges w.origin old new)
    (hclear : Clear w (.exchange old new uo un)) :
    Sound { Mount.forgetBoth w old new uo un with
      origin := ModelFs.exchange w.origin old new } := by
  obtain ⟨-, -, -, -, hapart, -⟩ := hexchange
  obtain ⟨ho, hn, hbelow⟩ := hclear
  have hne : old ≠ new := fun heq => hapart (heq ▸ List.prefix_refl old)
  refine (h.forgetBoth old new uo un).sound.moved rfl rfl fun m hm => ?_
  obtain ⟨hmold, hmnew, hmarked⟩ := marked_forgetBoth hne ho hn hm
  have hold : ¬ old <+: m := fun hpre => hbelow m (Or.inl ⟨hpre, hmold⟩) hmarked
  have hnew : ¬ new <+: m := fun hpre => hbelow m (Or.inr ⟨hpre, hmnew⟩) hmarked
  dsimp only
  rw [exchange_of_apart hold hnew, origin_forgetBoth]

/-- A mark below a name that moves away is a mark for a file that is not there. -/
theorem Sound.not_marked_of_rename
    (h : Sound { Mount.forgetBoth w old new uo un with origin := regraft w.origin old new })
    (hrename : Renames w.origin old new) (hne : old ≠ new) (hm : Below old m) : ¬ Marked w m := by
  obtain ⟨-, -, hsome, hapart, hempty⟩ := hrename
  have hnew : ¬ new <+: m := by
    intro hpre
    rcases List.prefix_or_prefix_of_prefix hm.1 hpre with hon | hno
    · exact hapart.resolve_left hne hon
    · have hnone : w.origin old = none := (hempty old ⟨hno, hne⟩).resolve_left hne
      rw [hnone] at hsome
      cases hsome
  intro hmarked
  have hmnew : m ≠ new := fun heq => hnew (heq ▸ List.prefix_refl m)
  have hkept : Marked (Mount.forgetBoth w old new uo un) m := by
    unfold Mount.forgetBoth
    rwa [if_neg hne, marked_forgetTwice hmnew, marked_forgetTwice hm.2]
  have hmoved : Marked
      { Mount.forgetBoth w old new uo un with origin := regraft w.origin old new } m := hkept
  obtain ⟨file, hfile⟩ := h.file_of_marked hmoved
  have hcut : regraft w.origin old new m = none := by
    unfold regraft cut
    rw [if_neg hnew, if_pos hm.1]
  rw [World.fileAt] at hfile
  dsimp only at hfile
  rw [hcut] at hfile
  cases hfile

/-- **And only then**, where both sidecars can be unlinked. -/
theorem sound_rename_iff (h : Sound w) (hrename : Renames w.origin old new) (hne : old ≠ new)
    (ho : uo.gone) (hn : un.gone) (t : Tables) :
    Sound { forgetBoth w old new uo un with origin := regraft w.origin old new, tables := t } ↔
      ∀ m, Below old m → ¬ Marked w m := by
  constructor
  · intro hsound m hm
    exact hsound.not_marked_of_rename hrename hne hm
  · intro hbelow
    exact h.rename hrename ⟨ho, hn, hbelow⟩ t

/-- Forgetting a name lets the origin do with it what it likes. -/
theorem Sound.unlink (h : Sound w) {u : Unlinks} (hgone : u.gone) (object : Option Object) :
    Sound { Mount.forgetTwice w n u with origin := Function.update w.origin n object } := by
  refine (h.forgetTwice n u).sound.moved rfl rfl fun m hm => ?_
  have hmn : m ≠ n := by
    rintro rfl
    exact not_marked_forgetTwice hgone hm
  exact Function.update_of_ne hmn ..

/-- What is no file has no mark to lose. -/
theorem Sound.replace (h : Sound w) (hnone : w.fileAt n = none) (object : Option Object) :
    Sound { w with origin := Function.update w.origin n object } := by
  refine h.moved rfl rfl fun m hm => ?_
  have hmn : m ≠ n := by
    rintro rfl
    obtain ⟨file, hfile⟩ := h.file_of_marked hm
    rw [hnone] at hfile
    cases hfile
  exact Function.update_of_ne hmn ..

theorem fileAt_eq_some : w.fileAt n = some file ↔ w.origin n = some (.file file) := by
  unfold World.fileAt
  cases w.origin n with
  | none => simp
  | some o => cases o <;> simp [Object.fileId]

theorem Sound.create (h : Sound w)
    (hfile : w.origin n = none ∧ file = w.nextFile ∨ w.fileAt n = some file) :
    Sound { w with
      origin := Function.update w.origin n (some (.file file)), nextFile := w.nextFile + 1 } := by
  rcases hfile with ⟨hnone, -⟩ | hsome
  · exact h.replace (by simp [World.fileAt, hnone]) _
  · refine h.moved rfl rfl fun m _ => ?_
    dsimp only
    rw [← fileAt_eq_some.mp hsome, Function.update_eq_self]

/-! ## Runs -/

section Runs

variable [DecidableEq δ]

/-- One operation. -/
theorem Sound.op (h : Sound w) (hop : Op P Clear w w') : Sound w' := by
  cases hop with
  | lookup _ => exact h
  | forgetNode _ _ => exact h
  | openFile hfile stat env _ => exact (h.mfOpen hfile stat env).sound
  | openTruncated hfile unlinked env _ => exact (h.mfTruncate hfile 0 unlinked env).sound
  | create hfile closed unlinked env _ _ =>
    have hmade := h.create hfile
    exact (hmade.mfCreate (by simp [World.fileAt, Object.fileId]) closed unlinked env).sound
  | read _ e => exact (h.mfRead _ e).sound
  | write _ hfile e => exact (h.mfWrite hfile e).sound
  | truncate _ hfile size unlinked env => exact (h.mfTruncate hfile size unlinked env).sound
  | release _ => exact h
  | mkdir hnone => exact h.replace (by simp [World.fileAt, hnone]) _
  | rmdir hdir _ => exact h.replace (by simp [World.fileAt, hdir, Object.fileId]) _
  | unlink _ u refused _ hgone =>
    cases refused with
    | true => exact (h.forgetTwice _ u).sound
    | false => exact h.unlink hgone none
  | rename uo un hrename _ hclear => exact h.rename hrename hclear _
  | exchange uo un hexchange hclear => exact h.exchange hexchange hclear
  | renameRefused uo un t => exact (h.forgetBoth _ _ uo un).sound

omit [DecidableEq δ] in
/-- What a read of a sound cache is answered from. -/
theorem Sound.readSources (h : Sound w) (n : Name) (e : Read φ δ) :
    ∀ file ∈ readSources P w n e, w.fileAt n = some file := by
  intro file hfile
  unfold Mount.readSources at hfile
  cases hlive : w.live n with
  | none =>
    rw [hlive] at hfile
    cases hfile
  | some l =>
    rw [hlive] at hfile
    dsimp only at hfile
    split_ifs at hfile with hready
    · obtain ⟨i, hi, rfl⟩ := List.mem_map.mp hfile
      obtain ⟨hstart, hstop⟩ := List.mem_range'_1.mp hi
      rw [Bool.and_eq_true] at hready
      have hbit := (Bitfield.allSet_iff ..).mp hready.2 i hstart (by omega)
      exact h.fits hlive i hbit
    · exact Option.mem_toList.mp hfile

/-- **From a mount whose marks are sound, in every run whose changes of names are clear, no name has
a mark of another file, and a read through any handle has its file's bytes.** -/
theorem coherent_of_run {w₀ : World φ δ} (hsound : Sound w₀) (hrun : Run (Op P Clear) Always w₀ w) :
    Sound w ∧ ∀ n ino fh, pathForOp w.tables ino fh = some (spelled n) → ∀ e : Read φ δ,
      ∀ file ∈ readSources P (mfRead P w n e) n e, w.fileAt n = some file := by
  have hkeep : ∀ w₁ w₂ : World φ δ, Sound w₁ → Op P Clear w₁ w₂ → Always w₁ w₂ → Sound w₂ :=
    fun _ _ h hop _ => h.op hop
  have hend := Run.invariant hkeep hsound hrun
  refine ⟨hend, fun n ino fh _ e file hfile => ?_⟩
  have hread := hend.mfRead (P := P) n e
  rw [← hread.fileAt n]
  exact hread.sound.readSources n e file hfile

end Runs

/-! ## Two directories -/

section Shelf

/-- Pieces of one byte. -/
def single : Entry.Params UInt8 Unit where
  pieceSize := 1
  pieceSize_pos := by decide
  pieceSize_le := by decide
  zero := 0
  digest _ := ()

/-- `/a/x` and `/b/x`. -/
def shelf : World Unit Unit where
  origin n :=
    if n = [] ∨ n = [[97]] ∨ n = [[98]] then some .dir
    else if n = [[97], [120]] then some (.file 1)
    else if n = [[98], [120]] then some (.file 2)
    else none
  nextFile := 3

/-- A read of the first piece. -/
def firstByte : Read Unit Unit where
  span := ⟨0, 1⟩
  stat := (1, {})
  fills := [{ idx := 0, landed := true, opened := some () }]

/-- `/a/x` is looked up, -/
def foundShelf : World Unit Unit :=
  { shelf with tables := ((internPath {} (spelled [[97], [120]]) true).map (·.2)).getD {} }

/-- and read. -/
def readShelf : World Unit Unit := mfRead single foundShelf [[97], [120]] firstByte

theorem sound_shelf : Sound shelf := fun _ => ⟨nofun, nofun⟩

theorem run_readShelf {Allowed : World Unit Unit → Change → Prop} :
    Run (Op single Allowed) Always shelf readShelf := by
  have hintern : internPath shelf.tables (spelled [[97], [120]]) true =
      some (2, foundShelf.tables) := rfl
  have hpath : pathForOp foundShelf.tables 2 0 = some (spelled [[97], [120]]) := rfl
  have hlookup : Op single Allowed shelf foundShelf := .lookup hintern
  exact ((Run.refl shelf).then hlookup).then (.read hpath firstByte)

theorem sound_readShelf : Sound readShelf := by
  have hfound : Sound foundShelf := sound_shelf
  exact (hfound.mfRead _ _).sound

/-- Nothing is below a file. -/
theorem not_marked_readShelf {c d : List UInt8} (hm : Below [c, d] m) : ¬ Marked readShelf m := by
  intro hmarked
  obtain ⟨file, hfile⟩ := sound_readShelf.file_of_marked hmarked
  have horigin : shelf.origin m = some (.file file) := fileAt_eq_some.mp hfile
  obtain ⟨⟨k, rfl⟩, hne⟩ := hm
  cases k with
  | nil => exact hne (List.append_nil _)
  | cons e k => simp [shelf] at horigin

/-- The two files trade places. -/
theorem coherent_shelf : ∃ w, Run (Op single Clear) Always shelf w ∧
    w.fileAt [[97], [120]] = some 2 ∧ Sound w := by
  have hexchange : Exchanges readShelf.origin [[97], [120]] [[98], [120]] :=
    ⟨by decide, by decide, rfl, rfl, by decide, by decide⟩
  have hclear : Clear readShelf (.exchange [[97], [120]] [[98], [120]] {} {}) :=
    ⟨Or.inl rfl, Or.inl rfl, fun _ hm => hm.elim not_marked_readShelf not_marked_readShelf⟩
  have hrun := run_readShelf.then (Op.exchange (P := single) {} {} hexchange hclear)
  exact ⟨_, hrun, rfl, (coherent_of_run sound_shelf hrun).1⟩

/-- Every change of names. -/
def Any (_ : World Unit Unit) (_ : Change) : Prop := True

/-- **Two directories trade places, and `/a/x` is read from the file that is `/b/x` now.** -/
theorem stale_after_exchange : ∃ w, Run (Op single Any) Always shelf w ∧
    pathForOp w.tables 2 0 = some (spelled [[97], [120]]) ∧ w.fileAt [[97], [120]] = some 2 ∧
    ¬ Sound w ∧
    readSources single (mfRead single w [[97], [120]] firstByte) [[97], [120]] firstByte = [1] := by
  have hexchange : Exchanges readShelf.origin [[97]] [[98]] :=
    ⟨by decide, by decide, rfl, rfl, by decide, by decide⟩
  have hany : Any readShelf (.exchange [[97]] [[98]] {} {}) := trivial
  have hrun := run_readShelf.then (Op.exchange (P := single) {} {} hexchange hany)
  refine ⟨_, hrun, rfl, rfl, fun hsound => ?_, rfl⟩
  have hread := (hsound.mfRead (P := single) [[97], [120]] firstByte).sound.readSources
    (P := single) [[97], [120]] firstByte 1 List.mem_cons_self
  cases hread

end Shelf

end Mount

end ModelFs
