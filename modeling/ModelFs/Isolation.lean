import ModelFs.Sections

/-!
# Dead entries

When a name is unlinked or renamed, `forget` takes its entry out of the table, unlinks its files and
stamps it dead. Whoever has a reference goes on with the entry, and soon there may be another one of
the same name, with the same data path and the same sidecar path. This module has one name, every
entry it ever had, and the threads that hold them. A thread runs any of the sections of its entry
in any order, and writes through the descriptor that its last open answered, which is at least what
the calls of the source do (`Entry.Core.sections`).

A dead entry has no mark, so most of its sections leave the files alone. `Section.strays` has the
others: an open by path, and the saves that do not ask about the flag. Every file operation goes
into the log, with the flag of its entry and whether it was an operation on what is at one of the
two paths then. A run is isolated while none of those is a dead entry's.

* `Section.ownCuts_io` — what does not stray cuts the descriptor the entry has, at most.
* `isolated_of_run` — **a run stays isolated exactly as long as no section of a dead entry strays,
  and no dying entry leaves its open file behind.**
* `copy_trespasses` — a write-through on a forgotten entry cuts and writes its successor's file.
-/

namespace ModelFs

/-- The operation writes the sidecar. -/
def Io.saves {φ : Type} : Io φ → Bool
  | .save .. => true
  | _ => false

namespace Cached

variable {φ β δ : Type} {c : Cached φ δ}

/-! ## An entry without a mark -/

theorem adoptOriginIdLocked_unmarked (hc : ∀ i, c.bits.get i = false) (id : OriginId) :
    (c.adoptOriginIdLocked id).2 = [] := by
  unfold adoptOriginIdLocked
  split_ifs with hknown
  · rfl
  · have hnone : ({ c with originId := id } : Cached φ δ).bits.lastSet = none :=
      Bitfield.lastSet_eq_none hc
    dsimp only
    rw [hnone]
    rfl

theorem dropWideningPieceMark_unmarked (hc : ∀ i, c.bits.get i = false) (pieceSize : Nat) :
    (c.dropWideningPieceMark pieceSize).2 = [] := by
  unfold dropWideningPieceMark
  dsimp only
  split_ifs with hedge hbit
  · rfl
  · rw [hc] at hbit
    cases hbit
  · rfl

theorem growToLocked_unmarked (hc : ∀ i, c.bits.get i = false) (pieceSize fileEnd : Nat)
    (resized : Bool) : (c.growToLocked pieceSize fileEnd resized).2 = [] := by
  unfold growToLocked
  by_cases hend : fileEnd ≤ c.size
  · rw [if_pos hend]
  · rw [if_neg hend]
    exact dropWideningPieceMark_unmarked hc pieceSize

theorem punchPiece_unmarked (hc : ∀ i, c.bits.get i = false) (pieceSize idx : Nat)
    (env : PunchEnv φ) : c.punchPiece pieceSize idx env = (c, [], false) := by
  rcases c.punchPiece_cases pieceSize idx env with h | ⟨hbit, -⟩
  · exact h
  · rw [hc] at hbit
    cases hbit

/-! ## Operations on files -/

/-- At most cuts of the descriptor the entry has. -/
def OwnCuts (c : Cached φ δ) (ops : List (Io φ)) : Prop :=
  ∀ o ∈ ops, ∃ fd n, o = .cut fd n ∧ c.cacheFd = some fd

theorem OwnCuts.of_nil {ops : List (Io φ)} (h : ops = []) : OwnCuts c ops := by
  intro o ho
  rw [h] at ho
  cases ho

theorem ownCuts_truncateCacheFd (c : Cached φ δ) (n : Nat) : OwnCuts c (c.truncateCacheFd n) := by
  intro o ho
  rcases c.truncateCacheFd_cases n with h | ⟨fd, hfd, -, h⟩
  · rw [h] at ho
    cases ho
  · rw [h] at ho
    exact ⟨fd, n, List.mem_singleton.mp ho, hfd⟩

theorem ownCuts_finishPiece (hdead : c.dead = true) (pieceSize idx : Nat) (ok : Bool) (len : Nat)
    (hash : Option δ) (now : Int) : OwnCuts c (c.finishPiece pieceSize idx ok len hash now).2 := by
  unfold finishPiece
  rw [if_pos hdead]
  exact OwnCuts.of_nil rfl

theorem ownCuts_openCacheUnlocked {opened : Option φ}
    (h : (c.cacheFd.isNone && opened.isSome) = false) :
    OwnCuts c (c.openCacheUnlocked opened).2 := by
  rcases c.openCacheUnlocked_cases opened with heq | ⟨hfd, fd, rfl, -⟩
  · rw [heq]
    exact OwnCuts.of_nil rfl
  · rw [hfd] at h
    cases h

theorem ownCuts_noteOriginId {id : OriginId}
    (h : (id.known && (!c.originId.known || c.originId.contentChanged id)) = false) :
    OwnCuts c (c.noteOriginId id).2 := by
  unfold noteOriginId
  split_ifs with hknown hnew
  · exact OwnCuts.of_nil rfl
  · rw [hnew, Bool.and_true] at h
    rw [h] at hknown
    exact absurd rfl hknown
  · exact OwnCuts.of_nil rfl

theorem ownCuts_reconcileProbe (hc : ∀ i, c.bits.get i = false) (size : Nat) (id : OriginId) :
    OwnCuts c (c.reconcileProbe size id).2.1 := by
  unfold reconcileProbe
  split_ifs
  · exact OwnCuts.of_nil rfl
  · exact OwnCuts.of_nil (adoptOriginIdLocked_unmarked hc id)

theorem ownCuts_reconcileReset (hc : ∀ i, c.bits.get i = false) {pieceSize size : Nat}
    {id : OriginId} (h : c.differs size id = false) :
    OwnCuts c (c.reconcileReset pieceSize size id).2 := by
  unfold reconcileReset
  rw [if_neg (ne_true_of_eq_false h)]
  exact OwnCuts.of_nil (adoptOriginIdLocked_unmarked hc id)

theorem ownCuts_cacheFillSize (hc : ∀ i, c.bits.get i = false) {pieceSize fileEnd : Nat}
    {id : OriginId} {now : Int} {allocated : Bool} (h : ¬ fileEnd < c.size) :
    OwnCuts c (c.cacheFillSize pieceSize fileEnd id now allocated).2.1 := by
  unfold cacheFillSize
  split_ifs
  · exact OwnCuts.of_nil (growToLocked_unmarked hc ..)
  · exact OwnCuts.of_nil rfl

theorem ownCuts_truncateEntry {pieceSize size : Nat} {allocated : Bool} (h : c.size = size) :
    OwnCuts c (c.truncateEntry pieceSize size allocated).2.1 := by
  unfold truncateEntry
  rw [if_pos h]
  exact ownCuts_truncateCacheFd c size

theorem ownCuts_markCopy [DecidableEq δ] (hdead : c.dead = true) (digest : List β → δ)
    (pieceSize off : Nat) (data : List β) (copied : Bool) :
    OwnCuts c (c.markCopy digest pieceSize off data copied).2.1 := by
  unfold markCopy
  rw [if_pos hdead]
  exact OwnCuts.of_nil rfl

theorem ownCuts_healPiece (hdead : c.dead = true) (idx : Nat) :
    OwnCuts c (c.healPiece idx).2 := by
  unfold healPiece
  rw [if_pos hdead]
  exact OwnCuts.of_nil rfl

end Cached

namespace Section

variable {φ β δ : Type}

/-! ## Sections of a dead entry -/

/-- The sections a holder of an entry runs. The others find their entry in the table. -/
def ofHolder : Section φ β δ → Bool
  | .distrust => false
  | .forget => false
  | .stampDead => false
  | _ => true

/-- An open by path comes to the file that is there. -/
def reaching (there : φ) : Section φ β δ → Section φ β δ
  | .openCache opened => .openCache (opened.map fun _ => there)
  | .punch idx env => .punch idx { env with opened := env.opened.map fun _ => there }
  | sec => sec

/-- The sections that leave a dead entry's own file: an open by path that comes to something, and
the saves that do not ask whether the entry is dead. -/
def strays (c : Cached φ δ) : Section φ β δ → Bool
  | .openCache opened => c.cacheFd.isNone && opened.isSome
  | .noteOriginId id => id.known && (!c.originId.known || c.originId.contentChanged id)
  | .reconcileReset size id => c.differs size id
  | .cacheFillSize fileEnd _ _ _ => fileEnd < c.size
  | .truncateEntry size _ => c.size ≠ size
  | _ => false

theorem strays_reaching (c : Cached φ δ) (there : φ) (sec : Section φ β δ) :
    (sec.reaching there).strays c = sec.strays c := by
  cases sec with
  | openCache opened => cases opened <;> rfl
  | _ => rfl

theorem ofHolder_reaching (there : φ) (sec : Section φ β δ) :
    (sec.reaching there).ofHolder = sec.ofHolder := by
  cases sec <;> rfl

variable [DecidableEq δ] {P : Entry.Params β δ} {c : Cached φ δ} {sec : Section φ β δ}

/-- **What a dead entry's section does to files**, when it does not stray: it cuts the descriptor
the entry has, at most. -/
theorem ownCuts_io (h : sec.ofHolder = true) (hdead : c.dead = true)
    (hc : ∀ i, c.bits.get i = false) (hstrays : sec.strays c = false) :
    c.OwnCuts (sec.io P c) := by
  cases sec with
  | finishPiece idx ok len hash now => exact Cached.ownCuts_finishPiece hdead _ _ _ _ _ _
  | openCache opened => exact Cached.ownCuts_openCacheUnlocked hstrays
  | noteOriginId id => exact Cached.ownCuts_noteOriginId hstrays
  | reconcileProbe size id => exact Cached.ownCuts_reconcileProbe hc size id
  | reconcileReset size id => exact Cached.ownCuts_reconcileReset hc hstrays
  | cacheFillSize fileEnd id now allocated =>
    exact Cached.ownCuts_cacheFillSize hc (of_decide_eq_false hstrays)
  | growForWrite fileEnd now resized =>
    exact Cached.OwnCuts.of_nil (Cached.growToLocked_unmarked hc ..)
  | truncateEntry size allocated =>
    exact Cached.ownCuts_truncateEntry (not_not.mp (of_decide_eq_false hstrays))
  | markCopy off data copied => exact Cached.ownCuts_markCopy hdead _ _ _ _ _
  | punch idx env =>
    have hsame : (c.punchPiece P.pieceSize idx env).2.1 = [] := by
      rw [Cached.punchPiece_unmarked hc]
    exact Cached.OwnCuts.of_nil hsame
  | heal idx => exact Cached.ownCuts_healPiece hdead idx
  | distrust => exact absurd h (by simp [ofHolder])
  | forget => exact absurd h (by simp [ofHolder])
  | _ => exact Cached.OwnCuts.of_nil rfl

/-- What a section's open by path comes to. -/
def opened : Section φ β δ → Option φ
  | .openCache opened => opened
  | .punch _ env => env.opened
  | _ => none

/-- The descriptor a thread goes on with: `openCache` answers the entry's. -/
def answer (c' : Cached φ δ) (fd : Option φ) : Section φ β δ → Option φ
  | .openCache _ => c'.cacheFd
  | _ => fd

omit [DecidableEq δ] in
theorem opened_reaching (there : φ) (sec : Section φ β δ) :
    (sec.reaching there).opened = sec.opened.map fun _ => there := by
  cases sec <;> rfl

/-- The section leaves a descriptor where there was none. -/
def opens (P : Entry.Params β δ) (c : Cached φ δ) (sec : Section φ β δ) : Bool :=
  c.cacheFd.isNone && (sec.run P c).cacheFd.isSome

/-- The dead flag is as it was, and the descriptor too, or it is closed, or it was opened. -/
structure Holds (c c' : Cached φ δ) (opened : Option φ) : Prop where
  dead : c'.dead = c.dead
  cacheFd : c'.cacheFd = c.cacheFd ∨ c'.cacheFd = none ∨
    c.cacheFd = none ∧ c'.cacheFd.isSome = true ∧ c'.cacheFd = opened

omit [DecidableEq δ] in
theorem Holds.of_keepsFile {c c' : Cached φ δ} {opened : Option φ} (h : Cached.KeepsFile c c') :
    Holds c c' opened :=
  ⟨h.dead, Or.inl h.cacheFd⟩

omit [DecidableEq δ] in
theorem holds_open (c : Cached φ δ) (opened : Option φ) :
    Holds c (c.openCacheUnlocked opened).1 opened := by
  rcases c.openCacheUnlocked_cases opened with h | ⟨hnone, fd, rfl, h⟩ <;> rw [h]
  · exact ⟨rfl, Or.inl rfl⟩
  · exact ⟨rfl, Or.inr (Or.inr ⟨hnone, rfl, rfl⟩)⟩

omit [DecidableEq δ] in
theorem holds_closeIdle (c : Cached φ δ) (now minIdle : Int) (opened : Option φ) :
    Holds c (c.closeIdle now minIdle) opened := by
  refine ⟨(c.closeIdle_alike now minIdle).dead, ?_⟩
  unfold Cached.closeIdle
  split_ifs
  · exact Or.inr (Or.inl rfl)
  · exact Or.inl rfl

omit [DecidableEq δ] in
theorem holds_punch (c : Cached φ δ) (pieceSize idx : Nat) (env : Cached.PunchEnv φ) :
    Holds c (c.punchPiece pieceSize idx env).1 env.opened := by
  have hopen := holds_open c env.opened
  rcases c.punchPiece_cases pieceSize idx env with
    h | ⟨-, -, -, ⟨c', io, h, hnarrow, -⟩ | ⟨fd, save, -, -, h⟩⟩ <;> rw [h]
  · exact ⟨rfl, Or.inl rfl⟩
  · refine ⟨hnarrow.keeps.dead.trans hopen.dead, ?_⟩
    rw [hnarrow.keeps.cacheFd]
    exact hopen.cacheFd
  · exact ⟨hopen.dead, hopen.cacheFd⟩

/-- **What a holder's section leaves of the flag and of the descriptor.** -/
theorem holds_run (P : Entry.Params β δ) (c : Cached φ δ) (h : sec.ofHolder = true) :
    Holds c (sec.run P c) sec.opened := by
  cases sec with
  | beginFill idx now => exact Holds.of_keepsFile (c.beginFill_keepsFile ..)
  | dropClaim idx => exact ⟨rfl, Or.inl rfl⟩
  | finishPiece idx ok len hash now => exact Holds.of_keepsFile (c.finishPiece_keepsFile ..)
  | openCache opened => exact holds_open c opened
  | stamp now => exact Holds.of_keepsFile (c.stamp_alike now).keepsHolders.keepsFile
  | beginXfer => exact ⟨rfl, Or.inl rfl⟩
  | endXfer => exact ⟨rfl, Or.inl rfl⟩
  | closeIdle now minIdle => exact holds_closeIdle c now minIdle _
  | noteOriginId id => exact Holds.of_keepsFile (c.noteOriginId_spec id).1.keepsHolders.keepsFile
  | reconcileProbe size id =>
    exact Holds.of_keepsFile (c.reconcileProbe_spec size id).1.keepsHolders.keepsFile
  | reconcileReset size id => exact Holds.of_keepsFile (c.reconcileReset_keepsFile ..).1
  | cacheFillSize fileEnd id now alloc =>
    exact Holds.of_keepsFile (c.cacheFillSize_keepsFile P.pieceSize_pos ..).1
  | growForWrite fileEnd now resized =>
    exact Holds.of_keepsFile
      ((Cached.growToLocked_spec P.pieceSize_pos c fileEnd resized).1.alike
        (Cached.stamp_alike _ now)).keeps.keepsFile
  | truncateEntry size alloc => exact Holds.of_keepsFile (c.truncateEntry_keepsFile ..).1
  | markCopy off data copied =>
    exact Holds.of_keepsFile (Cached.markCopy_keepsFile P.digest P.pieceSize off data c copied).1
  | punch idx env => exact holds_punch c P.pieceSize idx env
  | heal idx => exact Holds.of_keepsFile (c.healPiece_spec idx).1.keeps.keepsFile
  | expectedHash idx nowMs =>
    exact Holds.of_keepsFile (alike_of_manifest P c rfl).keepsHolders.keepsFile
  | landManifest gen0 read retryAt =>
    exact Holds.of_keepsFile (alike_of_manifest P c rfl).keepsHolders.keepsFile
  | loadDone => exact Holds.of_keepsFile (alike_of_manifest P c rfl).keepsHolders.keepsFile
  | publishDone snapCount =>
    exact Holds.of_keepsFile (alike_of_manifest P c rfl).keepsHolders.keepsFile
  | _ => exact absurd h (by simp [ofHolder])

/-- A section that does not stray opens nothing for a dead entry. -/
theorem cacheFd_of_not_strays (h : sec.ofHolder = true) (hc : ∀ i, c.bits.get i = false)
    (hstrays : sec.strays c = false) :
    (sec.run P c).cacheFd = c.cacheFd ∨ (sec.run P c).cacheFd = none := by
  rcases (holds_run P c h).cacheFd with hsame | hnone | ⟨hnone, hsome, heq⟩
  · exact Or.inl hsame
  · exact Or.inr hnone
  · -- only `openCache` and `punch` open, and a punch wants a mark
    cases sec with
    | openCache opened =>
      rw [heq] at hsome
      have hopen : (c.cacheFd.isNone && opened.isSome) = false := hstrays
      rw [hnone, show opened.isSome = true from hsome] at hopen
      cases hopen
    | punch idx env =>
      have hrun : run P c (.punch idx env) = c := by
        show (c.punchPiece P.pieceSize idx env).1 = c
        rw [Cached.punchPiece_unmarked hc]
      exact Or.inl (by rw [hrun])
    | _ => exact Or.inr heq

theorem opens_eq_false (h : sec.ofHolder = true) (hc : ∀ i, c.bits.get i = false)
    (hstrays : sec.strays c = false) : sec.opens P c = false := by
  unfold opens
  rcases cacheFd_of_not_strays h hc hstrays with hsame | hnone
  · rw [hsame]
    cases c.cacheFd <;> rfl
  · rw [hnone]
    exact Bool.and_false _

/-- **A dead entry stays without marks.** -/
theorem unmarked_of_dead (P : Entry.Params β δ) (h : sec.ofHolder = true) (hdead : c.dead = true)
    (hc : ∀ i, c.bits.get i = false) (i : Nat) : (sec.run P c).bits.get i = false := by
  cases hreap : sec.ofReaper with
  | false =>
    exact unmarked_run P c sec hreap (fun _ => hc) ((holds_run P c h).dead.trans hdead) i
  | true =>
    cases sec with
    | closeIdle now minIdle =>
      show (c.closeIdle now minIdle).bits.get i = false
      rw [(c.closeIdle_alike now minIdle).bits]
      exact hc i
    | stampDead => cases h
    | _ => cases hreap

/-- **What a section that strays does to files**: it saves, or cuts what its open came to. -/
theorem io_of_strays (P : Entry.Params β δ) (h : sec.strays c = true) :
    (∃ o ∈ sec.io P c, o.saves = true) ∨
      c.cacheFd = none ∧ ∃ fd, sec.opened = some fd ∧ (sec.run P c).cacheFd = some fd ∧
        .cut fd c.size ∈ sec.io P c := by
  cases sec with
  | openCache opened =>
    obtain ⟨hnone, hsome⟩ := Bool.and_eq_true_iff.mp h
    obtain ⟨fd, rfl⟩ := Option.isSome_iff_exists.mp hsome
    have hfd := Option.isNone_iff_eq_none.mp hnone
    have hopen : c.openCacheUnlocked (some fd) =
        ({ c with cacheFd := some fd }, [.cut fd c.size]) := by
      unfold Cached.openCacheUnlocked
      rw [hfd]
    refine Or.inr ⟨hfd, fd, rfl, ?_, ?_⟩
    · show (c.openCacheUnlocked (some fd)).1.cacheFd = some fd
      rw [hopen]
    · show _ ∈ (c.openCacheUnlocked (some fd)).2
      rw [hopen]
      exact List.mem_singleton_self _
  | noteOriginId id =>
    obtain ⟨hknown, hnew⟩ := Bool.and_eq_true_iff.mp h
    refine Or.inl ?_
    show ∃ o ∈ (c.noteOriginId id).2, o.saves = true
    unfold Cached.noteOriginId
    rw [hknown, hnew]
    exact ⟨_, List.mem_singleton_self _, rfl⟩
  | reconcileReset size id =>
    refine Or.inl ?_
    show ∃ o ∈ (c.reconcileReset P.pieceSize size id).2, o.saves = true
    unfold Cached.reconcileReset
    rw [if_pos (show c.differs size id = true from h)]
    exact ⟨_, List.mem_append_right _ (List.mem_singleton_self _), rfl⟩
  | cacheFillSize fileEnd id now allocated =>
    have hlt : fileEnd < c.size := of_decide_eq_true h
    refine Or.inl ?_
    show ∃ o ∈ (c.cacheFillSize P.pieceSize fileEnd id now allocated).2.1, o.saves = true
    unfold Cached.cacheFillSize
    rw [if_neg (by omega), if_pos hlt]
    split_ifs
    · exact ⟨_, List.mem_singleton_self _, rfl⟩
    · exact ⟨_, List.mem_append_right _ (List.mem_singleton_self _), rfl⟩
  | truncateEntry size allocated =>
    have hne : c.size ≠ size := of_decide_eq_true h
    refine Or.inl ?_
    show ∃ o ∈ (c.truncateEntry P.pieceSize size allocated).2.1, o.saves = true
    unfold Cached.truncateEntry
    rw [if_neg hne]
    exact ⟨_, List.mem_cons_self, rfl⟩
  | _ => cases h

end Section

namespace Isolation

/-! ## The name, its entries and their holders -/

/-- A descriptor: the file it is on, and which open it came from. -/
structure Desc where
  file : Nat
  opened : Nat
  deriving DecidableEq

/-- An operation on a file. -/
inductive FileOp where
  | create (file : Nat)
  | write (file : Nat)
  | io (o : Io Desc)

/-- The operation is on the file at the data path, `data`, or on the sidecar. -/
def FileOp.atPath (data : Option Nat) : FileOp → Bool
  | .create _ => true
  | .write file => data = some file
  | .io (.cut fd _) => data = some fd.file
  | .io (.punch fd ..) => data = some fd.file
  | .io (.save ..) => true
  | .io _ => false

/-- An operation in the log, with the flag of its entry and whether it was at a path then. -/
structure Touch where
  entry : Nat
  dead : Bool
  op : FileOp
  atPath : Bool

/-- A reference to an entry, and the descriptor the last open through it answered. -/
structure Holder where
  entry : Nat
  fd : Option Desc := none

structure World (τ δ : Type) where
  /-- The entries the name ever had, in the order they were built. -/
  entry : Nat → Cached Desc δ := fun _ => { size := 0, bits := Bitfield.init 0 }
  next : Nat := 0
  /-- The one that `files` maps the name to. -/
  table : Option Nat := none
  /-- The file at the data path. -/
  data : Option Nat := none
  files : Nat := 0
  opens : Nat := 0
  holder : τ → Option Holder := fun _ => none
  log : List Touch := []

/-- Nobody has asked for the name yet. An earlier run may have left a file. -/
def start {τ δ : Type} (left : Bool) : World τ δ :=
  { data := if left then some 0 else none, files := 1 }

namespace World

variable {τ β δ : Type}

def note (s : World τ δ) (e : Nat) (ops : List FileOp) : World τ δ :=
  { s with log := s.log ++ ops.map fun op => ⟨e, (s.entry e).dead, op, op.atPath s.data⟩ }

def setEntry (s : World τ δ) (e : Nat) (c : Cached Desc δ) : World τ δ :=
  { s with entry := Function.update s.entry e c }

/-- What an open by path comes to. -/
def reach (s : World τ δ) : Desc := ⟨s.data.getD s.files, s.opens⟩

/-- After an open by path, which makes the file if there is none. -/
def link (s : World τ δ) (opened : Bool) : World τ δ :=
  if opened then
    { s with
      data := some (s.data.getD s.files)
      files := if s.data.isNone then s.files + 1 else s.files
      opens := s.opens + 1 }
  else s

def creates (s : World τ δ) (opened : Bool) : List FileOp :=
  if opened && s.data.isNone then [.create s.files] else []

def unlink (s : World τ δ) (unlinked : Bool) : World τ δ :=
  { s with data := if unlinked then none else s.data }

variable [DecidableEq τ]

def setHolder (s : World τ δ) (t : τ) (h : Option Holder) : World τ δ :=
  { s with holder := Function.update s.holder t h }

variable [DecidableEq δ]

/-- Thread `t` runs `sec` on the entry it holds. -/
def runSection (P : Entry.Params β δ) (s : World τ δ) (t : τ) (h : Holder)
    (sec : Section Desc β δ) : World τ δ :=
  let c := s.entry h.entry
  let sec := sec.reaching s.reach
  let opened := sec.opens P c
  let ops := s.creates opened ++ (sec.io P c).map FileOp.io
  (((s.link opened).note h.entry ops).setEntry h.entry (sec.run P c)).setHolder t
    (some ⟨h.entry, sec.answer (sec.run P c) h.fd⟩)

end World

/-! ## Steps -/

inductive Act (τ β δ : Type) where
  | get (t : τ)
  /-- `getIdentified` builds an entry from the sidecar, or without. -/
  | build (t : τ) (size : Nat) (bits : Bitfield) (id : OriginId) (nowSec : Int)
  | persistDiscardedWipe (t : τ)
  | releaseFile (t : τ)
  | run (t : τ) (sec : Section Desc β δ)
  /-- The open by path works out, and its cut does not. -/
  | failedOpen (t : τ)
  /-- A `pwrite` through the descriptor that `openCache` answered. `file` is what the number
  stands for now. -/
  | write (t : τ) (file : Nat)
  | distrust
  | forget (unlinked : Bool)
  /-- Phase 3 of `reapIdle`. -/
  | reap (unlinked : Bool)

/-- `forget` and the reaper unlink the files of the name. -/
def Act.purges {τ β δ : Type} : Act τ β δ → Bool
  | .forget _ => true
  | .reap _ => true
  | _ => false

variable {τ β δ : Type} [DecidableEq τ] [DecidableEq δ]

inductive Does (P : Entry.Params β δ) (s : World τ δ) : Act τ β δ → World τ δ → Prop where
  | get {t e} (hfree : s.holder t = none) (htable : s.table = some e) :
    Does P s (.get t) (s.setHolder t (some ⟨e, none⟩))
  | build {t} (size bits id now) (hfree : s.holder t = none) (htable : s.table = none) :
    Does P s (.build t size bits id now)
      (({ s.setEntry s.next
            { size := size, bits := bits, lastAccess := now, originId := id } with
          next := s.next + 1, table := some s.next }).setHolder t (some ⟨s.next, none⟩))
  | persistDiscardedWipe {t h} (hholder : s.holder t = some h) :
    Does P s (.persistDiscardedWipe t)
      (s.note h.entry ((s.entry h.entry).persistDiscardedWipe.map FileOp.io))
  | releaseFile {t h} (hholder : s.holder t = some h) :
    Does P s (.releaseFile t) (s.setHolder t none)
  | run {t h} (sec : Section Desc β δ) (hholder : s.holder t = some h)
    (hsec : sec.ofHolder = true) : Does P s (.run t sec) (s.runSection P t h sec)
  | failedOpen {t h} (hholder : s.holder t = some h)
    (hclosed : (s.entry h.entry).cacheFd = none) :
    Does P s (.failedOpen t) ((s.link true).note h.entry (s.creates true))
  -- a descriptor that was closed under its holder may be any file's now
  | write {t h fd} (file : Nat) (hholder : s.holder t = some h) (hfd : h.fd = some fd)
    (hopen : (s.entry h.entry).cacheFd = some fd → file = fd.file) :
    Does P s (.write t file) (s.note h.entry [.write file])
  | distrust {e} (htable : s.table = some e) :
    Does P s .distrust (s.setEntry e (s.entry e).distrust.1)
  | forget {e} (unlinked : Bool) (htable : s.table = some e) :
    Does P s (.forget unlinked)
      ({ s.setEntry e (s.entry e).forget.1 with table := none }.unlink unlinked)
  | forgetNone (unlinked : Bool) (htable : s.table = none) :
    Does P s (.forget unlinked) (s.unlink unlinked)
  | reap {e} (unlinked : Bool) (htable : s.table = some e)
    (hunheld : ∀ t h, s.holder t = some h → h.entry ≠ e) :
    Does P s (.reap unlinked)
      ({ s.setEntry e (s.entry e).stampDead with table := none }.unlink unlinked)

/-- The steps that keep to their own files. A section of a dead entry does not stray, nor does a
failed open leave a file for one, nor a write through a descriptor that was closed under its holder
come to the file at the path; and what `forget` cannot unlink is not the file it leaves open. -/
def Clear (s : World τ δ) : Act τ β δ → Prop
  | .run t sec => ∀ h, s.holder t = some h → (s.entry h.entry).dead = true →
      sec.strays (s.entry h.entry) = false
  | .failedOpen t => ∀ h, s.holder t = some h → (s.entry h.entry).dead = true → s.data ≠ none
  | .write t file => ∀ h, s.holder t = some h → (s.entry h.entry).dead = true →
      (s.entry h.entry).cacheFd = h.fd ∨ s.data ≠ some file
  | .forget unlinked => unlinked = true ∨ ∀ e, s.table = some e →
      ∀ fd, (s.entry e).cacheFd = some fd → s.data ≠ some fd.file
  | _ => True

def Any (_ : World τ δ) (_ : Act τ β δ) : Prop := True

/-- A step of an allowed act. -/
def Step (P : Entry.Params β δ) (Allowed : World τ δ → Act τ β δ → Prop)
    (s s' : World τ δ) : Prop :=
  ∃ act, Allowed s act ∧ Does P s act s'

/-- **No dead entry touched what is at the paths of the name.** -/
def Isolated (s : World τ δ) : Prop := ∀ x ∈ s.log, x.dead = true → x.atPath = false

/-! ## What the log shows -/

section Log

variable {s : World τ δ} {P : Entry.Params β δ}

omit [DecidableEq τ] [DecidableEq δ] in
theorem isolated_congr {s' : World τ δ} (h : s'.log = s.log) : Isolated s' ↔ Isolated s := by
  unfold Isolated
  rw [h]

omit [DecidableEq τ] [DecidableEq δ] in
theorem isolated_note (s : World τ δ) (e : Nat) (ops : List FileOp) :
    Isolated (s.note e ops) ↔
      Isolated s ∧ ((s.entry e).dead = true → ∀ op ∈ ops, op.atPath s.data = false) := by
  have hlog : ∀ x, x ∈ (s.note e ops).log ↔
      x ∈ s.log ∨ ∃ op ∈ ops, (⟨e, (s.entry e).dead, op, op.atPath s.data⟩ : Touch) = x := by
    intro x
    rw [show (s.note e ops).log = s.log ++ _ from rfl, List.mem_append, List.mem_map]
  constructor
  · intro h
    refine ⟨fun x hx => h x ((hlog x).mpr (Or.inl hx)), fun hdead op hop => ?_⟩
    exact h _ ((hlog _).mpr (Or.inr ⟨op, hop, rfl⟩)) hdead
  · rintro ⟨hold, hnew⟩ x hx hdead
    rcases (hlog x).mp hx with hx | ⟨op, hop, rfl⟩
    · exact hold x hx hdead
    · exact hnew hdead op hop

omit [DecidableEq τ] [DecidableEq δ] in
@[simp] theorem log_link (s : World τ δ) (opened : Bool) : (s.link opened).log = s.log := by
  unfold World.link
  split_ifs <;> rfl

omit [DecidableEq τ] [DecidableEq δ] in
@[simp] theorem entry_link (s : World τ δ) (opened : Bool) :
    (s.link opened).entry = s.entry := by
  unfold World.link
  split_ifs <;> rfl

omit [DecidableEq τ] [DecidableEq δ] in
@[simp] theorem table_link (s : World τ δ) (opened : Bool) :
    (s.link opened).table = s.table := by
  unfold World.link
  split_ifs <;> rfl

omit [DecidableEq τ] [DecidableEq δ] in
@[simp] theorem next_link (s : World τ δ) (opened : Bool) : (s.link opened).next = s.next := by
  unfold World.link
  split_ifs <;> rfl

omit [DecidableEq τ] [DecidableEq δ] in
@[simp] theorem holder_link (s : World τ δ) (opened : Bool) :
    (s.link opened).holder = s.holder := by
  unfold World.link
  split_ifs <;> rfl

theorem isolated_runSection (s : World τ δ) (t : τ) (h : Holder) (sec : Section Desc β δ) :
    Isolated (s.runSection P t h sec) ↔ Isolated s ∧ ((s.entry h.entry).dead = true →
      ∀ op ∈ s.creates ((sec.reaching s.reach).opens P (s.entry h.entry)) ++
          ((sec.reaching s.reach).io P (s.entry h.entry)).map FileOp.io,
        op.atPath (s.link ((sec.reaching s.reach).opens P (s.entry h.entry))).data = false) := by
  have hnote := isolated_note (s.link ((sec.reaching s.reach).opens P (s.entry h.entry))) h.entry
    (s.creates ((sec.reaching s.reach).opens P (s.entry h.entry)) ++
      ((sec.reaching s.reach).io P (s.entry h.entry)).map FileOp.io)
  rw [isolated_congr (log_link s _), entry_link] at hnote
  exact hnote

end Log

/-! ## Invariant -/

/-- Some thread holds entry `e`. -/
def Held (s : World τ δ) (e : Nat) : Prop := ∃ t h, s.holder t = some h ∧ h.entry = e

/-- A dead entry's state, at the file the data path has. -/
structure Shut (c : Cached Desc δ) (data : Option Nat) : Prop where
  unmarked : ∀ i, c.bits.get i = false
  apart : ∀ fd, c.cacheFd = some fd → data ≠ some fd.file

/-- Dead entries that are held have no mark, and their descriptors are not on the file at the
path; files are numbered as they are made. -/
structure Apart (s : World τ δ) : Prop where
  table : ∀ e, s.table = some e → e < s.next ∧ (s.entry e).dead = false
  held : ∀ e, Held s e → e < s.next
  data : ∀ f, s.data = some f → f < s.files
  desc : ∀ e, e < s.next → ∀ fd, (s.entry e).cacheFd = some fd → fd.file < s.files
  shut : ∀ e, Held s e → (s.entry e).dead = true → Shut (s.entry e) s.data

section Pieces

variable {s : World τ δ}

omit [DecidableEq τ] [DecidableEq δ] in
theorem apart_start (left : Bool) : Apart (start left : World τ δ) where
  table := by simp [start]
  held := by
    rintro e ⟨t, h, hholder, -⟩
    cases hholder
  data f hf := by
    cases left with
    | false => cases hf
    | true => exact Option.some.inj hf ▸ Nat.one_pos
  desc e he := absurd he (Nat.not_lt_zero e)
  shut := by
    rintro e ⟨t, h, hholder, -⟩
    cases hholder

omit [DecidableEq τ] [DecidableEq δ] in
theorem Apart.note (h : Apart s) (e : Nat) (ops : List FileOp) : Apart (s.note e ops) :=
  ⟨h.table, h.held, h.data, h.desc, h.shut⟩

omit [DecidableEq δ] in
theorem held_setHolder {t : τ} {new : Option Holder} {e : Nat}
    (h : Held (s.setHolder t new) e) : Held s e ∨ ∃ h', new = some h' ∧ h'.entry = e := by
  obtain ⟨u, h', hholder, he⟩ := h
  have hu : Function.update s.holder t new u = some h' := hholder
  rcases eq_or_ne u t with rfl | hne
  · rw [Function.update_self] at hu
    exact Or.inr ⟨h', hu, he⟩
  · rw [Function.update_of_ne hne] at hu
    exact Or.inl ⟨u, h', hu, he⟩

omit [DecidableEq δ] in
/-- A new holder's entry was held before, or it is alive. -/
theorem Apart.setHolder (h : Apart s) (t : τ) {new : Option Holder}
    (hnew : ∀ h', new = some h' → Held s h'.entry ∨
      h'.entry < s.next ∧ (s.entry h'.entry).dead = false) : Apart (s.setHolder t new) where
  table := h.table
  held e he := by
    rcases held_setHolder he with hold | ⟨h', heq, rfl⟩
    · exact h.held e hold
    · exact (hnew h' heq).elim (h.held _) And.left
  data := h.data
  desc := h.desc
  shut e he hdead := by
    rcases held_setHolder he with hold | ⟨h', heq, rfl⟩
    · exact h.shut e hold hdead
    · rcases hnew h' heq with hold | ⟨-, halive⟩
      · exact h.shut _ hold hdead
      · rw [show (s.entry h'.entry).dead = true from hdead] at halive
        cases halive

omit [DecidableEq τ] [DecidableEq δ] in
theorem Apart.setEntry (h : Apart s) {e : Nat} {c : Cached Desc δ}
    (htable : s.table = some e → c.dead = false)
    (hdesc : e < s.next → ∀ fd, c.cacheFd = some fd → fd.file < s.files)
    (hshut : Held s e → c.dead = true → Shut c s.data) : Apart (s.setEntry e c) where
  table e' he' := by
    refine ⟨(h.table e' he').1, ?_⟩
    show (Function.update s.entry e c e').dead = false
    rcases eq_or_ne e' e with rfl | hne
    · rw [Function.update_self]
      exact htable he'
    · rw [Function.update_of_ne hne]
      exact (h.table e' he').2
  held := h.held
  data := h.data
  desc e' he' := by
    show ∀ fd, (Function.update s.entry e c e').cacheFd = some fd → fd.file < s.files
    rcases eq_or_ne e' e with rfl | hne
    · rw [Function.update_self]
      exact hdesc he'
    · rw [Function.update_of_ne hne]
      exact h.desc e' he'
  shut e' he' := by
    show (Function.update s.entry e c e').dead = true → Shut (Function.update s.entry e c e') s.data
    rcases eq_or_ne e' e with rfl | hne
    · rw [Function.update_self]
      exact hshut he'
    · rw [Function.update_of_ne hne]
      exact h.shut e' he'

omit [DecidableEq τ] [DecidableEq δ] in
theorem Apart.link (h : Apart s) (opened : Bool) : Apart (s.link opened) := by
  cases opened with
  | false => exact h
  | true =>
    refine ⟨h.table, h.held, fun f hf => ?_, fun e he fd hfd => ?_, fun e he hdead => ?_⟩
    · have hthere : s.data.getD s.files = f := Option.some.inj hf
      show f < if s.data.isNone then s.files + 1 else s.files
      cases hdata : s.data with
      | none =>
        rw [hdata] at hthere
        exact hthere ▸ Nat.lt_succ_self s.files
      | some f' =>
        rw [hdata] at hthere
        exact hthere ▸ h.data f' hdata
    · have hold := h.desc e he fd hfd
      show fd.file < if s.data.isNone then s.files + 1 else s.files
      split_ifs
      · exact Nat.lt_succ_of_lt hold
      · exact hold
    · have hshut := h.shut e he hdead
      refine ⟨hshut.unmarked, fun fd hfd => ?_⟩
      show some (s.data.getD s.files) ≠ some fd.file
      cases hdata : s.data with
      | none =>
        -- the file the open made is a new one
        have hlt := h.desc e (h.held e he) fd hfd
        exact fun heq => Nat.ne_of_gt hlt (Option.some.inj heq)
      | some f => exact hdata ▸ hshut.apart fd hfd

omit [DecidableEq τ] [DecidableEq δ] in
theorem Apart.unlink (h : Apart s) (unlinked : Bool) : Apart (s.unlink unlinked) := by
  cases unlinked with
  | false => exact h
  | true =>
    refine ⟨h.table, h.held, fun f hf => ?_, h.desc, fun e he hdead => ?_⟩
    · cases hf
    · exact ⟨(h.shut e he hdead).unmarked, fun fd _ => (Option.some_ne_none fd.file).symm⟩

omit [DecidableEq τ] [DecidableEq δ] in
/-- A new entry is alive, and nobody held its number. -/
theorem Apart.build (h : Apart s) (size : Nat) (bits : Bitfield) (id : OriginId) (now : Int) :
    Apart { s.setEntry s.next { size := size, bits := bits, lastAccess := now, originId := id } with
      next := s.next + 1, table := some s.next } where
  table e he := by
    obtain rfl := Option.some.inj he
    refine ⟨Nat.lt_succ_self s.next, ?_⟩
    show (Function.update s.entry s.next _ s.next).dead = false
    rw [Function.update_self]
  held e he := Nat.lt_succ_of_lt (h.held e he)
  data := h.data
  desc e he := by
    show ∀ fd, (Function.update s.entry s.next _ e).cacheFd = some fd → fd.file < s.files
    rcases eq_or_ne e s.next with rfl | hne
    · rw [Function.update_self]
      intro fd hfd
      cases hfd
    · rw [Function.update_of_ne hne]
      exact h.desc e (Nat.lt_of_le_of_ne (Nat.le_of_lt_succ he) hne)
  shut e he := by
    show (Function.update s.entry s.next _ e).dead = true →
      Shut (Function.update s.entry s.next _ e) s.data
    rw [Function.update_of_ne (Nat.ne_of_lt (h.held e he))]
    exact h.shut e he

omit [DecidableEq τ] [DecidableEq δ] in
theorem Apart.untable (h : Apart s) : Apart { s with table := none } :=
  ⟨fun e he => absurd he (Option.some_ne_none e).symm, h.held, h.data, h.desc, h.shut⟩

omit [DecidableEq τ] [DecidableEq δ] in
/-- What opens by path comes to is on a file that has a number afterwards. -/
theorem reach_lt (h : Apart s) : s.reach.file < (s.link true).files := by
  have hlink := h.link true
  exact hlink.data s.reach.file rfl

omit [DecidableEq τ] in
/-- A descriptor after a section is the one before, or what the open came to. -/
theorem cacheFd_run {P : Entry.Params β δ} {c : Cached Desc δ} {sec : Section Desc β δ} {fd : Desc}
    (hsec : sec.ofHolder = true) (hfd : ((sec.reaching s.reach).run P c).cacheFd = some fd) :
    c.cacheFd = some fd ∨ (sec.reaching s.reach).opens P c = true ∧ fd = s.reach := by
  have hreach : (sec.reaching s.reach).ofHolder = true := by rwa [Section.ofHolder_reaching]
  rcases (Section.holds_run P c hreach).cacheFd with hsame | hnone | ⟨hnone, hsome, hopened⟩
  · exact Or.inl (hsame ▸ hfd)
  · rw [hnone] at hfd
    cases hfd
  · refine Or.inr ⟨?_, ?_⟩
    · unfold Section.opens
      rw [hnone, hsome]
      rfl
    · rw [Section.opened_reaching, hfd] at hopened
      obtain ⟨_, -, heq⟩ := Option.map_eq_some_iff.mp hopened.symm
      exact heq.symm

/-- **A section on an entry that is alive, or that does not stray.** -/
theorem Apart.runSection {P : Entry.Params β δ} (hs : Apart s) {t : τ} {h : Holder}
    {sec : Section Desc β δ} (hholder : s.holder t = some h) (hsec : sec.ofHolder = true)
    (hclear : (s.entry h.entry).dead = true → sec.strays (s.entry h.entry) = false) :
    Apart (s.runSection P t h sec) := by
  have hheld : Held s h.entry := ⟨t, h, hholder, rfl⟩
  have hreach : (sec.reaching s.reach).ofHolder = true := by rwa [Section.ofHolder_reaching]
  have hdead := (Section.holds_run P (s.entry h.entry) hreach).dead
  have hlink := hs.link ((sec.reaching s.reach).opens P (s.entry h.entry))
  have hdesc : ∀ fd, ((sec.reaching s.reach).run P (s.entry h.entry)).cacheFd = some fd →
      fd.file < (s.link ((sec.reaching s.reach).opens P (s.entry h.entry))).files := by
    intro fd hfd
    rcases cacheFd_run hsec hfd with hold | ⟨hopens, rfl⟩
    · exact hlink.desc h.entry (by simpa using hs.held _ hheld) fd (by rwa [entry_link])
    · rw [hopens]
      exact reach_lt hs
  have hshut : (s.entry h.entry).dead = true →
      Shut ((sec.reaching s.reach).run P (s.entry h.entry))
        (s.link ((sec.reaching s.reach).opens P (s.entry h.entry))).data := by
    intro hwas
    have hold := hs.shut _ hheld hwas
    have hstrays : (sec.reaching s.reach).strays (s.entry h.entry) = false := by
      rw [Section.strays_reaching]
      exact hclear hwas
    have hopens := Section.opens_eq_false (P := P) hreach hold.unmarked hstrays
    rw [hopens]
    refine ⟨Section.unmarked_of_dead P hreach hwas hold.unmarked, fun fd hfd => ?_⟩
    rcases cacheFd_run hsec hfd with hfd | ⟨hopened, -⟩
    · exact hold.apart fd hfd
    · rw [hopens] at hopened
      cases hopened
  refine ((hlink.note h.entry _).setEntry (fun htable => ?_) (fun _ => hdesc)
    fun _ hnow => hshut (hdead ▸ hnow)).setHolder t fun h' hh' => Or.inl ?_
  · have hold : s.table = some h.entry := (table_link s _).symm.trans htable
    exact hdead.trans (hs.table _ hold).2
  · obtain rfl := Option.some.inj hh'
    exact ⟨t, h, (congrFun (holder_link s _) t).trans hholder, rfl⟩

end Pieces

variable {P : Entry.Params β δ} {s s' : World τ δ} {act : Act τ β δ}

/-- **One step.** -/
theorem Apart.step (h : Apart s) (hdoes : Does P s act s') (hclear : Clear s act) : Apart s' := by
  cases hdoes with
  | get hfree htable =>
    refine h.setHolder _ fun h' hh' => Or.inr ?_
    obtain rfl := Option.some.inj hh'
    exact h.table _ htable
  | build size bits id now hfree htable =>
    refine (h.build size bits id now).setHolder _ fun h' hh' => Or.inr ?_
    obtain rfl := Option.some.inj hh'
    exact (h.build size bits id now).table _ rfl
  | persistDiscardedWipe hholder => exact h.note ..
  | releaseFile hholder => exact h.setHolder _ fun h' hh' => by cases hh'
  | run sec hholder hsec => exact h.runSection hholder hsec fun hdead => hclear _ hholder hdead
  | failedOpen hholder hclosed => exact (h.link true).note ..
  | write file hholder hfd hopen => exact h.note ..
  | @distrust e htable =>
    have halive := (h.table e htable).2
    refine h.setEntry (fun _ => halive) (fun hlt => h.desc e hlt) fun _ hdead => ?_
    rw [show (s.entry e).dead = true from hdead] at halive
    cases halive
  | @forget e unlinked htable =>
    have hunlinked := h.untable.unlink unlinked
    refine hunlinked.setEntry (fun hnone => ?_) (fun hlt => h.desc e hlt) fun _ _ =>
      ⟨fun i => Bitfield.get_wipe .., fun fd hfd => ?_⟩
    · cases hnone
    · show (if unlinked then none else s.data) ≠ some fd.file
      rcases hclear with rfl | hapart
      · exact (Option.some_ne_none fd.file).symm
      · split_ifs
        · exact (Option.some_ne_none fd.file).symm
        · exact hapart e htable fd hfd
  | forgetNone unlinked htable => exact h.unlink unlinked
  | @reap e unlinked htable hunheld =>
    have hunlinked := h.untable.unlink unlinked
    refine hunlinked.setEntry (fun hnone => ?_) (fun hlt => h.desc e hlt) fun hheld _ => ?_
    · cases hnone
    · obtain ⟨t, h', hholder, he⟩ := hheld
      exact absurd he (hunheld t h' hholder)

/-! ## One step and the log -/

omit [DecidableEq τ] [DecidableEq δ] in
theorem atPath_of_saves {o : Io Desc} {data : Option Nat} (h : o.saves = true) :
    (FileOp.io o).atPath data = true := by
  cases o with
  | save size bits id durable => rfl
  | _ => cases h

/-- **A section of a dead entry keeps to its own file exactly if it does not stray.** -/
theorem isolated_runSection_iff (hs : Apart s) {t : τ} {h : Holder} {sec : Section Desc β δ}
    (hiso : Isolated s) (hholder : s.holder t = some h) (hsec : sec.ofHolder = true) :
    Isolated (s.runSection P t h sec) ↔
      ((s.entry h.entry).dead = true → sec.strays (s.entry h.entry) = false) := by
  have hreach : (sec.reaching s.reach).ofHolder = true := by rwa [Section.ofHolder_reaching]
  rw [isolated_runSection, ← Section.strays_reaching _ s.reach]
  refine ⟨fun hrun hdead => ?_, fun hclear => ⟨hiso, fun hdead op hop => ?_⟩⟩
  · by_contra hstrays
    rw [Bool.not_eq_false] at hstrays
    have hclean := hrun.2 hdead
    rcases Section.io_of_strays P hstrays with ⟨o, ho, hsaves⟩ | ⟨hnone, fd, hopened, hfd, hcut⟩
    · have hat := hclean _ (List.mem_append_right _ (List.mem_map_of_mem ho))
      rw [atPath_of_saves hsaves] at hat
      cases hat
    · have hat := hclean _ (List.mem_append_right _ (List.mem_map_of_mem hcut))
      have hopens : (sec.reaching s.reach).opens P (s.entry h.entry) = true := by
        unfold Section.opens
        rw [hnone, hfd]
        rfl
      rw [Section.opened_reaching] at hopened
      obtain ⟨_, -, rfl⟩ := Option.map_eq_some_iff.mp hopened
      rw [hopens] at hat
      exact of_decide_eq_false hat rfl
  · have hold := hs.shut _ ⟨t, h, hholder, rfl⟩ hdead
    have hstrays := hclear hdead
    rw [Section.opens_eq_false hreach hold.unmarked hstrays] at hop ⊢
    obtain ⟨o, ho, rfl⟩ := List.mem_map.mp hop
    obtain ⟨fd, n, rfl, hfd⟩ := Section.ownCuts_io hreach hdead hold.unmarked hstrays o ho
    exact decide_eq_false (hold.apart fd hfd)

/-- **One step**: a run stays isolated if it is clear, and otherwise it does not, unless what is not
clear is a purge. -/
theorem isolated_step_iff (hs : Apart s) (hiso : Isolated s) (hdoes : Does P s act s')
    (hpurges : act.purges = false) : Isolated s' ↔ Clear s act := by
  have hsame : ∀ {s' : World τ δ} {C : Prop}, s'.log = s.log → C → (Isolated s' ↔ C) :=
    fun hlog hC => ⟨fun _ => hC, fun _ => (isolated_congr hlog).mpr hiso⟩
  cases hdoes with
  | get hfree htable => exact hsame rfl trivial
  | build size bits id now hfree htable => exact hsame rfl trivial
  | @persistDiscardedWipe t h hholder =>
    refine ⟨fun _ => trivial, fun _ => (isolated_note ..).mpr ⟨hiso, fun hdead op hop => ?_⟩⟩
    unfold Cached.persistDiscardedWipe at hop
    rw [if_pos hdead] at hop
    cases hop
  | releaseFile hholder => exact hsame rfl trivial
  | @run t h sec hholder hsec =>
    rw [isolated_runSection_iff hs hiso hholder hsec]
    refine ⟨fun hrun h' hh' hdead => ?_, fun hclear hdead => hclear h hholder hdead⟩
    obtain rfl := Option.some.inj (hholder.symm.trans hh')
    exact hrun hdead
  | @failedOpen t h hholder hclosed =>
    rw [isolated_note, isolated_congr (log_link s true), entry_link]
    refine ⟨fun hrun h' hh' hdead hnone => ?_, fun hclear => ⟨hiso, fun hdead op hop => ?_⟩⟩
    · obtain rfl := Option.some.inj (hholder.symm.trans hh')
      have hmade : FileOp.create s.files ∈ s.creates true := by
        unfold World.creates
        rw [hnone]
        exact List.mem_singleton_self _
      exact Bool.noConfusion (hrun.2 hdead _ hmade)
    · obtain ⟨f, hf⟩ := Option.ne_none_iff_exists'.mp (hclear h hholder hdead)
      unfold World.creates at hop
      rw [hf] at hop
      cases hop
  | @write t h fd file hholder hfd hopen =>
    rw [isolated_note]
    refine ⟨fun hrun h' hh' hdead => ?_, fun hclear => ⟨hiso, fun hdead op hop => ?_⟩⟩
    · obtain rfl := Option.some.inj (hholder.symm.trans hh')
      exact Or.inr (of_decide_eq_false (hrun.2 hdead _ (List.mem_singleton_self _)))
    · obtain rfl := List.mem_singleton.mp hop
      refine decide_eq_false ?_
      rcases hclear h hholder hdead with hcurrent | hother
      · rw [hfd] at hcurrent
        rw [hopen hcurrent]
        exact (hs.shut _ ⟨t, h, hholder, rfl⟩ hdead).apart fd hcurrent
      · exact hother
  | distrust htable => exact hsame rfl trivial
  | forget unlinked htable => cases hpurges
  | forgetNone unlinked htable => cases hpurges
  | reap unlinked htable hunheld => cases hpurges

theorem isolated_purge (hiso : Isolated s) (hdoes : Does P s act s') (hpurges : act.purges = true) :
    Isolated s' := by
  cases hdoes with
  | forget unlinked htable => exact hiso
  | forgetNone unlinked htable => exact hiso
  | reap unlinked htable hunheld => exact hiso
  | _ => cases hpurges

omit [DecidableEq τ] [DecidableEq δ] in
theorem isolated_start (left : Bool) : Isolated (start left : World τ δ) := by
  intro x hx
  cases hx

/-- **A run stays isolated exactly as long as its steps are clear.** Whatever threads do with the
entries of a name, forgotten ones among them, no dead entry creates, cuts, punches or writes the
file at the data path, and none writes the sidecar; and the next step that is not clear is one where
a dead entry does, unless it is a purge that leaves the entry's open file behind. -/
theorem isolated_of_run {left : Bool} (hrun : Run (Step P Clear) Always (start left) s) :
    Isolated s ∧ ∀ act s', Does P s act s' → act.purges = false → (Isolated s' ↔ Clear s act) := by
  have hstep : ∀ s s' : World τ δ, Apart s ∧ Isolated s → Step P Clear s s' → Always s s' →
      Apart s' ∧ Isolated s' := by
    rintro s s' ⟨hs, hiso⟩ ⟨act, hclear, hdoes⟩ -
    refine ⟨hs.step hdoes hclear, ?_⟩
    cases hpurges : act.purges with
    | false => exact (isolated_step_iff hs hiso hdoes hpurges).mpr hclear
    | true => exact isolated_purge hiso hdoes hpurges
  obtain ⟨hs, hiso⟩ := hrun.invariant hstep ⟨apart_start left, isolated_start left⟩
  exact ⟨hiso, fun act s' hdoes hpurges => isolated_step_iff hs hiso hdoes hpurges⟩

/-! ## A forgotten entry and its successor -/

section Successor

open Entry (smallPieces)

theorem then_act {Allowed : World τ δ → Act τ β δ → Prop} {s₀ : World τ δ}
    (hrun : Run (Step P Allowed) Always s₀ s) (hdoes : Does P s act s') (hallowed : Allowed s act) :
    Run (Step P Allowed) Always s₀ s' :=
  hrun.then ⟨act, hallowed, hdoes⟩

/-- A late write of a dead entry, to the file that went with it. -/
theorem isolated_of_run_late : ∃ s : World Bool (List UInt8),
    Run (Step smallPieces Clear) Always (start true) s ∧ s.table = some 1 ∧
      s.log.getLast? = some ⟨0, true, .write 0, false⟩ ∧ Isolated s := by
  have hstart : Run (Step smallPieces Clear) Always (start true : World Bool (List UInt8))
    (start true) := Run.refl _
  have hbuilt := then_act hstart (.build (t := false) 8 (Bitfield.init 2) {} 0 rfl rfl) trivial
  have hopened := then_act hbuilt (.run (t := false) (.openCache (some ⟨0, 0⟩)) rfl rfl)
    fun h hh hdead => by
      obtain rfl := Option.some.inj (hh : some (⟨0, none⟩ : Holder) = some h)
      exact absurd hdead Bool.false_ne_true
  have hforgotten := then_act hopened (.forget true rfl) (Or.inl rfl)
  have hrebuilt := then_act hforgotten
    (.build (t := true) 12 (Bitfield.init 3) {} 0 rfl rfl) trivial
  have hwritten := then_act hrebuilt (.write (t := false) 0 rfl rfl fun _ => rfl) fun h hh _ => by
    obtain rfl := Option.some.inj (hh : some (⟨0, some ⟨0, 0⟩⟩ : Holder) = some h)
    exact Or.inl rfl
  exact ⟨_, hwritten, rfl, rfl, (isolated_of_run hwritten).1⟩

/-- **A write-through on an entry that is forgotten after its size step.** The name is built again
and its file opened and written; the copy of the write-through then opens the same file by path,
cuts it to the size of the dead entry and writes into it. -/
theorem copy_trespasses : ∃ s : World Bool (List UInt8),
    Run (Step smallPieces Any) Always (start false) s ∧ (s.entry 0).dead = true ∧
      s.table = some 1 ∧ (s.entry 1).cacheFd = some ⟨1, 0⟩ ∧
      s.log.drop 3 = [⟨0, true, .io (.cut ⟨1, 1⟩ 8), true⟩, ⟨0, true, .write 1, true⟩] ∧
      ¬ Isolated s := by
  have hrun : Run (Step smallPieces Any) Always (start false : World Bool (List UInt8)) _ :=
    ((((((((Run.refl _).then
      ⟨_, trivial, .build (t := false) 8 (Bitfield.init 2) {} 0 rfl rfl⟩).then
      ⟨_, trivial, .run (t := false) (.cacheFillSize 8 {} 0 true) rfl rfl⟩).then
      ⟨_, trivial, .forget true rfl⟩).then
      ⟨_, trivial, .build (t := true) 12 (Bitfield.init 3) {} 0 rfl rfl⟩).then
      ⟨_, trivial, .run (t := true) (.openCache (some ⟨0, 0⟩)) rfl rfl⟩).then
      ⟨_, trivial, .write (t := true) 1 rfl rfl fun _ => rfl⟩).then
      ⟨_, trivial, .run (t := false) (.openCache (some ⟨0, 0⟩)) rfl rfl⟩).then
      ⟨_, trivial, .write (t := false) 1 rfl rfl fun _ => rfl⟩
  refine ⟨_, hrun, rfl, rfl, rfl, rfl, fun hiso => ?_⟩
  exact Bool.noConfusion (hiso ⟨0, true, .write 1, true⟩
    (List.mem_append_right _ (List.mem_singleton_self _)) rfl)

end Successor

end Isolation

end ModelFs
