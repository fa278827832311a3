import ModelFs.Disk
import ModelFs.Invalidate
import ModelFs.Lib.Machine

/-!
# Freeing cached bytes

`punchPiece` on a live entry, `punchDisk` and `punchDiskUnclaimed` on a path without one, between
power losses. The three clear the mark, save the cleared field durably, and only then cut the
hole. A disk punch reads the sidecar before it takes `store.mu` and goes by the purge epoch
whether what it read still holds, and so does a builder; the world keeps what each of them has
read (`samples`), and a sample may be used at any later time, and more than once.

A step is an operation with everything it does to the files, in order. Power can go after any
part of it, and takes the entry and the samples along. An `fsync` is taken to settle the name of
its file too (`SettlesNames`): otherwise an unlinked sidecar could come back after it. Between the
punches the entry is built from the sidecar, narrowed, distrusted and purged; nothing refills a
piece. `punched` is history: the pieces of which a hole was cut.

* `unmarked_of_run` — **write-ahead.** At no instant of any run is there a sidecar that can
  survive and shows a piece punched before, and a `punchPiece` that fails leaves the marks and the
  piece's bytes as they were.
-/

namespace ModelFs

namespace Punch

variable {φ δ κ : Type}

/-- What a builder or a disk punch has read: the epoch it sampled before, the size it asked with,
and the load. -/
structure Sample where
  epoch0 : Nat
  size : UInt64
  loaded : LoadedBits

/-- What the outside answers a disk punch behind its read. -/
structure DiskEnv where
  /-- There was memory and a path for the cleared field. -/
  encoded : Bool
  saved : SaveResult
  punched : Bool

/-- The end both disk punches share: the cleared field for good, and then the hole. -/
def saveThenPunch (blob : List UInt8) (off len : Nat) (env : DiskEnv) : List (DiskOp κ) × Bool :=
  let save := writeFileFull blob true env.saved
  if !env.saved.ok then (save, false)
  else if !Cached.punchHole len env.punched then (save, false)
  else (save ++ [.punchHole off len], true)

/-- `punchDiskUnclaimed`. `live` is `files.contains(rel)`. -/
def punchDiskUnclaimed (pieceSize : UInt32) (purgeEpoch : Nat) (live : Bool) (s : Sample)
    (env : DiskEnv) : List (DiskOp κ) × Bool :=
  if s.size = 0 then ([], false)
  else if !env.encoded then ([], false)
  else if live then ([], false)
  else if purgeEpoch ≠ s.epoch0 then ([], false)
  else saveThenPunch (s.loaded.bits.encodeTo pieceSize s.size) 0 s.size.toNat env

/-- `punchDisk` from its read on. What ends it before (a pin, no data file, no size) touches
nothing. -/
def punchDisk (pieceSize : UInt32) (purgeEpoch : Nat) (live : Bool) (s : Sample) (env : DiskEnv) :
    List (DiskOp κ) × Bool :=
  match s.loaded.bits.lastSet with
  | none => punchDiskUnclaimed pieceSize purgeEpoch live s env
  | some idx =>
    let off := Piece.offset idx pieceSize.toNat
    let ln := Piece.len s.size.toNat idx pieceSize.toNat
    let cleared := s.loaded.bits.clear idx
    if !env.encoded then ([], false)
    else if live then ([], false)
    else if purgeEpoch ≠ s.epoch0 then ([], false)
    else saveThenPunch (saveBits pieceSize s.size cleared s.loaded.id) off ln env

/-- The entry a builder makes of what it read. -/
def built (s : Sample) (nowSec : Int) : Cached φ δ where
  size := s.size.toNat
  bits := s.loaded.bits
  lastAccess := nowSec
  originId := s.loaded.id

structure World (φ δ κ : Type) where
  entry : Option (Cached φ δ)
  disk : Disk κ
  purgeEpoch : Nat := 0
  samples : List Sample := []
  punched : Set Nat := ∅

/-- The pieces an operation cuts a hole into. -/
def holed (pieceSize : Nat) : DiskOp κ → Set Nat
  | .punchHole off len =>
    {i | off < Piece.offset i pieceSize + pieceSize ∧ Piece.offset i pieceSize < off + len}
  | _ => ∅

namespace World

def after (pieceSize : Nat) (w : World φ δ κ) (o : DiskOp κ) : World φ δ κ :=
  { w with disk := w.disk.step o, punched := w.punched ∪ holed pieceSize o }

def afterAll (pieceSize : Nat) (w : World φ δ κ) (ops : List (DiskOp κ)) : World φ δ κ :=
  ops.foldl (after pieceSize) w

/-- An operation is over: what it did to the files, and what it leaves in memory. -/
def leave (pieceSize : Nat) (w : World φ δ κ) (ops : List (DiskOp κ)) (entry : Option (Cached φ δ))
    (purgeEpoch : Nat) : World φ δ κ :=
  { w.afterAll pieceSize ops with entry := entry, purgeEpoch := purgeEpoch }

/-- Power is back: of the files something survived, of the process nothing. -/
def restart (w : World φ δ κ) (sidecar : Option (List UInt8)) (data : SparseFile κ) :
    World φ δ κ where
  entry := none
  disk := { w.disk with sidecar := .settled sidecar, data := .settled data }
  punched := w.punched

/-- No hole yet, and nobody between a read and its use. -/
def Fresh (w : World φ δ κ) : Prop := w.punched = ∅ ∧ w.samples = []

end World

/-- One operation, with what it does to the files. -/
inductive Step (pieceSize : UInt32) : World φ δ κ → List (DiskOp κ) → World φ δ κ → Prop
  | punchPiece (w : World φ δ κ) (c : Cached φ δ) (idx : Nat) (env : Cached.PunchEnv φ)
      (result : Bool → SaveResult) (hlive : w.entry = some c)
      (hsaved : env.saved = (result true).ok) :
      Step pieceSize w (diskOps pieceSize result (c.punchPiece pieceSize.toNat idx env).2.1)
        (w.leave pieceSize.toNat
          (diskOps pieceSize result (c.punchPiece pieceSize.toNat idx env).2.1)
          (some (c.punchPiece pieceSize.toNat idx env).1) w.purgeEpoch)
  /-- `punchDisk` with a sample, and `punchDiskUnclaimed`. -/
  | punchDisk (w : World φ δ κ) (s : Sample) (env : DiskEnv) (hread : s ∈ w.samples)
      (r : List (DiskOp κ) × Bool)
      (hr : punchDisk pieceSize w.purgeEpoch w.entry.isSome s env = r) :
      Step pieceSize w r.1
        (w.leave pieceSize.toNat r.1 w.entry
          (if r.2 then w.purgeEpoch + 1 else w.purgeEpoch))
  /-- The read of a builder or a disk punch that sampled `epoch0` before. -/
  | read (w : World φ δ κ) (epoch0 : Nat) (size : UInt64) (originId : OriginId)
      (hsampled : epoch0 ≤ w.purgeEpoch) :
      Step pieceSize w []
        { w with samples :=
            ⟨epoch0, size, loadBits pieceSize (readContent w.disk.sidecar.now) size originId⟩ ::
              w.samples }
  /-- A builder inserts its entry. -/
  | insert (w : World φ δ κ) (s : Sample) (nowSec : Int) (hread : s ∈ w.samples)
      (hmiss : w.entry = none) (hepoch : w.purgeEpoch = s.epoch0) :
      Step pieceSize w [] (w.leave pieceSize.toNat [] (some (built s nowSec)) w.purgeEpoch)
  /-- Another section of the entry: it adds no mark, and saves. -/
  | narrow (w : World φ δ κ) (c c' : Cached φ δ) (durable : Bool) (result : Bool → SaveResult)
      (hlive : w.entry = some c) (hnarrow : Cached.Narrowed c c') :
      Step pieceSize w (diskOps pieceSize result [c'.saveBits durable])
        (w.leave pieceSize.toNat (diskOps pieceSize result [c'.saveBits durable]) (some c')
          w.purgeEpoch)
  | distrust (w : World φ δ κ) :
      Step pieceSize w [.sidecar none]
        (w.leave pieceSize.toNat [.sidecar none] (w.entry.map fun c => c.distrust.1)
          (w.purgeEpoch + 1))
  /-- `forget`, and the last phase of `reapIdle`. -/
  | purge (w : World φ δ κ) :
      Step pieceSize w [.unlinkData, .sidecar none]
        (w.leave pieceSize.toNat [.unlinkData, .sidecar none] none (w.purgeEpoch + 1))

/-- An operation, or a power loss after a part of one. -/
inductive Move (pieceSize : UInt32) : World φ δ κ → World φ δ κ → Prop
  | finish {w w' : World φ δ κ} {ops : List (DiskOp κ)} (h : Step pieceSize w ops w') :
      Move pieceSize w w'
  | powerLoss {w w' : World φ δ κ} {ops : List (DiskOp κ)} (h : Step pieceSize w ops w') (k : Nat)
      (sidecar : Option (List UInt8)) (data : SparseFile κ)
      (hsidecar : sidecar ∈ (w.afterAll pieceSize.toNat (ops.take k)).disk.sidecar.may)
      (hdata : data ∈ (w.afterAll pieceSize.toNat (ops.take k)).disk.data.may) :
      Move pieceSize w ((w.afterAll pieceSize.toNat (ops.take k)).restart sidecar data)

/-- No sidecar that can survive shows a punched piece. -/
def Unmarked (pieceSize : UInt32) (w : World φ δ κ) : Prop :=
  ∀ i ∈ w.punched, w.disk.sidecar.Survives (Unmarks pieceSize i)

/-! ## What an operation list does to the world -/

section AfterAll

variable (pieceSize : Nat) (w : World φ δ κ)

@[simp] theorem afterAll_nil : w.afterAll pieceSize [] = w := rfl

@[simp] theorem afterAll_cons (o : DiskOp κ) (ops : List (DiskOp κ)) :
    w.afterAll pieceSize (o :: ops) = (w.after pieceSize o).afterAll pieceSize ops := rfl

theorem afterAll_append (ops ops' : List (DiskOp κ)) :
    w.afterAll pieceSize (ops ++ ops') = (w.afterAll pieceSize ops).afterAll pieceSize ops' :=
  List.foldl_append ..

theorem disk_afterAll (ops : List (DiskOp κ)) :
    (w.afterAll pieceSize ops).disk = w.disk.run ops := by
  induction ops generalizing w with
  | nil => rfl
  | cons o ops ih => exact ih (w.after pieceSize o)

theorem settlesNames_afterAll (h : w.disk.SettlesNames) (ops : List (DiskOp κ)) :
    (w.afterAll pieceSize ops).disk.SettlesNames := by
  rw [disk_afterAll]
  exact h.run ops

/-- The process does not see what is done to the files. -/
theorem afterAll_process (ops : List (DiskOp κ)) :
    (w.afterAll pieceSize ops).entry = w.entry ∧
      (w.afterAll pieceSize ops).purgeEpoch = w.purgeEpoch ∧
      (w.afterAll pieceSize ops).samples = w.samples := by
  induction ops generalizing w with
  | nil => exact ⟨rfl, rfl, rfl⟩
  | cons o ops ih => exact ih (w.after pieceSize o)

end AfterAll

/-- The operation cuts no hole and writes no sidecar that shows a piece of `pieces`. -/
def Quiet (pieceSize : UInt32) (pieces : Set Nat) : DiskOp κ → Prop
  | .sidecar content => ∀ i ∈ pieces, Unmarks pieceSize i content
  | .punchHole _ _ => False
  | _ => True

section Quiet

variable {pieceSize : UInt32} {w : World φ δ κ} {ops : List (DiskOp κ)}

theorem Quiet.mono {pieces pieces' : Set Nat} (hsub : pieces' ⊆ pieces) {o : DiskOp κ}
    (h : Quiet pieceSize pieces o) : Quiet pieceSize pieces' o := by
  cases o with
  | sidecar content => exact fun i hi => h i (hsub hi)
  | punchHole off len => exact h
  | _ => trivial

theorem punched_after_quiet {o : DiskOp κ} {pieces : Set Nat} (h : Quiet pieceSize pieces o)
    (n : Nat) : (w.after n o).punched = w.punched := by
  have hnone : holed n o = ∅ := by
    cases o with
    | punchHole off len => exact h.elim
    | _ => rfl
  rw [World.after, hnone, Set.union_empty]

theorem after_quiet {o : DiskOp κ} (hnames : w.disk.SettlesNames) (hsafe : Unmarked pieceSize w)
    (h : Quiet pieceSize w.punched o) : Unmarked pieceSize (w.after pieceSize.toNat o) := by
  intro i hi
  rw [punched_after_quiet h] at hi
  cases o with
  | sidecar content => exact (hsafe i hi).replace (h i hi)
  | fsyncSidecar =>
    show (w.disk.fsync w.disk.sidecar).Survives (Unmarks pieceSize i)
    rw [hnames]
    exact (hsafe i hi).sync
  | punchHole off len => exact h.elim
  | pwrite off cells => exact hsafe i hi
  | ftruncate len => exact hsafe i hi
  | unlinkData => exact hsafe i hi

/-- A quiet list leaves every survivor without the punched pieces. -/
theorem afterAll_quiet (hnames : w.disk.SettlesNames) (hsafe : Unmarked pieceSize w)
    (h : ∀ o ∈ ops, Quiet pieceSize w.punched o) :
    (w.afterAll pieceSize.toNat ops).punched = w.punched ∧
      Unmarked pieceSize (w.afterAll pieceSize.toNat ops) := by
  induction ops generalizing w with
  | nil => exact ⟨rfl, hsafe⟩
  | cons o ops ih =>
    have hquiet := h o List.mem_cons_self
    have hpunched := punched_after_quiet (w := w) hquiet pieceSize.toNat
    have hrest := ih (hnames.run [o]) (after_quiet hnames hsafe hquiet) fun o' ho' =>
      hpunched ▸ h o' (List.mem_cons_of_mem o ho')
    exact ⟨hrest.1.trans hpunched, hrest.2⟩

/-- So does every part of it. -/
theorem unmarked_take (hnames : w.disk.SettlesNames) (hsafe : Unmarked pieceSize w)
    (h : ∀ o ∈ ops, Quiet pieceSize w.punched o) (k : Nat) :
    Unmarked pieceSize (w.afterAll pieceSize.toNat (ops.take k)) :=
  (afterAll_quiet hnames hsafe fun o ho => h o (List.mem_of_mem_take ho)).2

/-- **The hole.** It comes last, over a sidecar that cannot show its pieces any more. -/
theorem unmarked_take_punch {off len : Nat} (hnames : w.disk.SettlesNames)
    (hsafe : Unmarked pieceSize w) (h : ∀ o ∈ ops, Quiet pieceSize w.punched o)
    (hnew : ∀ i ∈ holed (κ := κ) pieceSize.toNat (.punchHole off len),
      (w.disk.run ops).sidecar.Survives (Unmarks pieceSize i)) (k : Nat) :
    Unmarked pieceSize
      (w.afterAll pieceSize.toNat ((ops ++ [DiskOp.punchHole off len]).take k)) := by
  by_cases hk : k ≤ ops.length
  · rw [List.take_append_of_le_length hk]
    exact unmarked_take hnames hsafe h k
  · rw [List.take_of_length_le (by rw [List.length_append, List.length_singleton]; omega),
      afterAll_append]
    obtain ⟨hpunched, hsafe'⟩ := afterAll_quiet hnames hsafe h
    intro i hi
    have hsame : ((w.afterAll pieceSize.toNat ops).afterAll pieceSize.toNat
        [.punchHole off len]).disk.sidecar = (w.disk.run ops).sidecar := by
      rw [disk_afterAll, disk_afterAll]
      rfl
    rw [hsame]
    rcases hi with hold | hnewHole
    · rw [← disk_afterAll pieceSize.toNat]
      exact hsafe' i hold
    · exact hnew i hnewHole

end Quiet

/-! ## Saves of a field without the marks -/

section Saves

variable {pieceSize : UInt32} {blob : List UInt8} {i : Nat}

theorem quiet_writeFileFull {pieces : Set Nat}
    (h : ∀ i ∈ pieces, ∀ n, Unmarks pieceSize i (some (blob.take n))) (durable : Bool)
    (result : SaveResult) :
    ∀ o ∈ writeFileFull (κ := κ) blob durable result, Quiet pieceSize pieces o := by
  intro o ho
  rcases mem_writeFileFull ho with ⟨k, rfl⟩ | rfl
  · exact fun i hi => h i hi k
  · trivial

theorem now_truncWrite (d : Disk κ) (blob : List UInt8) (n : Nat) :
    (d.run (truncWrite blob n)).sidecar.now = some (blob.take n) := by
  rw [truncWrite, List.range_succ, List.map_append, Disk.run_append]
  rfl

/-- A durable save that went well leaves its blob alone. -/
theorem survives_writeFileFull {d : Disk κ} (hnames : d.SettlesNames)
    {p : Option (List UInt8) → Prop} (h : p (some blob)) :
    (d.run (writeFileFull blob true .done)).sidecar.Survives p := by
  have hnow := now_truncWrite d blob blob.length
  rw [List.take_length] at hnow
  rw [writeFileFull, Disk.run_append]
  generalize hwritten : d.run (truncWrite blob blob.length) = d' at hnow ⊢
  have hnames' : d'.SettlesNames := hwritten ▸ hnames.run _
  show (d'.fsync d'.sidecar).Survives p
  rw [hnames']
  exact Stable.survives_sync.mpr (hnow ▸ h)

end Saves

/-! ## The three punches -/

section Punches

variable {pieceSize : UInt32} {pieces : Set Nat}

/-- The entry's field says that the pieces are missing. -/
def EntryUnmarks (pieceSize : UInt32) (pieces : Set Nat) (c : Cached φ δ) : Prop :=
  ∀ i ∈ pieces, FieldUnmarks pieceSize (UInt64.ofNat c.size) c.bits i

theorem EntryUnmarks.narrow {c c' : Cached φ δ} (h : EntryUnmarks pieceSize pieces c)
    (hsize : c'.size = c.size) (hnbits : c'.bits.nbits = c.bits.nbits)
    (hget : ∀ i, c'.bits.get i = true → c.bits.get i = true) :
    EntryUnmarks pieceSize pieces c' := by
  intro i hi
  rw [hsize]
  exact (h i hi).narrow hnbits (hget i)

theorem quiet_saveBits {c : Cached φ δ} (h : EntryUnmarks pieceSize pieces c) (durable : Bool)
    (result : Bool → SaveResult) :
    ∀ o ∈ diskOps (κ := κ) pieceSize result [c.saveBits durable], Quiet pieceSize pieces o := by
  have hblob := quiet_writeFileFull (κ := κ)
    (fun i hi => unmarks_saveBits (h i hi) c.originId) durable (result durable)
  intro o ho
  rw [diskOps, List.flatMap_singleton] at ho
  exact hblob o ho

theorem quiet_open (c : Cached φ δ) (opened : Option φ) (result : Bool → SaveResult) :
    ∀ o ∈ diskOps (κ := κ) pieceSize result (c.openCacheUnlocked opened).2,
      Quiet pieceSize pieces o := by
  rcases c.openCacheUnlocked_cases opened with h | ⟨-, fd, -, h⟩ <;> rw [h]
  · simp [diskOps]
  · intro o ho
    rw [diskOps, List.flatMap_singleton] at ho
    obtain rfl := List.mem_singleton.mp ho
    trivial

theorem holed_piece {idx len : Nat} (hlen : len ≤ pieceSize.toNat) :
    holed (κ := κ) pieceSize.toNat (.punchHole (Piece.offset idx pieceSize.toNat) len) ⊆ {idx} := by
  rintro i ⟨hlo, hhi⟩
  have hstart : idx * pieceSize.toNat < (i + 1) * pieceSize.toNat := by
    rw [Nat.succ_mul]
    exact hlo
  have hstop : i * pieceSize.toNat < (idx + 1) * pieceSize.toNat := by
    rw [Nat.succ_mul]
    exact hhi.trans_le (Nat.add_le_add_left hlen _)
  have hle := Nat.lt_of_mul_lt_mul_right hstart
  have hge := Nat.lt_of_mul_lt_mul_right hstop
  exact Nat.le_antisymm (Nat.le_of_lt_succ hge) (Nat.le_of_lt_succ hle)

/-- A punch of a live entry is quiet and keeps the field, or it holes the piece whose mark is
gone from the field and from every sidecar that can survive. -/
theorem punchPiece_spec {c : Cached φ δ} (hc : EntryUnmarks pieceSize pieces c) (idx : Nat)
    {env : Cached.PunchEnv φ} {result : Bool → SaveResult}
    (hsaved : env.saved = (result true).ok) {r : Cached φ δ × List (Io φ) × Bool}
    (hr : c.punchPiece pieceSize.toNat idx env = r) :
    (∀ o ∈ diskOps (κ := κ) pieceSize result r.2.1, Quiet pieceSize pieces o) ∧
        EntryUnmarks pieceSize pieces r.1 ∨
      ∃ pre len, diskOps (κ := κ) pieceSize result r.2.1 =
          pre ++ [.punchHole (Piece.offset idx pieceSize.toNat) len] ∧
        len ≤ pieceSize.toNat ∧ (∀ o ∈ pre, Quiet pieceSize pieces o) ∧
        (∀ d : Disk κ, d.SettlesNames → (d.run pre).sidecar.Survives (Unmarks pieceSize idx)) ∧
        EntryUnmarks pieceSize (insert idx pieces) r.1 := by
  subst hr
  have halike := c.openCacheUnlocked_alike env.opened
  have hopen : ∀ o ∈ diskOps (κ := κ) pieceSize result (c.openCacheUnlocked env.opened).2,
      Quiet pieceSize pieces o := quiet_open c env.opened result
  have hfield : EntryUnmarks pieceSize pieces (c.openCacheUnlocked env.opened).1 :=
    hc.narrow halike.size (by rw [halike.bits]) fun i hi => halike.bits ▸ hi
  rcases c.punchPiece_outcomes pieceSize.toNat idx env with h | ⟨hbit, -, -, h⟩
  · rw [h]
    exact Or.inl ⟨by simp [diskOps], hc⟩
  have hmarked : (c.openCacheUnlocked env.opened).1.bits.get idx = true := by
    rw [halike.bits]
    exact hbit
  generalize c.openCacheUnlocked env.opened = opened at hopen hfield hmarked h
  have hcleared : EntryUnmarks pieceSize pieces
      { opened.1 with bits := opened.1.bits.clear idx } :=
    hfield.narrow rfl (Bitfield.nbits_clear ..) fun i hi => by
      have hget : (opened.1.bits.clear idx).get i = true := hi
      rw [Bitfield.get_clear, Bool.and_eq_true] at hget
      exact hget.1
  rcases h opened rfl with h | h | ⟨hdone, fd, -, h⟩ <;> rw [h]
  · exact Or.inl ⟨hopen, hfield⟩
  · -- the mark is back, and was not one of the pieces
    have hrestored : EntryUnmarks pieceSize pieces
        { opened.1 with bits := (opened.1.bits.clear idx).set idx } :=
      hfield.narrow rfl (by simp) fun i hi => by
        rw [← Cached.get_set_clear hmarked i]
        exact hi
    refine Or.inl ⟨fun o ho => ?_, hrestored⟩
    rw [diskOps, List.flatMap_append, List.flatMap_cons] at ho
    rcases List.mem_append.mp ho with ho | ho
    · exact hopen o ho
    rcases List.mem_append.mp ho with ho | ho
    · exact quiet_saveBits hcleared true result o (by rwa [diskOps, List.flatMap_singleton])
    · exact quiet_saveBits hrestored false result o ho
  · have hresult : result true = .done := by
      rw [hsaved] at hdone
      cases hres : result true <;> rw [hres] at hdone <;> first | rfl | cases hdone
    refine Or.inr ⟨diskOps pieceSize result (opened.2 ++
      [Cached.saveBits { opened.1 with bits := opened.1.bits.clear idx } true]), _, ?_,
      Piece.len_le opened.1.size idx _, fun o ho => ?_, fun d hnames => ?_, ?_⟩
    · simp only [diskOps, List.flatMap_append, List.flatMap_cons, List.flatMap_nil,
        List.append_assoc, List.append_nil]
      rfl
    · rw [diskOps, List.flatMap_append] at ho
      rcases List.mem_append.mp ho with ho | ho
      · exact hopen o ho
      · exact quiet_saveBits hcleared true result o ho
    · have hgone := unmarks_saveBits
        (fieldUnmarks_clear hmarked pieceSize (UInt64.ofNat opened.1.size)) opened.1.originId
        (ModelFs.saveBits pieceSize (UInt64.ofNat opened.1.size) (opened.1.bits.clear idx)
          opened.1.originId).length
      rw [List.take_length] at hgone
      rw [diskOps, List.flatMap_append, Disk.run_append, List.flatMap_singleton,
        Cached.saveBits, Io.diskOps, hresult]
      exact survives_writeFileFull (hnames.run _) hgone
    · rintro i (rfl | hi)
      · exact fieldUnmarks_clear hmarked pieceSize (UInt64.ofNat opened.1.size)
      · exact hcleared i hi

/-- What a disk punch comes to: nothing but quiet operations, or a hole at the end, over pieces
that no sidecar that can survive shows. -/
def WriteAhead (pieceSize : UInt32) (pieces : Set Nat) (r : List (DiskOp κ) × Bool) : Prop :=
  (∀ o ∈ r.1, Quiet pieceSize pieces o) ∧ r.2 = false ∨
    r.2 = true ∧ ∃ pre off len, r.1 = pre ++ [.punchHole off len] ∧
      (∀ o ∈ pre, Quiet pieceSize pieces o) ∧
      ∀ i ∈ holed (κ := κ) pieceSize.toNat (.punchHole off len),
        ∀ d : Disk κ, d.SettlesNames → (d.run pre).sidecar.Survives (Unmarks pieceSize i)

theorem writeAhead_nil : WriteAhead (κ := κ) pieceSize pieces ([], false) :=
  Or.inl ⟨by simp, rfl⟩

/-- The shared end, on a field that says that the pieces and those of the hole are missing. -/
theorem saveThenPunch_spec {size : UInt64} {bits : Bitfield} (originId : OriginId) {off len : Nat}
    (env : DiskEnv) (hold : ∀ i ∈ pieces, FieldUnmarks pieceSize size bits i)
    (hnew : ∀ i ∈ holed (κ := κ) pieceSize.toNat (.punchHole off len),
      FieldUnmarks pieceSize size bits i) :
    WriteAhead (κ := κ) pieceSize pieces
      (saveThenPunch (saveBits pieceSize size bits originId) off len env) := by
  have hquiet := quiet_writeFileFull (κ := κ)
    (fun i hi => unmarks_saveBits (hold i hi) originId) true env.saved
  unfold saveThenPunch
  dsimp only
  split_ifs with hsaved hpunched
  · exact Or.inl ⟨hquiet, rfl⟩
  · exact Or.inl ⟨hquiet, rfl⟩
  · refine Or.inr ⟨rfl, _, off, len, rfl, hquiet, fun i hi d hnames => ?_⟩
    have hdone : env.saved = .done := by
      cases hres : env.saved <;> rw [hres] at hsaved <;>
        first | rfl | exact absurd rfl hsaved
    have hgone := unmarks_saveBits (hnew i hi) originId
      (saveBits pieceSize size bits originId).length
    rw [List.take_length] at hgone
    rw [hdone]
    exact survives_writeFileFull hnames hgone

/-- A disk punch of a path without an entry and with a sample of this epoch writes ahead; any
other does nothing. -/
theorem punchDisk_spec {purgeEpoch : Nat} {live : Bool} {s : Sample}
    (hs : live = false → s.epoch0 = purgeEpoch →
      ∀ i ∈ pieces, FieldUnmarks pieceSize s.size s.loaded.bits i)
    (hsized : s.loaded.bits.bytes.length = fieldLen pieceSize s.size) (env : DiskEnv) :
    WriteAhead (κ := κ) pieceSize pieces (punchDisk pieceSize purgeEpoch live s env) := by
  unfold punchDisk
  cases hlast : s.loaded.bits.lastSet with
  | none =>
    have hempty := Bitfield.lastSet_eq_none_iff.mp hlast
    dsimp only
    unfold punchDiskUnclaimed
    split_ifs with hsize hencoded hlive hepoch
    · exact writeAhead_nil
    · exact writeAhead_nil
    · exact writeAhead_nil
    · exact writeAhead_nil
    · rw [← saveBits_unknown]
      exact saveThenPunch_spec {} env (fun i _ => ⟨hempty i, Or.inr hsized⟩)
        fun i _ => ⟨hempty i, Or.inr hsized⟩
  | some idx =>
    dsimp only
    split_ifs with hencoded hlive hepoch
    · exact writeAhead_nil
    · exact writeAhead_nil
    · exact writeAhead_nil
    · have hold := hs (by simpa using hlive) (not_not.mp hepoch).symm
      refine saveThenPunch_spec s.loaded.id env (fun i hi => ?_) fun i hi => ?_
      · refine (hold i hi).narrow (Bitfield.nbits_clear ..) fun hget => ?_
        rw [Bitfield.get_clear, Bool.and_eq_true] at hget
        exact hget.1
      · obtain rfl := holed_piece (Piece.len_le ..) hi
        exact ⟨by simp [Bitfield.get_clear], Or.inr (by
          rw [Bitfield.length_eq, Bitfield.nbits_clear, ← Bitfield.length_eq]
          exact hsized)⟩

end Punches

/-! ## Runs -/

section Runs

variable {pieceSize : UInt32} {w w' : World φ δ κ} {ops : List (DiskOp κ)}

/-- What holds between operations: no survivor shows a punched piece, the entry's field has none of
them, and neither has a sample that can still be used. -/
structure Inv (pieceSize : UInt32) (w : World φ δ κ) : Prop where
  names : w.disk.SettlesNames
  disk : Unmarked pieceSize w
  entry : ∀ c, w.entry = some c → EntryUnmarks pieceSize w.punched c
  epoch : ∀ s ∈ w.samples, s.epoch0 ≤ w.purgeEpoch
  sized : ∀ s ∈ w.samples, s.loaded.bits.bytes.length = fieldLen pieceSize s.size
  sample : ∀ s ∈ w.samples, w.entry = none → s.epoch0 = w.purgeEpoch →
    ∀ i ∈ w.punched, FieldUnmarks pieceSize s.size s.loaded.bits i

theorem Inv.of_fresh (hnames : w.disk.SettlesNames) (h : w.Fresh) : Inv pieceSize w := by
  obtain ⟨hpunched, hsamples⟩ := h
  refine ⟨hnames, fun i hi => ?_, fun c _ i hi => ?_, fun s hs => ?_, fun s hs => ?_,
    fun s hs => ?_⟩
  · rw [hpunched] at hi
    exact hi.elim
  · rw [hpunched] at hi
    exact hi.elim
  all_goals
    rw [hsamples] at hs
    cases hs

theorem Inv.writeAhead (h : Inv pieceSize w) {s : Sample} (hs : s ∈ w.samples) (env : DiskEnv) :
    WriteAhead (κ := κ) pieceSize w.punched
      (Punch.punchDisk pieceSize w.purgeEpoch w.entry.isSome s env) :=
  punchDisk_spec (fun hlive => h.sample s hs (by simpa using hlive)) (h.sized s hs) env

/-- **Every instant of an operation.** -/
theorem Inv.unmarked_take (h : Inv pieceSize w) (hstep : Step pieceSize w ops w') (k : Nat) :
    Unmarked pieceSize (w.afterAll pieceSize.toNat (ops.take k)) := by
  cases hstep with
  | punchPiece c idx env result hlive hsaved =>
    rcases punchPiece_spec (κ := κ) (h.entry c hlive) idx hsaved rfl with
      ⟨hquiet, -⟩ | ⟨pre, len, hops, hlen, hquiet, hgone, -⟩
    · exact Punch.unmarked_take h.names h.disk hquiet k
    · rw [hops]
      exact unmarked_take_punch h.names h.disk hquiet
        (fun i hi => holed_piece hlen hi ▸ hgone _ h.names) k
  | punchDisk s env hread r hr =>
    subst hr
    rcases h.writeAhead hread env with ⟨hquiet, -⟩ | ⟨-, pre, off, len, hops, hquiet, hgone⟩
    · exact Punch.unmarked_take h.names h.disk hquiet k
    · rw [hops]
      exact unmarked_take_punch h.names h.disk hquiet (fun i hi => hgone i hi _ h.names) k
  | read => exact Punch.unmarked_take h.names h.disk (by simp) k
  | insert => exact Punch.unmarked_take h.names h.disk (by simp) k
  | narrow c c' durable result hlive hnarrow =>
    have hfield := (h.entry c hlive).narrow hnarrow.size hnarrow.nbits hnarrow.get
    exact Punch.unmarked_take h.names h.disk (quiet_saveBits hfield durable result) k
  | distrust =>
    refine Punch.unmarked_take h.names h.disk (fun o ho => ?_) k
    obtain rfl := List.mem_singleton.mp ho
    exact fun i _ => unmarks_none pieceSize i
  | purge =>
    refine Punch.unmarked_take h.names h.disk (fun o ho => ?_) k
    simp only [List.mem_cons, List.not_mem_nil, or_false] at ho
    rcases ho with rfl | rfl
    · trivial
    · exact fun i _ => unmarks_none pieceSize i

/-- An operation without a hole. -/
theorem Inv.leave_quiet (h : Inv pieceSize w) (hquiet : ∀ o ∈ ops, Quiet pieceSize w.punched o)
    {entry : Option (Cached φ δ)} {n : Nat} (hn : w.purgeEpoch ≤ n)
    (hentry : ∀ c, entry = some c → EntryUnmarks pieceSize w.punched c)
    (hnone : entry = none → n = w.purgeEpoch → w.entry = none) :
    Inv pieceSize (w.leave pieceSize.toNat ops entry n) := by
  obtain ⟨hpunched, hdisk⟩ := afterAll_quiet h.names h.disk hquiet
  obtain ⟨-, -, hsamples⟩ := afterAll_process pieceSize.toNat w ops
  refine ⟨settlesNames_afterAll _ w h.names _, hdisk, fun c hc => ?_, fun s hs => ?_, fun s hs => ?_,
    fun s hs hempty heq => ?_⟩
  · exact fun i hi => hentry c hc i (hpunched ▸ hi)
  · exact (h.epoch s (hsamples ▸ hs)).trans hn
  · exact h.sized s (hsamples ▸ hs)
  · have hs' : s ∈ w.samples := hsamples ▸ hs
    have hle := h.epoch s hs'
    have heq' : s.epoch0 = n := heq
    have hsame : n = w.purgeEpoch := by omega
    exact fun i hi => h.sample s hs' (hnone hempty hsame) (heq'.trans hsame) i (hpunched ▸ hi)

/-- An operation that ends with a hole. -/
theorem Inv.leave_punch (h : Inv pieceSize w) {pre : List (DiskOp κ)} {off len : Nat}
    (hquiet : ∀ o ∈ pre, Quiet pieceSize w.punched o)
    (hgone : ∀ i ∈ holed (κ := κ) pieceSize.toNat (.punchHole off len),
      ∀ d : Disk κ, d.SettlesNames → (d.run pre).sidecar.Survives (Unmarks pieceSize i))
    {entry : Option (Cached φ δ)} {n : Nat} (hn : w.purgeEpoch ≤ n)
    (hentry : ∀ c, entry = some c → EntryUnmarks pieceSize
      (w.punched ∪ holed (κ := κ) pieceSize.toNat (.punchHole off len)) c)
    (hnone : entry = none → w.purgeEpoch < n) :
    Inv pieceSize (w.leave pieceSize.toNat (pre ++ [.punchHole off len]) entry n) := by
  have hdisk := unmarked_take_punch h.names h.disk hquiet (fun i hi => hgone i hi _ h.names)
    (pre.length + 1)
  rw [List.take_of_length_le (by rw [List.length_append, List.length_singleton])] at hdisk
  have hpunched : (w.afterAll pieceSize.toNat (pre ++ [.punchHole off len])).punched =
      w.punched ∪ holed (κ := κ) pieceSize.toNat (.punchHole off len) := by
    rw [afterAll_append, afterAll_cons, afterAll_nil, World.after,
      (afterAll_quiet h.names h.disk hquiet).1]
  obtain ⟨-, -, hsamples⟩ := afterAll_process pieceSize.toNat w (pre ++ [.punchHole off len])
  refine ⟨settlesNames_afterAll _ w h.names _, hdisk, fun c hc => ?_, fun s hs => ?_, fun s hs => ?_,
    fun s hs hempty heq => ?_⟩
  · exact fun i hi => hentry c hc i (hpunched ▸ hi)
  · exact (h.epoch s (hsamples ▸ hs)).trans hn
  · exact h.sized s (hsamples ▸ hs)
  · have hle := h.epoch s (hsamples ▸ hs)
    have heq' : s.epoch0 = n := heq
    have hlt := hnone hempty
    omega

/-- With an entry in the map a disk punch gives up. -/
theorem punchDisk_live (pieceSize : UInt32) (purgeEpoch : Nat) (s : Sample) (env : DiskEnv) :
    punchDisk (κ := κ) pieceSize purgeEpoch true s env = ([], false) := by
  unfold punchDisk punchDiskUnclaimed
  cases s.loaded.bits.lastSet <;> simp

/-- **One operation that runs to its end.** -/
theorem Inv.step (h : Inv pieceSize w) (hstep : Step pieceSize w ops w') : Inv pieceSize w' := by
  cases hstep with
  | punchPiece c idx env result hlive hsaved =>
    rcases punchPiece_spec (κ := κ) (h.entry c hlive) idx hsaved rfl with
      ⟨hquiet, hfield⟩ | ⟨pre, len, hops, hlen, hquiet, hgone, hfield⟩
    · refine h.leave_quiet hquiet le_rfl (fun c' hc' => ?_) fun hempty => ?_
      · cases hc'
        exact hfield
      · cases hempty
    · rw [hops]
      refine h.leave_punch hquiet (fun i hi => holed_piece hlen hi ▸ hgone) le_rfl
        (fun c' hc' => ?_) fun hempty => ?_
      · cases hc'
        rintro i (hi | hi)
        · exact hfield i (Or.inr hi)
        · exact hfield i (Or.inl (holed_piece hlen hi))
      · cases hempty
  | punchDisk s env hread r hr =>
    subst hr
    rcases h.writeAhead hread env with ⟨hquiet, hfail⟩ | ⟨hdone, pre, off, len, hops, hquiet, hgone⟩
    · rw [hfail]
      exact h.leave_quiet hquiet le_rfl h.entry fun hempty _ => hempty
    · rw [hops, hdone]
      refine h.leave_punch hquiet hgone (Nat.le_succ _) (fun c hc => ?_) fun _ => Nat.lt_succ_self _
      rw [hc, Option.isSome_some, punchDisk_live] at hdone
      cases hdone
  | read epoch0 size originId hsampled =>
    refine ⟨h.names, h.disk, h.entry, ?_, ?_, ?_⟩
    · rintro s (_ | ⟨_, hs⟩)
      · exact hsampled
      · exact h.epoch s hs
    · rintro s (_ | ⟨_, hs⟩)
      · rw [Bitfield.length_eq, nbits_loadBits, fieldLen]
      · exact h.sized s hs
    · rintro s (_ | ⟨_, hs⟩) hempty heq
      · exact fun i hi => fieldUnmarks_loadBits (h.disk i hi).now size originId
      · exact h.sample s hs hempty heq
  | insert s nowSec hread hmiss hepoch =>
    refine h.leave_quiet (by simp) le_rfl (fun c hc => ?_) fun hempty => ?_
    · cases hc
      intro i hi
      have hfield := h.sample s hread hmiss hepoch.symm i hi
      rwa [← UInt64.ofNat_toNat (x := s.size)] at hfield
    · cases hempty
  | narrow c c' durable result hlive hnarrow =>
    have hfield := (h.entry c hlive).narrow hnarrow.size hnarrow.nbits hnarrow.get
    refine h.leave_quiet (quiet_saveBits hfield durable result) le_rfl (fun c'' hc'' => ?_)
      fun hempty => ?_
    · cases hc''
      exact hfield
    · cases hempty
  | distrust =>
    refine h.leave_quiet (fun o ho => ?_) (Nat.le_succ _) (fun c hc => ?_) fun _ heq => ?_
    · obtain rfl := List.mem_singleton.mp ho
      exact fun i _ => unmarks_none pieceSize i
    · obtain ⟨c₀, hc₀, rfl⟩ := Option.map_eq_some_iff.mp hc
      exact (h.entry c₀ hc₀).narrow rfl rfl fun i hi => by
        rw [show (c₀.distrust).1.bits.get i = c₀.bits.wipe.get i from rfl,
          Bitfield.get_wipe] at hi
        cases hi
    · omega
  | purge =>
    refine h.leave_quiet (fun o ho => ?_) (Nat.le_succ _) (fun c hc => ?_) fun _ heq => ?_
    · simp only [List.mem_cons, List.not_mem_nil, or_false] at ho
      rcases ho with rfl | rfl
      · trivial
      · exact fun i _ => unmarks_none pieceSize i
    · cases hc
    · omega

/-- An operation, or the power loss in it. -/
theorem Inv.move (h : Inv pieceSize w) (hmove : Move pieceSize w w') : Inv pieceSize w' := by
  cases hmove with
  | finish hstep => exact h.step hstep
  | powerLoss hstep k sidecar data hsidecar hdata =>
    have hinstant := h.unmarked_take hstep k
    refine ⟨settlesNames_afterAll _ w h.names _, fun i hi => ?_, fun c hc => ?_, fun s hs => ?_,
      fun s hs => ?_, fun s hs => ?_⟩
    · exact Stable.survives_settled.mpr (hinstant i hi sidecar hsidecar)
    · cases hc
    all_goals cases hs

theorem Inv.run {w₀ : World φ δ κ} (hnames : w₀.disk.SettlesNames) (hfresh : w₀.Fresh)
    (hrun : Run (Move pieceSize) Always w₀ w) : Inv pieceSize w :=
  Run.invariant (fun _ _ h hmove _ => h.move hmove) (Inv.of_fresh hnames hfresh) hrun

end Runs

/-! ## A punch that fails -/

/-- The operation leaves the data cells below `n` alone. -/
def KeepsBelow (n : Nat) : DiskOp κ → Prop
  | .sidecar _ => True
  | .fsyncSidecar => True
  | .ftruncate len => n ≤ len
  | _ => False

theorem cell_run {n o : Nat} (ho : o < n) (d : Disk κ) {ops : List (DiskOp κ)}
    (h : ∀ op ∈ ops, KeepsBelow n op) : (d.run ops).data.now.cell o = d.data.now.cell o := by
  induction ops generalizing d with
  | nil => rfl
  | cons op ops ih =>
    rw [Disk.run_cons, ih (d.step op) fun op' hop' => h op' (List.mem_cons_of_mem op hop')]
    have hop := h op List.mem_cons_self
    cases op with
    | sidecar content => rfl
    | fsyncSidecar => rfl
    | ftruncate len => exact SparseFile.cell_ftruncate_of_lt _ (ho.trans_le hop)
    | pwrite off cells => exact hop.elim
    | punchHole off len => exact hop.elim
    | unlinkData => exact hop.elim

theorem keepsBelow_of_soft (n : Nat) {pieceSize : UInt32} {result : Bool → SaveResult}
    {io : List (Io φ)} (hsoft : ∀ i ∈ io, i.soft = true) :
    ∀ o ∈ diskOps (κ := κ) pieceSize result io, KeepsBelow n o := by
  intro o ho
  rcases mem_diskOps_of_soft hsoft ho with ⟨content, rfl⟩ | rfl <;> trivial

/-- A failed punch of a piece: every mark is as it was, and so is every byte of the piece at every
instant. -/
theorem punchPiece_rollback (pieceSize : UInt32) (c : Cached φ δ) (idx : Nat)
    (env : Cached.PunchEnv φ) (result : Bool → SaveResult)
    (h : (c.punchPiece pieceSize.toNat idx env).2.2 = false) :
    (∀ i, (c.punchPiece pieceSize.toNat idx env).1.bits.get i = c.bits.get i) ∧
      ∀ (d : Disk κ) (k o : Nat), Piece.offset idx pieceSize.toNat ≤ o →
        o < Piece.offset idx pieceSize.toNat + Piece.len c.size idx pieceSize.toNat →
        (d.run ((diskOps pieceSize result
          (c.punchPiece pieceSize.toNat idx env).2.1).take k)).data.now.cell o =
          d.data.now.cell o := by
  have hsoft : ∀ o ∈ diskOps (κ := κ) pieceSize result
      (c.punchPiece pieceSize.toNat idx env).2.1, KeepsBelow c.size o := by
    have hopen : ∀ o ∈ diskOps (κ := κ) pieceSize result (c.openCacheUnlocked env.opened).2,
        KeepsBelow c.size o := by
      rcases c.openCacheUnlocked_cases env.opened with h | ⟨-, fd, -, h⟩ <;> rw [h]
      · simp [diskOps]
      · intro o ho
        rw [diskOps, List.flatMap_singleton] at ho
        obtain rfl := List.mem_singleton.mp ho
        exact le_rfl
    rcases c.punchPiece_cases pieceSize.toNat idx env with
      hr | ⟨-, -, -, ⟨c', io, hr, -, -, hio⟩ | ⟨fd, save, -, -, hr⟩⟩
    · rw [hr]
      simp [diskOps]
    · rw [hr]
      intro o ho
      rw [diskOps, List.flatMap_append] at ho
      rcases List.mem_append.mp ho with ho | ho
      · exact hopen o ho
      · exact keepsBelow_of_soft c.size hio o ho
    · rw [hr] at h
      cases h
  constructor
  · rcases c.punchPiece_cases pieceSize.toNat idx env with
      hr | ⟨-, -, -, ⟨c', io, hr, -, hget, -⟩ | ⟨fd, save, -, -, hr⟩⟩
    · rw [hr]
      exact fun _ => rfl
    · rw [hr]
      exact hget
    · rw [hr] at h
      cases h
  · intro d k o hlo hhi
    have hsize : o < c.size := (Piece.lt_offset_add_len_iff.mp ⟨hhi, hlo⟩).1
    exact cell_run hsize d fun op hop => hsoft op (List.mem_of_mem_take hop)

/-- **Write-ahead.** Where an `fsync` settles the file's name, in every run, at every instant of the
next operation, no sidecar that can survive shows a punched piece; and a punch that fails leaves the
marks and the piece's bytes. -/
theorem unmarked_of_run {pieceSize : UInt32} {w₀ w w' : World φ δ κ} {ops : List (DiskOp κ)}
    (hnames : w₀.disk.SettlesNames) (hfresh : w₀.Fresh)
    (hrun : Run (Move pieceSize) Always w₀ w) (hstep : Step pieceSize w ops w') :
    (∀ k, Unmarked pieceSize (w.afterAll pieceSize.toNat (ops.take k))) ∧
      ∀ (c : Cached φ δ) (idx : Nat) (env : Cached.PunchEnv φ) (result : Bool → SaveResult),
        w.entry = some c → (c.punchPiece pieceSize.toNat idx env).2.2 = false →
        (∀ i, (c.punchPiece pieceSize.toNat idx env).1.bits.get i = c.bits.get i) ∧
          ∀ k o, Piece.offset idx pieceSize.toNat ≤ o →
            o < Piece.offset idx pieceSize.toNat + Piece.len c.size idx pieceSize.toNat →
            (w.afterAll pieceSize.toNat ((diskOps pieceSize result
              (c.punchPiece pieceSize.toNat idx env).2.1).take k)).disk.data.now.cell o =
              w.disk.data.now.cell o := by
  refine ⟨(Inv.run hnames hfresh hrun).unmarked_take hstep, fun c idx env result _ hfail => ?_⟩
  obtain ⟨hbits, hcells⟩ := punchPiece_rollback (κ := κ) pieceSize c idx env result hfail
  refine ⟨hbits, fun k o hlo hhi => ?_⟩
  rw [disk_afterAll]
  exact hcells w.disk k o hlo hhi

/-- An entry of two marked pieces of four bytes. -/
def twoPieces : Cached Unit Unit where
  size := 8
  bits := ((Bitfield.init 2).set 0).set 1

/-- It is live, and its sidecar is on disk. -/
def twoPiecesLive : World Unit Unit UInt8 where
  entry := some twoPieces
  disk :=
    { sidecar := .settled (some (saveBits 4 8 twoPieces.bits {}))
      data := .settled (SparseFile.empty.pwrite 0 [1, 2, 3, 4, 5, 6, 7, 8])
      fsync := Stable.sync }

/-- Nothing is in the way of a punch. -/
def allWell : Cached.PunchEnv Unit where
  nowSec := 100
  pinned := false
  opened := some ()
  saved := true
  lateXfer := false
  punched := true

/-- The second piece is punched, and then no survivor shows it. -/
theorem unmarked_of_run_twoPieces :
    ∃ ops w', Step 4 twoPiecesLive ops w' ∧ 1 ∈ w'.punched ∧
      ∀ k, Unmarked 4 (twoPiecesLive.afterAll 4 (ops.take k)) := by
  have hstep : Step 4 twoPiecesLive _ _ :=
    .punchPiece twoPiecesLive twoPieces 1 allWell (fun _ => .done) rfl rfl
  have hrun : Run (Move 4) Always twoPiecesLive twoPiecesLive := Run.refl _
  refine ⟨_, _, hstep, ?_, (unmarked_of_run (fun _ => rfl) ⟨rfl, rfl⟩ hrun hstep).1⟩
  have hio : (twoPieces.punchPiece (4 : UInt32).toNat 1 allWell).2.1 =
      [.cut () 8, .save 8 (twoPieces.bits.clear 1) {} true, .punch () 4 4] := rfl
  rw [hio, diskOps, List.flatMap_cons, List.flatMap_cons, List.flatMap_singleton,
    ← List.append_assoc]
  show 1 ∈ (twoPiecesLive.afterAll 4 (_ ++ [DiskOp.punchHole 4 4])).punched
  rw [afterAll_append]
  exact Or.inr ⟨by decide, by decide⟩

end Punch

end ModelFs
