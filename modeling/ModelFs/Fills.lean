import ModelFs.Disk
import ModelFs.Invalidate
import ModelFs.Lib.Machine

/-!
# Fills and power losses

`completeFill` and `copyIntoCache` put bytes in the data file, set marks and save the sidecar. The
save is not durable, and nothing syncs the data file, so a power loss takes any of these writes
and leaves any others: a sidecar can survive with a mark whose bytes did not.

The machine is one entry and its two files. An operation is one section or one system call, with
what it does to the files in order; `content_mu` is held from the start of a fill or a copy to its
last section (`job`). The kernel writes back what it likes at any time. Cells carry the number of
the write that put them, and `vouch` keeps, for each marked piece, how new its bytes were when its
mark was set; both are history. A sidecar carries the `vouch` of its save. What a surviving sidecar
shows is what a load makes of its content (`Shows`), whatever was marked when it was saved.

* `lost_after_fill` — one fill, and a power loss that takes the bytes and leaves the mark.
* `backed_of_run` — **when fills are crash-safe.** In a run that sets a mark only when the bytes of
  the piece are on disk, and saves no field a load would read the identity into, no instant has a
  surviving sidecar that shows a piece whose bytes did not survive.
-/

namespace ModelFs

namespace Fills

/-- A byte of the data file with the number of the write that put it. -/
structure Cell (β : Type) where
  byte : β
  serial : Nat

/-- How new what an offset holds is. A hole is older than any write. -/
def age {β : Type} : Option (Cell β) → Nat
  | none => 0
  | some cell => cell.serial + 1

/-- What is known of a piece that was marked: how new each of its bytes was then. -/
abbrev Vouch := Nat → Option (Nat → Nat)

/-- A sidecar file, with the marks' history at its save. -/
structure Saved where
  content : Option (List UInt8)
  vouch : Vouch

/-- What the bytes of a job are for. -/
inductive Target (δ : Type) where
  | fill (idx : Nat) (hash : Option δ)
  | copy

/-- A `completeFill` past its check, or a `copyIntoCache`; `content_mu` is held. -/
structure Job (β δ : Type) where
  target : Target δ
  off : Nat
  data : List β
  /-- A transfer was in the way of the copy. -/
  busy : Bool := false
  /-- `openCache` gave a descriptor. -/
  opened : Bool := false
  /-- Bytes written so far. -/
  put : Nat := 0

/-- Every byte reached the cache descriptor. -/
def Job.landed {β δ : Type} (j : Job β δ) : Bool := j.opened && j.put == j.data.length

/-- The marks the job's last section sets. -/
def Job.sets {φ β δ : Type} [DecidableEq δ] (digest : List β → δ) (pieceSize : Nat)
    (c : Cached φ δ) (j : Job β δ) (i : Nat) : Bool :=
  match j.target with
  | .fill idx _ => i == idx && j.landed && !c.dead && c.claimStands pieceSize idx j.data.length
  | .copy => j.landed && c.copySets digest pieceSize j.off j.data i

structure World (φ β δ : Type) where
  entry : Cached φ δ
  sidecar : Stable Saved
  data : Stable (SparseFile (Cell β))
  job : Option (Job β δ) := none
  /-- The number of the next write of the data file. -/
  serial : Nat := 0
  vouch : Vouch

inductive Op (φ β δ : Type) where
  /-- One pass of `beginFill`. -/
  | claim (idx : Nat) (nowSec : Int)
  /-- `completeFill`, to the end of its check. -/
  | fill (idx : Nat) (buf : List β) (hash : Option δ)
  /-- `copyIntoCache`, with its look at `xfer`. -/
  | copy (off : Nat) (data : List β)
  | openCache (opened : Option φ)
  /-- One `pwrite` of `pwriteAll`, of up to `n` bytes. -/
  | pwrite (n : Nat)
  /-- `finishPiece` of the fill, or the section that marks the copy. -/
  | finish (nowSec : Int) (result : SaveResult)
  | abortFill (idx : Nat) (nowSec : Int) (result : SaveResult)
  | saveBits (result : SaveResult)
  | beginXfer
  | endXfer

variable {φ β δ : Type}

namespace World

/-- What `o` does to the files. -/
def after (w : World φ β δ) : DiskOp (Cell β) → World φ β δ
  | .sidecar content => { w with sidecar := w.sidecar.replace ⟨content, w.vouch⟩ }
  | .fsyncSidecar => { w with sidecar := w.sidecar.sync }
  | .pwrite off cells => { w with data := w.data.update fun f => f.pwrite off cells }
  | .ftruncate len => { w with data := w.data.update fun f => f.ftruncate len }
  | .punchHole off len => { w with data := w.data.update fun f => f.punch off len }
  | .unlinkData => { w with data := w.data.replace SparseFile.empty }

def afterAll (w : World φ β δ) (ops : List (DiskOp (Cell β))) : World φ β δ := ops.foldl after w

/-- The history once the marks are those of `bits`, the ones of `sets` set anew. -/
def vouchFor (w : World φ β δ) (bits : Bitfield) (sets : Nat → Bool) : Vouch := fun i =>
  if bits.get i then
    if sets i then some fun o => age (w.data.now.cell o) else w.vouch i
  else none

end World

variable [DecidableEq δ] (digest : List β → δ) (pieceSize : UInt32)

/-- An operation: what it leaves in memory, and what it does to the files; `none` where it is not
its turn. -/
def act (w : World φ β δ) : Op φ β δ → Option (World φ β δ × List (DiskOp (Cell β)))
  | .claim idx nowSec =>
    some ({ w with entry := (w.entry.beginFill pieceSize.toNat idx nowSec).1 }, [])
  | .fill idx buf hash =>
    if w.job.isSome then none
    else if w.entry.fillSkips pieceSize.toNat idx buf.length then
      some ({ w with entry := w.entry.dropClaim idx }, [])
    else
      some ({ w with
        job := some
          { target := .fill idx hash, off := Piece.offset idx pieceSize.toNat, data := buf } }, [])
  | .copy off data =>
    if w.job.isSome then none
    else
      some ({ w with
        job := some { target := .copy, off := off, data := data, busy := w.entry.xferBusy } }, [])
  | .openCache opened =>
    match w.job with
    | none => none
    | some j =>
      if j.busy then none
      else
        let o := w.entry.openCacheUnlocked opened
        some ({ w with entry := o.1, job := some { j with opened := o.1.cacheFd.isSome } },
          diskOps pieceSize (fun _ => .done) o.2)
  | .pwrite n =>
    match w.job with
    | none => none
    | some j =>
      if !j.opened then none
      else
        let cells := ((j.data.drop j.put).take n).map fun b => Cell.mk b w.serial
        some ({ w with
            job := some { j with put := j.put + cells.length }
            serial := w.serial + 1 },
          [.pwrite (j.off + j.put) cells])
  | .finish nowSec result =>
    match w.job with
    | none => none
    | some j =>
      let done := match j.target with
        | .fill idx hash =>
          w.entry.finishPiece pieceSize.toNat idx j.landed j.data.length hash nowSec
        | .copy =>
          let r := w.entry.markCopy digest pieceSize.toNat j.off j.data j.landed
          (r.1, r.2.1)
      some ({ w with
          entry := done.1
          job := none
          vouch := w.vouchFor done.1.bits (j.sets digest pieceSize.toNat w.entry) },
        diskOps pieceSize (fun _ => result) done.2)
  | .abortFill idx nowSec result =>
    let done := w.entry.abortFill pieceSize.toNat idx nowSec
    some ({ w with entry := done.1 }, diskOps pieceSize (fun _ => result) done.2)
  | .saveBits result =>
    some (w, diskOps pieceSize (fun _ => result) [w.entry.saveBits false])
  | .beginXfer => some ({ w with entry := w.entry.fetchAddXfer }, [])
  | .endXfer => some ({ w with entry := w.entry.fetchSubXfer }, [])

/-- An operation that runs to its end, or the kernel writes something back. -/
inductive Move : World φ β δ → World φ β δ → Prop
  | finish {w w₁ : World φ β δ} {op : Op φ β δ} {ops : List (DiskOp (Cell β))}
      (h : act digest pieceSize w op = some (w₁, ops)) : Move w (w₁.afterAll ops)
  | writeBack (w : World φ β δ) (sidecar : Stable Saved) (data : Stable (SparseFile (Cell β)))
      (hsidecar : sidecar.now = w.sidecar.now ∧ sidecar.may ⊆ w.sidecar.may)
      (hdata : data.now = w.data.now ∧ data.may ⊆ w.data.may) :
      Move w { w with sidecar := sidecar, data := data }

/-- The byte is one of piece `i`. -/
def InPiece (c : Cached φ δ) (i o : Nat) : Prop :=
  Piece.offset i pieceSize.toNat ≤ o ∧
    o < Piece.offset i pieceSize.toNat + Piece.len c.size i pieceSize.toNat

/-- Some load of the sidecar shows piece `i`. -/
def Shows (i : Nat) (content : Option (List UInt8)) : Prop :=
  ∃ size originId, (loadBits pieceSize (readContent content) size originId).bits.get i = true

/-- **Crash safety.** Of every sidecar and every data file that can survive together, each piece the
sidecar shows was marked when it was saved, over bytes that survived, or newer ones did. -/
def Backed (w : World φ β δ) : Prop :=
  ∀ x ∈ w.sidecar.may, ∀ f ∈ w.data.may, ∀ i, Shows pieceSize i x.content →
    ∃ v, x.vouch i = some v ∧ ∀ o, InPiece pieceSize w.entry i o → v o ≤ age (f.cell o)

/-- The bytes of piece `i` are on disk: what can survive of the data file has all of them. -/
def Flushed (w : World φ β δ) (i : Nat) : Prop :=
  ∀ f ∈ w.data.may, ∀ o, InPiece pieceSize w.entry i o → age (w.data.now.cell o) ≤ age (f.cell o)

/-- A job's last section sets marks over bytes that are on disk. -/
def Flushes (w w' : World φ β δ) : Prop :=
  w'.job = none → ∀ j, w.job = some j → ∀ i, j.sets digest pieceSize.toNat w.entry i = true →
    Flushed pieceSize w i

/-- A save of the entry reads back as its marks: no bit of the identity stands where a load looks
for one. -/
def Readable (c : Cached φ δ) : Prop :=
  ∀ i, ¬ IdentityShows pieceSize (UInt64.ofNat c.size) c.bits c.originId i

/-- There is a new content the sidecar can be left with. -/
def Saves (w w' : World φ β δ) : Prop := ∃ x ∈ w'.sidecar.may, x ∉ w.sidecar.may

/-- The condition of a step: marks are set over bytes that are on disk, and fields that are saved
read back. -/
def Careful (w w' : World φ β δ) : Prop :=
  Flushes digest pieceSize w w' ∧ (Saves w w' → Readable pieceSize w.entry)

/-- Everything on disk, nobody at work, and the marks, in memory and in the sidecar, over the bytes
that are there. -/
def World.Settled (w : World φ β δ) : Prop :=
  (∃ x, w.sidecar = .settled x ∧ ∀ i, Shows pieceSize i x.content →
    x.vouch i = some fun o => age (w.data.now.cell o)) ∧
    (∃ f, w.data = .settled f) ∧ w.job = none ∧
    (∀ i, w.vouch i =
      if w.entry.bits.get i then some fun o => age (w.data.now.cell o) else none) ∧
    ∀ o, age (w.data.now.cell o) ≤ w.serial

/-! ## What holds between operations -/

/-- The history is about the marks there are, each set over bytes that everything that can survive
still has. -/
structure Inv (w : World φ β δ) : Prop where
  marked : ∀ i, w.entry.bits.get i = true ↔ ∃ v, w.vouch i = some v
  held : ∀ f ∈ w.data.may, ∀ i v, w.vouch i = some v → ∀ o, InPiece pieceSize w.entry i o →
    v o ≤ age (f.cell o)
  backed : Backed pieceSize w
  bound : ∀ i v, w.vouch i = some v → ∀ o, v o ≤ w.serial
  savedBound : ∀ x ∈ w.sidecar.may, ∀ i v, x.vouch i = some v → Shows pieceSize i x.content →
    ∀ o, v o ≤ w.serial
  aged : ∀ f ∈ w.data.may, ∀ o, age (f.cell o) ≤ w.serial

section Files

variable {pieceSize} {w w₁ : World φ β δ}

omit [DecidableEq δ]

theorem inPiece_congr {c c' : Cached φ δ} (hsize : c'.size = c.size) {i o : Nat} :
    InPiece pieceSize c' i o ↔ InPiece pieceSize c i o := by
  unfold InPiece
  rw [hsize]

theorem InPiece.lt_size {c : Cached φ δ} {i o : Nat} (h : InPiece pieceSize c i o) : o < c.size :=
  (Piece.lt_offset_add_len_iff.mp ⟨h.2, h.1⟩).1

theorem Inv.of_settled (h : w.Settled pieceSize) : Inv pieceSize w := by
  obtain ⟨⟨x, hsidecar, hshown⟩, ⟨f, hdata⟩, -, hvouch, haged⟩ := h
  have hget : ∀ i v, w.vouch i = some v → v = fun o => age (f.cell o) := fun i v hv => by
    rw [hvouch, hdata] at hv
    split_ifs at hv
    exact (Option.some_inj.mp hv).symm
  rw [hdata] at haged hshown
  refine ⟨fun i => ?_, fun f' hf' i v hv o _ => ?_, fun y hy f' hf' i hshow => ?_,
    fun i v hv o => ?_, fun y hy i v hv hshow o => ?_, fun f' hf' o => ?_⟩
  · rw [hvouch]
    split_ifs with hi
    · exact ⟨fun _ => ⟨_, rfl⟩, fun _ => hi⟩
    · exact ⟨fun hi' => absurd hi' hi, fun ⟨_, hv⟩ => nomatch hv⟩
  · rw [hdata] at hf'
    obtain rfl : f' = f := hf'
    rw [hget i v hv]
  · rw [hdata] at hf'
    rw [hsidecar] at hy
    obtain rfl : f' = f := hf'
    obtain rfl : y = x := hy
    exact ⟨_, hshown i hshow, fun _ _ => le_rfl⟩
  · rw [hget i v hv]
    exact haged o
  · rw [hsidecar] at hy
    obtain rfl : y = x := hy
    rw [hshown i hshow] at hv
    cases hv
    exact haged o
  · rw [hdata] at hf'
    obtain rfl : f' = f := hf'
    exact haged o

variable (pieceSize) in
/-- What a fill does to the files: no sidecar that shows a piece without its mark, no hole, no cut
below the size, no byte older than the marks. -/
def Gentle (w : World φ β δ) : DiskOp (Cell β) → Prop
  | .sidecar content => ∀ i, Shows pieceSize i content → ∃ v, w.vouch i = some v
  | .fsyncSidecar => True
  | .pwrite _ cells => ∀ cell ∈ cells, cell.serial + 1 = w.serial
  | .ftruncate len => w.entry.size ≤ len
  | .punchHole _ _ => False
  | .unlinkData => False

/-- A write of the data file that ages no byte of a piece, except to one newer than any mark. -/
theorem Inv.update (h : Inv pieceSize w) {g : SparseFile (Cell β) → SparseFile (Cell β)}
    (hnew : ∀ f i o, InPiece pieceSize w.entry i o →
      (g f).cell o = f.cell o ∨ age ((g f).cell o) = w.serial)
    (haged : ∀ f, (∀ o, age (f.cell o) ≤ w.serial) → ∀ o, age ((g f).cell o) ≤ w.serial) :
    Inv pieceSize { w with data := w.data.update g } := by
  have hkeep : ∀ f i o n, InPiece pieceSize w.entry i o → n ≤ w.serial → n ≤ age (f.cell o) →
      n ≤ age ((g f).cell o) := fun f i o n hin hn hold => by
    rcases hnew f i o hin with hsame | hnow
    · rwa [hsame]
    · rwa [hnow]
  refine ⟨h.marked, fun f hf i v hv o hin => ?_, fun x hx f hf i hshow => ?_, h.bound,
    h.savedBound, fun f hf => ?_⟩
  · rcases Stable.mem_may_update.mp hf with hold | ⟨f', hf', rfl⟩
    · exact h.held f hold i v hv o hin
    · exact hkeep f' i o _ hin (h.bound i v hv o) (h.held f' hf' i v hv o hin)
  · rcases Stable.mem_may_update.mp hf with hold | ⟨f', hf', rfl⟩
    · exact h.backed x hx f hold i hshow
    · obtain ⟨v, hv, hle⟩ := h.backed x hx f' hf' i hshow
      exact ⟨v, hv, fun o hin =>
        hkeep f' i o _ hin (h.savedBound x hx i v hv hshow o) (hle o hin)⟩
  · rcases Stable.mem_may_update.mp hf with hold | ⟨f', hf', rfl⟩
    · exact h.aged f hold
    · exact haged f' (h.aged f' hf')

/-- One gentle operation. -/
theorem Inv.after (h : Inv pieceSize w) {o : DiskOp (Cell β)} (ho : Gentle pieceSize w o) :
    Inv pieceSize (w.after o) := by
  cases o with
  | sidecar content =>
    refine ⟨h.marked, h.held, fun x hx f hf i hshow => ?_, h.bound, fun x hx i v hv hshow => ?_,
      h.aged⟩
    · rcases Stable.mem_may_replace.mp hx with hold | rfl
      · exact h.backed x hold f hf i hshow
      · obtain ⟨v, hv⟩ := ho i hshow
        exact ⟨v, hv, h.held f hf i v hv⟩
    · rcases Stable.mem_may_replace.mp hx with hold | rfl
      · exact h.savedBound x hold i v hv hshow
      · exact h.bound i v hv
  | fsyncSidecar =>
    have hnow : ∀ x ∈ w.sidecar.sync.may, x ∈ w.sidecar.may := fun x hx => by
      rw [Stable.mem_may_sync.mp hx]
      exact w.sidecar.now_mem
    exact ⟨h.marked, h.held, fun x hx => h.backed x (hnow x hx), h.bound,
      fun x hx => h.savedBound x (hnow x hx), h.aged⟩
  | pwrite off cells =>
    have hcell : ∀ (f : SparseFile (Cell β)) o, (f.pwrite off cells).cell o = f.cell o ∨
        age ((f.pwrite off cells).cell o) = w.serial := fun f o => by
      by_cases hin : off ≤ o ∧ o < off + cells.length
      · obtain ⟨cell, hmem, hcell⟩ := f.cell_pwrite_of_mem cells hin.1 hin.2
        exact Or.inr (by rw [hcell]; exact ho cell hmem)
      · exact Or.inl (if_neg hin)
    refine h.update (fun f _ o _ => hcell f o) fun f hf o => ?_
    rcases hcell f o with hsame | hnow
    · rw [hsame]
      exact hf o
    · exact hnow.le
  | ftruncate len =>
    refine h.update (fun f _ o hin => ?_) fun f hf o => ?_
    · exact Or.inl (f.cell_ftruncate_of_lt (hin.lt_size.trans_le ho))
    · unfold SparseFile.ftruncate
      dsimp only
      split_ifs
      · exact hf o
      · exact Nat.zero_le _
  | punchHole off len => exact ho.elim
  | unlinkData => exact ho.elim

theorem gentle_after (o o' : DiskOp (Cell β)) :
    Gentle pieceSize (w.after o) o' ↔ Gentle pieceSize w o' := by
  cases o <;> rfl

/-- **Every instant.** A list of gentle operations keeps what holds, wherever it stops. -/
theorem Inv.afterAll (h : Inv pieceSize w) {ops : List (DiskOp (Cell β))}
    (hops : ∀ o ∈ ops, Gentle pieceSize w o) : Inv pieceSize (w.afterAll ops) := by
  induction ops generalizing w with
  | nil => exact h
  | cons o ops ih =>
    refine ih (h.after (hops o List.mem_cons_self)) fun o' ho' => ?_
    exact (gentle_after o o').mpr (hops o' (List.mem_cons_of_mem o ho'))

theorem mem_may_after {o : DiskOp (Cell β)} (ho : o ≠ .fsyncSidecar) {x : Saved}
    (hx : x ∈ w.sidecar.may) : x ∈ (w.after o).sidecar.may := by
  cases o with
  | sidecar content => exact Stable.mem_may_replace.mpr (Or.inl hx)
  | fsyncSidecar => exact absurd rfl ho
  | _ => exact hx

theorem vouch_after (o : DiskOp (Cell β)) : (w.after o).vouch = w.vouch := by
  cases o <;> rfl

/-- Without a sync, every content an operation list gives the sidecar can be left of it. -/
theorem mem_may_afterAll {ops : List (DiskOp (Cell β))} (hops : ∀ o ∈ ops, o ≠ .fsyncSidecar)
    {content : Option (List UInt8)} (hmem : .sidecar content ∈ ops) :
    ⟨content, w.vouch⟩ ∈ (w.afterAll ops).sidecar.may := by
  have hkept : ∀ (ops : List (DiskOp (Cell β))), (∀ o ∈ ops, o ≠ .fsyncSidecar) →
      ∀ (w : World φ β δ) x, x ∈ w.sidecar.may → x ∈ (w.afterAll ops).sidecar.may := by
    intro ops
    induction ops with
    | nil => exact fun _ _ _ hx => hx
    | cons o ops ih =>
      exact fun hops w x hx => ih (fun o' ho' => hops o' (List.mem_cons_of_mem o ho')) (w.after o) x
        (mem_may_after (hops o List.mem_cons_self) hx)
  induction ops generalizing w with
  | nil => cases hmem
  | cons o ops ih =>
    have htail : ∀ o' ∈ ops, o' ≠ .fsyncSidecar := fun o' ho' =>
      hops o' (List.mem_cons_of_mem o ho')
    rcases List.mem_cons.mp hmem with rfl | htl
    · exact hkept ops htail _ _ (Stable.mem_may_replace.mpr (Or.inr rfl))
    · rw [← vouch_after (w := w) o]
      exact ih htail htl

/-- A plain save writes prefixes of its blob, and syncs nothing. -/
theorem mem_diskOps_saveBits {c : Cached φ δ} {result : Bool → SaveResult} {o : DiskOp (Cell β)}
    (h : o ∈ diskOps pieceSize result [c.saveBits false]) :
    ∃ k, o = .sidecar (some ((ModelFs.saveBits pieceSize (UInt64.ofNat c.size) c.bits
      c.originId).take k)) := by
  rw [diskOps, List.flatMap_singleton] at h
  exact mem_writeFileFull_plain h

/-- Fields of one length, under one identity, leave the same bits of it to be taken for marks. -/
theorem Readable.congr {c c' : Cached φ δ} (h : Readable pieceSize c) (hsize : c'.size = c.size)
    (hnbits : c'.bits.nbits = c.bits.nbits) (hid : c'.originId = c.originId) :
    Readable pieceSize c' := by
  intro i hshows
  refine h i ?_
  unfold IdentityShows at hshows ⊢
  have hlen : c'.bits.bytes.length = c.bits.bytes.length := by
    rw [Bitfield.length_eq, hnbits, ← Bitfield.length_eq]
  rw [hsize, hid, hlen] at hshows
  obtain ⟨hi, hout, hfit, hbit⟩ := hshows
  refine ⟨hi, hout, hfit, ?_⟩
  rw [bitAt_append, if_neg (by omega)] at hbit ⊢
  rwa [hlen] at hbit

/-- A plain save of the marks there are. Where it adds nothing the sidecar can be left with, its
contents were there, and backed, before. -/
theorem gentle_save {c : Cached φ δ} {result : Bool → SaveResult} (h : Inv pieceSize w)
    (hmarked : ∀ i, w₁.entry.bits.get i = true ↔ ∃ v, w₁.vouch i = some v)
    (hc : w₁.entry = c) (hsize : c.size = w.entry.size) (hnbits : c.bits.nbits = w.entry.bits.nbits)
    (hid : c.originId = w.entry.originId)
    (hsaves : Saves w (w₁.afterAll (diskOps pieceSize result [c.saveBits false])) →
      Readable pieceSize w.entry) :
    ∀ o ∈ diskOps pieceSize result [c.saveBits false], Gentle pieceSize w₁ o := by
  intro o ho
  obtain ⟨k, rfl⟩ := mem_diskOps_saveBits ho
  intro i hshow
  by_cases hadds : Saves w (w₁.afterAll (diskOps pieceSize result [c.saveBits false]))
  · obtain ⟨size, originId, hload⟩ := hshow
    rcases get_or_identityShows hload with hbit | hshows
    · exact (hmarked i).mp (hc ▸ hbit)
    · exact absurd hshows ((hsaves hadds).congr hsize hnbits hid i)
  · have hplain : ∀ o' ∈ diskOps pieceSize result [c.saveBits false],
        o' ≠ (.fsyncSidecar : DiskOp (Cell β)) := by
      rintro o' ho' rfl
      obtain ⟨k', hk'⟩ := mem_diskOps_saveBits ho'
      cases hk'
    have hmay := mem_may_afterAll (w := w₁) hplain ho
    have hold : ⟨_, w₁.vouch⟩ ∈ w.sidecar.may := by_contra fun hnew => hadds ⟨_, hmay, hnew⟩
    obtain ⟨v, hv, -⟩ := h.backed _ hold w.data.now w.data.now_mem i hshow
    exact ⟨v, hv⟩

/-- Memory changes, the files do not, nor the marks and their history. -/
theorem Inv.remember (h : Inv pieceSize w) (hsidecar : w₁.sidecar = w.sidecar)
    (hdata : w₁.data = w.data) (hsize : w₁.entry.size = w.entry.size)
    (hserial : w.serial ≤ w₁.serial) (hvouch : w₁.vouch = w.vouch)
    (hbits : w₁.entry.bits = w.entry.bits) : Inv pieceSize w₁ := by
  refine ⟨fun i => ?_, fun f hf i v hv o hin => ?_, fun x hx f hf i hshow => ?_,
    fun i v hv o => ?_, fun x hx i v hv hshow o => ?_, fun f hf o => ?_⟩
  · rw [hvouch, hbits]
    exact h.marked i
  · rw [hdata] at hf
    rw [hvouch] at hv
    exact h.held f hf i v hv o ((inPiece_congr hsize).mp hin)
  · rw [hdata] at hf
    rw [hsidecar] at hx
    obtain ⟨v, hv, hle⟩ := h.backed x hx f hf i hshow
    exact ⟨v, hv, fun o hin => hle o ((inPiece_congr hsize).mp hin)⟩
  · rw [hvouch] at hv
    exact (h.bound i v hv o).trans hserial
  · rw [hsidecar] at hx
    exact (h.savedBound x hx i v hv hshow o).trans hserial
  · rw [hdata] at hf
    exact (h.aged f hf o).trans hserial

/-- A piece has a history after a section when it is marked: its bytes as they are, if the section
set the mark, else the one it had. -/
theorem vouchFor_eq_some {bits : Bitfield} {sets : Nat → Bool} {i : Nat} {v : Nat → Nat}
    (hv : w.vouchFor bits sets i = some v) :
    bits.get i = true ∧
      (sets i = true ∧ (v = fun o => age (w.data.now.cell o)) ∨ w.vouch i = some v) := by
  unfold World.vouchFor at hv
  split_ifs at hv with hi hset
  · exact ⟨hi, Or.inl ⟨hset, (Option.some.inj hv).symm⟩⟩
  · exact ⟨hi, Or.inr hv⟩

/-- Marks are set over bytes that are on disk. -/
theorem Inv.vouchFor (h : Inv pieceSize w) {sets : Nat → Bool} {entry : Cached φ δ}
    (job : Option (Job β δ)) (hsize : entry.size = w.entry.size)
    (hbits : ∀ i, entry.bits.get i = true → w.entry.bits.get i = true ∨ sets i = true)
    (hflush : ∀ i, sets i = true → Flushed pieceSize w i) :
    Inv pieceSize { w with entry := entry, job := job, vouch := w.vouchFor entry.bits sets } := by
  refine ⟨fun i => ⟨fun hi => ?_, fun ⟨v, hv⟩ => (vouchFor_eq_some hv).1⟩,
    fun f hf i v hv o hin => ?_, fun x hx f hf i hshow => ?_, fun i v hv o => ?_, h.savedBound,
    h.aged⟩
  · show ∃ v, w.vouchFor entry.bits sets i = some v
    have hi' : entry.bits.get i = true := hi
    unfold World.vouchFor
    rw [if_pos hi']
    split_ifs with hset
    · exact ⟨_, rfl⟩
    · exact (h.marked i).mp ((hbits i hi').resolve_right hset)
  · have hin' := (inPiece_congr hsize).mp hin
    rcases (vouchFor_eq_some hv).2 with ⟨hset, rfl⟩ | hold
    · exact hflush i hset f hf o hin'
    · exact h.held f hf i v hold o hin'
  · obtain ⟨v, hv, hle⟩ := h.backed x hx f hf i hshow
    exact ⟨v, hv, fun o hin => hle o ((inPiece_congr hsize).mp hin)⟩
  · rcases (vouchFor_eq_some hv).2 with ⟨-, rfl⟩ | hold
    · exact h.aged _ w.data.now_mem o
    · exact h.bound i v hold o

end Files

/-! ## Operations -/

section Operations

variable {digest pieceSize} {w w₁ : World φ β δ} {ops : List (DiskOp (Cell β))}

omit [DecidableEq δ] in
theorem size_beginFill (n : Nat) (c : Cached φ δ) (idx : Nat) (nowSec : Int) :
    (c.beginFill n idx nowSec).1.size = c.size := by
  rcases c.beginFill_cases n idx nowSec with ⟨-, h⟩ | ⟨-, -, -, -, h⟩
  · exact h.size
  · rw [h]

/-- What the last section of a job does to the entry it is run on. -/
structure Finished (digest : List β → δ) (n : Nat) (c : Cached φ δ) (j : Job β δ)
    (r : Cached φ δ × List (Io φ)) : Prop where
  size : r.1.size = c.size
  nbits : r.1.bits.nbits = c.bits.nbits
  originId : r.1.originId = c.originId
  saves : r.2 = [] ∨ r.2 = [r.1.saveBits false]
  get : ∀ i, r.1.bits.get i = true → c.bits.get i = true ∨ j.sets digest n c i = true

/-- The last section of a job leaves the size and the identity, sets the marks it may, and saves
what it leaves or nothing. -/
theorem finish_spec (digest : List β → δ) (n : Nat) (c : Cached φ δ) (j : Job β δ) (nowSec : Int)
    {r : Cached φ δ × List (Io φ)}
    (hr : (match j.target with
      | .fill idx hash => c.finishPiece n idx j.landed j.data.length hash nowSec
      | .copy =>
        ((c.markCopy digest n j.off j.data j.landed).1,
          (c.markCopy digest n j.off j.data j.landed).2.1)) = r) :
    Finished digest n c j r := by
  cases htarget : j.target with
  | fill idx hash =>
    rw [htarget] at hr
    subst hr
    obtain ⟨hsize, -, hnbits, -, -⟩ :=
      c.finishPiece_keeps n idx j.landed j.data.length hash nowSec
    refine ⟨hsize, hnbits, Cached.originId_finishPiece, Cached.finishPiece_saves, fun i hi => ?_⟩
    unfold Job.sets
    rcases Cached.get_finishPiece hi with hold | ⟨rfl, hok, hlive, hstands⟩
    · exact Or.inl hold
    · exact Or.inr (by simp [htarget, hok, hlive, hstands])
  | copy =>
    rw [htarget] at hr
    subst hr
    have hkept : (c.markCopy digest n j.off j.data j.landed).1.size = c.size ∧
        (c.markCopy digest n j.off j.data j.landed).1.bits.nbits = c.bits.nbits := by
      rcases Cached.markCopy_cases digest n j.off j.data c j.landed with ⟨h, -⟩ | ⟨-, -, h⟩
      · rw [h]
        exact ⟨rfl, rfl⟩
      · exact ⟨h.size, h.nbits⟩
    refine ⟨hkept.1, hkept.2, Cached.originId_markCopy .., Cached.markCopy_saves .., fun i hi => ?_⟩
    unfold Job.sets
    rcases Cached.get_markCopy digest n j.off j.data hi with hold | ⟨hok, hset⟩
    · exact Or.inl hold
    · exact Or.inr (by simp [htarget, hok, hset])

theorem Inv.act (h : Inv pieceSize w) {op : Op φ β δ}
    (hact : act digest pieceSize w op = some (w₁, ops))
    (hflush : Flushes digest pieceSize w w₁)
    (hsaves : Saves w (w₁.afterAll ops) → Readable pieceSize w.entry) :
    Inv pieceSize w₁ ∧ ∀ o ∈ ops, Gentle pieceSize w₁ o := by
  have hnone : ∀ w' : World φ β δ, ∀ o ∈ ([] : List (DiskOp (Cell β))), Gentle pieceSize w' o := by
    simp
  cases op with
  | claim idx nowSec =>
    cases hact
    exact ⟨h.remember rfl rfl (size_beginFill ..) le_rfl rfl
      (Cached.bits_beginFill pieceSize.toNat w.entry idx nowSec), hnone _⟩
  | fill idx buf hash =>
    dsimp only [Fills.act] at hact
    split at hact
    · cases hact
    · split at hact
      · cases hact
        exact ⟨h.remember rfl rfl rfl le_rfl rfl rfl, hnone _⟩
      · cases hact
        exact ⟨h.remember rfl rfl rfl le_rfl rfl rfl, hnone _⟩
  | copy off data =>
    dsimp only [Fills.act] at hact
    split at hact
    · cases hact
    · cases hact
      exact ⟨h.remember rfl rfl rfl le_rfl rfl rfl, hnone _⟩
  | openCache opened =>
    cases hjob : w.job with
    | none =>
      simp only [Fills.act, hjob] at hact
      cases hact
    | some j =>
      simp only [Fills.act, hjob] at hact
      split at hact
      · cases hact
      · cases hact
        have halike := w.entry.openCacheUnlocked_alike opened
        refine ⟨h.remember rfl rfl halike.size le_rfl rfl halike.bits, ?_⟩
        rcases w.entry.openCacheUnlocked_cases opened with hsame | ⟨-, fd, -, hcut⟩
        · simp [hsame, diskOps]
        · intro o ho
          rw [hcut] at ho ⊢
          rw [diskOps, List.flatMap_singleton] at ho
          obtain rfl := List.mem_singleton.mp ho
          exact le_rfl
  | pwrite n =>
    cases hjob : w.job with
    | none =>
      simp only [Fills.act, hjob] at hact
      cases hact
    | some j =>
      simp only [Fills.act, hjob] at hact
      split at hact
      · cases hact
      · cases hact
        refine ⟨h.remember rfl rfl rfl (Nat.le_succ _) rfl rfl, fun o ho => ?_⟩
        obtain rfl := List.mem_singleton.mp ho
        intro cell hcell
        obtain ⟨b, -, rfl⟩ := List.mem_map.mp hcell
        rfl
  | finish nowSec result =>
    cases hjob : w.job with
    | none =>
      simp only [Fills.act, hjob] at hact
      cases hact
    | some j =>
      simp only [Fills.act, hjob] at hact
      cases hact
      have hdone := finish_spec digest pieceSize.toNat w.entry j nowSec rfl
      have hinv := h.vouchFor none hdone.size hdone.get (hflush rfl j hjob)
      refine ⟨hinv, ?_⟩
      rcases hdone.saves with hio | hio
      · rw [hio]
        exact hnone _
      · rw [hio] at hsaves ⊢
        exact gentle_save h hinv.marked rfl hdone.size hdone.nbits hdone.originId hsaves
  | abortFill idx nowSec result =>
    cases hact
    obtain ⟨hsize, -, hnbits, -, -⟩ :=
      w.entry.finishPiece_keeps pieceSize.toNat idx false 0 none nowSec
    have hinv : Inv pieceSize { w with
        entry := (w.entry.abortFill pieceSize.toNat idx nowSec).1 } :=
      h.remember rfl rfl hsize le_rfl rfl Cached.bits_abortFill
    refine ⟨hinv, ?_⟩
    rcases w.entry.abortFill_saves with hio | hio
    · rw [hio]
      exact hnone _
    · rw [hio] at hsaves ⊢
      exact gentle_save h hinv.marked rfl hsize hnbits Cached.originId_finishPiece hsaves
  | saveBits result =>
    cases hact
    exact ⟨h, gentle_save h h.marked rfl rfl rfl rfl hsaves⟩
  | beginXfer =>
    cases hact
    exact ⟨h.remember rfl rfl rfl le_rfl rfl rfl, hnone _⟩
  | endXfer =>
    cases hact
    exact ⟨h.remember rfl rfl rfl le_rfl rfl rfl, hnone _⟩

omit [DecidableEq δ] in
theorem job_afterAll (w : World φ β δ) (ops : List (DiskOp (Cell β))) :
    (w.afterAll ops).job = w.job := by
  induction ops generalizing w with
  | nil => rfl
  | cons o ops ih =>
    refine (ih (w.after o)).trans ?_
    cases o <;> rfl

theorem Careful.flushes {ops : List (DiskOp (Cell β))}
    (h : Careful digest pieceSize w (w₁.afterAll ops)) : Flushes digest pieceSize w w₁ :=
  fun hjob => h.1 ((job_afterAll w₁ ops).trans hjob)

theorem Inv.move (h : Inv pieceSize w) (hmove : Move digest pieceSize w w₁)
    (hcareful : Careful digest pieceSize w w₁) : Inv pieceSize w₁ := by
  cases hmove with
  | finish hact =>
    obtain ⟨hmem, hgentle⟩ := h.act hact hcareful.flushes hcareful.2
    exact hmem.afterAll hgentle
  | writeBack sidecar data hsidecar hdata =>
    exact ⟨h.marked, fun f hf => h.held f (hdata.2 hf),
      fun x hx f hf => h.backed x (hsidecar.2 hx) f (hdata.2 hf), h.bound,
      fun x hx => h.savedBound x (hsidecar.2 hx), fun f hf => h.aged f (hdata.2 hf)⟩

/-- **When fills are crash-safe.** In a run of careful steps the history is about the marks there
are, and at every instant of the next operation each piece that a surviving sidecar shows was marked
over bytes that survive with it. -/
theorem backed_of_run {w₀ : World φ β δ} {op : Op φ β δ} (hstart : w₀.Settled pieceSize)
    (hrun : Run (Move digest pieceSize) (Careful digest pieceSize) w₀ w)
    (hact : act digest pieceSize w op = some (w₁, ops))
    (hcareful : Careful digest pieceSize w (w₁.afterAll ops)) :
    (∀ i, w₁.entry.bits.get i = true ↔ ∃ v, w₁.vouch i = some v) ∧
      ∀ k, Backed pieceSize (w₁.afterAll (ops.take k)) := by
  have hinv : Inv pieceSize w :=
    Run.invariant (fun _ _ h hmove hcond => h.move hmove hcond) (Inv.of_settled hstart) hrun
  obtain ⟨hmem, hgentle⟩ := hinv.act hact hcareful.flushes hcareful.2
  exact ⟨hmem.marked, fun k =>
    (hmem.afterAll fun o ho => hgentle o (List.mem_of_mem_take ho)).backed⟩

end Operations

/-- One piece of four bytes, not cached, and its data file a hole. -/
def onePiece : World Unit UInt8 Unit where
  entry := { size := 4, bits := Bitfield.init 1, cacheFd := some () }
  sidecar := .settled ⟨none, fun _ => none⟩
  data := .settled ⟨4, fun _ => none⟩
  vouch _ := none

theorem onePiece_settled : onePiece.Settled 4 := by
  have hempty : ∀ i, ¬ Shows 4 i none := fun i ⟨size, originId, hi⟩ =>
    Bool.noConfusion ((unmarks_none 4 i size originId).symm.trans hi)
  exact ⟨⟨_, rfl, fun i hshow => absurd hshow (hempty i)⟩, ⟨_, rfl⟩, rfl,
    fun i => by simp [onePiece], fun _ => le_rfl⟩

/-- The digest of nothing in particular. -/
def noDigest (_ : List UInt8) : Unit := ()

/-- **A lost fill.** The piece is fetched, written, marked and saved; then the power goes, the
sidecar survives, and of the data file the hole does. -/
theorem lost_after_fill :
    ∃ (w₀ w w₁ : World Unit UInt8 Unit) (op : Op Unit UInt8 Unit) (ops : List _),
      w₀.Settled 4 ∧ Run (Move noDigest 4) Always w₀ w ∧ act noDigest 4 w op = some (w₁, ops) ∧
        ¬ Backed 4 (w₁.afterAll ops) := by
  have h₀ : Run (Move noDigest 4) Always onePiece onePiece := Run.refl _
  have h₁ := h₀.then (.finish (show act noDigest 4 _ (.claim 0 0) = some _ from rfl))
  have h₂ := h₁.then
    (.finish (show act noDigest 4 _ (.fill 0 [1, 2, 3, 4] none) = some _ from rfl))
  have h₃ := h₂.then (.finish (show act noDigest 4 _ (.openCache none) = some _ from rfl))
  have h₄ := h₃.then (.finish (show act noDigest 4 _ (.pwrite 4) = some _ from rfl))
  refine ⟨_, _, _, .finish 0 .done, _, onePiece_settled, h₄, rfl, fun hbacked => ?_⟩
  have hshow : Shows 4 0 (some (saveBits 4 4 ((Bitfield.init 1).set 0) {})) := ⟨4, {}, by decide⟩
  obtain ⟨v, hv, hle⟩ := hbacked _ (Stable.now_mem _) ⟨4, fun _ => none⟩ (Or.inl rfl) 0 hshow
  cases hv
  exact absurd (hle 0 ⟨by decide, by decide⟩) (by decide)

/-- The same fill, its bytes written back before its last section: the sidecar then shows it. -/
theorem backed_of_run_writeBack :
    ∃ (w w₁ : World Unit UInt8 Unit) (ops : List _),
      Run (Move noDigest 4) (Careful noDigest 4) onePiece w ∧
        act noDigest 4 w (.finish 0 .done) = some (w₁, ops) ∧
        Shows 4 0 (w₁.afterAll ops).sidecar.now.content ∧
        ∀ k, Backed 4 (w₁.afterAll (ops.take k)) := by
  have hsame : ∀ {w w' : World Unit UInt8 Unit}, w'.sidecar = w.sidecar → ¬ Saves w w' :=
    fun hside ⟨x, hx, hnew⟩ => hnew (hside ▸ hx)
  have h₀ : Run (Move noDigest 4) (Careful noDigest 4) onePiece onePiece := Run.refl _
  have h₁ := h₀.tail (.finish (show act noDigest 4 _ (.claim 0 0) = some _ from rfl))
    ⟨fun _ _ hj => (nomatch hj), fun hadds => absurd hadds (hsame rfl)⟩
  have h₂ := h₁.tail
    (.finish (show act noDigest 4 _ (.fill 0 [1, 2, 3, 4] none) = some _ from rfl))
    ⟨fun _ _ hj => (nomatch hj), fun hadds => absurd hadds (hsame rfl)⟩
  have h₃ := h₂.tail (.finish (show act noDigest 4 _ (.openCache none) = some _ from rfl))
    ⟨fun hn => (nomatch hn), fun hadds => absurd hadds (hsame rfl)⟩
  have h₄ := h₃.tail (.finish (show act noDigest 4 _ (.pwrite 4) = some _ from rfl))
    ⟨fun hn => (nomatch hn), fun hadds => absurd hadds (hsame rfl)⟩
  have h₅ := h₄.tail
    (.writeBack _ _ (.sync (World.data _)) ⟨rfl, fun _ h => h⟩
      ⟨rfl, fun f hf => (Stable.mem_may_sync.mp hf) ▸ Stable.now_mem _⟩)
    ⟨fun hn => (nomatch hn), fun hadds => absurd hadds (hsame rfl)⟩
  refine ⟨_, _, _, h₅, rfl, ⟨4, {}, by decide⟩, ?_⟩
  refine (backed_of_run onePiece_settled h₅
    (show act noDigest 4 _ (.finish 0 .done) = some _ from rfl) ⟨?_, fun _ i hshows => ?_⟩).2
  · intro _ j _ i _ f hf o _
    rw [Stable.mem_may_sync.mp hf]
    exact le_rfl
  · -- the field has the one byte it is to have
    obtain ⟨hi, hout, -⟩ := hshows
    exact absurd (hout.trans_lt hi) (by decide)

end Fills

end ModelFs
