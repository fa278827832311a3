import ModelFs.Cached
import ModelFs.Lib.SparseFile
import ModelFs.Lib.Stable
import ModelFs.Sidecar

/-!
# The files of an entry on disk

The data file and the `.pieces` sidecar of one path, each with the contents a power loss can
leave of it. A save of the sidecar opens the file with `O_TRUNC` and writes in place, so each
prefix of what it writes is a content of its own, at which the save can fail and the power can
go. Only the durable save ends with an `fsync`, of the sidecar alone: nothing ever syncs the
data file. What can be left of the sidecar is what its path can lead to, a file an earlier unlink
took away from it among them. What an `fsync` of the new file does about those is the file
system's business, so it is a field of the disk (`SettlesNames`).

`Unmarks` is what the operations that free bytes need of the sidecar: no load of it, under
whatever size and identity, shows the piece.

* `get_or_identityShows` — a load of a save, cut off anywhere, shows marks of the field and bits of
  the identity.
* `unmarks_saveBits` — a saved field without the mark unmarks the piece, cut off anywhere.
-/

namespace ModelFs

/-- What is done to the files of a path. -/
inductive DiskOp (κ : Type) where
  /-- The sidecar has this content now; `none` is no file. -/
  | sidecar (content : Option (List UInt8))
  | fsyncSidecar
  | pwrite (off : Nat) (cells : List κ)
  | ftruncate (len : Nat)
  | punchHole (off len : Nat)
  | unlinkData

/-- The files of a path. -/
structure Disk (κ : Type) where
  sidecar : Stable (Option (List UInt8))
  data : Stable (SparseFile κ)
  /-- What an `fsync` of the sidecar makes of what its path can lead to after a power loss. -/
  fsync : Stable (Option (List UInt8)) → Stable (Option (List UInt8))

namespace Disk

variable {κ : Type}

/-- An `fsync` of a file settles its name with its content: no file that had the name before comes
back. The standard leaves this open; journaling file systems, which punch the holes, do it. -/
def SettlesNames (d : Disk κ) : Prop := ∀ s, d.fsync s = s.sync

def step (d : Disk κ) : DiskOp κ → Disk κ
  | .sidecar content => { d with sidecar := d.sidecar.replace content }
  | .fsyncSidecar => { d with sidecar := d.fsync d.sidecar }
  | .pwrite off cells => { d with data := d.data.update fun f => f.pwrite off cells }
  | .ftruncate len => { d with data := d.data.update fun f => f.ftruncate len }
  | .punchHole off len => { d with data := d.data.update fun f => f.punch off len }
  | .unlinkData => { d with data := d.data.replace SparseFile.empty }

def run (d : Disk κ) (ops : List (DiskOp κ)) : Disk κ := ops.foldl step d

@[simp] theorem run_nil (d : Disk κ) : d.run [] = d := rfl

@[simp] theorem run_cons (d : Disk κ) (o : DiskOp κ) (ops : List (DiskOp κ)) :
    d.run (o :: ops) = (d.step o).run ops := rfl

@[simp] theorem run_append (d : Disk κ) (ops ops' : List (DiskOp κ)) :
    d.run (ops ++ ops') = (d.run ops).run ops' := List.foldl_append ..

theorem fsync_run (d : Disk κ) (ops : List (DiskOp κ)) : (d.run ops).fsync = d.fsync := by
  induction ops generalizing d with
  | nil => rfl
  | cons o ops ih =>
    rw [run_cons, ih]
    cases o <;> rfl

theorem SettlesNames.run {d : Disk κ} (h : d.SettlesNames) (ops : List (DiskOp κ)) :
    (d.run ops).SettlesNames := by
  unfold SettlesNames
  rw [fsync_run]
  exact h

end Disk

/-! ## Saves -/

/-- How a write of the sidecar ends: before it changed a byte (no memory, no path, no open), after
`n` bytes or, with all of them written, in an `fsync` that failed, in the `close` behind it, or
well. -/
inductive SaveResult where
  | refused
  | short (n : Nat)
  | unsynced
  | unclosed
  | done
  deriving DecidableEq, Repr

def SaveResult.ok : SaveResult → Bool
  | .done => true
  | _ => false

section Saves

variable {κ : Type}

/-- `O_TRUNC`, then the first `n` bytes. -/
def truncWrite (blob : List UInt8) (n : Nat) : List (DiskOp κ) :=
  (List.range (n + 1)).map fun k => .sidecar (some (blob.take k))

/-- `writeFileFull` on the sidecar. -/
def writeFileFull (blob : List UInt8) (durable : Bool) : SaveResult → List (DiskOp κ)
  | .refused => []
  | .short n => truncWrite blob n
  | .unsynced => truncWrite blob blob.length
  | .unclosed => truncWrite blob blob.length ++ if durable then [.fsyncSidecar] else []
  | .done => truncWrite blob blob.length ++ if durable then [.fsyncSidecar] else []

/-- What an operation of a section does to the files; `result` is what its durable and its plain
saves come to. -/
def Io.diskOps {φ : Type} (pieceSize : UInt32) (result : Bool → SaveResult) :
    Io φ → List (DiskOp κ)
  | .save size bits originId durable =>
    writeFileFull (ModelFs.saveBits pieceSize (UInt64.ofNat size) bits originId) durable
      (result durable)
  | .cut _ len => [.ftruncate len]
  | .punch _ off len => [.punchHole off len]
  | .unlinkData => [.unlinkData]
  | .unlinkMeta => [.sidecar none]
  | .unlinkPin => []

/-- What a section of the entry does to the files. -/
def diskOps {φ : Type} (pieceSize : UInt32) (result : Bool → SaveResult) (io : List (Io φ)) :
    List (DiskOp κ) :=
  io.flatMap (Io.diskOps pieceSize result)

theorem mem_truncWrite {blob : List UInt8} {n : Nat} {o : DiskOp κ} (h : o ∈ truncWrite blob n) :
    ∃ k, o = .sidecar (some (blob.take k)) := by
  simp only [truncWrite, List.mem_map] at h
  obtain ⟨k, -, rfl⟩ := h
  exact ⟨k, rfl⟩

/-- A plain save writes prefixes of its blob. -/
theorem mem_writeFileFull_plain {blob : List UInt8} {result : SaveResult} {o : DiskOp κ}
    (h : o ∈ writeFileFull blob false result) : ∃ k, o = .sidecar (some (blob.take k)) := by
  have hwhole : o ∈ truncWrite blob blob.length ++ [] → ∃ k, o = .sidecar (some (blob.take k)) := by
    rw [List.append_nil]
    exact mem_truncWrite
  cases result with
  | refused => cases h
  | short n => exact mem_truncWrite h
  | unsynced => exact mem_truncWrite h
  | unclosed => exact hwhole h
  | done => exact hwhole h

/-- A save writes prefixes of its blob, and syncs. -/
theorem mem_writeFileFull {blob : List UInt8} {durable : Bool} {result : SaveResult} {o : DiskOp κ}
    (h : o ∈ writeFileFull blob durable result) :
    (∃ k, o = .sidecar (some (blob.take k))) ∨ o = .fsyncSidecar := by
  have hwhole : o ∈ truncWrite blob blob.length ++ (if durable then [.fsyncSidecar] else []) →
      (∃ k, o = .sidecar (some (blob.take k))) ∨ o = .fsyncSidecar := by
    intro ho
    rcases List.mem_append.mp ho with ho | ho
    · exact Or.inl (mem_truncWrite ho)
    · cases durable with
      | true => exact Or.inr (List.mem_singleton.mp ho)
      | false => cases ho
  cases result with
  | refused => cases h
  | short n => exact Or.inl (mem_truncWrite h)
  | unsynced => exact Or.inl (mem_truncWrite h)
  | unclosed => exact hwhole h
  | done => exact hwhole h

/-- What leaves the data file alone only writes and syncs the sidecar. -/
theorem mem_diskOps_of_soft {φ : Type} {pieceSize : UInt32} {result : Bool → SaveResult}
    {io : List (Io φ)} (hsoft : ∀ i ∈ io, i.soft = true) {o : DiskOp κ}
    (h : o ∈ diskOps pieceSize result io) :
    (∃ content, o = .sidecar content) ∨ o = .fsyncSidecar := by
  obtain ⟨i, hi, ho⟩ := List.mem_flatMap.mp h
  have hi' := hsoft i hi
  cases i with
  | save size bits originId durable =>
    rcases mem_writeFileFull ho with ⟨k, hk⟩ | hsync
    · exact Or.inl ⟨_, hk⟩
    · exact Or.inr hsync
  | unlinkMeta => exact Or.inl ⟨none, List.mem_singleton.mp ho⟩
  | unlinkPin => cases ho
  | cut fd len => cases hi'
  | punch fd off len => cases hi'
  | unlinkData => cases hi'

end Saves

/-! ## Sidecars that do not show a piece -/

/-- What reading the sidecar comes to. -/
def readContent : Option (List UInt8) → SidecarRead
  | none => .missing
  | some bytes => readSidecar bytes

/-- No load of the sidecar marks piece `i`. -/
def Unmarks (pieceSize : UInt32) (i : Nat) (content : Option (List UInt8)) : Prop :=
  ∀ size originId, (loadBits pieceSize (readContent content) size originId).bits.get i = false

/-- The field says that piece `i` is missing: it has the bit, or it has all bits the size calls
for. -/
def FieldUnmarks (pieceSize : UInt32) (size : UInt64) (bits : Bitfield) (i : Nat) : Prop :=
  bits.get i = false ∧ (i < bits.nbits ∨ bits.bytes.length = fieldLen pieceSize size)

theorem unmarks_none (pieceSize : UInt32) (i : Nat) : Unmarks pieceSize i none :=
  fun _ _ => Bitfield.get_init ..

theorem get_loadBits_of_decode {pieceSize : UInt32} {i : Nat} {blob : List UInt8} {size : UInt64}
    {originId : OriginId}
    (h : ∀ bits, Bitfield.decode blob pieceSize size = some bits → bits.get i = false) :
    (loadBits pieceSize (readContent (some blob)) size originId).bits.get i = false := by
  rw [readContent, readSidecar]
  split_ifs
  · exact Bitfield.get_init ..
  · exact get_loadBits_eq_false h

theorem fieldUnmarks_loadBits {pieceSize : UInt32} {i : Nat} {content : Option (List UInt8)}
    (h : Unmarks pieceSize i content) (size : UInt64) (originId : OriginId) :
    FieldUnmarks pieceSize size (loadBits pieceSize (readContent content) size originId).bits
      i := by
  refine ⟨h size originId, Or.inr ?_⟩
  rw [Bitfield.length_eq, nbits_loadBits, fieldLen]

/-- Fewer marks in a field of the same length say as much. -/
theorem FieldUnmarks.narrow {pieceSize : UInt32} {size : UInt64} {bits bits' : Bitfield} {i : Nat}
    (h : FieldUnmarks pieceSize size bits i) (hnbits : bits'.nbits = bits.nbits)
    (hget : bits'.get i = true → bits.get i = true) : FieldUnmarks pieceSize size bits' i := by
  obtain ⟨hbit, hfit⟩ := h
  refine ⟨?_, ?_⟩
  · rw [← Bool.not_eq_true] at hbit ⊢
    exact fun hi => hbit (hget hi)
  · rw [Bitfield.length_eq, hnbits, ← Bitfield.length_eq]
    exact hfit

/-- Clearing a bit the field has. -/
theorem fieldUnmarks_clear {bits : Bitfield} {i : Nat} (h : bits.get i = true)
    (pieceSize : UInt32) (size : UInt64) : FieldUnmarks pieceSize size (bits.clear i) i := by
  refine ⟨?_, Or.inl ?_⟩
  · simp [Bitfield.get_clear]
  · rw [Bitfield.nbits_clear]
    exact Bitfield.lt_of_get h

section Unmarks

variable {pieceSize : UInt32} {size : UInt64} {bits : Bitfield} {originId : OriginId} {i : Nat}

/-- A set bit of the identity stands where a load looks for the mark of piece `i`: the field ends
before it, and is short by no more than the trailer. -/
def IdentityShows (pieceSize : UInt32) (size : UInt64) (bits : Bitfield) (originId : OriginId)
    (i : Nat) : Prop :=
  i < Piece.count size.toNat pieceSize.toNat ∧ 8 * bits.bytes.length ≤ i ∧
    fieldLen pieceSize size ≤ bits.bytes.length + (identityTrailer originId).length ∧
    bitAt (bits.bytes ++ identityTrailer originId) i = true

/-- **What a load of a save shows.** Whatever part of the save is written, each mark is one of the
field, or a bit of the identity. -/
theorem get_or_identityShows {n : Nat} {size' : UInt64} {originId' : OriginId}
    (h : (loadBits pieceSize (readContent (some ((saveBits pieceSize size bits originId).take n)))
      size' originId').bits.get i = true) :
    bits.get i = true ∨ IdentityShows pieceSize size bits originId i := by
  have hblob : saveBits pieceSize size bits originId =
      sidecarHeader pieceSize size ++ (bits.bytes ++ identityTrailer originId) := by
    rw [saveBits, Bitfield.encodeTo, List.append_assoc]
  rw [hblob, List.take_append, length_sidecarHeader] at h
  by_cases hn : n < 16
  · -- not even the header
    have hshort : ((sidecarHeader pieceSize size).take n ++
        (bits.bytes ++ identityTrailer originId).take (n - 16)).length < 16 := by
      simp only [List.length_append, List.length_take, length_sidecarHeader]
      omega
    rw [get_loadBits_of_decode fun bits' hdecode => ?_] at h
    · exact Bool.noConfusion h
    · rw [decode_of_short hshort] at hdecode
      cases hdecode
  rw [List.take_of_length_le (by rw [length_sidecarHeader]; omega)] at h
  by_cases hsize : size' = size
  · subst hsize
    rw [readContent, get_loadBits_header, Bool.and_eq_true, Bool.and_eq_true, decide_eq_true_iff,
      decide_eq_true_iff, bitAt_take, Bool.and_eq_true] at h
    obtain ⟨⟨hacc, hbit, -⟩, hi⟩ := h
    by_cases hfield : i < 8 * bits.bytes.length
    · rw [bitAt_append, if_pos hfield, ← Bitfield.get_eq_bitAt] at hbit
      exact Or.inl hbit
    · have hlen := hacc.2.2
      rw [List.length_take, List.length_append] at hlen
      refine Or.inr ⟨hi, by omega, ?_, hbit⟩
      rcases hlen with hlen | ⟨hlen, -⟩ <;> omega
  · rw [get_loadBits_of_decode fun bits' hdecode =>
      get_decode_of_size_ne pieceSize size _ hsize hdecode i] at h
    exact Bool.noConfusion h

/-- The field's bits come before the identity's. -/
theorem FieldUnmarks.not_identityShows (h : FieldUnmarks pieceSize size bits i) :
    ¬ IdentityShows pieceSize size bits originId i := by
  rintro ⟨hi, hout, -, -⟩
  have hlen := bits.length_eq
  rcases h.2 with hn | hfull
  · rw [hlen, byteLen] at hout
    omega
  · rw [hfull, fieldLen, byteLen] at hout
    omega

/-- **A save without the mark.** Whatever part of it is written, no load shows the piece. -/
theorem unmarks_saveBits (h : FieldUnmarks pieceSize size bits i) (originId : OriginId) (n : Nat) :
    Unmarks pieceSize i (some ((saveBits pieceSize size bits originId).take n)) := by
  intro size' originId'
  rw [← Bool.not_eq_true]
  intro hshown
  rcases get_or_identityShows hshown with hbit | hid
  · rw [h.1] at hbit
    exact Bool.noConfusion hbit
  · exact h.not_identityShows hid

end Unmarks

end ModelFs
