import ModelFs.Sidecar
import Mathlib.Data.Finset.Max
import Mathlib.Order.Interval.Finset.Nat

/-!
# What a bitfield stands for

`piece.Bitfield` is held against what it is for: a set of piece indices below a length. The
packed side works on bytes and whole words with pad bits to mask, the abstract side on a finite
set. A run is any sequence of the field's operations, the reading of a sidecar among them, at
any sizes and indices; a sidecar's pad bits may be anything.

* `reads_step` — each operation keeps the two sides together.
* `isSome_decode_iff` — which byte strings are sidecars.
* `persistence_laws` — **the field is the set**, over every run, and through a sidecar and back.
-/

namespace ModelFs

open Piece

/-! ## Sets of indices -/

/-- A set of indices below a length. -/
structure IndexSet where
  nbits : Nat
  elems : Finset Nat
  lt_nbits : ∀ i ∈ elems, i < nbits

namespace IndexSet

def init (nbits : Nat) : IndexSet where
  nbits := nbits
  elems := ∅
  lt_nbits _ h := absurd h (Finset.notMem_empty _)

/-- The indices below `nbits` that `p` holds of. -/
def below (nbits : Nat) (p : Nat → Bool) : IndexSet where
  nbits := nbits
  elems := (Finset.range nbits).filter fun i => p i = true
  lt_nbits _ h := Finset.mem_range.mp (Finset.mem_filter.mp h).1

theorem mem_below {nbits i : Nat} {p : Nat → Bool} :
    i ∈ (below nbits p).elems ↔ i < nbits ∧ p i = true := by
  unfold below
  rw [Finset.mem_filter, Finset.mem_range]

/-- An index past the length is not added. -/
def set (m : IndexSet) (i : Nat) : IndexSet where
  nbits := m.nbits
  elems := if i < m.nbits then insert i m.elems else m.elems
  lt_nbits j h := by
    split_ifs at h with hi
    · rcases Finset.mem_insert.mp h with rfl | h
      · exact hi
      · exact m.lt_nbits j h
    · exact m.lt_nbits j h

def clear (m : IndexSet) (i : Nat) : IndexSet where
  nbits := m.nbits
  elems := m.elems.erase i
  lt_nbits j h := m.lt_nbits j (Finset.mem_of_mem_erase h)

/-- What is cut off is forgotten: a later grow brings none of it back. -/
def resize (m : IndexSet) (nbits : Nat) : IndexSet where
  nbits := nbits
  elems := m.elems.filter (· < nbits)
  lt_nbits _ h := (Finset.mem_filter.mp h).2

end IndexSet

/-! ## Sidecars -/

/-- The piece size a blob's header names. -/
def blobPieceSize (blob : List UInt8) : Nat := leNat ((blob.drop 4).take 4)

/-- The file size a blob's header names. -/
def blobFileSize (blob : List UInt8) : Nat := leNat ((blob.drop 8).take 8)

/-- A blob is a sidecar: the magic, a piece size, and the length its own header calls for, with
or without an identity. -/
def IsSidecar (blob : List UInt8) : Prop :=
  blob.take 4 = magic ∧ blobPieceSize blob ≠ 0 ∧
    (blob.length = 16 + byteLen (count (blobFileSize blob) (blobPieceSize blob)) ∨
      blob.length = 16 + byteLen (count (blobFileSize blob) (blobPieceSize blob)) +
        manifestIdentityLen)

instance (blob : List UInt8) : Decidable (IsSidecar blob) := inferInstanceAs (Decidable (_ ∧ _))

section Decode

variable {blob : List UInt8} {pieceSize : UInt32} {fileSize : UInt64}

theorem decode_eq_none (h : ¬ IsSidecar blob) : Bitfield.decode blob pieceSize fileSize = none := by
  unfold Bitfield.decode
  dsimp only
  split_ifs with hshort hmagic hzero hlen
  · rfl
  · rfl
  · rfl
  · rfl
  all_goals
    refine absurd ⟨not_not.mp hmagic, hzero, ?_⟩ h
    unfold blobFileSize blobPieceSize
    omega

/-- A sidecar of another geometry decodes to the empty field. -/
theorem decode_stale (h : IsSidecar blob)
    (hstale : ¬ (blobPieceSize blob = pieceSize.toNat ∧ blobFileSize blob = fileSize.toNat)) :
    Bitfield.decode blob pieceSize fileSize =
      some (Bitfield.init (count fileSize.toNat pieceSize.toNat)) := by
  obtain ⟨hmagic, hzero, hlen⟩ := h
  unfold blobFileSize blobPieceSize at *
  unfold Bitfield.decode
  dsimp only
  rw [if_neg (by omega), if_neg (not_not.mpr hmagic), if_neg hzero, if_neg (by omega),
    if_pos (by omega)]

/-- A sidecar of the caller's geometry decodes to the marks its bytes have below the count, its
pad bits left out. -/
theorem decode_fresh (h : IsSidecar blob)
    (hfresh : blobPieceSize blob = pieceSize.toNat ∧ blobFileSize blob = fileSize.toNat) :
    ∃ bits, Bitfield.decode blob pieceSize fileSize = some bits ∧
      bits.nbits = count fileSize.toNat pieceSize.toNat ∧
      ∀ i, bits.get i =
        (bitAt (blob.drop 16) i && decide (i < count fileSize.toNat pieceSize.toNat)) := by
  obtain ⟨hmagic, hzero, hlen⟩ := h
  have hfit : byteLen (count fileSize.toNat pieceSize.toNat) ≤ (blob.drop 16).length := by
    rw [hfresh.1, hfresh.2] at hlen
    rw [List.length_drop]
    omega
  unfold blobFileSize blobPieceSize at *
  unfold Bitfield.decode
  dsimp only
  rw [if_neg (by omega), if_neg (not_not.mpr hmagic), if_neg hzero, if_neg (by omega),
    if_neg (by omega)]
  refine ⟨_, rfl, rfl, fun i => ?_⟩
  rw [Bitfield.get_ofBytes]
  generalize count fileSize.toNat pieceSize.toNat = n at hfit
  have hwhole : byteLen n - ((blob.drop 16).take (byteLen n)).length = 0 := by
    rw [List.length_take]
    omega
  rw [hwhole, List.replicate_zero, List.append_nil, bitAt_take]
  by_cases hi : i < n
  · have hfield : i < 8 * byteLen n := by
      unfold byteLen
      omega
    rw [decide_eq_true hfield, Bool.and_true]
  · rw [decide_eq_false hi, Bool.and_false, Bool.and_false]

/-- **Which byte strings are read**, whatever the reader's geometry. -/
theorem isSome_decode_iff :
    (Bitfield.decode blob pieceSize fileSize).isSome = true ↔ IsSidecar blob := by
  constructor
  · intro h
    by_contra hno
    rw [decode_eq_none hno] at h
    exact Bool.noConfusion h
  · intro h
    by_cases hfresh : blobPieceSize blob = pieceSize.toNat ∧ blobFileSize blob = fileSize.toNat
    · obtain ⟨bits, hdecode, -⟩ := decode_fresh h hfresh
      rw [hdecode]
      rfl
    · rw [decode_stale h hfresh]
      rfl

end Decode

section RoundTrip

variable {bits : Bitfield} {pieceSize : UInt32} {fileSize : UInt64} {trailer : List UInt8}

theorem blobPieceSize_encodeTo :
    blobPieceSize (bits.encodeTo pieceSize fileSize ++ trailer) = pieceSize.toNat := by
  rw [Bitfield.encodeTo, List.append_assoc]
  exact leNat_pieceSize ..

theorem blobFileSize_encodeTo :
    blobFileSize (bits.encodeTo pieceSize fileSize ++ trailer) = fileSize.toNat := by
  rw [Bitfield.encodeTo, List.append_assoc]
  exact leNat_fileSize ..

/-- What is written for a field of the geometry's length is a sidecar. -/
theorem isSidecar_encodeTo (hps : pieceSize ≠ 0)
    (hcount : count fileSize.toNat pieceSize.toNat = bits.nbits)
    (htrailer : trailer.length = 0 ∨ trailer.length = manifestIdentityLen) :
    IsSidecar (bits.encodeTo pieceSize fileSize ++ trailer) := by
  refine ⟨?_, ?_, ?_⟩
  · rw [Bitfield.encodeTo, List.append_assoc]
    exact take_magic ..
  · rw [blobPieceSize_encodeTo]
    exact fun h => hps (UInt32.toNat_inj.mp h)
  · rw [blobPieceSize_encodeTo, blobFileSize_encodeTo, hcount, Bitfield.encodeTo,
      List.length_append, List.length_append, length_sidecarHeader, bits.length_eq]
    omega

/-- **Round trip** at the geometry written. -/
theorem decode_encodeTo (hps : pieceSize ≠ 0)
    (hcount : count fileSize.toNat pieceSize.toNat = bits.nbits)
    (htrailer : trailer.length = 0 ∨ trailer.length = manifestIdentityLen) :
    Bitfield.decode (bits.encodeTo pieceSize fileSize ++ trailer) pieceSize fileSize =
      some bits := by
  obtain ⟨back, hdecode, hnbits, hget⟩ := decode_fresh (isSidecar_encodeTo hps hcount htrailer)
    ⟨blobPieceSize_encodeTo, blobFileSize_encodeTo⟩
  rw [hdecode]
  refine congrArg some (Bitfield.eq_of_get (hnbits.trans hcount) fun i => ?_)
  rw [hget, hcount, Bitfield.encodeTo, List.append_assoc, drop_header, bitAt_append,
    Bitfield.get_eq_bitAt]
  by_cases hi : i < bits.nbits
  · have hfield : i < 8 * bits.bytes.length := by
      rw [bits.length_eq, byteLen]
      omega
    rw [if_pos hfield, decide_eq_true hi, Bool.and_true]
  · rw [decide_eq_false hi, Bool.and_false, bits.pad_clear i (Nat.not_lt.mp hi)]

end RoundTrip

/-! ## Runs -/

/-- One use of a field. -/
inductive FieldUse where
  | init (nbits : Nat)
  | set (i : Nat)
  | clear (i : Nat)
  | resize (nbits : Nat)
  /-- Read a sidecar. On `error.BadBitfield` the field stays. -/
  | decode (blob : List UInt8) (pieceSize : UInt32) (fileSize : UInt64)

def Bitfield.step (b : Bitfield) : FieldUse → Bitfield
  | .init nbits => Bitfield.init nbits
  | .set i => b.set i
  | .clear i => b.clear i
  | .resize nbits => b.resize nbits
  | .decode blob pieceSize fileSize => (Bitfield.decode blob pieceSize fileSize).getD b

def IndexSet.step (m : IndexSet) : FieldUse → IndexSet
  | .init nbits => IndexSet.init nbits
  | .set i => m.set i
  | .clear i => m.clear i
  | .resize nbits => m.resize nbits
  | .decode blob pieceSize fileSize =>
    if IsSidecar blob then
      if blobPieceSize blob = pieceSize.toNat ∧ blobFileSize blob = fileSize.toNat then
        IndexSet.below (count fileSize.toNat pieceSize.toNat) (bitAt (blob.drop 16))
      else IndexSet.init (count fileSize.toNat pieceSize.toNat)
    else m

/-- The field has the length and the marks of the set. -/
structure Bitfield.Reads (b : Bitfield) (m : IndexSet) : Prop where
  nbits : b.nbits = m.nbits
  get : ∀ i, b.get i = true ↔ i ∈ m.elems

theorem reads_init (nbits : Nat) : (Bitfield.init nbits).Reads (IndexSet.init nbits) := by
  refine ⟨rfl, fun i => ?_⟩
  rw [Bitfield.get_init]
  exact ⟨Bool.noConfusion, fun h => absurd h (Finset.notMem_empty _)⟩

/-- **Step.** Each operation does to the field what it does to the set. -/
theorem reads_step {b : Bitfield} {m : IndexSet} (h : b.Reads m) (op : FieldUse) :
    (b.step op).Reads (m.step op) := by
  cases op with
  | init nbits => exact reads_init nbits
  | set i =>
    refine ⟨(Bitfield.nbits_set b i).trans h.nbits, fun j => ?_⟩
    have hset : (m.set i).elems = if i < m.nbits then insert i m.elems else m.elems := rfl
    change (b.set i).get j = true ↔ j ∈ (m.set i).elems
    rw [Bitfield.get_set, hset, h.nbits]
    by_cases hi : i < m.nbits
    · rw [if_pos hi, Finset.mem_insert, ← h.get, decide_eq_true hi, Bool.and_true, Bool.or_eq_true,
        decide_eq_true_iff, or_comm, eq_comm]
    · simp only [hi, if_false, ← h.get, decide_false, Bool.and_false, Bool.or_false]
  | clear i =>
    refine ⟨(Bitfield.nbits_clear b i).trans h.nbits, fun j => ?_⟩
    change (b.clear i).get j = true ↔ j ∈ m.elems.erase i
    rw [Bitfield.get_clear, Bool.and_eq_true, decide_eq_true_iff, h.get, Finset.mem_erase,
      and_comm, ne_comm]
  | resize nbits =>
    refine ⟨rfl, fun j => ?_⟩
    change (b.resize nbits).get j = true ↔ j ∈ m.elems.filter (· < nbits)
    rw [Bitfield.get_resize, Bool.and_eq_true, decide_eq_true_iff, h.get, Finset.mem_filter]
  | decode blob pieceSize fileSize =>
    unfold Bitfield.step IndexSet.step
    dsimp only
    split_ifs with hblob hfresh
    · obtain ⟨bits, hdecode, hnbits, hget⟩ := decode_fresh hblob hfresh
      rw [hdecode]
      refine ⟨hnbits, fun i => ?_⟩
      rw [Option.getD_some, hget, Bool.and_eq_true, decide_eq_true_iff, IndexSet.mem_below,
        and_comm]
    · rw [decode_stale hblob hfresh]
      exact reads_init _
    · rw [decode_eq_none hblob]
      exact h

/-- **Run.** A field that starts as an empty one is the set after any operations. -/
theorem reads_run (nbits : Nat) (ops : List FieldUse) :
    (ops.foldl Bitfield.step (Bitfield.init nbits)).Reads
      (ops.foldl IndexSet.step (IndexSet.init nbits)) := by
  suffices hrun : ∀ (b : Bitfield) (m : IndexSet), b.Reads m →
      (ops.foldl Bitfield.step b).Reads (ops.foldl IndexSet.step m) from
    hrun _ _ (reads_init nbits)
  induction ops with
  | nil => exact fun _ _ h => h
  | cons op ops ih => exact fun _ _ h => ih _ _ (reads_step h op)

/-! ## What the readers answer -/

section Readers

variable {b : Bitfield} {m : IndexSet}

theorem filled_of_reads (h : b.Reads m) : b.filled = m.elems.card := by
  rw [Bitfield.filled_eq_card]
  congr 1
  ext i
  rw [Finset.mem_filter, Finset.mem_range, h.get, h.nbits]
  exact ⟨And.right, fun hi => ⟨m.lt_nbits i hi, hi⟩⟩

theorem lastSet_of_reads (h : b.Reads m) : b.lastSet = m.elems.max := by
  cases hlast : b.lastSet with
  | none =>
    have hempty : m.elems = ∅ := Finset.eq_empty_of_forall_notMem fun i hi => by
      rw [← h.get, Bitfield.lastSet_eq_none_iff.mp hlast] at hi
      exact Bool.noConfusion hi
    rw [hempty, Finset.max_empty]
    rfl
  | some i =>
    obtain ⟨hset, hmax⟩ := Bitfield.isGreatest_of_lastSet hlast
    have hmem := (h.get i).mp hset
    have htop : m.elems.max = (i : WithBot Nat) :=
      le_antisymm (Finset.max_le fun j hj => WithBot.coe_le_coe.mpr (hmax ((h.get j).mpr hj)))
        (Finset.le_max hmem)
    exact htop.symm

theorem allSet_of_reads (h : b.Reads m) (start stop : Nat) :
    b.allSet start stop = decide (Finset.Ico start stop ⊆ m.elems) := by
  refine (Bool.eq_iff_iff).mpr ?_
  rw [Bitfield.allSet_iff, decide_eq_true_iff, Finset.subset_iff]
  simp only [Finset.mem_Ico, h.get, and_imp]

end Readers

/-- The field against the set: over runs, and through a sidecar. -/
structure PersistenceLaws : Prop where
  /-- Every reader of a field answers for the set the field's operations made. -/
  run : ∀ (nbits : Nat) (ops : List FieldUse),
    let b := ops.foldl Bitfield.step (Bitfield.init nbits)
    let m := ops.foldl IndexSet.step (IndexSet.init nbits)
    b.nbits = m.nbits ∧ (∀ i, b.get i = decide (i ∈ m.elems)) ∧ b.filled = m.elems.card ∧
      b.lastSet = m.elems.max ∧
      ∀ start stop, b.allSet start stop = decide (Finset.Ico start stop ⊆ m.elems)
  /-- A field written with or without an identity reads back at its geometry. -/
  same : ∀ (bits : Bitfield) (pieceSize : UInt32) (fileSize : UInt64) (trailer : List UInt8),
    pieceSize ≠ 0 → count fileSize.toNat pieceSize.toNat = bits.nbits →
    trailer.length = 0 ∨ trailer.length = manifestIdentityLen →
    Bitfield.decode (bits.encodeTo pieceSize fileSize ++ trailer) pieceSize fileSize = some bits
  /-- At another geometry it reads as that geometry's empty field. -/
  other : ∀ (bits : Bitfield) (pieceSize ps : UInt32) (fileSize fs : UInt64)
      (trailer : List UInt8),
    pieceSize ≠ 0 → count fileSize.toNat pieceSize.toNat = bits.nbits →
    trailer.length = 0 ∨ trailer.length = manifestIdentityLen → (ps, fs) ≠ (pieceSize, fileSize) →
    Bitfield.decode (bits.encodeTo pieceSize fileSize ++ trailer) ps fs =
      some (Bitfield.init (count fs.toNat ps.toNat))
  /-- The reader takes exactly the sidecars. -/
  accepted : ∀ (blob : List UInt8) (pieceSize : UInt32) (fileSize : UInt64),
    (Bitfield.decode blob pieceSize fileSize).isSome = true ↔ IsSidecar blob

/-- **A bitfield is the set of its marks**, through any operations and any sidecar. -/
theorem persistence_laws : PersistenceLaws := by
  refine ⟨fun nbits ops => ?_, fun bits pieceSize fileSize trailer => decode_encodeTo,
    fun bits pieceSize ps fileSize fs trailer hps hcount htrailer hne => ?_,
    fun blob pieceSize fileSize => isSome_decode_iff⟩
  · have h := reads_run nbits ops
    refine ⟨h.nbits, fun i => ?_, filled_of_reads h, lastSet_of_reads h, allSet_of_reads h⟩
    exact Bool.eq_iff_iff.mpr ((h.get i).trans decide_eq_true_iff.symm)
  · refine decode_stale (isSidecar_encodeTo hps hcount htrailer) ?_
    rw [blobPieceSize_encodeTo, blobFileSize_encodeTo]
    rintro ⟨hps', hfs'⟩
    exact hne (Prod.ext (UInt32.toNat_inj.mp hps'.symm) (UInt64.toNat_inj.mp hfs'.symm))

/-- Under a piece size of zero the count is zero, and the empty field is written and not read. -/
theorem decode_refuses_pieceSize_zero :
    count (5 : UInt64).toNat (0 : UInt32).toNat = (Bitfield.init 0).nbits ∧
      Bitfield.decode ((Bitfield.init 0).encodeTo 0 5) 0 5 ≠ some (Bitfield.init 0) := by
  decide

end ModelFs
