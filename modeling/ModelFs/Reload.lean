import ModelFs.Persist

/-!
# Loading what was saved

`saveBits` truncates the sidecar and writes it anew, with no limit on its length. A crash or an
error leaves a prefix. `loadBits` reads at most 8 MiB, and takes a blob with or without the identity
behind the field. So a saved sidecar comes back as it was if it is short enough, and a prefix is
refused or read as one without an identity.

* `loadBits_header` — everything a load answers for a blob under its own header.
* `lossless_iff` — **a saved sidecar comes back whole exactly if it is no longer than 8 MiB.**
* `torn_harmless_iff` — **what a torn write leaves is harmless exactly if no prefix shows a mark
  without the identity.**
* `not_lossless_long`, `torn_before_identity` — a file of 2²⁶ pieces, a write torn at the trailer.
-/

namespace ModelFs

open Piece

section Load

variable {pieceSize : UInt32} {size : UInt64} {observed : OriginId} {body : List UInt8}

/-- **What a load answers** for a body of one of the two lengths. -/
theorem loadBits_header (hps : pieceSize ≠ 0) (hmax : 16 + body.length ≤ maxSidecarLen)
    (hlen : body.length = fieldLen pieceSize size ∨
      body.length = fieldLen pieceSize size + manifestIdentityLen) :
    ∃ bits : Bitfield, bits.nbits = count size.toNat pieceSize.toNat ∧
      (∀ i, bits.get i = (bitAt body i && decide (i < count size.toNat pieceSize.toNat))) ∧
      loadBits pieceSize (readSidecar (sidecarHeader pieceSize size ++ body)) size observed =
        if body.length = fieldLen pieceSize size then { bits := bits, discarded := false }
        else if (OriginId.read (body.drop (fieldLen pieceSize size))).contentChanged observed then
          { bits := bits.wipe, discarded := true
            id := OriginId.read (body.drop (fieldLen pieceSize size)) }
        else
          { bits := bits, discarded := false
            id := OriginId.read (body.drop (fieldLen pieceSize size)) } := by
  obtain ⟨bits, hdecode, hbytes, hget⟩ := decode_header pieceSize size body hps hlen
  have hshort : ¬ maxSidecarLen < (sidecarHeader pieceSize size ++ body).length := by
    rw [List.length_append, length_sidecarHeader]
    omega
  have hfresh : ¬ (16 ≤ 16 + body.length ∧ True ∧
      (pieceSize.toNat ≠ pieceSize.toNat ∨ size.toNat ≠ size.toNat)) := by simp
  refine ⟨bits, nbits_decode hdecode, hget, ?_⟩
  unfold readSidecar loadBits
  rw [if_neg hshort]
  simp only [hdecode, take_magic, leNat_pieceSize, leNat_fileSize, hbytes, List.length_append,
    length_sidecarHeader]
  rw [if_neg hfresh]
  rcases hlen with hfield | htrailer
  · -- the field alone: there is no room for a trailer
    rw [if_neg (by unfold manifestIdentityLen; omega), if_pos hfield]
  · have hid : ((sidecarHeader pieceSize size ++ body).drop
        (16 + fieldLen pieceSize size)).take manifestIdentityLen =
        body.drop (fieldLen pieceSize size) := by
      rw [← List.drop_drop, drop_header, List.take_of_length_le]
      rw [List.length_drop]
      omega
    have hne : body.length ≠ fieldLen pieceSize size := by
      unfold manifestIdentityLen at htrailer
      omega
    rw [if_pos (by omega), hid, if_neg hne]

/-- A body of no accepted length, or one too long, or one saved under another geometry, shows no
mark. -/
theorem get_loadBits_stale {ps : UInt32} {fs : UInt64} (hne : (ps, fs) ≠ (pieceSize, size))
    (i : Nat) :
    (loadBits ps (readSidecar (sidecarHeader pieceSize size ++ body)) fs observed).bits.get i =
      false := by
  unfold readSidecar
  split_ifs
  · exact Bitfield.get_init ..
  refine get_loadBits_eq_false fun bits hdecode => ?_
  by_cases hsidecar : IsSidecar (sidecarHeader pieceSize size ++ body)
  · have hstale : ¬ (blobPieceSize (sidecarHeader pieceSize size ++ body) = ps.toNat ∧
        blobFileSize (sidecarHeader pieceSize size ++ body) = fs.toNat) := by
      unfold blobPieceSize blobFileSize
      rw [leNat_pieceSize, leNat_fileSize]
      rintro ⟨hps, hfs⟩
      exact hne (Prod.ext (UInt32.toNat_inj.mp hps.symm) (UInt64.toNat_inj.mp hfs.symm))
    rw [decode_stale hsidecar hstale] at hdecode
    obtain rfl := Option.some.inj hdecode
    exact Bitfield.get_init ..
  · rw [decode_eq_none hsidecar] at hdecode
    cases hdecode

end Load

/-- What a sidecar keeps of an identity: an unknown one leaves no trailer. -/
def OriginId.kept (id : OriginId) : OriginId := if id.known then id else {}

/-! ## A whole sidecar -/

section Whole

variable (pieceSize : UInt32) (size : UInt64) (bits : Bitfield) (originId observed : OriginId)

/-- What was saved comes back, and the sidecar is not reported as discarded. -/
def Lossless : Prop :=
  (reloaded pieceSize size bits originId observed).bits = bits ∧
    (reloaded pieceSize size bits originId observed).id = originId.kept ∧
    (reloaded pieceSize size bits originId observed).discarded = false

variable {pieceSize size bits originId observed}

theorem reloaded_eq : reloaded pieceSize size bits originId observed =
    loadBits pieceSize (readSidecar (sidecarHeader pieceSize size ++
      (bits.bytes ++ identityTrailer originId))) size observed := by
  rw [reloaded, saveBits, Bitfield.encodeTo, List.append_assoc]

/-- A sidecar over the reader's limit is not read. -/
theorem not_lossless_of_long (hlong : maxSidecarLen < 16 + bits.bytes.length +
      (identityTrailer originId).length) : ¬ Lossless pieceSize size bits originId observed := by
  rintro ⟨-, -, hdiscarded⟩
  have hlen : maxSidecarLen < (sidecarHeader pieceSize size ++
      (bits.bytes ++ identityTrailer originId)).length := by
    rw [List.length_append, List.length_append, length_sidecarHeader]
    omega
  rw [reloaded_eq, readSidecar, if_pos hlen] at hdiscarded
  cases hdiscarded

/-- **A saved sidecar comes back whole exactly if it is no longer than the reader's limit.** -/
theorem lossless_iff (hps : pieceSize ≠ 0)
    (hcount : bits.nbits = count size.toNat pieceSize.toNat)
    (hsame : originId.contentChanged observed = false) :
    Lossless pieceSize size bits originId observed ↔
      16 + fieldLen pieceSize size + (if originId.known then manifestIdentityLen else 0) ≤
        maxSidecarLen := by
  have hfield : bits.bytes.length = fieldLen pieceSize size := by
    rw [bits.length_eq, hcount, fieldLen]
  rw [← @length_identityTrailer originId, ← hfield]
  constructor
  · intro h
    by_contra hlong
    exact not_lossless_of_long (Nat.lt_of_not_le hlong) h
  · intro hmax
    have hbody : (bits.bytes ++ identityTrailer originId).length =
        fieldLen pieceSize size + (identityTrailer originId).length := by
      rw [List.length_append, hfield]
    have htrailer := @length_identityTrailer originId
    have hlen : (bits.bytes ++ identityTrailer originId).length = fieldLen pieceSize size ∨
        (bits.bytes ++ identityTrailer originId).length =
          fieldLen pieceSize size + manifestIdentityLen := by
      rw [hbody, htrailer]
      split_ifs
      · exact Or.inr rfl
      · exact Or.inl rfl
    obtain ⟨back, hnbits, hget, hload⟩ := @loadBits_header pieceSize size observed _ hps
      (by rw [List.length_append]; omega) hlen
    have hback : back = bits := by
      refine Bitfield.eq_of_get (hnbits.trans hcount.symm) fun i => ?_
      rw [hget, bitAt_append, Bitfield.get_eq_bitAt]
      by_cases hi : i < count size.toNat pieceSize.toNat
      · have hin : i < 8 * bits.bytes.length := by
          rw [hfield, fieldLen, byteLen]
          omega
        rw [if_pos hin, decide_eq_true hi, Bool.and_true]
      · rw [decide_eq_false hi, Bool.and_false, bits.pad_clear i (by omega)]
    unfold Lossless
    rw [reloaded_eq, hload, hback]
    cases hknown : originId.known with
    | false =>
      have hnone : identityTrailer originId = [] := by simp [identityTrailer, hknown]
      rw [hnone, List.append_nil, if_pos hfield]
      exact ⟨rfl, by simp [OriginId.kept, hknown], rfl⟩
    | true =>
      have hsome : identityTrailer originId = originId.write := by simp [identityTrailer, hknown]
      have hid : OriginId.read ((bits.bytes ++ originId.write).drop (fieldLen pieceSize size)) =
          originId := by
        rw [List.drop_left' hfield, OriginId.read_write, ← hknown]
      have hne : (bits.bytes ++ originId.write).length ≠ fieldLen pieceSize size := by
        rw [List.length_append, OriginId.length_write, hfield]
        unfold manifestIdentityLen
        omega
      rw [hsome, if_neg hne, hid, hsame]
      exact ⟨rfl, by simp [OriginId.kept, hknown], rfl⟩

/-- A 4 KiB file of one marked piece, under an identity. -/
theorem lossless_one : Lossless 4096 4096 ((Bitfield.init 1).set 0)
    { mtimeSec := 1, mtimeNsec := 0, ino := 7, known := true } {} :=
  (lossless_iff (by decide) (by decide) (by decide)).mpr (by decide)

/-- **A file of 256 GiB at 4 KiB has 2²⁶ pieces, and its sidecar is 16 bytes too long.** -/
theorem not_lossless_long :
    ((Bitfield.init (2 ^ 26)).set 0).nbits = count (274877906944 : UInt64).toNat (4096 : UInt32).toNat ∧
      ¬ Lossless 4096 274877906944 ((Bitfield.init (2 ^ 26)).set 0) {} {} := by
  refine ⟨(Bitfield.nbits_set ..).trans (by decide), not_lossless_of_long ?_⟩
  rw [Bitfield.length_eq, Bitfield.nbits_set]
  decide

end Whole

/-! ## A torn one -/

section Torn

variable (pieceSize : UInt32) (size : UInt64) (bits : Bitfield) (originId observed : OriginId)

/-- A load shows nothing, or the saved marks under the saved identity, to a caller that has not seen
a newer one. -/
def Harmless (l : LoadedBits) : Prop :=
  (∀ i, l.bits.get i = false) ∨
    (∀ i, l.bits.get i = (bits.get i && decide (i < count size.toNat pieceSize.toNat))) ∧
      l.id = originId.kept ∧ originId.contentChanged observed = false

/-- Whatever a torn write leaves, and whoever loads it. -/
def TornHarmless : Prop :=
  ∀ k < (saveBits pieceSize size bits originId).length, ∀ (ps : UInt32) (fs : UInt64)
    (observed : OriginId), Harmless pieceSize size bits originId observed
      (loadBits ps (readSidecar ((saveBits pieceSize size bits originId).take k)) fs observed)

/-- The write may stop where the reader expects a sidecar without an identity to end, and a mark is
in front of there. -/
def IdentityTornOff : Prop :=
  pieceSize ≠ 0 ∧ originId.known = true ∧
    fieldLen pieceSize size < bits.bytes.length + manifestIdentityLen ∧
    16 + fieldLen pieceSize size ≤ maxSidecarLen ∧
    ∃ i < count size.toNat pieceSize.toNat, bitAt (bits.bytes ++ originId.write) i = true

/-- The field is so much too long that the write may stop where the reader expects the identity to
end, what stands there is another identity, and a mark is in front of it. -/
def FieldTornOff : Prop :=
  pieceSize ≠ 0 ∧
    fieldLen pieceSize size + manifestIdentityLen <
      bits.bytes.length + (identityTrailer originId).length ∧
    16 + fieldLen pieceSize size + manifestIdentityLen ≤ maxSidecarLen ∧
    OriginId.read ((bits.bytes ++ identityTrailer originId).drop (fieldLen pieceSize size)) ≠
      originId.kept ∧
    ∃ i < count size.toNat pieceSize.toNat, bits.get i = true

variable {pieceSize size bits originId observed}

theorem read_take (blob : List UInt8) :
    OriginId.read (blob.take manifestIdentityLen) = OriginId.read blob := by
  unfold OriginId.read manifestIdentityLen
  simp only [List.take_take, List.drop_take]
  rfl

/-- A torn sidecar has at least a header, or shows nothing. -/
theorem take_saveBits (k : Nat) : (saveBits pieceSize size bits originId).take (16 + k) =
    sidecarHeader pieceSize size ++ (bits.bytes ++ identityTrailer originId).take k := by
  rw [saveBits, Bitfield.encodeTo, List.append_assoc, List.take_append, length_sidecarHeader,
    Nat.add_sub_cancel_left, List.take_of_length_le (by rw [length_sidecarHeader]; omega)]

theorem length_saveBits : (saveBits pieceSize size bits originId).length =
    16 + (bits.bytes ++ identityTrailer originId).length := by
  rw [saveBits, Bitfield.encodeTo, List.append_assoc, List.length_append, length_sidecarHeader]

/-- Bits of a prefix that holds the field. -/
theorem bitAt_take_field {body : List UInt8} {k i : Nat} (hk : fieldLen pieceSize size ≤ k)
    (hi : i < count size.toNat pieceSize.toNat) : bitAt (body.take k) i = bitAt body i := by
  have hin : i < 8 * k := by
    have hfield : i < 8 * fieldLen pieceSize size := by
      unfold fieldLen byteLen
      omega
    omega
  rw [bitAt_take, decide_eq_true hin, Bool.and_true]

theorem bitAt_of_field {rest : List UInt8} {i : Nat}
    (hlen : fieldLen pieceSize size ≤ bits.bytes.length)
    (hi : i < count size.toNat pieceSize.toNat) : bitAt (bits.bytes ++ rest) i = bits.get i := by
  have hin : i < 8 * bits.bytes.length := by
    have hfield : i < 8 * fieldLen pieceSize size := by
      unfold fieldLen byteLen
      omega
    omega
  rw [bitAt_append, if_pos hin, Bitfield.get_eq_bitAt]

/-- What is left when the write stops at the field's end: a sidecar without an identity. -/
theorem harmless_at_field (hps : pieceSize ≠ 0)
    (hcut : fieldLen pieceSize size < (bits.bytes ++ identityTrailer originId).length)
    (hmax : 16 + fieldLen pieceSize size ≤ maxSidecarLen) :
    (∀ observed, Harmless pieceSize size bits originId observed
      (loadBits pieceSize (readSidecar (sidecarHeader pieceSize size ++
        (bits.bytes ++ identityTrailer originId).take (fieldLen pieceSize size))) size observed)) ↔
      ¬ IdentityTornOff pieceSize size bits originId := by
  have hlen : ((bits.bytes ++ identityTrailer originId).take (fieldLen pieceSize size)).length =
      fieldLen pieceSize size := List.length_take_of_le hcut.le
  have hload : ∀ observed, ∃ back : Bitfield,
      (∀ i, back.get i = (bitAt (bits.bytes ++ identityTrailer originId) i &&
        decide (i < count size.toNat pieceSize.toNat))) ∧
      loadBits pieceSize (readSidecar (sidecarHeader pieceSize size ++
        (bits.bytes ++ identityTrailer originId).take (fieldLen pieceSize size))) size observed =
          { bits := back, discarded := false } := by
    intro observed
    obtain ⟨back, -, hget, hload⟩ := @loadBits_header pieceSize size observed _ hps
      (by rw [hlen]; exact hmax) (Or.inl hlen)
    rw [if_pos hlen] at hload
    refine ⟨back, fun i => ?_, hload⟩
    rw [hget]
    by_cases hi : i < count size.toNat pieceSize.toNat
    · rw [bitAt_take_field le_rfl hi]
    · rw [decide_eq_false hi, Bool.and_false, Bool.and_false]
  cases hknown : originId.known with
  | true =>
    have htrailer : identityTrailer originId = originId.write := by simp [identityTrailer, hknown]
    have hkept : originId.kept = originId := by simp [OriginId.kept, hknown]
    constructor
    · rintro hall ⟨-, -, -, -, i, hi, hbit⟩
      obtain ⟨back, hget, hloaded⟩ := hload {}
      rcases hall {} with hnone | ⟨-, hid, -⟩
      · have hmark := hnone i
        rw [hloaded, hget, htrailer, hbit, decide_eq_true hi] at hmark
        cases hmark
      · rw [hloaded, hkept] at hid
        rw [← hid] at hknown
        cases hknown
    · intro hno observed
      obtain ⟨back, hget, hloaded⟩ := hload observed
      refine Or.inl fun i => ?_
      rw [hloaded, hget, htrailer]
      by_contra hmark
      rw [Bool.not_eq_false, Bool.and_eq_true, decide_eq_true_iff] at hmark
      rw [htrailer, List.length_append, OriginId.length_write] at hcut
      exact hno ⟨hps, hknown, hcut, hmax, i, hmark.2, hmark.1⟩
  | false =>
    have htrailer : identityTrailer originId = [] := by simp [identityTrailer, hknown]
    have hkept : originId.kept = {} := by simp [OriginId.kept, hknown]
    refine iff_of_true (fun observed => ?_) fun h => ?_
    · obtain ⟨back, hget, hloaded⟩ := hload observed
      rw [htrailer, List.append_nil] at hcut
      refine Or.inr ⟨fun i => ?_, ?_, OriginId.contentChanged_of_unknown hknown⟩
      · rw [hloaded, hget, htrailer, List.append_nil, ← Bitfield.get_eq_bitAt]
      · rw [hloaded, hkept]
    · rw [h.2.1] at hknown
      cases hknown

/-- What is left when it stops a trailer's length behind. -/
theorem harmless_at_trailer (hps : pieceSize ≠ 0)
    (hcut : fieldLen pieceSize size + manifestIdentityLen <
      (bits.bytes ++ identityTrailer originId).length)
    (hmax : 16 + fieldLen pieceSize size + manifestIdentityLen ≤ maxSidecarLen) :
    (∀ observed, Harmless pieceSize size bits originId observed
      (loadBits pieceSize (readSidecar (sidecarHeader pieceSize size ++
        (bits.bytes ++ identityTrailer originId).take
          (fieldLen pieceSize size + manifestIdentityLen))) size observed)) ↔
      ¬ FieldTornOff pieceSize size bits originId := by
  have hlen : ((bits.bytes ++ identityTrailer originId).take
      (fieldLen pieceSize size + manifestIdentityLen)).length =
        fieldLen pieceSize size + manifestIdentityLen := List.length_take_of_le hcut.le
  have hne : ((bits.bytes ++ identityTrailer originId).take
      (fieldLen pieceSize size + manifestIdentityLen)).length ≠ fieldLen pieceSize size := by
    rw [hlen]
    unfold manifestIdentityLen
    omega
  have hlong : fieldLen pieceSize size ≤ bits.bytes.length := by
    have htrailer := @length_identityTrailer originId
    rw [List.length_append, htrailer] at hcut
    split_ifs at hcut <;> omega
  have hid : OriginId.read (((bits.bytes ++ identityTrailer originId).take
      (fieldLen pieceSize size + manifestIdentityLen)).drop (fieldLen pieceSize size)) =
        OriginId.read ((bits.bytes ++ identityTrailer originId).drop (fieldLen pieceSize size)) := by
    rw [List.drop_take, Nat.add_sub_cancel_left, read_take]
  generalize hread : OriginId.read ((bits.bytes ++ identityTrailer originId).drop
    (fieldLen pieceSize size)) = torn at hid
  have htorn : torn.known = true := by
    rw [← hread]
    rfl
  have hload : ∀ observed, ∃ back : Bitfield,
      (∀ i, back.get i = (bits.get i && decide (i < count size.toNat pieceSize.toNat))) ∧
      loadBits pieceSize (readSidecar (sidecarHeader pieceSize size ++
        (bits.bytes ++ identityTrailer originId).take
          (fieldLen pieceSize size + manifestIdentityLen))) size observed =
        if torn.contentChanged observed then { bits := back.wipe, discarded := true, id := torn }
        else { bits := back, discarded := false, id := torn } := by
    intro observed
    obtain ⟨back, -, hget, hload⟩ := @loadBits_header pieceSize size observed _ hps
      (by rw [hlen]; omega) (Or.inr hlen)
    rw [if_neg hne, hid] at hload
    refine ⟨back, fun i => ?_, hload⟩
    rw [hget]
    by_cases hi : i < count size.toNat pieceSize.toNat
    · rw [bitAt_take_field (Nat.le_add_right ..) hi, bitAt_of_field hlong hi]
    · rw [decide_eq_false hi, Bool.and_false, Bool.and_false]
  constructor
  · rintro hall ⟨-, -, -, hother, i, hi, hbit⟩
    rw [hread] at hother
    obtain ⟨back, hget, hloaded⟩ := hload {}
    have hunknown : torn.contentChanged {} = false := by simp [OriginId.contentChanged]
    rw [hunknown] at hloaded
    rcases hall {} with hnone | ⟨-, hsaved, -⟩
    · have hmark := hnone i
      rw [hloaded] at hmark
      rw [if_neg Bool.false_ne_true, hget, hbit, decide_eq_true hi] at hmark
      cases hmark
    · rw [hloaded] at hsaved
      exact hother hsaved
  · intro hno observed
    obtain ⟨back, hget, hloaded⟩ := hload observed
    rw [hloaded]
    split_ifs with hchanged
    · exact Or.inl fun i => Bitfield.get_wipe ..
    by_cases hsame : torn = originId.kept
    · have hknown : originId.known = true := by
        by_contra hunknown
        rw [hsame, OriginId.kept, if_neg hunknown] at htorn
        cases htorn
      have hkept : originId.kept = originId := if_pos hknown
      refine Or.inr ⟨hget, hsame, ?_⟩
      rw [← hkept, ← hsame]
      exact Bool.not_eq_true _ ▸ hchanged
    · refine Or.inl fun i => ?_
      rw [hget]
      by_contra hmark
      rw [Bool.not_eq_false, Bool.and_eq_true, decide_eq_true_iff] at hmark
      rw [List.length_append] at hcut
      exact hno ⟨hps, hcut, hmax, by rwa [hread], i, hmark.2, hmark.1⟩

/-- **What a torn write leaves is harmless, exactly if it cannot stop in front of an identity.** -/
theorem torn_harmless_iff (pieceSize : UInt32) (size : UInt64) (bits : Bitfield)
    (originId : OriginId) :
    TornHarmless pieceSize size bits originId ↔
      ¬ IdentityTornOff pieceSize size bits originId ∧
        ¬ FieldTornOff pieceSize size bits originId := by
  constructor
  · intro hall
    have hcuts : ∀ j < (bits.bytes ++ identityTrailer originId).length, ∀ observed,
        Harmless pieceSize size bits originId observed
          (loadBits pieceSize (readSidecar (sidecarHeader pieceSize size ++
            (bits.bytes ++ identityTrailer originId).take j)) size observed) := by
      intro j hj observed
      rw [← take_saveBits]
      exact hall (16 + j) (by rw [length_saveBits]; omega) pieceSize size observed
    refine ⟨fun hbad => ?_, fun hbad => ?_⟩
    · have htrailer : identityTrailer originId = originId.write := by
        simp [identityTrailer, hbad.2.1]
      have hcut : fieldLen pieceSize size < (bits.bytes ++ identityTrailer originId).length := by
        rw [htrailer, List.length_append, OriginId.length_write]
        exact hbad.2.2.1
      exact (harmless_at_field hbad.1 hcut hbad.2.2.2.1).mp (hcuts _ hcut) hbad
    · have hcut : fieldLen pieceSize size + manifestIdentityLen <
          (bits.bytes ++ identityTrailer originId).length := by
        rw [List.length_append]
        exact hbad.2.1
      exact (harmless_at_trailer hbad.1 hcut hbad.2.2.1).mp (hcuts _ hcut) hbad
  · rintro ⟨hidentity, hfield⟩ k hk ps fs observed
    by_cases hshort : k < 16
    · -- not even a header
      refine Or.inl fun i => ?_
      have hlen : ((saveBits pieceSize size bits originId).take k).length < 16 := by
        rw [List.length_take]
        omega
      rw [readSidecar, if_neg (by unfold maxSidecarLen; omega)]
      refine get_loadBits_eq_false fun bits hdecode => ?_
      rw [decode_of_short hlen] at hdecode
      cases hdecode
    obtain ⟨j, rfl⟩ : ∃ j, k = 16 + j := ⟨k - 16, by omega⟩
    rw [length_saveBits] at hk
    have hj : j < (bits.bytes ++ identityTrailer originId).length := by omega
    rw [take_saveBits]
    by_cases hgeometry : (ps, fs) ≠ (pieceSize, size)
    · exact Or.inl (get_loadBits_stale hgeometry)
    obtain ⟨rfl, rfl⟩ := Prod.mk.inj (not_not.mp hgeometry)
    have hlen : ((bits.bytes ++ identityTrailer originId).take j).length = j :=
      List.length_take_of_le hj.le
    by_cases haccepts : Accepts ps fs observed ((bits.bytes ++ identityTrailer originId).take j)
    · obtain ⟨hmax, hps, hshape⟩ := haccepts
      rw [hlen] at hmax hshape
      rcases hshape with rfl | ⟨rfl, -⟩
      · exact (harmless_at_field hps hj hmax).mpr hidentity observed
      · exact (harmless_at_trailer hps hj (by omega)).mpr hfield observed
    · refine Or.inl fun i => ?_
      rw [get_loadBits_header, decide_eq_false haccepts, Bool.false_and, Bool.false_and]

/-- **A sidecar of one marked piece, torn in front of its identity.** -/
theorem torn_before_identity : ¬ TornHarmless 4096 4096 ((Bitfield.init 1).set 0)
    { mtimeSec := 1, mtimeNsec := 0, ino := 7, known := true } := by
  intro h
  rcases h 17 (by decide) 4096 4096 { mtimeSec := 2, mtimeNsec := 0, ino := 7, known := true } with
    hnone | ⟨-, -, hchanged⟩
  · exact absurd (hnone 0) (by decide)
  · exact absurd hchanged (by decide)

end Torn

end ModelFs
