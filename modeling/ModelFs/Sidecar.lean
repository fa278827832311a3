import ModelFs.Bitfield
import ModelFs.OriginId

/-!
# The `.pieces` sidecar

`saveBits` writes an entry's marks, `loadBits` reads them back: a 16-byte header, the packed
field, and the identity trailer when the entry has an identity. Nothing in the file says how
long the field is. The loader derives that from the recorded size, and accepts the body with
or without 24 bytes of trailer. The field an entry holds need not have the length its size
calls for: a resize is put off while a transfer holds the entry.

* `get_reloaded` — the marks a load of a saved sidecar shows.
* `loadBits_sound_iff` — **when the load invents no mark.** It goes wrong exactly when the
  field is 24 bytes short and the identity fills the gap, or 24 bytes long and its tail is
  taken for an identity.
-/

namespace ModelFs

open Piece

/-- `piece.magic`, the bytes `MFS1`. -/
def magic : List UInt8 := [0x4D, 0x46, 0x53, 0x31]

/-- `8 * 1024 * 1024`, the longest sidecar `loadBits` reads. -/
def maxSidecarLen : Nat := 8 * 1024 * 1024

/-! ## Writing -/

/-- The header of a sidecar. -/
def sidecarHeader (pieceSize : UInt32) (fileSize : UInt64) : List UInt8 :=
  magic ++ leBytes 4 pieceSize.toNat ++ leBytes 8 fileSize.toNat

def Bitfield.encodeTo (b : Bitfield) (pieceSize : UInt32) (fileSize : UInt64) : List UInt8 :=
  sidecarHeader pieceSize fileSize ++ b.bytes

/-- The identity trailer: absent while the identity is unknown. -/
def identityTrailer (originId : OriginId) : List UInt8 :=
  if !originId.known then [] else originId.write

/-- The blob `saveBits` writes for an entry. -/
def saveBits (pieceSize : UInt32) (size : UInt64) (bits : Bitfield) (originId : OriginId) :
    List UInt8 :=
  bits.encodeTo pieceSize size ++ identityTrailer originId

/-- Without an identity there is no trailer. -/
theorem saveBits_unknown (pieceSize : UInt32) (size : UInt64) (bits : Bitfield) :
    saveBits pieceSize size bits {} = bits.encodeTo pieceSize size := List.append_nil _

/-! ## Reading -/

/-- The field a blob holds for a file of `fileSize` bytes, `none` for `error.BadBitfield`. A blob
of another geometry is a stale sidecar and decodes to the empty field. -/
def Bitfield.decode (blob : List UInt8) (pieceSize : UInt32) (fileSize : UInt64) : Option Bitfield :=
  if blob.length < 16 then none
  else if blob.take 4 ≠ magic then none
  else
    let ps := leNat ((blob.drop 4).take 4)
    let fs := leNat ((blob.drop 8).take 8)
    if ps = 0 then none
    else
      let bodyLen := 16 + byteLen (count fs ps)
      if blob.length ≠ bodyLen ∧ blob.length ≠ bodyLen + manifestIdentityLen then none
      else
        let n := count fileSize.toNat pieceSize.toNat
        if ps ≠ pieceSize.toNat ∨ fs ≠ fileSize.toNat then some (Bitfield.init n)
        else
          let src := (blob.drop 16).take (byteLen n)
          some (Bitfield.ofBytes (src ++ List.replicate (byteLen n - src.length) 0) n
            (by simp only [List.length_append, List.length_replicate, src, List.length_take]; omega))

/-- What reading the sidecar file came to. `unreadable` is every failure but `ENOENT`. -/
inductive SidecarRead where
  | missing
  | unreadable
  | blob (bytes : List UInt8)
  deriving DecidableEq, Repr

/-- `readFileAllocNoFollowOpenErrno` on a file that holds `bytes`. -/
def readSidecar (bytes : List UInt8) : SidecarRead :=
  if maxSidecarLen < bytes.length then .unreadable else .blob bytes

/-- Outcome of loading a sidecar. -/
structure LoadedBits where
  bits : Bitfield
  discarded : Bool
  id : OriginId := {}

def loadBits (pieceSize : UInt32) (file : SidecarRead) (fileSize : UInt64) (originId : OriginId) :
    LoadedBits :=
  let n := count fileSize.toNat pieceSize.toNat
  match file with
  | .missing => { bits := Bitfield.init n, discarded := false }
  | .unreadable => { bits := Bitfield.init n, discarded := true }
  | .blob blob =>
    match Bitfield.decode blob pieceSize fileSize with
    | none => { bits := Bitfield.init n, discarded := true }
    | some bits =>
      if 16 ≤ blob.length ∧ blob.take 4 = magic ∧
          (leNat ((blob.drop 4).take 4) ≠ pieceSize.toNat ∨
            leNat ((blob.drop 8).take 8) ≠ fileSize.toNat) then
        { bits := bits, discarded := true }
      else
        let trailerOff := 16 + bits.bytes.length
        if trailerOff + manifestIdentityLen ≤ blob.length then
          let id := OriginId.read ((blob.drop trailerOff).take manifestIdentityLen)
          if id.contentChanged originId then { bits := bits.wipe, discarded := true, id := id }
          else { bits := bits, discarded := false, id := id }
        else { bits := bits, discarded := false }

/-! ## The field a load gives -/

section Load

variable {pieceSize : UInt32} {fileSize : UInt64} {originId : OriginId}

theorem nbits_decode {blob : List UInt8} {bits : Bitfield}
    (h : Bitfield.decode blob pieceSize fileSize = some bits) :
    bits.nbits = count fileSize.toNat pieceSize.toNat := by
  unfold Bitfield.decode at h
  dsimp only at h
  split_ifs at h <;> cases h
  · rfl
  · rfl

/-- The field is the one the caller's size calls for, whatever the file holds. -/
theorem nbits_loadBits (file : SidecarRead) :
    (loadBits pieceSize file fileSize originId).bits.nbits =
      count fileSize.toNat pieceSize.toNat := by
  unfold loadBits
  cases file with
  | missing => rfl
  | unreadable => rfl
  | blob blob =>
    dsimp only
    cases hdecode : Bitfield.decode blob pieceSize fileSize with
    | none => rfl
    | some bits =>
      have hnbits := nbits_decode hdecode
      dsimp only
      split_ifs
      · exact hnbits
      · exact (Bitfield.nbits_wipe bits).trans hnbits
      · exact hnbits
      · exact hnbits

/-- A load shows no mark that decoding does not. -/
theorem get_loadBits_eq_false {blob : List UInt8} {i : Nat}
    (h : ∀ bits, Bitfield.decode blob pieceSize fileSize = some bits → bits.get i = false) :
    (loadBits pieceSize (.blob blob) fileSize originId).bits.get i = false := by
  unfold loadBits
  dsimp only
  cases hdecode : Bitfield.decode blob pieceSize fileSize with
  | none => exact Bitfield.get_init ..
  | some bits =>
    dsimp only
    split_ifs
    · exact h bits hdecode
    · exact Bitfield.get_wipe ..
    · exact h bits hdecode
    · exact h bits hdecode

theorem decode_of_short {blob : List UInt8} (h : blob.length < 16) :
    Bitfield.decode blob pieceSize fileSize = none := by
  unfold Bitfield.decode
  rw [if_pos h]

end Load

/-! ## The header reads back -/

section Header

variable (pieceSize : UInt32) (fileSize : UInt64) (body : List UInt8)

@[simp] theorem length_sidecarHeader : (sidecarHeader pieceSize fileSize).length = 16 := by
  simp [sidecarHeader, magic]

theorem take_magic : (sidecarHeader pieceSize fileSize ++ body).take 4 = magic := by
  rw [sidecarHeader, List.append_assoc, List.append_assoc]
  exact List.take_left' rfl

theorem leNat_pieceSize :
    leNat (((sidecarHeader pieceSize fileSize ++ body).drop 4).take 4) = pieceSize.toNat := by
  have hmagic : magic.length = 4 := rfl
  rw [sidecarHeader, List.append_assoc, List.append_assoc, List.drop_left' hmagic,
    List.take_left' (length_leBytes 4 _)]
  exact leNat_leBytes pieceSize.toNat_lt

theorem leNat_fileSize :
    leNat (((sidecarHeader pieceSize fileSize ++ body).drop 8).take 8) = fileSize.toNat := by
  rw [sidecarHeader, List.append_assoc, List.drop_left' (by simp [magic]),
    List.take_left' (length_leBytes 8 _)]
  exact leNat_leBytes fileSize.toNat_lt

theorem drop_header : (sidecarHeader pieceSize fileSize ++ body).drop 16 = body :=
  List.drop_left' (length_sidecarHeader pieceSize fileSize)

/-- The bytes a file of this geometry keeps its marks in. -/
def fieldLen (pieceSize : UInt32) (fileSize : UInt64) : Nat :=
  byteLen (count fileSize.toNat pieceSize.toNat)

/-- The loader takes the body: it fits the read limit, and its length is the field's, or the
field's and a trailer's with the trailer no older identity than the caller's. -/
def Accepts (pieceSize : UInt32) (fileSize : UInt64) (originId : OriginId) (body : List UInt8) :
    Prop :=
  16 + body.length ≤ maxSidecarLen ∧ pieceSize ≠ 0 ∧
    (body.length = fieldLen pieceSize fileSize ∨
      body.length = fieldLen pieceSize fileSize + manifestIdentityLen ∧
        (OriginId.read (body.drop (fieldLen pieceSize fileSize))).contentChanged originId = false)

instance (originId : OriginId) : Decidable (Accepts pieceSize fileSize originId body) :=
  inferInstanceAs (Decidable (_ ∧ _))

/-- Decoding under the geometry of the header: the first `fieldLen` bytes of a body of either
accepted length. -/
theorem decode_header (hps : pieceSize ≠ 0)
    (hlen : body.length = fieldLen pieceSize fileSize ∨
      body.length = fieldLen pieceSize fileSize + manifestIdentityLen) :
    ∃ bits, Bitfield.decode (sidecarHeader pieceSize fileSize ++ body) pieceSize fileSize = some bits ∧
      bits.bytes.length = fieldLen pieceSize fileSize ∧
      ∀ i, bits.get i = (bitAt body i && decide (i < count fileSize.toNat pieceSize.toNat)) := by
  have hps' : pieceSize.toNat ≠ 0 := fun h => hps (UInt32.toNat_inj.mp h)
  have hfit : fieldLen pieceSize fileSize ≤ body.length := by omega
  unfold Bitfield.decode
  simp only [List.length_append, length_sidecarHeader, take_magic, leNat_pieceSize, leNat_fileSize,
    drop_header]
  rw [if_neg (by omega), if_neg (by simp), if_neg hps', if_neg (by unfold fieldLen at hlen; omega),
    if_neg (by simp)]
  refine ⟨_, rfl, ?_, fun i => ?_⟩
  · rw [Bitfield.length_eq, Bitfield.nbits_ofBytes]
    rfl
  · have hwhole : fieldLen pieceSize fileSize - (body.take (fieldLen pieceSize fileSize)).length = 0 := by
      rw [List.length_take]
      omega
    rw [Bitfield.get_ofBytes]
    simp only [fieldLen] at hwhole
    rw [hwhole, List.replicate_zero, List.append_nil, bitAt_take]
    by_cases hi : i < count fileSize.toNat pieceSize.toNat
    · have hfield : i < 8 * byteLen (count fileSize.toNat pieceSize.toNat) := by
        unfold byteLen
        omega
      simp [hi, hfield]
    · simp [hi]

theorem decode_header_eq_none
    (h : pieceSize = 0 ∨ body.length ≠ fieldLen pieceSize fileSize ∧
      body.length ≠ fieldLen pieceSize fileSize + manifestIdentityLen) :
    Bitfield.decode (sidecarHeader pieceSize fileSize ++ body) pieceSize fileSize = none := by
  unfold Bitfield.decode
  simp only [List.length_append, length_sidecarHeader, take_magic, leNat_pieceSize, leNat_fileSize]
  rw [if_neg (by omega), if_neg (by simp)]
  rcases h with rfl | ⟨hfield, htrailer⟩
  · rw [if_pos UInt32.toNat_zero]
  · unfold fieldLen at hfield htrailer
    split_ifs
    · rfl
    · rfl
    all_goals omega

/-- Decoding under another size than the header's shows no mark. -/
theorem get_decode_of_size_ne {size : UInt64} (hsize : size ≠ fileSize) {bits : Bitfield}
    (h : Bitfield.decode (sidecarHeader pieceSize fileSize ++ body) pieceSize size = some bits)
    (i : Nat) : bits.get i = false := by
  have hne : fileSize.toNat ≠ size.toNat := fun heq => hsize (UInt64.toNat_inj.mp heq).symm
  unfold Bitfield.decode at h
  simp only [take_magic, leNat_pieceSize, leNat_fileSize] at h
  split_ifs at h with _ _ _ _ hstale
  · cases h
    exact Bitfield.get_init ..
  · exact absurd (Or.inr hne) hstale

/-- **What a load shows.** The marks are the body's first bits when the loader accepts it, and
none otherwise. -/
theorem get_loadBits_header (originId : OriginId) (i : Nat) :
    (loadBits pieceSize (readSidecar (sidecarHeader pieceSize fileSize ++ body)) fileSize
        originId).bits.get i =
      (decide (Accepts pieceSize fileSize originId body) && bitAt body i &&
        decide (i < count fileSize.toNat pieceSize.toNat)) := by
  unfold readSidecar
  rw [List.length_append, length_sidecarHeader]
  split_ifs with hbig
  · have hno : ¬ Accepts pieceSize fileSize originId body := fun h => by
      have := h.1
      omega
    simp [loadBits, hno]
  by_cases hshape : pieceSize ≠ 0 ∧ (body.length = fieldLen pieceSize fileSize ∨
      body.length = fieldLen pieceSize fileSize + manifestIdentityLen)
  · obtain ⟨hps, hlen⟩ := hshape
    obtain ⟨bits, hdecode, hbytes, hget⟩ := decode_header pieceSize fileSize body hps hlen
    have hfresh : ¬ (16 ≤ 16 + body.length ∧ True ∧
        (pieceSize.toNat ≠ pieceSize.toNat ∨ fileSize.toNat ≠ fileSize.toNat)) := by simp
    unfold loadBits
    simp only [hdecode, take_magic, leNat_pieceSize, leNat_fileSize, hbytes, List.length_append,
      length_sidecarHeader]
    rw [if_neg hfresh]
    rcases hlen with hlen | hlen
    · -- the field alone: there is no room for a trailer
      have hacc : Accepts pieceSize fileSize originId body := ⟨by omega, hps, Or.inl hlen⟩
      rw [if_neg (by unfold manifestIdentityLen; omega), hget]
      simp [hacc]
    · have hid : ((sidecarHeader pieceSize fileSize ++ body).drop
          (16 + fieldLen pieceSize fileSize)).take manifestIdentityLen =
          body.drop (fieldLen pieceSize fileSize) := by
        rw [← List.drop_drop, drop_header, List.take_of_length_le]
        rw [List.length_drop]
        omega
      rw [if_pos (by omega), hid]
      split_ifs with hchanged
      · have hno : ¬ Accepts pieceSize fileSize originId body := by
          rintro ⟨-, -, h | ⟨-, h⟩⟩
          · unfold manifestIdentityLen at hlen
            omega
          · rw [h] at hchanged
            exact Bool.noConfusion hchanged
        simp [hno]
      · have hacc : Accepts pieceSize fileSize originId body :=
          ⟨by omega, hps, Or.inr ⟨hlen, by simpa using hchanged⟩⟩
        rw [hget]
        simp [hacc]
  · have hno : ¬ Accepts pieceSize fileSize originId body := fun h =>
      hshape ⟨h.2.1, h.2.2.imp_right And.left⟩
    have hnone : Bitfield.decode (sidecarHeader pieceSize fileSize ++ body) pieceSize fileSize = none :=
      decode_header_eq_none pieceSize fileSize body (by tauto)
    simp [loadBits, hnone, hno]

end Header

/-! ## Soundness of a save and a load -/

variable (pieceSize : UInt32) (size : UInt64) (bits : Bitfield) (originId observed : OriginId)

/-- What loading the sidecar of an entry shows, at the entry's own size and piece size. -/
def reloaded : LoadedBits :=
  loadBits pieceSize (readSidecar (saveBits pieceSize size bits originId)) size observed

/-- The load invents no mark: each mark it shows was set in the entry saved, and a field whose
length is not the one the size calls for shows none. -/
def LoadSound : Prop :=
  (∀ i, (reloaded pieceSize size bits originId observed).bits.get i = true → bits.get i = true) ∧
    (bits.bytes.length ≠ fieldLen pieceSize size →
      ∀ i, (reloaded pieceSize size bits originId observed).bits.get i = false)

/-- The field is as much too short as a trailer is long, so the loader takes the identity for
the end of the field, and a bit of the two together falls below the piece count. -/
def IdentityReadAsMarks : Prop :=
  pieceSize ≠ 0 ∧ originId.known = true ∧
    bits.bytes.length + manifestIdentityLen = fieldLen pieceSize size ∧
    16 + fieldLen pieceSize size ≤ maxSidecarLen ∧
    ∃ i < count size.toNat pieceSize.toNat, bitAt (bits.bytes ++ originId.write) i = true

/-- The entry has no identity and the field is as much too long as a trailer, so the loader
takes its end for an identity, not older than the caller's, and a mark is left below the
piece count. -/
def MarksReadAsIdentity : Prop :=
  pieceSize ≠ 0 ∧ originId.known = false ∧
    bits.bytes.length = fieldLen pieceSize size + manifestIdentityLen ∧
    16 + bits.bytes.length ≤ maxSidecarLen ∧
    (OriginId.read (bits.bytes.drop (fieldLen pieceSize size))).contentChanged observed = false ∧
    ∃ i < count size.toNat pieceSize.toNat, bits.get i = true

variable {pieceSize size bits originId observed}

theorem get_reloaded (i : Nat) :
    (reloaded pieceSize size bits originId observed).bits.get i =
      (decide (Accepts pieceSize size observed (bits.bytes ++ identityTrailer originId)) &&
        bitAt (bits.bytes ++ identityTrailer originId) i &&
        decide (i < count size.toNat pieceSize.toNat)) := by
  rw [reloaded, saveBits, Bitfield.encodeTo, List.append_assoc]
  exact get_loadBits_header pieceSize size _ observed i

theorem length_identityTrailer :
    (identityTrailer originId).length = if originId.known then manifestIdentityLen else 0 := by
  cases h : originId.known <;> simp [identityTrailer, h]

/-- A field of the length the size calls for reads back as itself, whatever the trailer. -/
theorem get_of_get_reloaded (hlen : bits.bytes.length = fieldLen pieceSize size) {i : Nat}
    (h : (reloaded pieceSize size bits originId observed).bits.get i = true) :
    bits.get i = true := by
  rw [get_reloaded, Bool.and_eq_true, Bool.and_eq_true, decide_eq_true_iff,
    decide_eq_true_iff, bitAt_append] at h
  obtain ⟨⟨-, hbit⟩, hi⟩ := h
  have hfield : i < 8 * bits.bytes.length := by
    rw [hlen, fieldLen, byteLen]
    omega
  rwa [if_pos hfield, ← Bitfield.get_eq_bitAt] at hbit

theorem not_loadSound_of_identityReadAsMarks
    (h : IdentityReadAsMarks pieceSize size bits originId) :
    ¬ LoadSound pieceSize size bits originId observed := by
  obtain ⟨hps, hknown, hlen, hmax, i, hi, hbit⟩ := h
  have htrailer : identityTrailer originId = originId.write := by simp [identityTrailer, hknown]
  have hbody : (bits.bytes ++ originId.write).length = fieldLen pieceSize size := by
    rw [List.length_append, OriginId.length_write, hlen]
  have hacc : Accepts pieceSize size observed (bits.bytes ++ originId.write) :=
    ⟨by omega, hps, Or.inl hbody⟩
  rintro ⟨-, hempty⟩
  have hget := hempty (by unfold manifestIdentityLen at hlen; omega) i
  rw [get_reloaded, htrailer, decide_eq_true hacc, hbit, decide_eq_true hi] at hget
  exact Bool.noConfusion hget

theorem not_loadSound_of_marksReadAsIdentity
    (h : MarksReadAsIdentity pieceSize size bits originId observed) :
    ¬ LoadSound pieceSize size bits originId observed := by
  obtain ⟨hps, hunknown, hlen, hmax, hid, i, hi, hbit⟩ := h
  have htrailer : identityTrailer originId = [] := by simp [identityTrailer, hunknown]
  have hacc : Accepts pieceSize size observed bits.bytes := ⟨hmax, hps, Or.inr ⟨hlen, hid⟩⟩
  rintro ⟨-, hempty⟩
  have hget := hempty (by unfold manifestIdentityLen at hlen; omega) i
  rw [get_reloaded, htrailer, List.append_nil, decide_eq_true hacc, ← Bitfield.get_eq_bitAt, hbit,
    decide_eq_true hi] at hget
  exact Bool.noConfusion hget

/-- **When a load invents no mark.** Exactly when neither confusion of field and trailer
happens. -/
theorem loadBits_sound_iff (pieceSize : UInt32) (size : UInt64) (bits : Bitfield)
    (originId observed : OriginId) :
    LoadSound pieceSize size bits originId observed ↔
      ¬ IdentityReadAsMarks pieceSize size bits originId ∧
        ¬ MarksReadAsIdentity pieceSize size bits originId observed := by
  constructor
  · intro h
    exact ⟨fun hbad => not_loadSound_of_identityReadAsMarks hbad h,
      fun hbad => not_loadSound_of_marksReadAsIdentity hbad h⟩
  · rintro ⟨hshort, hlong⟩
    by_cases hlen : bits.bytes.length = fieldLen pieceSize size
    · exact ⟨fun i h => get_of_get_reloaded hlen h, fun hne => absurd hlen hne⟩
    -- of the other lengths only the two confusions are accepted
    have hempty : ∀ i, (reloaded pieceSize size bits originId observed).bits.get i = false := by
      intro i
      rw [← Bool.not_eq_true]
      intro hget
      rw [get_reloaded, Bool.and_eq_true, Bool.and_eq_true, decide_eq_true_iff,
        decide_eq_true_iff] at hget
      obtain ⟨⟨⟨hmax, hps, hshape⟩, hbit⟩, hi⟩ := hget
      cases hknown : originId.known with
      | true =>
        have htrailer : identityTrailer originId = originId.write := by simp [identityTrailer, hknown]
        rw [htrailer] at hmax hshape hbit
        rw [List.length_append, OriginId.length_write] at hmax hshape
        rcases hshape with hfield | ⟨hfield, -⟩
        · exact hshort ⟨hps, hknown, hfield, by omega, i, hi, hbit⟩
        · omega
      | false =>
        have htrailer : identityTrailer originId = [] := by simp [identityTrailer, hknown]
        rw [htrailer, List.append_nil] at hmax hshape hbit
        rcases hshape with hfield | ⟨hfield, hid⟩
        · exact hlen hfield
        · exact hlong ⟨hps, hknown, hfield, hmax, hid, i, hi, by rwa [Bitfield.get_eq_bitAt]⟩
    exact ⟨fun i h => by rw [hempty] at h; exact Bool.noConfusion h, fun _ => hempty⟩

/-- A file of 200 pieces grown from 8 under a transfer, with no piece marked: byte 1 of the
identity's modification time is not zero, so pieces 16 and 20 to 23 come back marked. -/
theorem loadBits_unsound_after_deferred_grow :
    ¬ LoadSound 4096 819200 (Bitfield.init 8)
      { mtimeSec := 1700000000, mtimeNsec := 0, ino := 77, known := true } {} := by
  intro h
  have hmark := h.1 16 (by decide)
  exact absurd hmark (by decide)

end ModelFs
