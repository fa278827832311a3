import ModelFs.Lib.LittleEndian

/-!
# Identity of the origin file

`Store.OriginId`: the stamp an entry keeps of the origin file its marks were made for, the
modification time and the inode number of one `stat`. The zero value is the unknown identity.

* `OriginId.read_write` — the 24-byte trailer carries a known identity unchanged.
* `OriginId.write_read` — and every 24 bytes are the trailer of the identity they are read as.
* `OriginId.eql_iff` — `eql` is equality of known identities.
-/

namespace ModelFs

/-- Identity of the origin file at a `stat`. -/
structure OriginId where
  mtimeSec : Int64 := 0
  mtimeNsec : Int64 := 0
  ino : UInt64 := 0
  known : Bool := false
  deriving DecidableEq, Repr

/-- `piece.manifest_identity_len`. -/
def manifestIdentityLen : Nat := 24

namespace OriginId

/-- True when `observed` is a different object or a strictly newer write of the same object. -/
def contentChanged (recorded observed : OriginId) : Bool :=
  if !recorded.known || !observed.known then false
  else if recorded.ino ≠ observed.ino then true
  else if observed.mtimeSec ≠ recorded.mtimeSec then observed.mtimeSec > recorded.mtimeSec
  else observed.mtimeNsec > recorded.mtimeNsec

/-- Both sides named, and the same object at the same modification time. -/
def eql (a b : OriginId) : Bool :=
  if !a.known || !b.known then false
  else a.ino == b.ino && a.mtimeSec == b.mtimeSec && a.mtimeNsec == b.mtimeNsec

/-- True when this identity is a strictly newer write than the given modification time. -/
def newerThanMtime (self : OriginId) (sec nsec : Int64) : Bool :=
  if !self.known then false
  else if self.mtimeSec ≠ sec then self.mtimeSec > sec
  else self.mtimeNsec > nsec

/-- The identity trailer. -/
def write (self : OriginId) : List UInt8 :=
  leBytes 8 self.mtimeSec.toUInt64.toNat ++ leBytes 8 self.mtimeNsec.toUInt64.toNat ++
    leBytes 8 self.ino.toNat

def read (blob : List UInt8) : OriginId where
  mtimeSec := (UInt64.ofNat (leNat (blob.take 8))).toInt64
  mtimeNsec := (UInt64.ofNat (leNat ((blob.drop 8).take 8))).toInt64
  ino := UInt64.ofNat (leNat ((blob.drop 16).take 8))
  known := true

/-! ## The trailer's round trip -/

@[simp] theorem length_write (id : OriginId) : id.write.length = manifestIdentityLen := by
  simp [write, manifestIdentityLen]

@[simp] theorem known_read (blob : List UInt8) : (read blob).known = true := rfl

theorem leNat_leBytes_toNat (v : UInt64) : leNat (leBytes 8 v.toNat) = v.toNat :=
  leNat_leBytes v.toNat_lt

/-- **Round trip.** What `write` puts in a sidecar, `read` takes back as a known identity. -/
theorem read_write (id : OriginId) : read id.write = { id with known := true } := by
  have hsec : id.write.take 8 = leBytes 8 id.mtimeSec.toUInt64.toNat := by
    rw [write, List.append_assoc, List.take_left' (length_leBytes 8 _)]
  have hnsec : (id.write.drop 8).take 8 = leBytes 8 id.mtimeNsec.toUInt64.toNat := by
    rw [write, List.append_assoc, List.drop_left' (length_leBytes 8 _),
      List.take_left' (length_leBytes 8 _)]
  have hino : (id.write.drop 16).take 8 = leBytes 8 id.ino.toNat := by
    rw [write, List.drop_left' (by simp), List.take_of_length_le (by simp)]
  simp only [read, hsec, hnsec, hino, leNat_leBytes_toNat, UInt64.ofNat_toNat]
  rfl

theorem leBytes_ofNat_leNat {blob : List UInt8} (h : blob.length = 8) :
    leBytes 8 (UInt64.ofNat (leNat blob)).toNat = blob := by
  have hlt : leNat blob < 2 ^ 64 := by
    have hle := leNat_lt blob
    rwa [h] at hle
  have hback := leBytes_leNat blob
  rw [h] at hback
  rw [UInt64.toNat_ofNat_of_lt' hlt, hback]

/-- **Back.** The bytes of a trailer are the ones that its identity is written as. -/
theorem write_read {blob : List UInt8} (h : blob.length = manifestIdentityLen) :
    (read blob).write = blob := by
  have hparts : blob = blob.take 8 ++ (blob.drop 8).take 8 ++ (blob.drop 16).take 8 := by
    have hlast : (blob.drop 16).take 8 = blob.drop 16 := by
      apply List.take_of_length_le
      rw [List.length_drop, h]
      decide
    rw [hlast, List.append_assoc, ← List.drop_drop (i := 8) (j := 8), List.take_append_drop,
      List.take_append_drop]
  have hlen : ∀ k, k + 8 ≤ manifestIdentityLen → ((blob.drop k).take 8).length = 8 := by
    intro k hk
    rw [List.length_take, List.length_drop, h]
    omega
  have hfirst : (blob.take 8).length = 8 := hlen 0 (by decide)
  unfold read write
  simp only [UInt64.toUInt64_toInt64, leBytes_ofNat_leNat hfirst,
    leBytes_ofNat_leNat (hlen 8 (by decide)), leBytes_ofNat_leNat (hlen 16 (by decide))]
  exact hparts.symm

/-! ## Comparisons -/

theorem contentChanged_of_unknown {recorded observed : OriginId} (h : recorded.known = false) :
    recorded.contentChanged observed = false := by
  simp [contentChanged, h]

theorem contentChanged_self (id : OriginId) : id.contentChanged id = false := by
  unfold contentChanged
  split_ifs <;> simp_all

theorem eql_iff {a b : OriginId} :
    a.eql b = true ↔ a.known = true ∧ b.known = true ∧ a = b := by
  obtain ⟨asec, ansec, aino, aknown⟩ := a
  obtain ⟨bsec, bnsec, bino, bknown⟩ := b
  cases aknown <;> cases bknown <;> simp [eql, and_comm, and_left_comm]

/-- Identities that agree describe no change. -/
theorem contentChanged_of_eql {a b : OriginId} (h : a.eql b = true) :
    a.contentChanged b = false := by
  obtain ⟨-, -, rfl⟩ := eql_iff.mp h
  exact contentChanged_self a

end OriginId

end ModelFs
