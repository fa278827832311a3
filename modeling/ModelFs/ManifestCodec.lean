import ModelFs.Manifest
import ModelFs.Paths

/-!
# The manifest as bytes

`piece.manifestEncode` and `manifestDecode`: a magic, the grid, the file's size, the number of
entries, the entries, and the identity where the publisher knew one. `publishManifest` writes the
blob under a name that is the hash of the file's, and `expectedHash` reads it back on any node.

* `manifestDecode_blob` — **the codec's round trip**: whatever a publish samples decodes to itself.
* `lookup_mergeManifest_new` — what a load adds.
* `manifest_usable` — **a manifest of at most 64 MiB is usable on another node.**
* `manifest_oversized` — what the reader does with a larger one.
-/

namespace ModelFs

open Inodes (slash pathMax)

/-! ## The blob -/

/-- `piece.digest_len`. -/
def digestLen : Nat := 32

abbrev Digest := {d : List UInt8 // d.length = digestLen}

def manifestMagic : List UInt8 := ascii "MFSM"

/-- The length without the identity. -/
def manifestLen (n : Nat) : Nat := 4 + 4 + 8 + 4 + n * (4 + digestLen)

def entryBytes (e : ManifestEntry Digest) : List UInt8 := leBytes 4 e.idx ++ e.hash.val

/-- Into a buffer of `room` bytes; `none` is `error.NoSpaceLeft`. -/
def manifestEncode (pieceSize fileSize : Nat) (entries : List (ManifestEntry Digest))
    (room : Nat) : Option (List UInt8) :=
  if room < manifestLen entries.length then none
  else some (manifestMagic ++ leBytes 4 pieceSize ++ leBytes 8 fileSize ++
    leBytes 4 entries.length ++ entries.flatMap entryBytes)

/-- The entry loop of `manifestDecode`, behind index `prev`. The blob is as long as its entries. -/
def readEntries (maxIdx : Nat) : Nat → Option Nat → List UInt8 →
    Option (List (ManifestEntry Digest))
  | 0, _, _ => some []
  | n + 1, prev, blob =>
    let idx := leNat (blob.take 4)
    if hhash : ((blob.drop 4).take digestLen).length = digestLen then
      if prev.any fun p => idx ≤ p then none
      else if maxIdx ≤ idx then none
      else (readEntries maxIdx n (some idx) (blob.drop (4 + digestLen))).map
        (⟨idx, ⟨_, hhash⟩⟩ :: ·)
    else none

/-- What decoding comes to. The identity is read off its trailer. -/
inductive Decoded where
  /-- No manifest at all. -/
  | foreign
  /-- `error.BadManifest`. -/
  | bad
  | ok (m : Manifest Digest)

def manifestDecode (blob : List UInt8) : Decoded :=
  if blob.length < 4 then .foreign
  else if blob.take 4 ≠ manifestMagic then .foreign
  else if blob.length < 20 then .bad
  else
    let ps := leNat ((blob.drop 4).take 4)
    let fs := leNat ((blob.drop 8).take 8)
    let n := leNat ((blob.drop 16).take 4)
    if ps = 0 then .bad
    else
      let body := manifestLen n
      if blob.length ≠ body ∧ blob.length ≠ body + manifestIdentityLen then .bad
      else
        match readEntries (Piece.count fs ps) n none (blob.drop 20) with
        | none => .bad
        | some entries => .ok ⟨ps, fs, entries,
            if blob.length = body then none
            else some (OriginId.read ((blob.drop body).take manifestIdentityLen))⟩

/-! ## Publishing and loading -/

def hexLower : List UInt8 := ascii "0123456789abcdef"

def digestHex (d : Digest) : List UInt8 :=
  d.val.flatMap fun b => [hexLower.getD (b.toNat / 16) 0, hexLower.getD (b.toNat % 16) 0]

/-- The file a node sees under a manifest's name. -/
structure StoredFile where
  bytes : List UInt8
  mtime : Option (Int64 × Int64)

/-- One node: where the origin is mounted, its grid, and how long it waits to retry a load. -/
structure ManifestNode where
  root : List UInt8
  pieceSize : Nat
  retryMs : Int

section Node

variable {φ : Type} (blake3 : List UInt8 → Digest)

def manifestName (rel : List UInt8) : List UInt8 := digestHex (blake3 rel)

def manifestsDir : List UInt8 := clusterDir ++ slash :: ascii "manifests"

/-- `none` is `error.NameTooLong`. -/
def manifestPath (root rel : List UInt8) : Option (List UInt8) :=
  (joinZ pathMax root manifestsDir).bind fun d => joinZ pathMax d (manifestName blake3 rel)

/-- The bytes of a sampled manifest: the table, and the trailer behind it. -/
def manifestBlob (m : Manifest Digest) : Option (List UInt8) :=
  let idExtra := if m.identity.isSome then manifestIdentityLen else 0
  (manifestEncode m.pieceSize m.fileSize m.entries (manifestLen m.entries.length + idExtra)).map
    fun body => body ++ (m.identity.map OriginId.write).getD []

/-- The blob that `publishManifest` installs, from the entry its two sections find. -/
def publishManifest (node : ManifestNode) (rel : List UInt8) (sized sampled : Cached φ Digest) :
    Option (List UInt8) :=
  sized.publishSize.bind fun fsize =>
    (sampled.publishSnap node.pieceSize fsize).bind fun snap =>
      (manifestBlob snap.blob).bind fun blob =>
        (manifestPath blake3 node.root rel).map fun _ => blob

/-- `Store.max_manifest_bytes`. -/
def maxManifestBytes : Nat := 64 * 1024 * 1024

/-- The read of `tryLoadManifest`. -/
def readManifest (node : ManifestNode) (rel : List UInt8) (files : List UInt8 → Option StoredFile) :
    ManifestRead Digest :=
  match manifestPath blake3 node.root rel with
  | none => .remembered
  | some _ =>
    match files (manifestName blake3 rel) with
    | none => .missed
    | some file =>
      if maxManifestBytes < file.bytes.length then .remembered
      else
        match manifestDecode file.bytes with
        | .foreign => .missed
        | .bad => .missed
        | .ok m => .loaded m file.mtime

/-- `expectedHash` with nothing in between its sections. -/
def expectedHash (node : ManifestNode) (rel : List UInt8) (files : List UInt8 → Option StoredFile)
    (c : Cached φ Digest) (idx : Nat) (nowMs : Int) : Cached φ Digest × Option Digest :=
  match c.expectedHashLook idx nowMs with
  | (c, .known h) => (c, h)
  | (c, .again) => (c, c.hashes.lookup idx)
  | (c, .load) =>
    let read := readManifest blake3 node rel files
    let c := (c.landManifest node.pieceSize c.writes read (nowMs + node.retryMs)).loadDone
    (c, c.hashes.lookup idx)

end Node

/-! ## The round trip -/

theorem length_entryBytes (e : ManifestEntry Digest) : (entryBytes e).length = 4 + digestLen := by
  rw [entryBytes, List.length_append, length_leBytes, e.hash.property]

theorem length_entries (entries : List (ManifestEntry Digest)) :
    (entries.flatMap entryBytes).length = entries.length * (4 + digestLen) := by
  induction entries with
  | nil => rfl
  | cons e entries ih =>
    rw [List.flatMap_cons, List.length_append, length_entryBytes, ih, List.length_cons,
      Nat.succ_mul, Nat.add_comm]

/-- An ascending list of indices below `n` has at most `n` of them. -/
theorem length_le_of_ascending {entries : List (ManifestEntry Digest)} {n : Nat}
    (hasc : entries.Pairwise fun a b => a.idx < b.idx) (hlt : ∀ e ∈ entries, e.idx < n) :
    entries.length ≤ n := by
  have hnodup : (entries.map ManifestEntry.idx).Nodup :=
    List.pairwise_map.mpr (hasc.imp fun h => Nat.ne_of_lt h)
  have hsub : entries.map ManifestEntry.idx ⊆ List.range n := by
    intro i hi
    obtain ⟨e, he, rfl⟩ := List.mem_map.mp hi
    exact List.mem_range.mpr (hlt e he)
  have hle := (List.subperm_of_subset hnodup hsub).length_le
  rwa [List.length_map, List.length_range] at hle

/-- Entries read back, whatever follows them. -/
theorem readEntries_entries {maxIdx : Nat} {entries : List (ManifestEntry Digest)}
    (hmax : maxIdx ≤ maxU32) (hasc : entries.Pairwise fun a b => a.idx < b.idx)
    (hlt : ∀ e ∈ entries, e.idx < maxIdx) {prev : Option Nat}
    (hprev : ∀ p ∈ prev, ∀ e ∈ entries, p < e.idx) (rest : List UInt8) :
    readEntries maxIdx entries.length prev (entries.flatMap entryBytes ++ rest) = some entries := by
  induction entries generalizing prev with
  | nil => rfl
  | cons e entries ih =>
    obtain ⟨hhead, htail⟩ := List.pairwise_cons.mp hasc
    have hidx := hlt e List.mem_cons_self
    have hbytes : (e :: entries).flatMap entryBytes ++ rest =
        leBytes 4 e.idx ++ (e.hash.val ++ (entries.flatMap entryBytes ++ rest)) := by
      rw [List.flatMap_cons, entryBytes, List.append_assoc, List.append_assoc]
    have htake : ((e :: entries).flatMap entryBytes ++ rest).take 4 = leBytes 4 e.idx := by
      rw [hbytes, List.take_left' (length_leBytes ..)]
    have hhash : (((e :: entries).flatMap entryBytes ++ rest).drop 4).take digestLen =
        e.hash.val := by
      rw [hbytes, List.drop_left' (length_leBytes ..), List.take_left' e.hash.property]
    have hdrop : ((e :: entries).flatMap entryBytes ++ rest).drop (4 + digestLen) =
        entries.flatMap entryBytes ++ rest := by
      rw [← List.drop_drop, hbytes, List.drop_left' (length_leBytes ..),
        List.drop_left' e.hash.property]
    have hnum : leNat (leBytes 4 e.idx) = e.idx :=
      leNat_leBytes (lt_of_lt_of_le hidx (hmax.trans (by decide)))
    have hafter : prev.any (fun p => decide (e.idx ≤ p)) = false := by
      cases prev with
      | none => rfl
      | some p => exact decide_eq_false (Nat.not_le.mpr (hprev p rfl e List.mem_cons_self))
    have hrest : readEntries maxIdx entries.length (some e.idx)
        (entries.flatMap entryBytes ++ rest) = some entries := by
      refine ih htail (fun x hx => hlt x (List.mem_cons_of_mem _ hx)) ?_
      rintro p ⟨⟩ x hx
      exact hhead x hx
    rw [List.length_cons, readEntries]
    simp only [htake, hhash, hdrop, hnum, hafter, hrest, e.hash.property, dif_pos,
      Bool.false_eq_true, if_false, Nat.not_le.mpr hidx, Option.map_some]

/-- The bytes of a manifest, whose every part is found by its offset. -/
theorem manifestDecode_parts {ps fs n : Nat} {body rest : List UInt8} (hps : ps ≤ maxU32)
    (hfs : fs ≤ maxU64) (hn : n ≤ maxU32) :
    manifestDecode (manifestMagic ++ leBytes 4 ps ++ leBytes 8 fs ++ leBytes 4 n ++ body ++ rest) =
      if ps = 0 then .bad
      else if 20 + (body ++ rest).length ≠ manifestLen n ∧
        20 + (body ++ rest).length ≠ manifestLen n + manifestIdentityLen then .bad
      else
        match readEntries (Piece.count fs ps) n none (body ++ rest) with
        | none => .bad
        | some entries => .ok ⟨ps, fs, entries,
            if 20 + (body ++ rest).length = manifestLen n then none
            else some (OriginId.read (((body ++ rest).drop (manifestLen n - 20)).take
              manifestIdentityLen))⟩ := by
  have hmagic : manifestMagic.length = 4 := rfl
  have hps' : leNat (leBytes 4 ps) = ps := leNat_leBytes (lt_of_le_of_lt hps (by decide))
  have hfs' : leNat (leBytes 8 fs) = fs := leNat_leBytes (lt_of_le_of_lt hfs (by decide))
  have hn' : leNat (leBytes 4 n) = n := leNat_leBytes (lt_of_le_of_lt hn (by decide))
  have hblob : manifestMagic ++ leBytes 4 ps ++ leBytes 8 fs ++ leBytes 4 n ++ body ++ rest =
      manifestMagic ++ (leBytes 4 ps ++ (leBytes 8 fs ++ (leBytes 4 n ++ (body ++ rest)))) := by
    simp only [List.append_assoc]
  rw [hblob]
  generalize hall : manifestMagic ++ (leBytes 4 ps ++ (leBytes 8 fs ++ (leBytes 4 n ++
    (body ++ rest)))) = blob
  have hlen : blob.length = 20 + (body ++ rest).length := by
    rw [← hall]
    simp only [List.length_append, length_leBytes, hmagic]
    omega
  have h0 : blob.take 4 = manifestMagic := by
    rw [← hall, List.take_left' hmagic]
  have h4 : blob.drop 4 = leBytes 4 ps ++ (leBytes 8 fs ++ (leBytes 4 n ++ (body ++ rest))) := by
    rw [← hall, List.drop_left' hmagic]
  have h8 : blob.drop 8 = leBytes 8 fs ++ (leBytes 4 n ++ (body ++ rest)) := by
    rw [← List.drop_drop (i := 4) (j := 4), h4, List.drop_left' (length_leBytes ..)]
  have h16 : blob.drop 16 = leBytes 4 n ++ (body ++ rest) := by
    rw [← List.drop_drop (i := 8) (j := 8), h8, List.drop_left' (length_leBytes ..)]
  have h20 : blob.drop 20 = body ++ rest := by
    rw [← List.drop_drop (i := 4) (j := 16), h16, List.drop_left' (length_leBytes ..)]
  have hbody : blob.drop (manifestLen n) = (body ++ rest).drop (manifestLen n - 20) := by
    have hoff : 20 + (manifestLen n - 20) = manifestLen n := by
      unfold manifestLen
      omega
    rw [← h20, List.drop_drop, hoff]
  unfold manifestDecode
  rw [if_neg (by omega), if_neg (not_not.mpr h0), if_neg (by omega), h4, h8, h16,
    List.take_left' (length_leBytes ..), List.take_left' (length_leBytes ..),
    List.take_left' (length_leBytes ..), hps', hfs', hn', h20]
  dsimp only
  rw [hbody, hlen]

/-- A manifest always has the room that its publish makes for it. -/
theorem manifestBlob_eq (m : Manifest Digest) :
    manifestBlob m = some (manifestMagic ++ leBytes 4 m.pieceSize ++ leBytes 8 m.fileSize ++
      leBytes 4 m.entries.length ++ m.entries.flatMap entryBytes ++
        (m.identity.map OriginId.write).getD []) := by
  have hroom : ¬ manifestLen m.entries.length +
      (if m.identity.isSome then manifestIdentityLen else 0) < manifestLen m.entries.length :=
    Nat.not_lt.mpr (Nat.le_add_right ..)
  unfold manifestBlob manifestEncode
  dsimp only
  rw [if_neg hroom, Option.map_some]

/-- **The codec's round trip.** -/
theorem manifestDecode_blob {m : Manifest Digest} (hps : 0 < m.pieceSize ∧ m.pieceSize ≤ maxU32)
    (hfs : m.fileSize ≤ maxU64) (hasc : m.entries.Pairwise fun a b => a.idx < b.idx)
    (hgrid : ∀ e ∈ m.entries, e.idx < Piece.count m.fileSize m.pieceSize)
    (hid : ∀ id ∈ m.identity, id.known = true) :
    ∃ blob, manifestBlob m = some blob ∧ manifestDecode blob = .ok m ∧
      blob.length = manifestLen m.entries.length +
        if m.identity.isSome then manifestIdentityLen else 0 := by
  have hcount := Piece.count_le_maxU32 m.fileSize m.pieceSize
  have hn : m.entries.length ≤ maxU32 := (length_le_of_ascending hasc hgrid).trans hcount
  have hentries := @readEntries_entries _ _ hcount hasc hgrid none fun _ h => nomatch h
  obtain ⟨ps, fs, entries, identity⟩ := m
  dsimp only at hps hfs hid hn hentries ⊢
  have hlen := length_entries entries
  have hbody : manifestLen entries.length = 20 + (entries.flatMap entryBytes).length := by
    rw [hlen]
    rfl
  have hps0 : ¬ ps = 0 := Nat.pos_iff_ne_zero.mp hps.1
  have htrailer : ((identity.map OriginId.write).getD []).length =
      if identity.isSome then manifestIdentityLen else 0 := by
    cases identity with
    | none => rfl
    | some id => exact OriginId.length_write id
  have hparts := @manifestDecode_parts ps fs entries.length (entries.flatMap entryBytes)
    ((identity.map OriginId.write).getD []) hps.2 hfs hn
  refine ⟨_, manifestBlob_eq _, hparts.trans ?_, ?_⟩
  · rw [if_neg hps0, hentries, hbody]
    cases identity with
    | none =>
      rw [Option.map_none, Option.getD_none, List.append_nil, if_neg (fun h => h.1 rfl), if_pos rfl]
    | some id =>
      have htrailer' := OriginId.length_write id
      have hknown := hid id rfl
      rw [Option.map_some, Option.getD_some, List.length_append, htrailer',
        if_neg (fun h => h.2 (Nat.add_assoc ..).symm), if_neg (by simp [manifestIdentityLen]),
        Nat.add_sub_cancel_left, List.drop_left' rfl, List.take_of_length_le htrailer'.le,
        OriginId.read_write]
      dsimp only
      rw [← hknown]
  · have hmagic : manifestMagic.length = 4 := rfl
    simp only [List.length_append, length_leBytes, hmagic]
    rw [hbody, htrailer]

/-! ## What a publish samples, and what a load adds -/

namespace Cached

variable {φ δ : Type}

/-- A publish sorts distinct indices. -/
theorem gridEntries_ascending (c : Cached φ δ) (maxIdx : Nat) :
    (c.gridEntries maxIdx).Pairwise fun a b => a.idx < b.idx := by
  have hle : (c.gridEntries maxIdx).Pairwise fun a b => a.idx ≤ b.idx := by
    have hsorted := @List.pairwise_mergeSort _ (fun a b : ManifestEntry δ => decide (a.idx ≤ b.idx))
      (fun _ _ _ hab hbc => decide_eq_true (Nat.le_trans (of_decide_eq_true hab)
        (of_decide_eq_true hbc)))
      (fun a b => by simpa using Nat.le_total a.idx b.idx)
      ((c.hashes.entries.filter fun e => e.1 < maxIdx).map fun e => ⟨e.1, e.2⟩)
    exact hsorted.imp of_decide_eq_true
  have hne : (c.gridEntries maxIdx).Pairwise fun a b => a.idx ≠ b.idx := by
    have hkeys := List.nodupKeys_iff_pairwise.mp c.hashes.nodupKeys
    have hmap : ((c.hashes.entries.filter fun e => e.1 < maxIdx).map fun e =>
        (⟨e.1, e.2⟩ : ManifestEntry δ)).Pairwise fun a b => a.idx ≠ b.idx :=
      List.pairwise_map.mpr (hkeys.filter _)
    exact (List.mergeSort_perm _ _).symm.pairwise hmap Ne.symm
  exact (hle.and hne).imp fun h => Nat.lt_of_le_of_ne h.1 h.2

/-- A load gives each gap the manifest's digest. -/
theorem lookup_mergeManifest_new {c : Cached φ δ} {entries : List (ManifestEntry δ)}
    (hne : entries.Pairwise fun a b => a.idx ≠ b.idx) {k : Nat} {h : δ}
    (hmem : (⟨k, h⟩ : ManifestEntry δ) ∈ entries) :
    (c.mergeManifest entries).hashes.lookup k = some ((c.hashes.lookup k).getD h) := by
  induction entries generalizing c with
  | nil => cases hmem
  | cons e entries ih =>
    obtain ⟨hhead, htail⟩ := List.pairwise_cons.mp hne
    have hcons : c.mergeManifest (e :: entries) =
        (if e.idx ∈ c.hashes then c else { c with hashes := c.hashes.insert e.idx e.hash
          }).mergeManifest entries := List.foldl_cons ..
    rw [hcons]
    rcases List.mem_cons.mp hmem with rfl | hmem
    · -- the entry at hand: the digest there was, or its own
      split_ifs with hin
      · obtain ⟨own, hown⟩ := Option.isSome_iff_exists.mp (AList.lookup_isSome.mpr hin)
        rw [hown, Option.getD_some]
        exact lookup_mergeManifest entries hown
      · rw [AList.lookup_eq_none.mpr hin, Option.getD_none]
        exact lookup_mergeManifest entries (AList.lookup_insert c.hashes)
    · have hk : e.idx ≠ k := hhead _ hmem
      rw [ih htail hmem]
      split_ifs
      · rfl
      · dsimp only
        rw [AList.lookup_insert_ne hk.symm]

/-- What a due lookup does, from what its read comes to. -/
theorem expectedHash_due {φ : Type} {blake3 : List UInt8 → Digest} {node : ManifestNode}
    {rel : List UInt8} {files : List UInt8 → Option StoredFile} {c : Cached φ Digest} {idx : Nat}
    {nowMs : Int} (hdue : c.manifestSize ≠ some c.size ∧ c.manifestRetryAt ≤ nowMs ∧
      c.manifestLoading = false) :
    expectedHash blake3 node rel files c idx nowMs =
      let c' := ({ c with manifestLoading := true }.landManifest node.pieceSize c.writes
        (readManifest blake3 node rel files) (nowMs + node.retryMs)).loadDone
      (c', c'.hashes.lookup idx) := by
  unfold expectedHash expectedHashLook
  rw [if_neg hdue.1, if_pos (by simp [hdue.2.1, hdue.2.2])]

end Cached

/-! ## A published manifest on another node -/

section Usable

variable {φ : Type} {blake3 : List UInt8 → Digest} {writer reader : ManifestNode}
  {rel blob : List UInt8} {sized sampled c : Cached φ Digest}

/-- A blob that was published decodes to what was sampled. -/
theorem decode_of_publish (hps : 0 < writer.pieceSize ∧ writer.pieceSize ≤ maxU32)
    (hsize : sized.size ≤ maxU64)
    (hpub : publishManifest blake3 writer rel sized sampled = some blob) :
    manifestDecode blob = .ok ⟨writer.pieceSize, sized.size,
        sampled.gridEntries (Piece.count sized.size writer.pieceSize),
        if sampled.originId.known then some sampled.originId else none⟩ ∧
      blob.length =
        manifestLen (sampled.gridEntries (Piece.count sized.size writer.pieceSize)).length +
          if sampled.originId.known then manifestIdentityLen else 0 := by
  unfold publishManifest at hpub
  obtain ⟨fsize, hfsize, hpub⟩ := Option.bind_eq_some_iff.mp hpub
  obtain ⟨snap, hsnap, hpub⟩ := Option.bind_eq_some_iff.mp hpub
  obtain ⟨blob', hblob, hpub⟩ := Option.bind_eq_some_iff.mp hpub
  obtain ⟨path, -, rfl⟩ := Option.map_eq_some_iff.mp hpub
  obtain ⟨-, -, -, hm⟩ := Cached.publishSnap_cases hsnap
  have hsized : fsize = sized.size := by
    unfold Cached.publishSize at hfsize
    split_ifs at hfsize
    exact (Option.some.inj hfsize).symm
  rw [hsized] at hm
  have hgrid : ∀ e ∈ sampled.gridEntries (Piece.count sized.size writer.pieceSize),
      e.idx < Piece.count sized.size writer.pieceSize := fun e he =>
    (Cached.mem_gridEntries.mp he).2
  have hknown : ∀ id ∈ (if sampled.originId.known then some sampled.originId else none),
      id.known = true := by
    intro id hid
    split_ifs at hid with hk
    · obtain rfl := Option.some.inj hid
      exact hk
    · cases hid
  obtain ⟨blob, hencode, hdecode, hlen⟩ := @manifestDecode_blob ⟨writer.pieceSize, sized.size,
    sampled.gridEntries (Piece.count sized.size writer.pieceSize),
    if sampled.originId.known then some sampled.originId else none⟩ hps hsize
    (Cached.gridEntries_ascending _ _) hgrid hknown
  rw [hm, hencode] at hblob
  obtain rfl := Option.some.inj hblob
  refine ⟨hdecode, hlen.trans ?_⟩
  cases sampled.originId.known with
  | false => rfl
  | true => rfl

/-- A manifest for the entry's size, grid and identity is merged. -/
theorem landManifest_same {pieceSize : Nat} {entries : List (ManifestEntry Digest)}
    {mtime : Option (Int64 × Int64)} (retryAt : Int) (hlive : c.dead = false)
    (hfresh : ∀ at_ ∈ mtime, c.originId.newerThanMtime at_.1 at_.2 = false) :
    c.landManifest pieceSize c.writes (.loaded ⟨pieceSize, c.size, entries,
        if c.originId.known then some c.originId else none⟩ mtime) retryAt =
      { c.mergeManifest entries with manifestSize := some c.size } := by
  have hid : (if c.originId.known then some c.originId else none).any
      (fun mid => c.originId.known && !mid.eql c.originId) = false := by
    split_ifs with hknown
    · have hself : c.originId.eql c.originId = true := OriginId.eql_iff.mpr ⟨hknown, hknown, rfl⟩
      rw [Option.any_some, hself, Bool.not_true, Bool.and_false]
    · rfl
  have hmtime : mtime.any (fun at_ => c.originId.newerThanMtime at_.1 at_.2) = false := by
    cases mtime with
    | none => rfl
    | some at_ => exact hfresh at_ rfl
  unfold Cached.landManifest
  dsimp only
  rw [hlive, hid, hmtime, if_neg Bool.false_ne_true, if_neg (not_not.mpr rfl), if_neg (by simp),
    if_neg Bool.false_ne_true, if_neg Bool.false_ne_true]

/-- The read of a blob that was published. -/
theorem readManifest_of_publish {files : List UInt8 → Option StoredFile}
    {mtime : Option (Int64 × Int64)} (hps : 0 < writer.pieceSize ∧ writer.pieceSize ≤ maxU32)
    (hsize : sized.size ≤ maxU64)
    (hpub : publishManifest blake3 writer rel sized sampled = some blob)
    (hfile : files (manifestName blake3 rel) = some ⟨blob, mtime⟩) :
    readManifest blake3 reader rel files =
      if (manifestPath blake3 reader.root rel).isSome ∧ blob.length ≤ maxManifestBytes then
        .loaded ⟨writer.pieceSize, sized.size,
          sampled.gridEntries (Piece.count sized.size writer.pieceSize),
          if sampled.originId.known then some sampled.originId else none⟩ mtime
      else .remembered := by
  unfold readManifest
  cases hpath : manifestPath blake3 reader.root rel with
  | none => rfl
  | some path =>
    dsimp only
    rw [hfile]
    dsimp only
    rw [(decode_of_publish hps hsize hpub).1]
    by_cases hbig : maxManifestBytes < blob.length
    · rw [if_pos hbig]
      exact (if_neg fun h => absurd h.2 (Nat.not_le.mpr hbig)).symm
    · rw [if_neg hbig]
      exact (if_pos ⟨rfl, Nat.not_lt.mp hbig⟩).symm

/-- **A published manifest is usable.** On a node whose entry has the same size, grid and identity,
a due lookup adds the publisher's digests to its own and is done for the size; of a blob that is
too large, or whose path does not fit there, it adds none. -/
theorem manifest_usable {files : List UInt8 → Option StoredFile} {mtime : Option (Int64 × Int64)}
    (hps : 0 < writer.pieceSize ∧ writer.pieceSize ≤ maxU32) (hsize : sized.size ≤ maxU64)
    (hpub : publishManifest blake3 writer rel sized sampled = some blob)
    (hfile : files (manifestName blake3 rel) = some ⟨blob, mtime⟩)
    (hgrid : reader.pieceSize = writer.pieceSize) (hlive : c.dead = false)
    (hsame : c.size = sized.size) (hid : c.originId = sampled.originId)
    (hfresh : ∀ at_ ∈ mtime, c.originId.newerThanMtime at_.1 at_.2 = false) (idx : Nat)
    {nowMs : Int} (hdue : c.manifestSize ≠ some c.size ∧ c.manifestRetryAt ≤ nowMs ∧
      c.manifestLoading = false) :
    let c' := (expectedHash blake3 reader rel files c idx nowMs).1
    (expectedHash blake3 reader rel files c idx nowMs).2 = c'.hashes.lookup idx ∧
      c'.manifestSize = some c.size ∧ c'.manifestLoading = false ∧
      (∀ i h, c.hashes.lookup i = some h → c'.hashes.lookup i = some h) ∧
      if (manifestPath blake3 reader.root rel).isSome ∧ blob.length ≤ maxManifestBytes then
        ∀ i h, i < Piece.count sized.size writer.pieceSize → sampled.hashes.lookup i = some h →
          c'.hashes.lookup i = some ((c.hashes.lookup i).getD h)
      else c'.hashes = c.hashes := by
  rw [Cached.expectedHash_due hdue, readManifest_of_publish hps hsize hpub hfile]
  refine ⟨rfl, ?_⟩
  by_cases hfit : (manifestPath blake3 reader.root rel).isSome ∧ blob.length ≤ maxManifestBytes
  · have hland := @landManifest_same φ { c with manifestLoading := true } writer.pieceSize
      (sampled.gridEntries (Piece.count sized.size writer.pieceSize)) mtime (nowMs + reader.retryMs)
      hlive hfresh
    have hne := (sampled.gridEntries_ascending (Piece.count sized.size writer.pieceSize)).imp
      fun h => Nat.ne_of_lt h
    rw [if_pos hfit, if_pos hfit, hgrid, ← hsame, ← hid]
    dsimp only at hland
    rw [← hsame] at hland hne
    rw [hland]
    exact ⟨rfl, rfl, fun i h hi => Cached.lookup_mergeManifest _ hi, fun i h hi hlook =>
      Cached.lookup_mergeManifest_new hne (Cached.mem_gridEntries.mpr ⟨hlook, hi⟩)⟩
  · rw [if_neg hfit, if_neg hfit]
    exact ⟨rfl, rfl, fun i h hi => hi, rfl⟩

end Usable

/-! ## Files with every digest recorded -/

section Hashed

/-- A file of `n` blocks of 4096 bytes, each with a recorded digest. -/
def hashedEntry (n : Nat) (d : Digest) : Cached Unit Digest where
  size := n * 4096
  bits := Bitfield.init n
  hashes := ⟨(List.range n).map fun i => ⟨i, d⟩, by
    rw [List.NodupKeys, List.keys, List.map_map]
    exact (List.map_id _).symm ▸ List.nodup_range⟩
  manifestDirty := true

def blockNode : ManifestNode := ⟨ascii "/o", 4096, 1000⟩

variable {n : Nat} {d : Digest}

theorem lookup_hashedEntry {i : Nat} (hi : i < n) : (hashedEntry n d).hashes.lookup i = some d :=
  AList.mem_lookup_iff.mpr (List.mem_map_of_mem (List.mem_range.mpr hi))

theorem count_blocks (hn : 0 < n) (hmax : n ≤ maxU32) : Piece.count (n * 4096) 4096 = n := by
  have hdiv : Piece.divCeil (n * 4096) 4096 = n := by
    unfold Piece.divCeil
    rw [Nat.mul_div_cancel _ (by decide), Nat.mul_mod_left, if_neg (by simp)]
    rfl
  unfold Piece.count
  rw [if_neg (by omega), hdiv, Nat.min_eq_left hmax]

theorem length_gridEntries_hashedEntry : ((hashedEntry n d).gridEntries n).length = n := by
  have hall : ((hashedEntry n d).hashes.entries.filter fun e => e.1 < n) =
      (hashedEntry n d).hashes.entries := by
    refine List.filter_eq_self.mpr fun e he => ?_
    obtain ⟨i, hi, rfl⟩ := List.mem_map.mp he
    exact decide_eq_true (List.mem_range.mp hi)
  have hlen : (hashedEntry n d).hashes.entries.length = n := by
    rw [hashedEntry, List.length_map, List.length_range]
  rw [Cached.gridEntries, List.length_mergeSort, List.length_map, hall, hlen]

theorem length_digestHex (d : Digest) : (digestHex d).length = 2 * digestLen := by
  have hlen : ∀ bs : List UInt8, (bs.flatMap fun b => [hexLower.getD (b.toNat / 16) 0,
      hexLower.getD (b.toNat % 16) 0]).length = 2 * bs.length := by
    intro bs
    induction bs with
    | nil => rfl
    | cons b bs ih =>
      rw [List.flatMap_cons, List.length_append, ih, List.length_cons]
      simp only [List.length_cons, List.length_nil]
      omega
  rw [digestHex, hlen, d.property]

theorem manifestPath_blockNode (blake3 : List UInt8 → Digest) (rel : List UInt8) :
    (manifestPath blake3 blockNode.root rel).isSome := by
  have hdir : joinZ pathMax blockNode.root manifestsDir = some (ascii "/o/.cluster/manifests") := by
    decide
  have hname : (manifestName blake3 rel).length = 64 := length_digestHex _
  unfold manifestPath
  rw [hdir, Option.bind_some]
  refine joinZ_isSome ?_
  rw [hname]
  decide

/-- Such a file has a manifest, 36 bytes for each block. -/
theorem publish_hashedEntry (blake3 : List UInt8 → Digest) (rel : List UInt8) (hn : 0 < n)
    (hmax : n ≤ maxU32) :
    ∃ blob, publishManifest blake3 blockNode rel (hashedEntry n d) (hashedEntry n d) = some blob ∧
      blob.length = manifestLen n := by
  have hcount := count_blocks hn hmax
  have hsize : (hashedEntry n d).publishSize = some (n * 4096) := by
    have hsome : (hashedEntry n d).hashCount ≠ 0 := by
      rw [Cached.hashCount, hashedEntry, List.length_map, List.length_range]
      omega
    have hdead : (hashedEntry n d).dead = false := rfl
    have hdirty : (hashedEntry n d).manifestDirty = true := rfl
    unfold Cached.publishSize
    rw [hdead, hdirty, if_neg Bool.false_ne_true, if_neg (by simp [hsome])]
    rfl
  have hgridSize : 0 < blockNode.pieceSize ∧ blockNode.pieceSize ≤ maxU32 := by decide
  have hsnap := @Cached.publishSnap_of_lookup _ _ blockNode.pieceSize (hashedEntry n d) (n * 4096) 0
    d rfl rfl (lookup_hashedEntry hn) (hcount.symm ▸ hn)
  have hgrid : ∀ e ∈ (hashedEntry n d).gridEntries (Piece.count (n * 4096) blockNode.pieceSize),
      e.idx < Piece.count (n * 4096) blockNode.pieceSize := fun e he =>
    (Cached.mem_gridEntries.mp he).2
  have hfit : n * 4096 ≤ maxU64 :=
    (Nat.mul_le_mul_right 4096 hmax).trans (by decide)
  obtain ⟨blob, hencode, -, hlen⟩ := @manifestDecode_blob ⟨blockNode.pieceSize, n * 4096,
    (hashedEntry n d).gridEntries (Piece.count (n * 4096) blockNode.pieceSize), none⟩
    hgridSize hfit (Cached.gridEntries_ascending _ _) hgrid nofun
  obtain ⟨path, hpath⟩ := Option.isSome_iff_exists.mp (manifestPath_blockNode blake3 rel)
  refine ⟨blob, ?_, hlen.trans ?_⟩
  · unfold publishManifest
    rw [hsize, Option.bind_some, hsnap, Option.bind_some]
    dsimp only
    rw [if_neg (by simp [hashedEntry]), hencode, Option.bind_some, hpath, Option.map_some]
  · have hentries : ((hashedEntry n d).gridEntries (Piece.count (n * 4096)
        blockNode.pieceSize)).length = n := by
      rw [show blockNode.pieceSize = 4096 from rfl, hcount, length_gridEntries_hashedEntry]
    dsimp only
    rw [hentries]
    rfl

/-- The digest of the name `a`. -/
def digestA : Digest :=
  ⟨[23, 118, 47, 221, 217, 105, 164, 83, 146, 93, 101, 113, 122, 195, 238, 162, 19, 32, 182, 107,
    84, 52, 47, 222, 21, 18, 141, 108, 175, 33, 33, 95], rfl⟩

/-- A node that has none of the digests. -/
def coldEntry (n : Nat) : Cached Unit Digest := { hashedEntry n digestA with hashes := ∅ }

theorem manifest_usable_block :
    ∃ blob, publishManifest (fun _ => digestA) blockNode (ascii "a") (hashedEntry 1 digestA)
        (hashedEntry 1 digestA) = some blob ∧
      let files := fun _ => some ⟨blob, some (7, 0)⟩
      let r := expectedHash (fun _ => digestA) blockNode (ascii "a") files (coldEntry 1) 0 0
      r.2 = r.1.hashes.lookup 0 ∧ r.1.manifestSize = some 4096 ∧ r.1.manifestLoading = false ∧
        (∀ i h, (coldEntry 1).hashes.lookup i = some h → r.1.hashes.lookup i = some h) ∧
        if (manifestPath (fun _ => digestA) (ascii "/o") (ascii "a")).isSome ∧
          blob.length ≤ maxManifestBytes then
          ∀ i h, i < Piece.count 4096 4096 → (hashedEntry 1 digestA).hashes.lookup i = some h →
            r.1.hashes.lookup i = some (((coldEntry 1).hashes.lookup i).getD h)
        else r.1.hashes = (coldEntry 1).hashes := by
  obtain ⟨blob, hpub, -⟩ := @publish_hashedEntry 1 digestA (fun _ => digestA) (ascii "a")
    Nat.one_pos (by decide)
  exact ⟨blob, hpub, @manifest_usable Unit (fun _ => digestA) blockNode blockNode (ascii "a") blob
    (hashedEntry 1 digestA) (hashedEntry 1 digestA) (coldEntry 1) _ (some (7, 0)) (by decide)
    (by decide) hpub rfl rfl rfl rfl rfl (fun _ _ => rfl) 0 0 ⟨nofun, by decide, rfl⟩⟩

/-- **A manifest past 64 MiB is written and never read.** It takes 1 864 135 digests. -/
theorem manifest_too_large :
    ¬ ∀ (blake3 : List UInt8 → Digest) (writer reader : ManifestNode) (rel blob : List UInt8)
      (sized sampled c : Cached Unit Digest) (files : List UInt8 → Option StoredFile)
      (mtime : Option (Int64 × Int64)) (idx : Nat) (nowMs : Int),
      0 < writer.pieceSize ∧ writer.pieceSize ≤ maxU32 → sized.size ≤ maxU64 →
      publishManifest blake3 writer rel sized sampled = some blob →
      files (manifestName blake3 rel) = some ⟨blob, mtime⟩ →
      reader.pieceSize = writer.pieceSize → c.dead = false → c.size = sized.size →
      c.originId = sampled.originId →
      (∀ at_ ∈ mtime, c.originId.newerThanMtime at_.1 at_.2 = false) →
      c.manifestSize ≠ some c.size ∧ c.manifestRetryAt ≤ nowMs ∧ c.manifestLoading = false →
      ∀ i h, i < Piece.count sized.size writer.pieceSize → sampled.hashes.lookup i = some h →
        ((expectedHash blake3 reader rel files c idx nowMs).1.hashes.lookup i).isSome := by
  intro hall
  obtain ⟨blob, hpub, hlen⟩ := @publish_hashedEntry 1864135 digestA (fun _ => digestA) (ascii "a")
    (by decide) (by decide)
  have hps : 0 < blockNode.pieceSize ∧ blockNode.pieceSize ≤ maxU32 := by decide
  have hsize : (hashedEntry 1864135 digestA).size ≤ maxU64 := by decide
  have hfirst : 0 < Piece.count (1864135 * 4096) 4096 := by decide
  have hdue : (coldEntry 1864135).manifestSize ≠ some (coldEntry 1864135).size ∧
      (coldEntry 1864135).manifestRetryAt ≤ 0 ∧ (coldEntry 1864135).manifestLoading = false :=
    ⟨nofun, by decide, rfl⟩
  have hlook := hall (fun _ => digestA) blockNode blockNode (ascii "a") blob _ _
    (coldEntry 1864135) (fun _ => some ⟨blob, some (7, 0)⟩) (some (7, 0)) 0 0 hps hsize hpub rfl rfl
    rfl rfl rfl (fun _ _ => rfl) hdue 0 digestA hfirst (lookup_hashedEntry (by decide))
  have hbig : ¬ ((manifestPath (fun _ => digestA) blockNode.root (ascii "a")).isSome ∧
      blob.length ≤ maxManifestBytes) := by
    rintro ⟨-, hle⟩
    rw [hlen] at hle
    exact absurd hle (by decide)
  rw [Cached.expectedHash_due hdue, readManifest_of_publish hps hsize hpub rfl, if_neg hbig] at hlook
  exact absurd hlook (by decide)

end Hashed

end ModelFs
