import Mathlib.Data.List.Sort
import ModelFs.Cached

/-!
# The piece-hash manifest

The digests an entry trusts travel between nodes in a manifest: the grid and the file size they
belong to, the digests by ascending piece index, and the identity the publisher saw. `expectedHash`
and `tryLoadManifest` read it and fill the gaps of the entry's own map; `publishManifest` samples
the size in one section, the digests and the identity in another, writes the blob outside of the
lock and clears the dirty flag in a third.

* `lookup_mergeManifest` — a load keeps every digest there was.
* `mem_gridEntries` — what a publish samples is the entry's map below the grid's end.
* `Cached.map_eq_of_kept` — a map that kept every digest and its count is the same map.
-/

namespace ModelFs

/-- One entry of a manifest. -/
structure ManifestEntry (δ : Type) where
  idx : Nat
  hash : δ
  deriving DecidableEq

structure Manifest (δ : Type) where
  pieceSize : Nat
  fileSize : Nat
  entries : List (ManifestEntry δ)
  /-- The trailer; `none` where the publisher knew no identity. -/
  identity : Option OriginId := none
  deriving DecidableEq

/-- What reading the manifest at the origin came to. -/
inductive ManifestRead (δ : Type) where
  /-- The path does not fit or the blob is oversized: remembered. -/
  | remembered
  /-- No open, no read, a corrupt blob or something else under the name: retried. -/
  | missed
  /-- `mtime` is the blob's, where `lstat` gave one. -/
  | loaded (m : Manifest δ) (mtime : Option (Int64 × Int64))

namespace Cached

variable {φ δ : Type}

/-! ## Loading -/

/-- What the first section of `expectedHash` decides. -/
inductive HashLook (δ : Type) where
  | known (h : Option δ)
  /-- This thread loads the manifest. -/
  | load
  /-- The retry is not due, or another thread loads. -/
  | again

def expectedHashLook (c : Cached φ δ) (idx : Nat) (nowMs : Int) : Cached φ δ × HashLook δ :=
  if c.manifestSize = some c.size then (c, .known (c.hashes.lookup idx))
  else if c.manifestRetryAt ≤ nowMs && !c.manifestLoading then
    ({ c with manifestLoading := true }, .load)
  else (c, .again)

/-- Entries fill gaps only: a digest the node recorded itself stays. -/
def mergeManifest (c : Cached φ δ) (entries : List (ManifestEntry δ)) : Cached φ δ :=
  entries.foldl (fun c e =>
    if e.idx ∈ c.hashes then c else { c with hashes := c.hashes.insert e.idx e.hash }) c

/-- The section of `tryLoadManifest` after its read. `gen0` is the generation sampled before it,
`retryAt` the next instant a load may be tried. -/
def landManifest (pieceSize : Nat) (c : Cached φ δ) (gen0 : Nat) (read : ManifestRead δ)
    (retryAt : Int) : Cached φ δ :=
  match read with
  | .remembered => { c with manifestSize := some c.size }
  | .missed => { c with manifestRetryAt := retryAt }
  | .loaded m mtime =>
    if c.dead then c
    else if c.writes ≠ gen0 then c
    else if c.size ≠ m.fileSize || pieceSize ≠ m.pieceSize then
      { c with manifestSize := some c.size }
    else if m.identity.any fun mid => c.originId.known && !mid.eql c.originId then
      { c with manifestRetryAt := retryAt }
    else if mtime.any fun at_ => c.originId.newerThanMtime at_.1 at_.2 then
      { c with manifestRetryAt := retryAt }
    else { c.mergeManifest m.entries with manifestSize := some c.size }

/-- The claim of `expectedHash` is given back on every exit of the load. -/
def loadDone (c : Cached φ δ) : Cached φ δ := { c with manifestLoading := false }

/-! ## Publishing -/

/-- `hashes.count()`. -/
def hashCount (c : Cached φ δ) : Nat := c.hashes.entries.length

/-- The first section of `publishManifest`: the size to publish for, if there is anything to. -/
def publishSize (c : Cached φ δ) : Option Nat :=
  if c.dead then none
  else if !c.manifestDirty || c.hashCount == 0 then none
  else some c.size

/-- The recorded digests below `maxIdx`, by ascending index. -/
def gridEntries (c : Cached φ δ) (maxIdx : Nat) : List (ManifestEntry δ) :=
  ((c.hashes.entries.filter fun e => e.1 < maxIdx).map fun e => ⟨e.1, e.2⟩).mergeSort
    fun a b => a.idx ≤ b.idx

/-- What `publishManifest` takes out of its second section. -/
structure Sampled (δ : Type) where
  count : Nat
  blob : Manifest δ

def publishSnap (pieceSize : Nat) (c : Cached φ δ) (fsize : Nat) : Option (Sampled δ) :=
  if c.dead then none
  else if !c.manifestDirty then none
  else
    let entries := c.gridEntries (Piece.count fsize pieceSize)
    if entries.isEmpty then none
    else some ⟨c.hashCount, ⟨pieceSize, fsize, entries,
      if c.originId.known then some c.originId else none⟩⟩

/-- The check of the last section of `publishManifest`. -/
def publishClears (c : Cached φ δ) (snapCount : Nat) : Bool :=
  !c.dead && c.manifestDirty && c.hashCount == snapCount

def publishDone (c : Cached φ δ) (snapCount : Nat) : Cached φ δ :=
  if c.publishClears snapCount then { c with manifestDirty := false } else c

/-! ## What the sections leave -/

theorem expectedHashLook_alike (c : Cached φ δ) (idx : Nat) (nowMs : Int) :
    Alike c (c.expectedHashLook idx nowMs).1 := by
  unfold expectedHashLook
  split_ifs <;> exact ⟨rfl, rfl, rfl, rfl, rfl, rfl, rfl⟩

/-- **What the first section of `expectedHash` comes to**: the map is asked at once, or the claim is
taken off a clear flag, or it is another thread's or not due. -/
theorem expectedHashLook_cases (c : Cached φ δ) (idx : Nat) (nowMs : Int) :
    c.expectedHashLook idx nowMs = (c, .known (c.hashes.lookup idx)) ∨
      (c.manifestLoading = false ∧
        c.expectedHashLook idx nowMs = ({ c with manifestLoading := true }, .load)) ∨
      c.expectedHashLook idx nowMs = (c, .again) := by
  unfold expectedHashLook
  split_ifs with hknown hclaim
  · exact Or.inl rfl
  · rw [Bool.and_eq_true, Bool.not_eq_true'] at hclaim
    exact Or.inr (Or.inl ⟨hclaim.2, rfl⟩)
  · exact Or.inr (Or.inr rfl)

theorem mergeManifest_alike (c : Cached φ δ) (entries : List (ManifestEntry δ)) :
    Alike c (c.mergeManifest entries) := by
  unfold mergeManifest
  induction entries generalizing c with
  | nil => exact Alike.refl c
  | cons e es ih =>
    rw [List.foldl_cons]
    refine Alike.trans ?_ (ih _)
    split_ifs <;> exact ⟨rfl, rfl, rfl, rfl, rfl, rfl, rfl⟩

theorem landManifest_alike (pieceSize : Nat) (c : Cached φ δ) (gen0 : Nat) (read : ManifestRead δ)
    (retryAt : Int) : Alike c (c.landManifest pieceSize gen0 read retryAt) := by
  cases read with
  | remembered => exact ⟨rfl, rfl, rfl, rfl, rfl, rfl, rfl⟩
  | missed => exact ⟨rfl, rfl, rfl, rfl, rfl, rfl, rfl⟩
  | loaded m mtime =>
    unfold landManifest
    dsimp only
    split_ifs
    all_goals try exact ⟨rfl, rfl, rfl, rfl, rfl, rfl, rfl⟩
    exact (c.mergeManifest_alike m.entries).trans ⟨rfl, rfl, rfl, rfl, rfl, rfl, rfl⟩

theorem loadDone_alike (c : Cached φ δ) : Alike c c.loadDone := ⟨rfl, rfl, rfl, rfl, rfl, rfl, rfl⟩

theorem publishDone_alike (c : Cached φ δ) (snapCount : Nat) :
    Alike c (c.publishDone snapCount) := by
  unfold publishDone
  split_ifs <;> exact ⟨rfl, rfl, rfl, rfl, rfl, rfl, rfl⟩

/-- A load keeps every digest the entry had. -/
theorem lookup_mergeManifest {c : Cached φ δ} {k : Nat} {h : δ} (entries : List (ManifestEntry δ))
    (hk : c.hashes.lookup k = some h) : (c.mergeManifest entries).hashes.lookup k = some h := by
  unfold mergeManifest
  induction entries generalizing c with
  | nil => exact hk
  | cons e es ih =>
    rw [List.foldl_cons]
    apply ih
    split_ifs with hin
    · exact hk
    · -- the digest of a gap cannot be `k`'s
      have hne : k ≠ e.idx := by
        rintro rfl
        exact hin (AList.lookup_isSome.mp (by rw [hk]; rfl))
      show (c.hashes.insert e.idx e.hash).lookup k = some h
      rw [AList.lookup_insert_ne hne, hk]

/-- It changes nothing else. -/
theorem mergeManifest_eq (c : Cached φ δ) (entries : List (ManifestEntry δ)) :
    c.mergeManifest entries = { c with hashes := (c.mergeManifest entries).hashes } := by
  unfold mergeManifest
  induction entries generalizing c with
  | nil => rfl
  | cons e es ih =>
    rw [List.foldl_cons]
    split_ifs
    · exact ih c
    · exact ih _

/-- And every digest it brings is the manifest's. -/
theorem mem_mergeManifest {c : Cached φ δ} {k : Nat} {h : δ} {entries : List (ManifestEntry δ)}
    (hk : (c.mergeManifest entries).hashes.lookup k = some h) :
    c.hashes.lookup k = some h ∨ (⟨k, h⟩ : ManifestEntry δ) ∈ entries := by
  unfold mergeManifest at hk
  induction entries generalizing c with
  | nil => exact Or.inl hk
  | cons e es ih =>
    rw [List.foldl_cons] at hk
    rcases ih hk with hold | hmem
    · split_ifs at hold with hin
      · exact Or.inl hold
      · by_cases hke : k = e.idx
        · -- the gap that this entry fills
          subst hke
          change (c.hashes.insert e.idx e.hash).lookup e.idx = some h at hold
          rw [AList.lookup_insert] at hold
          cases Option.some.inj hold
          exact Or.inr List.mem_cons_self
        · change (c.hashes.insert e.idx e.hash).lookup k = some h at hold
          rw [AList.lookup_insert_ne hke] at hold
          exact Or.inl hold
    · exact Or.inr (List.mem_cons_of_mem _ hmem)

/-- The entry takes manifest `m` for its own: the entry is live and of generation `gen0`, and grid,
size and identity are the manifest's. -/
structure Admits (pieceSize : Nat) (c : Cached φ δ) (gen0 : Nat) (m : Manifest δ) : Prop where
  live : c.dead = false
  generation : c.writes = gen0
  pieceSize : m.pieceSize = pieceSize
  fileSize : m.fileSize = c.size
  identity : ∀ id ∈ m.identity, c.originId.known = true → id.eql c.originId = true

/-- **What landing a read comes to**: digests and claim as they were, or a merge that the entry
admits. -/
theorem landManifest_cases (pieceSize : Nat) (c : Cached φ δ) (gen0 : Nat) (read : ManifestRead δ)
    (retryAt : Int) :
    ((c.landManifest pieceSize gen0 read retryAt).hashes = c.hashes ∧
      (c.landManifest pieceSize gen0 read retryAt).manifestLoading = c.manifestLoading) ∨
    ∃ m mtime, read = .loaded m mtime ∧ Admits pieceSize c gen0 m ∧
      c.landManifest pieceSize gen0 read retryAt =
        { c.mergeManifest m.entries with manifestSize := some c.size } := by
  cases read with
  | remembered => exact Or.inl ⟨rfl, rfl⟩
  | missed => exact Or.inl ⟨rfl, rfl⟩
  | loaded m mtime =>
    unfold landManifest
    dsimp only
    split_ifs with hdead hgen hgrid hid hstale
    · exact Or.inl ⟨rfl, rfl⟩
    · exact Or.inl ⟨rfl, rfl⟩
    · exact Or.inl ⟨rfl, rfl⟩
    · exact Or.inl ⟨rfl, rfl⟩
    · exact Or.inl ⟨rfl, rfl⟩
    · right
      rw [Bool.or_eq_true, not_or, decide_eq_true_iff, decide_eq_true_iff, not_not,
        not_not] at hgrid
      refine ⟨m, mtime, rfl, ⟨by simpa using hdead, not_not.mp hgen, hgrid.2.symm, hgrid.1.symm,
        fun id hmem hknown => ?_⟩, rfl⟩
      rw [Option.mem_def] at hmem
      rw [hmem, Option.any_some, hknown, Bool.true_and, Bool.not_eq_true, Bool.not_eq_false'] at hid
      exact hid

/-! ## What a publish samples -/

theorem mem_gridEntries {c : Cached φ δ} {maxIdx k : Nat} {h : δ} :
    (⟨k, h⟩ : ManifestEntry δ) ∈ c.gridEntries maxIdx ↔
      c.hashes.lookup k = some h ∧ k < maxIdx := by
  unfold gridEntries
  rw [List.mem_mergeSort, List.mem_map]
  constructor
  · rintro ⟨e, he, heq⟩
    rw [List.mem_filter, decide_eq_true_iff] at he
    obtain ⟨rfl, rfl⟩ : e.1 = k ∧ e.2 = h := by simpa using heq
    exact ⟨AList.mem_lookup_iff.mpr he.1, he.2⟩
  · rintro ⟨hlook, hlt⟩
    refine ⟨⟨k, h⟩, ?_, rfl⟩
    rw [List.mem_filter, decide_eq_true_iff]
    exact ⟨AList.mem_lookup_iff.mp hlook, hlt⟩

/-- A map that still has every digest of another, and no more digests, is that map. -/
theorem map_eq_of_kept {c c' : Cached φ δ} (hcount : c'.hashCount = c.hashCount)
    (hkept : ∀ k h, c.hashes.lookup k = some h → c'.hashes.lookup k = some h) (k : Nat) :
    c'.hashes.lookup k = c.hashes.lookup k := by
  have hsub : c.hashes.entries ⊆ c'.hashes.entries := fun e he =>
    AList.mem_lookup_iff.mp (hkept e.1 e.2 (AList.mem_lookup_iff.mpr he))
  have hperm : c.hashes.entries.Perm c'.hashes.entries :=
    (List.subperm_of_subset c.hashes.nodupKeys.nodup hsub).perm_of_length_le hcount.le
  exact (AList.perm_lookup hperm).symm

theorem publishSnap_cases {pieceSize : Nat} {c : Cached φ δ} {fsize : Nat} {s : Sampled δ}
    (h : c.publishSnap pieceSize fsize = some s) :
    c.dead = false ∧ c.manifestDirty = true ∧ s.count = c.hashCount ∧
      s.blob = ⟨pieceSize, fsize, c.gridEntries (Piece.count fsize pieceSize),
        if c.originId.known then some c.originId else none⟩ := by
  unfold publishSnap at h
  dsimp only at h
  split_ifs at h with hdead hdirty hempty hknown
  · cases Option.some.inj h
    exact ⟨by simpa using hdead, by simpa using hdirty, rfl, by rw [if_pos hknown]⟩
  · cases Option.some.inj h
    exact ⟨by simpa using hdead, by simpa using hdirty, rfl, by rw [if_neg hknown]⟩

/-- The second section of a publish of an entry with a digest in the grid. -/
theorem publishSnap_of_lookup {pieceSize : Nat} {c : Cached φ δ} {fsize i : Nat} {h : δ}
    (hdead : c.dead = false) (hdirty : c.manifestDirty = true) (hi : c.hashes.lookup i = some h)
    (hlt : i < Piece.count fsize pieceSize) :
    c.publishSnap pieceSize fsize = some ⟨c.hashCount, ⟨pieceSize, fsize,
      c.gridEntries (Piece.count fsize pieceSize),
      if c.originId.known then some c.originId else none⟩⟩ := by
  have hsome : (c.gridEntries (Piece.count fsize pieceSize)).isEmpty = false :=
    List.isEmpty_eq_false_iff_exists_mem.mpr ⟨⟨i, h⟩, mem_gridEntries.mpr ⟨hi, hlt⟩⟩
  simp only [publishSnap, hdead, hdirty, hsome, Bool.not_true, Bool.false_eq_true, if_false]

end Cached

end ModelFs
