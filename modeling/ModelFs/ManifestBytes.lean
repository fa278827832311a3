import ModelFs.ManifestCodec

/-!
# What a manifest's bytes say

The way back through `piece.manifestDecode`. A blob comes off shared storage and decides which bytes
a node trusts, so what it says must not depend on the node that reads it: the blob that a manifest
decodes from is the blob that it encodes to.

* `readEntries_eq_some` — the entries are in order, and their bytes are the ones that were read.
* `manifestDecode_ok` — **what decodes is well formed, and encodes to the same bytes.**
* `manifestDecode_refused` — every other blob is refused, as corrupt if it has the magic.
* `manifest_codec` — **the codec is exact.**
* `manifest_codec_gridless` — a manifest of a grid of no bytes is written and never read.
-/

namespace ModelFs

/-- What the codec asks of a manifest, the size of its pieces apart: numbers that fit their words,
indices in order and in the grid, and an identity only where it is known. -/
structure Manifest.WellFormed (m : Manifest Digest) : Prop where
  pieceSize_le : m.pieceSize ≤ maxU32
  fileSize_le : m.fileSize ≤ maxU64
  ascending : m.entries.Pairwise fun a b => a.idx < b.idx
  inGrid : ∀ e ∈ m.entries, e.idx < Piece.count m.fileSize m.pieceSize
  known : ∀ id ∈ m.identity, id.known = true

/-! ## The entries -/

/-- One entry that was read: its bytes, and what the loop checks of it. -/
theorem readEntries_succ {maxIdx n : Nat} {prev : Option Nat} {blob : List UInt8}
    {entries : List (ManifestEntry Digest)} (h : readEntries maxIdx (n + 1) prev blob =
      some entries) :
    ∃ e rest, entries = e :: rest ∧ blob.take (4 + digestLen) = entryBytes e ∧ e.idx < maxIdx ∧
      (∀ p ∈ prev, p < e.idx) ∧
      readEntries maxIdx n (some e.idx) (blob.drop (4 + digestLen)) = some rest := by
  rw [readEntries] at h
  split_ifs at h with hhash hafter hgrid
  obtain ⟨rest, hrest, rfl⟩ := Option.map_eq_some_iff.mp h
  have hlen : 4 ≤ blob.length := by
    rw [List.length_take, List.length_drop] at hhash
    unfold digestLen at hhash
    omega
  refine ⟨_, rest, rfl, ?_, Nat.not_le.mp hgrid, fun p hp => ?_, hrest⟩
  · rw [entryBytes, leBytes_leNat_take hlen, List.take_add]
  · rw [Option.mem_def.mp hp, Option.any_some, decide_eq_true_iff] at hafter
    exact Nat.not_le.mp hafter

/-- What the loop read is in order, in the grid, and **the bytes it was read from**. -/
theorem readEntries_eq_some {maxIdx n : Nat} {prev : Option Nat} {blob : List UInt8}
    {entries : List (ManifestEntry Digest)} (h : readEntries maxIdx n prev blob = some entries) :
    entries.length = n ∧ blob.take (n * (4 + digestLen)) = entries.flatMap entryBytes ∧
      (entries.Pairwise fun a b => a.idx < b.idx) ∧ (∀ e ∈ entries, e.idx < maxIdx) ∧
      ∀ p ∈ prev, ∀ e ∈ entries, p < e.idx := by
  induction n generalizing prev blob entries with
  | zero =>
    obtain rfl := Option.some.inj h
    simp
  | succ n ih =>
    obtain ⟨e, rest, rfl, hbytes, hgrid, hprev, hrest⟩ := readEntries_succ h
    obtain ⟨hlen, htake, hasc, hall, hafter⟩ := ih hrest
    have hhead : ∀ x ∈ rest, e.idx < x.idx := hafter e.idx rfl
    refine ⟨by rw [List.length_cons, hlen], ?_, List.pairwise_cons.mpr ⟨hhead, hasc⟩, ?_, ?_⟩
    · rw [Nat.succ_mul, Nat.add_comm, List.take_add, hbytes, htake, List.flatMap_cons]
    · intro x hx
      rcases List.mem_cons.mp hx with rfl | hx
      · exact hgrid
      · exact hall x hx
    · intro p hp x hx
      rcases List.mem_cons.mp hx with rfl | hx
      · exact hprev p hp
      · exact (hprev p hp).trans (hhead x hx)

/-! ## The blob -/

/-- A blob with room for the four numbers is cut where they end. -/
theorem blob_parts {blob : List UInt8} (hlen : 20 ≤ blob.length) :
    blob = blob.take 4 ++ leBytes 4 (leNat ((blob.drop 4).take 4)) ++
      leBytes 8 (leNat ((blob.drop 8).take 8)) ++ leBytes 4 (leNat ((blob.drop 16).take 4)) ++
        blob.drop 20 := by
  have hword : ∀ k w, k + w ≤ 20 →
      leBytes w (leNat ((blob.drop k).take w)) = (blob.drop k).take w := by
    intro k w hk
    apply leBytes_leNat_take
    rw [List.length_drop]
    omega
  have hcut : ∀ k w, (blob.drop k).take w ++ blob.drop (k + w) = blob.drop k := by
    intro k w
    rw [← List.drop_drop, List.take_append_drop]
  rw [hword 4 4 (by decide), hword 8 8 (by decide), hword 16 4 (by decide)]
  simp only [List.append_assoc]
  rw [hcut 16 4, hcut 8 8, hcut 4 4, List.take_append_drop]

/-- What decoded: where the numbers stood, what the loop read, and the identity behind it. -/
theorem manifestDecode_cases {blob : List UInt8} {m : Manifest Digest}
    (h : manifestDecode blob = .ok m) :
    ∃ n, 20 ≤ blob.length ∧ blob.take 4 = manifestMagic ∧ n = leNat ((blob.drop 16).take 4) ∧
      m.pieceSize = leNat ((blob.drop 4).take 4) ∧ 0 < m.pieceSize ∧
      m.fileSize = leNat ((blob.drop 8).take 8) ∧
      readEntries (Piece.count m.fileSize m.pieceSize) n none (blob.drop 20) = some m.entries ∧
      blob.drop (manifestLen n) = (m.identity.map OriginId.write).getD [] ∧
      ∀ id ∈ m.identity, id.known = true := by
  unfold manifestDecode at h
  dsimp only at h
  split_ifs at h with hshort hmagic hhead hps hbody hplain
  · -- as long as its entries: no identity
    split at h
    · cases h
    · rename_i entries hread
      obtain rfl := Decoded.ok.inj h
      exact ⟨_, Nat.not_lt.mp hhead, not_not.mp hmagic, rfl, rfl, Nat.pos_of_ne_zero hps, rfl,
        hread, List.drop_eq_nil_of_le hplain.le, nofun⟩
  · -- an identity behind them
    split at h
    · cases h
    · rename_i entries hread
      obtain rfl := Decoded.ok.inj h
      have hlong : blob.length = manifestLen (leNat ((blob.drop 16).take 4)) +
          manifestIdentityLen := by
        by_contra hother
        exact hbody ⟨hplain, hother⟩
      have hrest : (blob.drop (manifestLen (leNat ((blob.drop 16).take 4)))).length =
          manifestIdentityLen := by
        rw [List.length_drop, hlong, Nat.add_sub_cancel_left]
      have htrailer := OriginId.write_read hrest
      refine ⟨_, Nat.not_lt.mp hhead, not_not.mp hmagic, rfl, rfl, Nat.pos_of_ne_zero hps, rfl,
        hread, ?_, ?_⟩
      · rw [Option.map_some, Option.getD_some, List.take_of_length_le hrest.le, htrailer]
      · rintro id ⟨⟩
        rfl

/-- **What decodes is well formed, and encodes to the same bytes.** -/
theorem manifestDecode_ok {blob : List UInt8} {m : Manifest Digest}
    (h : manifestDecode blob = .ok m) :
    0 < m.pieceSize ∧ m.WellFormed ∧ manifestBlob m = some blob := by
  obtain ⟨n, hlen, hmagic, hn, hps, hpos, hfs, hread, htrailer, hknown⟩ := manifestDecode_cases h
  obtain ⟨hcount, hbytes, hasc, hgrid, -⟩ := readEntries_eq_some hread
  have hword : ∀ k w, leNat ((blob.drop k).take w) < 256 ^ w := by
    intro k w
    refine lt_of_lt_of_le (leNat_lt _) (Nat.pow_le_pow_right (by decide) ?_)
    rw [List.length_take]
    exact Nat.min_le_left ..
  have hps' : m.pieceSize ≤ maxU32 := by
    rw [hps]
    exact Nat.le_of_lt_succ (hword 4 4)
  have hfs' : m.fileSize ≤ maxU64 := by
    rw [hfs]
    exact Nat.le_of_lt_succ (hword 8 8)
  have hbody : blob.drop 20 = m.entries.flatMap entryBytes ++ blob.drop (manifestLen n) := by
    have hbehind : manifestLen n = 20 + n * (4 + digestLen) := rfl
    rw [← hbytes, hbehind, ← List.drop_drop, List.take_append_drop]
  refine ⟨hpos, ⟨hps', hfs', hasc, hgrid, hknown⟩, ?_⟩
  rw [manifestBlob_eq, hps, hfs, hcount, hn, ← htrailer, ← hmagic, List.append_assoc _ _
    (blob.drop _), ← hbody, ← blob_parts hlen]

/-- A blob that is no encoding is refused: without the magic it is no manifest, with it it is a
corrupt one. -/
theorem manifestDecode_refused {blob : List UInt8}
    (h : ∀ m : Manifest Digest, manifestDecode blob ≠ .ok m) :
    manifestDecode blob = if blob.take 4 = manifestMagic then .bad else .foreign := by
  have hmagic : manifestMagic.length = 4 := rfl
  by_cases hmfsm : blob.take 4 = manifestMagic
  · have hfour : ¬ blob.length < 4 := by
      have hlen := congrArg List.length hmfsm
      rw [List.length_take, hmagic] at hlen
      omega
    rw [if_pos hmfsm]
    cases hdec : manifestDecode blob with
    | bad => rfl
    | ok m => exact absurd hdec (h m)
    | foreign =>
      unfold manifestDecode at hdec
      dsimp only at hdec
      rw [if_neg hfour, if_neg (not_not.mpr hmfsm)] at hdec
      split_ifs at hdec
      · split at hdec <;> cases hdec
      · split at hdec <;> cases hdec
  · rw [if_neg hmfsm]
    unfold manifestDecode
    split_ifs with hshort
    · rfl
    · rfl

/-- **The codec is exact.** A well-formed manifest of a grid of bytes has one blob, which decodes to
it; a blob that decodes is the one its manifest encodes to; and every other blob is refused. -/
theorem manifest_codec :
    (∀ m : Manifest Digest, 0 < m.pieceSize → m.WellFormed →
      ∃ blob, manifestBlob m = some blob ∧ manifestDecode blob = .ok m) ∧
    (∀ (blob : List UInt8) (m : Manifest Digest), manifestDecode blob = .ok m →
      0 < m.pieceSize ∧ m.WellFormed ∧ manifestBlob m = some blob) ∧
    ∀ blob : List UInt8,
      (¬ ∃ m : Manifest Digest, 0 < m.pieceSize ∧ m.WellFormed ∧ manifestBlob m = some blob) →
      manifestDecode blob = if blob.take 4 = manifestMagic then .bad else .foreign := by
  refine ⟨fun m hpos hwell => ?_, fun blob m h => manifestDecode_ok h, fun blob hno => ?_⟩
  · obtain ⟨blob, hblob, hdec, -⟩ := manifestDecode_blob ⟨hpos, hwell.pieceSize_le⟩
      hwell.fileSize_le hwell.ascending hwell.inGrid hwell.known
    exact ⟨blob, hblob, hdec⟩
  · exact manifestDecode_refused fun m hdec => hno ⟨m, manifestDecode_ok hdec⟩

/-- **A manifest of pieces of no bytes is written and never read.** Its grid has no index, so it has
no entries either. -/
theorem manifest_codec_gridless :
    ¬ ∀ m : Manifest Digest, m.WellFormed →
      ∃ blob, manifestBlob m = some blob ∧ manifestDecode blob = .ok m := by
  intro hall
  have hwell : Manifest.WellFormed ⟨0, 1, [], none⟩ :=
    ⟨by decide, by decide, List.Pairwise.nil, nofun, nofun⟩
  obtain ⟨blob, -, hdec⟩ := hall ⟨0, 1, [], none⟩ hwell
  exact absurd (manifestDecode_ok hdec).1 (Nat.lt_irrefl 0)

end ModelFs
