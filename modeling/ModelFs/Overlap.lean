import ModelFs.Lib.Merge
import ModelFs.Lib.StableSort
import ModelFs.ManifestBytes
import Mathlib.Data.Nat.Bitwise
import Mathlib.Data.Set.Card

/-!
# What two files have in common

`modelfs dupes` holds the manifests of two files against each other: index by index on a common
grid, and digest by digest in whatever place. For the second each manifest is sorted by digest once,
and the two sorted copies are merged; a digest that repeats counts once.

* `digestOrder_eq`, `digestEql_iff` — digests are compared by words, as the numbers they spell.
* `manifestOverlapPrepared_spec` — **what the counts count**, and that the sides may be swapped.
-/

namespace ModelFs

namespace Overlap

open Merge (pairs commonRuns)
open StableSort (StrictTotal)

/-! ## Digests -/

/-- The `k`th of the four words of a digest. -/
def word (d : Digest) (k : Nat) : List UInt8 := (d.val.drop (8 * k)).take 8

def digestOrder (a b : Digest) : Ordering :=
  if beNat (word a 0) < beNat (word b 0) then .lt
  else if beNat (word b 0) < beNat (word a 0) then .gt
  else if beNat (word a 1) < beNat (word b 1) then .lt
  else if beNat (word b 1) < beNat (word a 1) then .gt
  else if beNat (word a 2) < beNat (word b 2) then .lt
  else if beNat (word b 2) < beNat (word a 2) then .gt
  else if beNat (word a 3) < beNat (word b 3) then .lt
  else if beNat (word b 3) < beNat (word a 3) then .gt
  else .eq

def digestEql (a b : Digest) : Bool :=
  (leNat (word a 0) ^^^ leNat (word b 0)) ||| (leNat (word a 1) ^^^ leNat (word b 1)) |||
    (leNat (word a 2) ^^^ leNat (word b 2)) ||| (leNat (word a 3) ^^^ leNat (word b 3)) = 0

abbrev Entry := ManifestEntry Digest

def digestLess (x y : Entry) : Bool :=
  match digestOrder x.hash y.hash with
  | .lt => true
  | .gt => false
  | .eq => x.idx < y.idx

def digestSorted (entries : List Entry) : List Entry :=
  entries.insertionSort fun x y => ¬ digestLess y x = true

/-! ## The comparison -/

/-- `Overlap`. -/
structure Counts where
  aligned : Nat := 0
  shared : Nat := 0
  shifted : Nat := 0
  identical : Bool := false
  deriving DecidableEq

/-- The aligned pass, with `n` counted before. -/
def alignedPass : List Entry → List Entry → Nat → Nat
  | e :: es, f :: fs, n =>
    if e.idx = f.idx then alignedPass es fs (if digestEql e.hash f.hash then n + 1 else n)
    else if e.idx < f.idx then alignedPass es (f :: fs) n
    else alignedPass (e :: es) fs n
  | [], _, n => n
  | _ :: _, [], n => n
termination_by es fs => es.length + fs.length

/-- Two runs of one digest have a common index. -/
def runAligned : List Entry → List Entry → Bool
  | e :: es, f :: fs =>
    if e.idx = f.idx then true
    else if e.idx < f.idx then runAligned es (f :: fs)
    else runAligned (e :: es) fs
  | [], _ => false
  | _ :: _, [] => false
termination_by es fs => es.length + fs.length

/-- The shared pass over the copies sorted by digest. -/
def sharedPass (sameGrid : Bool) : List Entry → List Entry → Counts → Counts
  | e :: es, f :: fs, ov =>
    match digestOrder e.hash f.hash with
    | .lt => sharedPass sameGrid es (f :: fs) ov
    | .gt => sharedPass sameGrid (e :: es) fs ov
    | .eq =>
      let aligned := sameGrid &&
        runAligned (e :: es.takeWhile fun x => digestEql x.hash e.hash)
          (f :: fs.takeWhile fun x => digestEql x.hash e.hash)
      sharedPass sameGrid (es.dropWhile fun x => digestEql x.hash e.hash)
        (fs.dropWhile fun x => digestEql x.hash e.hash)
        { ov with
          shared := ov.shared + 1
          shifted := if aligned then ov.shifted else ov.shifted + 1 }
  | [], _, ov => ov
  | _ :: _, [], ov => ov
termination_by es fs => es.length + fs.length
decreasing_by
  · simp only [List.length_cons]
    omega
  · simp only [List.length_cons]
    omega
  · have hes := (List.dropWhile_sublist (fun x => digestEql x.hash e.hash) (l := es)).length_le
    have hfs := (List.dropWhile_sublist (fun x => digestEql x.hash e.hash) (l := fs)).length_le
    simp only [List.length_cons]
    omega

def manifestOverlapPrepared (a b : Manifest Digest) (aDig bDig : List Entry) : Counts :=
  let sameGrid : Bool := a.pieceSize = b.pieceSize
  let aligned := if sameGrid then alignedPass a.entries b.entries 0 else 0
  let identical : Bool := sameGrid && a.fileSize = b.fileSize &&
    Piece.trackedEnd a.fileSize a.pieceSize = a.fileSize &&
    a.entries.length = Piece.count a.fileSize a.pieceSize &&
    a.entries.length = b.entries.length && aligned = a.entries.length
  sharedPass sameGrid aDig bDig { aligned, identical }

/-! ## Digests as numbers -/

/-- The number a digest spells. -/
def digestKey (d : Digest) : Nat := beNat d.val

theorem digestKey_injective : Function.Injective digestKey := fun a b h =>
  Subtype.ext (beNat_inj (a.property.trans b.property.symm) h)

theorem length_word (d : Digest) {k : Nat} (hk : k < 4) : (word d k).length = 8 := by
  have hlen : d.val.length = 32 := d.property
  rw [word, List.length_take, List.length_drop]
  omega

theorem words_eq (d : Digest) : d.val = word d 0 ++ (word d 1 ++ (word d 2 ++ word d 3)) := by
  have hlen : d.val.length = 32 := d.property
  have hsplit : ∀ k, d.val.drop (8 * k) = word d k ++ d.val.drop (8 * (k + 1)) := by
    intro k
    rw [word, Nat.mul_succ, ← List.drop_drop, List.take_append_drop]
  have hend : d.val.drop (8 * 4) = [] := List.drop_eq_nil_of_le (by omega)
  have hall := hsplit 0
  rw [hsplit 1, hsplit 2, hsplit 3, hend, List.append_nil, Nat.mul_zero, List.drop_zero] at hall
  exact hall

theorem digestKey_eq (d : Digest) :
    digestKey d = ((beNat (word d 0) * 2 ^ 64 + beNat (word d 1)) * 2 ^ 64 +
      beNat (word d 2)) * 2 ^ 64 + beNat (word d 3) := by
  rw [digestKey, words_eq d, beNat_append, beNat_append, beNat_append]
  simp only [List.length_append, length_word d (by decide : 1 < 4),
    length_word d (by decide : 2 < 4), length_word d (by decide : 3 < 4)]
  ring

theorem beNat_word_lt (d : Digest) {k : Nat} (hk : k < 4) : beNat (word d k) < 2 ^ 64 := by
  have hlt := beNat_lt (word d k)
  rw [length_word d hk] at hlt
  exact hlt

/-- The front word decides where it differs. -/
theorem compare_word {x x' y y' : Nat} (hy : y < 2 ^ 64) (hy' : y' < 2 ^ 64) :
    compare (x * 2 ^ 64 + y) (x' * 2 ^ 64 + y') = (compare x x').then (compare y y') := by
  rcases Nat.lt_trichotomy x x' with hx | rfl | hx
  · rw [Nat.compare_eq_lt.mpr hx]
    exact Nat.compare_eq_lt.mpr (by omega)
  · rw [Nat.compare_eq_eq.mpr rfl, Ordering.then, Nat.compare_eq_ite_lt, Nat.compare_eq_ite_lt]
    simp
  · rw [Nat.compare_eq_gt.mpr hx]
    exact Nat.compare_eq_gt.mpr (by omega)

/-- **Word by word** is number by number. -/
theorem digestOrder_eq (a b : Digest) : digestOrder a b = compare (digestKey a) (digestKey b) := by
  have hlt : ∀ (d : Digest) k, k < 4 → beNat (word d k) < 2 ^ 64 := fun d k hk =>
    beNat_word_lt d hk
  rw [digestKey_eq a, digestKey_eq b,
    compare_word (hlt a 3 (by decide)) (hlt b 3 (by decide)),
    compare_word (hlt a 2 (by decide)) (hlt b 2 (by decide)),
    compare_word (hlt a 1 (by decide)) (hlt b 1 (by decide))]
  simp only [Nat.compare_eq_ite_lt]
  unfold digestOrder
  split_ifs <;> rfl

theorem digestEql_iff (a b : Digest) : digestEql a b = true ↔ a = b := by
  have hword : ∀ k, k < 4 → (leNat (word a k) ^^^ leNat (word b k) = 0 ↔ word a k = word b k) := by
    intro k hk
    rw [Nat.xor_eq_zero_iff]
    exact ⟨leNat_inj ((length_word a hk).trans (length_word b hk).symm), congrArg leNat⟩
  unfold digestEql
  rw [decide_eq_true_eq, Nat.or_eq_zero_iff, Nat.or_eq_zero_iff, Nat.or_eq_zero_iff,
    hword 0 (by decide), hword 1 (by decide), hword 2 (by decide), hword 3 (by decide)]
  constructor
  · rintro ⟨⟨⟨h0, h1⟩, h2⟩, h3⟩
    apply Subtype.ext
    rw [words_eq a, words_eq b, h0, h1, h2, h3]
  · rintro rfl
    exact ⟨⟨⟨rfl, rfl⟩, rfl⟩, rfl⟩

/-! ## The sorted copies -/

/-- What entries are merged by. -/
def Entry.key (e : Entry) : Nat := digestKey e.hash

/-- The order of the copies. -/
def EntryLt (x y : Entry) : Prop := x.key < y.key ∨ x.key = y.key ∧ x.idx < y.idx

theorem digestLess_iff (x y : Entry) : digestLess x y = true ↔ EntryLt x y := by
  unfold digestLess EntryLt Entry.key
  rw [digestOrder_eq]
  rcases Nat.lt_trichotomy (digestKey x.hash) (digestKey y.hash) with h | h | h
  · rw [Nat.compare_eq_lt.mpr h]
    simp [h]
  · rw [Nat.compare_eq_eq.mpr h]
    simp [h]
  · rw [Nat.compare_eq_gt.mpr h]
    simp only [Bool.false_eq_true, false_iff, not_or]
    exact ⟨by omega, fun hk => by omega⟩

theorem strictTotal_entry : StrictTotal fun x y : Entry => digestLess x y = true := by
  refine ⟨fun x => ?_, fun {x y z} => ?_, fun {x y} => ?_⟩
  · rw [digestLess_iff, EntryLt]
    omega
  · simp only [digestLess_iff, EntryLt]
    omega
  · simp only [digestLess_iff, EntryLt]
    intro hxy hyx
    have hidx : x.idx = y.idx := by omega
    have hkey : x.key = y.key := by omega
    obtain ⟨i, d⟩ := x
    obtain ⟨j, d'⟩ := y
    have hhash : d = d' := digestKey_injective hkey
    have hij : i = j := hidx
    rw [hhash, hij]

theorem digestSorted_perm (entries : List Entry) : (digestSorted entries).Perm entries :=
  List.perm_insertionSort ..

theorem digestSorted_pairwise (entries : List Entry) :
    (digestSorted entries).Pairwise fun x y => ¬ EntryLt y x := by
  have hsorted := strictTotal_entry.pairwise_insertionSort entries
  exact hsorted.imp fun h => by rwa [digestLess_iff] at h

/-! ## The passes -/

/-- The aligned pass counts the pairs of one index and one digest. -/
theorem alignedPass_eq (es fs : List Entry) (n : Nat) :
    alignedPass es fs n = n + (pairs ManifestEntry.idx ManifestEntry.idx es fs).countP
      fun p => digestEql p.1.hash p.2.hash := by
  induction es, fs, n using alignedPass.induct with
  | case1 e es f fs n heq ih =>
    rw [dite_eq_ite] at ih
    rw [alignedPass, pairs, if_pos heq, if_pos heq, ih, List.countP_cons]
    dsimp only
    split <;> omega
  | case2 e es f fs n hne hlt ih =>
    rw [alignedPass, pairs, if_neg hne, if_pos hlt, if_neg hne, if_pos hlt, ih]
  | case3 e es f fs n hne hge ih =>
    rw [alignedPass, pairs, if_neg hne, if_neg hge, if_neg hne, if_neg hge, ih]
  | case4 fs n => simp [alignedPass, pairs]
  | case5 e es n => simp [alignedPass, pairs]

/-- **Two runs are aligned** if they have a common index. -/
theorem runAligned_iff {es fs : List Entry} (hes : es.Pairwise fun x y => x.idx < y.idx)
    (hfs : fs.Pairwise fun x y => x.idx < y.idx) :
    runAligned es fs = true ↔ ∃ e ∈ es, ∃ f ∈ fs, e.idx = f.idx := by
  have hpairs : runAligned es fs = true ↔
      pairs ManifestEntry.idx ManifestEntry.idx es fs ≠ [] := by
    clear hes hfs
    induction es, fs using runAligned.induct with
    | case1 e es f fs heq => simp [runAligned, pairs, heq]
    | case2 e es f fs hne hlt ih =>
      rw [runAligned, pairs, if_neg hne, if_pos hlt, if_neg hne, if_pos hlt, ih]
    | case3 e es f fs hne hge ih =>
      rw [runAligned, pairs, if_neg hne, if_neg hge, if_neg hne, if_neg hge, ih]
    | case4 fs => simp [runAligned, pairs]
    | case5 e es => simp [runAligned, pairs]
  rw [hpairs]
  constructor
  · intro hne
    obtain ⟨⟨e, f⟩, hmem⟩ := List.exists_mem_of_ne_nil _ hne
    obtain ⟨he, hf, heq⟩ := (Merge.mem_pairs hes hfs).mp hmem
    exact ⟨e, he, f, hf, heq⟩
  · rintro ⟨e, he, f, hf, heq⟩
    exact List.ne_nil_of_mem ((Merge.mem_pairs hes hfs).mpr ⟨he, hf, heq⟩)

/-- The shared pass counts the runs of one digest. -/
theorem sharedPass_eq (sameGrid : Bool) (es fs : List Entry) (ov : Counts) :
    sharedPass sameGrid es fs ov = { ov with
      shared := ov.shared + (commonRuns Entry.key Entry.key es fs).length
      shifted := ov.shifted + (commonRuns Entry.key Entry.key es fs).countP
        fun run => !(sameGrid && runAligned run.2.1 run.2.2) } := by
  have hsame : ∀ e : Entry, (fun x : Entry => digestEql x.hash e.hash) =
      fun x => decide (Entry.key x = Entry.key e) := by
    intro e
    funext x
    rw [Bool.eq_iff_iff, digestEql_iff, decide_eq_true_eq]
    exact digestKey_injective.eq_iff.symm
  induction es, fs, ov using sharedPass.induct sameGrid with
  | case1 e es f fs ov hord ih =>
    have hlt : e.key < f.key := by rwa [digestOrder_eq, Nat.compare_eq_lt] at hord
    rw [sharedPass, hord, commonRuns, if_pos hlt]
    exact ih
  | case2 e es f fs ov hord ih =>
    have hgt : f.key < e.key := by rwa [digestOrder_eq, Nat.compare_eq_gt] at hord
    rw [sharedPass, hord, commonRuns, if_neg hgt.le.not_gt, if_pos hgt]
    exact ih
  | case3 e es f fs ov hord aligned ih =>
    have heq : e.key = f.key := by rwa [digestOrder_eq, Nat.compare_eq_eq] at hord
    rw [sharedPass, hord, commonRuns, if_neg heq.not_lt, if_neg heq.not_gt]
    rw [dite_eq_ite] at ih
    refine ih.trans ?_
    have haligned : aligned = (sameGrid &&
        runAligned (e :: es.takeWhile fun x => decide (x.key = e.key))
          (f :: fs.takeWhile fun x => decide (x.key = e.key))) := by
      rw [← hsame e]
    rw [hsame e, List.length_cons, List.countP_cons]
    dsimp only
    rw [← haligned]
    cases aligned with
    | true =>
      simp only [Counts.mk.injEq, true_and, if_true, Bool.not_true, Bool.false_eq_true, if_false,
        and_true]
      omega
    | false =>
      simp only [Counts.mk.injEq, true_and, Bool.false_eq_true, if_false, Bool.not_false, if_true,
        and_true]
      omega
  | case4 fs ov => simp [sharedPass, commonRuns]
  | case5 e es ov => simp [sharedPass, commonRuns]

/-! ## What is counted -/

/-- The comparison as its callers make it. -/
def overlap (a b : Manifest Digest) : Counts :=
  manifestOverlapPrepared a b (digestSorted a.entries) (digestSorted b.entries)

/-- The indices under which both list one digest. -/
def alignedAt (a b : Manifest Digest) : Set Nat :=
  {i | ∃ d, ⟨i, d⟩ ∈ a.entries ∧ ⟨i, d⟩ ∈ b.entries}

/-- The digests that both list somewhere. -/
def common (a b : Manifest Digest) : Set Digest :=
  {d | (∃ i, ⟨i, d⟩ ∈ a.entries) ∧ ∃ j, ⟨j, d⟩ ∈ b.entries}

/-- Those of them that one grid does not put at one index. -/
def moved (a b : Manifest Digest) : Set Digest :=
  {d ∈ common a b | ¬ (a.pieceSize = b.pieceSize ∧ ∃ i, ⟨i, d⟩ ∈ a.entries ∧ ⟨i, d⟩ ∈ b.entries)}

/-- One file: one grid, one size that the grid tracks to its end, all pieces, and one digest at
every index. -/
structure Duplicate (a b : Manifest Digest) : Prop where
  pieceSize : a.pieceSize = b.pieceSize
  fileSize : a.fileSize = b.fileSize
  tracked : Piece.trackedEnd a.fileSize a.pieceSize = a.fileSize
  full : a.entries.length = Piece.count a.fileSize a.pieceSize
  full' : b.entries.length = Piece.count b.fileSize b.pieceSize
  agree : ∀ e ∈ a.entries, ∀ f ∈ b.entries, e.idx = f.idx → e.hash = f.hash

theorem alignedAt_comm (a b : Manifest Digest) : alignedAt a b = alignedAt b a := by
  ext i
  exact exists_congr fun d => and_comm

theorem common_comm (a b : Manifest Digest) : common a b = common b a := by
  ext d
  exact and_comm

theorem moved_comm (a b : Manifest Digest) : moved a b = moved b a := by
  ext d
  unfold moved
  rw [common_comm a b, eq_comm (a := a.pieceSize)]
  simp only [and_comm]

theorem Duplicate.symm {a b : Manifest Digest} (h : Duplicate a b) : Duplicate b a where
  pieceSize := h.pieceSize.symm
  fileSize := h.fileSize.symm
  tracked := by rw [← h.fileSize, ← h.pieceSize, h.tracked]
  full := h.full'
  full' := h.full
  agree := fun e he f hf heq => (h.agree f hf e he heq.symm).symm

/-! ## The counts -/

/-- The entries of a manifest, by index. -/
def Ascending (entries : List Entry) : Prop := entries.Pairwise fun x y => x.idx < y.idx

theorem Ascending.idx_inj {entries : List Entry} (h : Ascending entries) {x y : Entry}
    (hx : x ∈ entries) (hy : y ∈ entries) (hidx : x.idx = y.idx) : x = y := by
  have hnodup : (entries.map ManifestEntry.idx).Nodup :=
    List.pairwise_map.mpr (h.imp fun hlt => hlt.ne)
  exact List.inj_on_of_nodup_map hnodup hx hy hidx

/-- **The aligned pass** counts the indices with one digest. -/
theorem alignedPass_ncard {a b : Manifest Digest} (ha : Ascending a.entries)
    (hb : Ascending b.entries) : alignedPass a.entries b.entries 0 = (alignedAt a b).ncard := by
  let met := (pairs ManifestEntry.idx ManifestEntry.idx a.entries b.entries).filter
    fun p => digestEql p.1.hash p.2.hash
  have hnodup : (met.map fun p => p.1.idx).Nodup := by
    have hfst : ((met.map Prod.fst).map ManifestEntry.idx).Nodup :=
      List.pairwise_map.mpr (((ha.sublist (Merge.pairs_sublist a.entries b.entries)).sublist
        (List.filter_sublist.map Prod.fst)).imp fun hlt => hlt.ne)
    rwa [List.map_map] at hfst
  have hset : alignedAt a b = ↑(met.map fun p => p.1.idx).toFinset := by
    ext i
    rw [Finset.mem_coe, List.mem_toFinset, List.mem_map]
    constructor
    · rintro ⟨d, hda, hdb⟩
      refine ⟨(⟨i, d⟩, ⟨i, d⟩), List.mem_filter.mpr ⟨?_, (digestEql_iff d d).mpr rfl⟩, rfl⟩
      exact (Merge.mem_pairs ha hb).mpr ⟨hda, hdb, rfl⟩
    · rintro ⟨⟨e, f⟩, hmem, rfl⟩
      obtain ⟨hpair, hdigest⟩ := List.mem_filter.mp hmem
      obtain ⟨he, hf, hidx⟩ := (Merge.mem_pairs ha hb).mp hpair
      have hef : f = e := by
        obtain ⟨i, d⟩ := e
        obtain ⟨j, d'⟩ := f
        have hd : d = d' := (digestEql_iff d d').mp hdigest
        have hij : i = j := hidx
        rw [hd, hij]
      refine ⟨e.hash, he, ?_⟩
      rwa [hef] at hf
  rw [alignedPass_eq, Nat.zero_add, List.countP_eq_length_filter, hset, Set.ncard_coe_finset,
    List.toFinset_card_of_nodup hnodup, List.length_map]

theorem digestSorted_key (entries : List Entry) :
    (digestSorted entries).Pairwise fun x y => x.key ≤ y.key :=
  (digestSorted_pairwise entries).imp fun h => not_lt.mp fun hlt => h (Or.inl hlt)

/-- In a sorted copy the entries of one digest go by their indices. -/
theorem run_ascending {entries : List Entry} (h : Ascending entries) (k : Nat) :
    Ascending ((digestSorted entries).filter fun x => x.key = k) := by
  have hne : (digestSorted entries).Pairwise fun x y => x.idx ≠ y.idx :=
    ((digestSorted_perm entries).pairwise_iff fun hxy => Ne.symm hxy).mpr
      (h.imp fun hlt => hlt.ne)
  have hboth := ((digestSorted_pairwise entries).and hne).sublist
    (List.filter_sublist (p := fun x => decide (x.key = k)))
  refine hboth.imp_of_mem fun {x y} hx hy hxy => ?_
  have hkx : x.key = k := of_decide_eq_true (List.mem_filter.mp hx).2
  have hky : y.key = k := of_decide_eq_true (List.mem_filter.mp hy).2
  have hge : ¬ y.idx < x.idx := fun hlt => hxy.1 (Or.inr ⟨hky.trans hkx.symm, hlt⟩)
  exact lt_of_le_of_ne (not_lt.mp hge) hxy.2

theorem mem_map_key {entries : List Entry} {d : Digest} :
    digestKey d ∈ (digestSorted entries).map Entry.key ↔ ∃ i, ⟨i, d⟩ ∈ entries := by
  rw [List.mem_map]
  constructor
  · rintro ⟨⟨i, d'⟩, hmem, hkey⟩
    obtain rfl : d' = d := digestKey_injective hkey
    exact ⟨i, (digestSorted_perm entries).mem_iff.mp hmem⟩
  · rintro ⟨i, hmem⟩
    exact ⟨⟨i, d⟩, (digestSorted_perm entries).mem_iff.mpr hmem, rfl⟩

/-- The runs of two sorted copies, counted by what their digest is. -/
theorem countP_runs (a b : Manifest Digest) {p : Nat × List Entry × List Entry → Bool}
    {q : Digest → Prop}
    (h : ∀ run ∈ commonRuns Entry.key Entry.key (digestSorted a.entries) (digestSorted b.entries),
      ∀ d, digestKey d = run.1 → (p run = true ↔ q d)) :
    (commonRuns Entry.key Entry.key (digestSorted a.entries) (digestSorted b.entries)).countP p =
      {d ∈ common a b | q d}.ncard := by
  classical
  have hl := digestSorted_key a.entries
  have hr := digestSorted_key b.entries
  rw [Merge.countP_commonRuns (q := fun k => ∃ d, digestKey d = k ∧ q d) hl hr]
  · rw [← Set.ncard_image_of_injective _ digestKey_injective, ← Set.ncard_coe_finset]
    congr 1
    ext k
    simp only [Finset.coe_filter, Finset.mem_inter, List.mem_toFinset, Set.mem_ofPred_eq,
      Set.mem_image]
    constructor
    · rintro ⟨⟨hka, hkb⟩, d, rfl, hq⟩
      exact ⟨d, ⟨⟨mem_map_key.mp hka, mem_map_key.mp hkb⟩, hq⟩, rfl⟩
    · rintro ⟨d, ⟨⟨hda, hdb⟩, hq⟩, rfl⟩
      exact ⟨⟨mem_map_key.mpr hda, mem_map_key.mpr hdb⟩, d, rfl, hq⟩
  · intro run hrun
    obtain ⟨k, xs, ys⟩ := run
    obtain ⟨hk, -⟩ := (Merge.mem_commonRuns hl hr).mp hrun
    obtain ⟨e, -, rfl⟩ := List.mem_map.mp hk
    rw [h _ hrun e.hash rfl]
    refine ⟨fun hq => ⟨e.hash, rfl, hq⟩, ?_⟩
    rintro ⟨d, hd, hq⟩
    rwa [← digestKey_injective hd]

theorem shared_ncard (a b : Manifest Digest) :
    (commonRuns Entry.key Entry.key (digestSorted a.entries) (digestSorted b.entries)).length =
      (common a b).ncard := by
  have hcount := @countP_runs a b (fun _ => true) (fun _ => True) (by simp)
  simpa using hcount

/-- **A run is shifted** unless one grid has its digest at one index. -/
theorem shifted_ncard {a b : Manifest Digest} (ha : Ascending a.entries)
    (hb : Ascending b.entries) :
    (commonRuns Entry.key Entry.key (digestSorted a.entries) (digestSorted b.entries)).countP
        (fun run => !(decide (a.pieceSize = b.pieceSize) && runAligned run.2.1 run.2.2)) =
      (moved a b).ncard := by
  refine countP_runs a b fun run hrun d hd => ?_
  obtain ⟨k, xs, ys⟩ := run
  obtain ⟨-, -, rfl, rfl⟩ := (Merge.mem_commonRuns (digestSorted_key a.entries)
    (digestSorted_key b.entries)).mp hrun
  have hmem : ∀ {entries : List Entry} {e : Entry},
      e ∈ (digestSorted entries).filter (fun x => x.key = k) ↔ e ∈ entries ∧ e.hash = d := by
    intro entries e
    have hk : digestKey d = k := hd
    rw [List.mem_filter, (digestSorted_perm entries).mem_iff, decide_eq_true_eq, ← hk]
    exact and_congr_right fun _ => digestKey_injective.eq_iff
  have hrun := runAligned_iff (run_ascending ha k) (run_ascending hb k)
  have hone : runAligned ((digestSorted a.entries).filter fun x => x.key = k)
      ((digestSorted b.entries).filter fun x => x.key = k) = true ↔
        ∃ i, ⟨i, d⟩ ∈ a.entries ∧ ⟨i, d⟩ ∈ b.entries := by
    rw [hrun]
    constructor
    · rintro ⟨⟨i, d'⟩, he, ⟨j, d''⟩, hf, hidx⟩
      obtain ⟨he, rfl⟩ := hmem.mp he
      obtain ⟨hf, rfl⟩ := hmem.mp hf
      obtain rfl : i = j := hidx
      exact ⟨i, he, hf⟩
    · rintro ⟨i, he, hf⟩
      exact ⟨⟨i, d⟩, hmem.mpr ⟨he, rfl⟩, ⟨i, d⟩, hmem.mpr ⟨hf, rfl⟩, rfl⟩
  dsimp only
  rw [← hone, Bool.not_eq_true', Bool.and_eq_false_iff, decide_eq_false_iff_not, not_and_or,
    Bool.not_eq_true]

/-- A table with as many entries as the grid has pieces lists them all. -/
theorem exists_of_full {entries : List Entry} {n : Nat} (hasc : Ascending entries)
    (hgrid : ∀ e ∈ entries, e.idx < n) (hfull : entries.length = n) {i : Nat} (hi : i < n) :
    ∃ e ∈ entries, e.idx = i := by
  have hnodup : (entries.map ManifestEntry.idx).Nodup :=
    List.pairwise_map.mpr (hasc.imp fun hlt => hlt.ne)
  have hsub : (entries.map ManifestEntry.idx).toFinset ⊆ Finset.range n := by
    intro j hj
    obtain ⟨e, he, rfl⟩ := List.mem_map.mp (List.mem_toFinset.mp hj)
    exact Finset.mem_range.mpr (hgrid e he)
  have hcard : (Finset.range n).card ≤ (entries.map ManifestEntry.idx).toFinset.card := by
    rw [List.toFinset_card_of_nodup hnodup, List.length_map, Finset.card_range, hfull]
  have hall := Finset.eq_of_subset_of_card_le hsub hcard
  have hmem : i ∈ (entries.map ManifestEntry.idx).toFinset := hall ▸ Finset.mem_range.mpr hi
  exact List.mem_map.mp (List.mem_toFinset.mp hmem)

/-- **The verdict** on two tables that list all their pieces. -/
theorem alignedAt_full {a b : Manifest Digest} {n : Nat} (ha : Ascending a.entries)
    (hb : Ascending b.entries) (hgrid : ∀ e ∈ a.entries, e.idx < n)
    (hgrid' : ∀ e ∈ b.entries, e.idx < n) (hfull : a.entries.length = n)
    (hfull' : b.entries.length = n) :
    (alignedAt a b).ncard = n ↔
      ∀ e ∈ a.entries, ∀ f ∈ b.entries, e.idx = f.idx → e.hash = f.hash := by
  have hsub : alignedAt a b ⊆ ↑(Finset.range n) := by
    rintro i ⟨d, he, -⟩
    exact Finset.mem_coe.mpr (Finset.mem_range.mpr (hgrid _ he))
  have hcard : (↑(Finset.range n) : Set Nat).ncard = n := by
    rw [Set.ncard_coe_finset, Finset.card_range]
  constructor
  · intro hn e he f hf hidx
    have hall : alignedAt a b = ↑(Finset.range n) :=
      Set.eq_of_subset_of_ncard_le hsub (by rw [hcard, hn]) (Finset.finite_toSet _)
    have hmem : e.idx ∈ alignedAt a b := by
      rw [hall]
      exact Finset.mem_coe.mpr (Finset.mem_range.mpr (hgrid e he))
    obtain ⟨d, hea, hfb⟩ := hmem
    rw [ha.idx_inj he hea rfl, hb.idx_inj hf hfb hidx.symm]
  · intro hagree
    have hall : alignedAt a b = ↑(Finset.range n) := by
      refine Set.Subset.antisymm hsub fun i hi => ?_
      have hlt : i < n := Finset.mem_range.mp (Finset.mem_coe.mp hi)
      obtain ⟨e, he, rfl⟩ := exists_of_full ha hgrid hfull hlt
      obtain ⟨f, hf, hidx⟩ := exists_of_full hb hgrid' hfull' hlt
      have hfe : f = e := by
        obtain ⟨i, d⟩ := e
        obtain ⟨j, d'⟩ := f
        have hij : j = i := hidx
        have hd : d = d' := hagree _ he _ hf hidx.symm
        rw [hij, hd]
      rw [hfe] at hf
      exact ⟨e.hash, he, hf⟩
    rw [hall, hcard]

/-- **What the counts count**, for tables that go by their indices inside their grids. -/
theorem overlap_eq {a b : Manifest Digest} (ha : a.WellFormed) (hb : b.WellFormed) :
    (overlap a b).aligned = (if a.pieceSize = b.pieceSize then (alignedAt a b).ncard else 0) ∧
    (overlap a b).shared = (common a b).ncard ∧
    (overlap a b).shifted = (moved a b).ncard ∧
    ((overlap a b).identical = true ↔ Duplicate a b) := by
  unfold overlap manifestOverlapPrepared
  rw [sharedPass_eq]
  dsimp only
  rw [alignedPass_ncard ha.ascending hb.ascending, Nat.zero_add, Nat.zero_add, shared_ncard,
    shifted_ncard ha.ascending hb.ascending]
  refine ⟨by simp only [decide_eq_true_eq], rfl, rfl, ?_⟩
  simp only [Bool.and_eq_true, decide_eq_true_eq]
  constructor
  · rintro ⟨⟨⟨⟨⟨hgrid, hsize⟩, htracked⟩, hfull⟩, hlen⟩, haligned⟩
    rw [if_pos hgrid, hfull] at haligned
    have hfull' : b.entries.length = Piece.count a.fileSize a.pieceSize := hlen.symm.trans hfull
    have hin := hb.inGrid
    rw [← hsize, ← hgrid] at hin
    refine ⟨hgrid, hsize, htracked, hfull, by rw [hfull', hsize, hgrid], ?_⟩
    exact (alignedAt_full ha.ascending hb.ascending ha.inGrid hin hfull hfull').mp haligned
  · intro h
    have hfull' : b.entries.length = Piece.count a.fileSize a.pieceSize := by
      rw [h.full', h.fileSize, h.pieceSize]
    have hin := hb.inGrid
    rw [← h.fileSize, ← h.pieceSize] at hin
    refine ⟨⟨⟨⟨⟨h.pieceSize, h.fileSize⟩, h.tracked⟩, h.full⟩, h.full.trans hfull'.symm⟩, ?_⟩
    rw [if_pos h.pieceSize, h.full]
    exact (alignedAt_full ha.ascending hb.ascending ha.inGrid hin h.full hfull').mpr h.agree

/-- **The overlap of two files.** It counts the indices with one digest on a common grid, the
digests they have in common, and those of them at no common index; says that they are one file
exactly if they are; and says the same with the sides swapped. -/
theorem manifestOverlapPrepared_spec {blob blob' : List UInt8} {a b : Manifest Digest}
    (ha : manifestDecode blob = .ok a) (hb : manifestDecode blob' = .ok b) :
    let ov := manifestOverlapPrepared a b (digestSorted a.entries) (digestSorted b.entries)
    ov.aligned = (if a.pieceSize = b.pieceSize then (alignedAt a b).ncard else 0) ∧
    ov.shared = (common a b).ncard ∧
    ov.shifted = (moved a b).ncard ∧
    (ov.identical = true ↔ Duplicate a b) ∧
    manifestOverlapPrepared b a (digestSorted b.entries) (digestSorted a.entries) = ov := by
  have hwell := (manifestDecode_ok ha).2.1
  have hwell' := (manifestDecode_ok hb).2.1
  obtain ⟨haligned, hshared, hshifted, hidentical⟩ := overlap_eq hwell hwell'
  obtain ⟨haligned', hshared', hshifted', hidentical'⟩ := overlap_eq hwell' hwell
  refine ⟨haligned, hshared, hshifted, hidentical, ?_⟩
  have hsame : overlap b a = overlap a b := by
    have hdup : (overlap b a).identical = (overlap a b).identical := by
      rw [Bool.eq_iff_iff, hidentical, hidentical']
      exact ⟨Duplicate.symm, Duplicate.symm⟩
    have hswapped : (overlap b a).aligned = (overlap a b).aligned := by
      rw [haligned, haligned', alignedAt_comm b a]
      exact if_congr eq_comm rfl rfl
    rw [common_comm b a, ← hshared] at hshared'
    rw [moved_comm b a, ← hshifted] at hshifted'
    generalize overlap b a = ov' at *
    generalize overlap a b = ov at *
    cases ov'
    cases ov
    simp only [Counts.mk.injEq]
    exact ⟨hswapped, hshared', hshifted', hdup⟩
  exact hsame

/-- Two pieces of one digest. -/
def twice : Manifest Digest :=
  ⟨16, 32, [⟨0, ⟨List.replicate 32 17, rfl⟩⟩, ⟨1, ⟨List.replicate 32 17, rfl⟩⟩], none⟩

theorem manifestDecode_twice : manifestDecode ((manifestBlob twice).getD []) = .ok twice := by
  obtain ⟨blob, hblob, hdecode, -⟩ := @manifestDecode_blob twice (by decide) (by decide)
    (by decide) (by decide) nofun
  rw [hblob]
  exact hdecode

theorem manifestOverlapPrepared_spec_twice :
    (manifestOverlapPrepared twice twice (digestSorted twice.entries)
      (digestSorted twice.entries)).identical = true :=
  (manifestOverlapPrepared_spec manifestDecode_twice manifestDecode_twice).2.2.2.1.mpr
    ⟨rfl, rfl, by decide, by decide, by decide, by decide⟩

end Overlap

end ModelFs
