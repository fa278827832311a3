import ModelFs.Lib.Machine
import ModelFs.ManifestCodec
import ModelFs.Sections

/-!
# Loading a manifest while the entry moves

`expectedHash` claims the load of an entry whose size no manifest has been tried for, and
`tryLoadManifest` samples the generation, reads and decodes the blob with no lock held, and merges
it in a section of its own. Between any two of these the other threads run any section on the entry:
fills, write-throughs, truncates, new identities, and `expectedHash` of their own.

* `loading_run` — no section of another operation touches the claim.
* `LoadStep.safe` — what one step of a load does to the digests.
* `load_of_run` — **a load only fills gaps, with a blob the entry admits in the generation the load
  began in; one load is in flight at a time, and its claim goes when it does.**
-/

namespace ModelFs

namespace ManifestLoad

open Cached

/-- The node at hand: the storage parameters, where its origin is mounted, the file, and how long a
load that missed waits. -/
structure Site (β : Type) extends Entry.Params β Digest where
  blake3 : List UInt8 → Digest
  root : List UInt8
  rel : List UInt8
  retryMs : Int

def Site.node {β : Type} (S : Site β) : ManifestNode := ⟨S.root, S.pieceSize, S.retryMs⟩

/-- Zig's `+|` on `i64`. -/
def satAddI64 (a b : Int) : Int := max (-(2 ^ 63)) (min (a + b) (2 ^ 63 - 1))

/-- Where a call of `expectedHash` is. -/
inductive Pc (φ : Type) where
  | idle
  /-- In `tryLoadManifest`, the generation not sampled yet. -/
  | claimed (idx : Nat) (nowMs : Int)
  /-- The load has begun, on the entry `began`; its generation is what was sampled. -/
  | reading (idx : Nat) (nowMs : Int) (began : Cached φ Digest)
  | decoded (idx : Nat) (nowMs : Int) (began : Cached φ Digest) (read : ManifestRead Digest)
  /-- Past the section of the merge, or of the exit the read came to. -/
  | landed (idx : Nat)
  /-- Before the last section of `expectedHash`. -/
  | looking (idx : Nat)
  | answered (idx : Nat) (h : Option Digest)

/-- The thread is in `tryLoadManifest`. -/
def Pc.loads {φ : Type} : Pc φ → Bool
  | .claimed .. => true
  | .reading .. => true
  | .decoded .. => true
  | .landed _ => true
  | _ => false

/-- An entry and the calls of `expectedHash` at work on it. -/
structure World (τ φ : Type) where
  c : Cached φ Digest
  pc : τ → Pc φ

variable {τ φ β : Type} [DecidableEq τ]

def World.moveTo (s : World τ φ) (t : τ) (pc : Pc φ) : World τ φ :=
  { s with pc := Function.update s.pc t pc }

theorem pc_moveTo (s : World τ φ) (t : τ) (pc : Pc φ) : (s.moveTo t pc).pc t = pc :=
  Function.update_self ..

/-- Where the first section leads. -/
def afterLook (idx : Nat) (nowMs : Int) : HashLook Digest → Pc φ
  | .known h => .answered idx h
  | .load => .claimed idx nowMs
  | .again => .looking idx

/-- The entries that find room in the map. -/
def putting (puts : Nat → Bool) : ManifestRead Digest → ManifestRead Digest
  | .loaded m mtime => .loaded { m with entries := m.entries.filter fun e => puts e.idx } mtime
  | read => read

variable (S : Site β)

/-- A step of a call of `expectedHash` in thread `t`. -/
inductive LoadStep (t : τ) (s : World τ φ) : World τ φ → Prop where
  | enter (idx : Nat) (nowMs : Int) (hpc : s.pc t = .idle) :
      LoadStep t s ({ s with c := (s.c.expectedHashLook idx nowMs).1 }.moveTo t
        (afterLook idx nowMs (s.c.expectedHashLook idx nowMs).2))
  | sample {idx : Nat} {nowMs : Int} (hpc : s.pc t = .claimed idx nowMs) :
      LoadStep t s (s.moveTo t (.reading idx nowMs s.c))
  /-- `files` is what the origin shows of itself by now. -/
  | read {idx : Nat} {nowMs : Int} {began : Cached φ Digest}
      (files : List UInt8 → Option StoredFile) (hpc : s.pc t = .reading idx nowMs began) :
      LoadStep t s (s.moveTo t
        (.decoded idx nowMs began (readManifest S.blake3 S.node S.rel files)))
  /-- `puts` is where the map grows when it has to. -/
  | land {idx : Nat} {nowMs : Int} {began : Cached φ Digest} {read : ManifestRead Digest}
      (puts : Nat → Bool) (hpc : s.pc t = .decoded idx nowMs began read) :
      LoadStep t s ({ s with
        c := s.c.landManifest S.pieceSize began.writes (putting puts read)
          (satAddI64 nowMs S.retryMs) }.moveTo t (.landed idx))
  | done {idx : Nat} (hpc : s.pc t = .landed idx) :
      LoadStep t s ({ s with c := s.c.loadDone }.moveTo t (.looking idx))
  | look {idx : Nat} (hpc : s.pc t = .looking idx) :
      LoadStep t s (s.moveTo t (.answered idx (s.c.hashes.lookup idx)))
  | leave {idx : Nat} {h : Option Digest} (hpc : s.pc t = .answered idx h) :
      LoadStep t s (s.moveTo t .idle)

end ManifestLoad

/-- The sections of `expectedHash` and `tryLoadManifest`. -/
def Section.ofLoad {φ β δ : Type} : Section φ β δ → Bool
  | .expectedHash .. => true
  | .landManifest .. => true
  | .loadDone => true
  | _ => false

namespace ManifestLoad

open Cached

variable {τ φ β : Type} [DecidableEq τ]

variable (S : Site β)

/-- A load goes on, or a section of something else runs. -/
inductive Step (s : World τ φ) : World τ φ → Prop where
  | load {t : τ} {s' : World τ φ} (h : LoadStep S t s s') : Step s s'
  | other (sec : Section φ β Digest) (hsec : sec.ofLoad = false) :
      Step s { s with c := sec.run S.toParams s.c }

/-- An entry nobody asks for a digest. -/
def start (τ : Type) (c : Cached φ Digest) : World τ φ where
  c := c
  pc _ := .idle

/-! ## What a load may do -/

/-- The merge of a blob that thread `t` has read: the load began in the generation the entry is in,
grid, size and identity are the entry's, and each new digest is the blob's. -/
def Merges (t : τ) (s s' : World τ φ) : Prop :=
  ∃ idx nowMs began m mtime, s.pc t = .decoded idx nowMs began (.loaded m mtime) ∧
    Admits S.pieceSize s.c began.writes m ∧
    ∀ k h, s'.c.hashes.lookup k = some h →
      s.c.hashes.lookup k = some h ∨ (⟨k, h⟩ : ManifestEntry Digest) ∈ m.entries

/-- A step of a load of thread `t` from `s` to `s'` is as it should be. -/
structure Safe (t : τ) (s s' : World τ φ) : Prop where
  /-- No digest is replaced or removed. -/
  kept : ∀ k h, s.c.hashes.lookup k = some h → s'.c.hashes.lookup k = some h
  merged : s'.c.hashes ≠ s.c.hashes → Merges S t s s'
  /-- The claim goes with the load. -/
  released : (s.pc t).loads = true → (s'.pc t).loads = false → s'.c.manifestLoading = false

/-! ## The claim -/

theorem loading_foldl {φ δ ι : Type} {f : Cached φ δ → ι → Cached φ δ}
    (hf : ∀ c i, (f c i).manifestLoading = c.manifestLoading) (c : Cached φ δ) (l : List ι) :
    (l.foldl f c).manifestLoading = c.manifestLoading := by
  induction l generalizing c with
  | nil => rfl
  | cons i l ih =>
    rw [List.foldl_cons, ih, hf]

section Sections

variable {φ δ β : Type} (c : Cached φ δ)

theorem loading_openCache (opened : Option φ) :
    (c.openCacheUnlocked opened).1.manifestLoading = c.manifestLoading := by
  unfold openCacheUnlocked
  cases c.cacheFd with
  | some fd => rfl
  | none => cases opened <;> rfl

theorem loading_beginFill (pieceSize idx : Nat) (nowSec : Int) :
    (c.beginFill pieceSize idx nowSec).1.manifestLoading = c.manifestLoading := by
  unfold beginFill
  dsimp only
  split_ifs <;> rfl

theorem loading_finishPiece (pieceSize idx : Nat) (ok : Bool) (len : Nat) (hash : Option δ)
    (nowSec : Int) :
    (c.finishPiece pieceSize idx ok len hash nowSec).1.manifestLoading = c.manifestLoading := by
  unfold finishPiece
  dsimp only
  split_ifs
  · rfl
  · cases hash <;> rfl
  · rfl

theorem loading_adopt (id : OriginId) :
    (c.adoptOriginIdLocked id).1.manifestLoading = c.manifestLoading := by
  unfold adoptOriginIdLocked
  split_ifs <;> rfl

theorem loading_adoptOwnWrite (id : OriginId) (nowSec : Int) :
    (c.adoptOwnWrite id nowSec).manifestLoading = c.manifestLoading := by
  unfold adoptOwnWrite
  dsimp only
  split_ifs <;> rfl

theorem loading_grow (pieceSize fileEnd : Nat) (resized : Bool) :
    (c.growToLocked pieceSize fileEnd resized).1.manifestLoading = c.manifestLoading := by
  unfold growToLocked dropWideningPieceMark
  dsimp only
  split_ifs <;> rfl

theorem loading_cacheFillSize (pieceSize fileEnd : Nat) (id : OriginId) (nowSec : Int)
    (allocated : Bool) :
    (c.cacheFillSize pieceSize fileEnd id nowSec allocated).1.manifestLoading =
      c.manifestLoading := by
  unfold cacheFillSize
  dsimp only
  split_ifs
  · rw [loading_adoptOwnWrite, loading_grow]
  · rfl
  · rw [loading_adoptOwnWrite]
    rfl
  · rw [loading_adoptOwnWrite]

theorem loading_removeHashes (start stop : Nat) :
    (c.removeHashes start stop).manifestLoading = c.manifestLoading := by
  apply loading_foldl
  intro c i
  rfl

theorem loading_unmarkCovered (start stop : Nat) :
    (c.unmarkCovered start stop).manifestLoading = c.manifestLoading := by
  apply loading_foldl
  intro c i
  rfl

theorem loading_markCovered (digest : List β → δ) (pieceSize off : Nat) (data : List β)
    (start stop : Nat) :
    (c.markCovered digest pieceSize off data start stop).manifestLoading = c.manifestLoading := by
  apply loading_foldl
  intro c i
  rfl

theorem loading_markCopy [DecidableEq δ] (digest : List β → δ) (pieceSize off : Nat)
    (data : List β) (copied : Bool) :
    (c.markCopy digest pieceSize off data copied).1.manifestLoading = c.manifestLoading := by
  unfold markCopy
  dsimp only
  split_ifs
  · rfl
  · rfl
  · rw [loading_removeHashes, loading_removeHashes, loading_markCovered]
  · rw [loading_removeHashes, loading_removeHashes, loading_markCovered]
  · rw [loading_unmarkCovered]

theorem loading_punch (pieceSize idx : Nat) (env : PunchEnv φ) :
    (c.punchPiece pieceSize idx env).1.manifestLoading = c.manifestLoading := by
  have hopen := loading_openCache c env.opened
  unfold punchPiece
  dsimp only
  split_ifs
  any_goals rfl
  all_goals cases hfd : (c.openCacheUnlocked env.opened).1.cacheFd
  all_goals exact hopen

variable [DecidableEq δ] (P : Entry.Params β δ)

/-- **No section of another operation touches the claim.** -/
theorem loading_run {sec : Section φ β δ} (hsec : sec.ofLoad = false) :
    (sec.run P c).manifestLoading = c.manifestLoading := by
  cases sec with
  | beginFill idx now => exact loading_beginFill c ..
  | dropClaim idx => rfl
  | finishPiece idx ok len hash now => exact loading_finishPiece c ..
  | openCache opened => exact loading_openCache c opened
  | stamp now => rfl
  | beginXfer => rfl
  | endXfer => rfl
  | closeIdle now minIdle =>
    show (c.closeIdle now minIdle).manifestLoading = _
    unfold closeIdle
    split_ifs <;> rfl
  | noteOriginId id =>
    show (c.noteOriginId id).1.manifestLoading = _
    unfold noteOriginId
    split_ifs <;> rfl
  | reconcileProbe size id =>
    show (c.reconcileProbe size id).1.manifestLoading = _
    unfold reconcileProbe
    split_ifs
    · rfl
    · exact loading_adopt c id
  | reconcileReset size id =>
    show (c.reconcileReset P.pieceSize size id).1.manifestLoading = _
    unfold reconcileReset
    dsimp only
    split_ifs
    · rfl
    · rfl
    · exact loading_adopt c id
  | cacheFillSize fileEnd id now allocated => exact loading_cacheFillSize c ..
  | growForWrite fileEnd now resized => exact loading_grow c ..
  | truncateEntry size allocated =>
    show (c.truncateEntry P.pieceSize size allocated).1.manifestLoading = _
    unfold truncateEntry
    dsimp only
    split_ifs <;> rfl
  | markCopy off data copied => exact loading_markCopy c ..
  | distrust => rfl
  | forget => rfl
  | stampDead => rfl
  | punch idx env => exact loading_punch c ..
  | heal idx =>
    show (c.healPiece idx).1.manifestLoading = _
    unfold healPiece
    split_ifs <;> rfl
  | expectedHash idx nowMs => cases hsec
  | landManifest gen0 read retryAt => cases hsec
  | loadDone => cases hsec
  | publishDone snapCount =>
    show (c.publishDone snapCount).manifestLoading = _
    unfold publishDone
    split_ifs <;> rfl

end Sections

variable {S}

/-- The claim is held by the load in flight, if there is one. -/
def Loads (s : World τ φ) : Prop := Claimed Pc.loads s.c.manifestLoading s.pc

theorem loading_landManifest (c : Cached φ Digest) (gen0 : Nat) (read : ManifestRead Digest)
    (retryAt : Int) :
    (c.landManifest S.pieceSize gen0 read retryAt).manifestLoading = c.manifestLoading := by
  rcases landManifest_cases S.pieceSize c gen0 read retryAt with
    ⟨-, hsame⟩ | ⟨m, mtime, -, -, hmerged⟩
  · exact hsame
  · rw [hmerged, mergeManifest_eq]

theorem Loads.load {t : τ} {s s' : World τ φ} (h : Loads s) (hstep : LoadStep S t s s') :
    Loads s' := by
  cases hstep with
  | enter idx nowMs hpc =>
    have hidle : (s.pc t).loads = false := by rw [hpc]; rfl
    rcases s.c.expectedHashLook_cases idx nowMs with hlook | ⟨hfree, hlook⟩ | hlook <;>
      rw [hlook]
    · exact Claimed.move h hidle.symm
    · -- the flag was clear: nobody else loads
      unfold Loads at h
      rw [hfree] at h
      exact Claimed.take h rfl
    · exact Claimed.move h hidle.symm
  | sample hpc => exact Claimed.move h (by rw [hpc]; rfl)
  | read files hpc => exact Claimed.move h (by rw [hpc]; rfl)
  | @land idx nowMs began read puts hpc =>
    have hmoved := @Claimed.move _ _ _ _ _ _ t (.landed idx) h (by rw [hpc]; rfl)
    show Claimed Pc.loads (Cached.landManifest ..).manifestLoading _
    rwa [loading_landManifest]
  | done hpc => exact Claimed.release h (by rw [hpc]; rfl) rfl
  | look hpc => exact Claimed.move h (by rw [hpc]; rfl)
  | leave hpc => exact Claimed.move h (by rw [hpc]; rfl)

theorem Loads.step {s s' : World τ φ} (h : Loads s) (hstep : Step S s s') :
    Loads s' := by
  cases hstep with
  | load hload => exact h.load hload
  | other sec hsec =>
    unfold Loads
    rwa [loading_run s.c S.toParams hsec]

/-! ## The digests -/

theorem putting_eq_loaded {puts : Nat → Bool} {read : ManifestRead Digest} {m : Manifest Digest}
    {mtime : Option (Int64 × Int64)} (h : putting puts read = .loaded m mtime) :
    ∃ m', read = .loaded m' mtime ∧ m = { m' with entries := m'.entries.filter fun e => puts e.idx }
      := by
  cases read with
  | remembered => cases h
  | missed => cases h
  | loaded m' mtime' =>
    cases h
    exact ⟨m', rfl, rfl⟩

/-- **A load leaves every digest, and merges what the entry admits.** -/
theorem LoadStep.safe {t : τ} {s s' : World τ φ} (hstep : LoadStep S t s s') : Safe S t s s' := by
  cases hstep with
  | enter idx nowMs hpc =>
    have hhashes : (s.c.expectedHashLook idx nowMs).1.hashes = s.c.hashes := by
      rcases s.c.expectedHashLook_cases idx nowMs with hlook | ⟨-, hlook⟩ | hlook <;> rw [hlook]
    refine ⟨fun k h hk => ?_, fun hne => absurd hhashes hne, fun hloads => ?_⟩
    · show (s.c.expectedHashLook idx nowMs).1.hashes.lookup k = some h
      rw [hhashes, hk]
    · rw [hpc] at hloads
      cases hloads
  | sample hpc =>
    refine ⟨fun k h hk => hk, fun hne => absurd rfl hne, fun _ hleft => ?_⟩
    rw [pc_moveTo] at hleft
    cases hleft
  | read files hpc =>
    refine ⟨fun k h hk => hk, fun hne => absurd rfl hne, fun _ hleft => ?_⟩
    rw [pc_moveTo] at hleft
    cases hleft
  | @land idx nowMs began read puts hpc =>
    have hleft : ∀ w : World τ φ, ((w.moveTo t (.landed idx)).pc t).loads = true := by
      intro w
      rw [pc_moveTo]
      rfl
    rcases landManifest_cases S.pieceSize s.c began.writes (putting puts read)
      (satAddI64 nowMs S.retryMs) with ⟨hsame, -⟩ | ⟨m, mtime, hread, hadmits, hmerged⟩
    · refine ⟨fun k h hk => ?_, fun hne => absurd hsame hne, fun _ hgone => ?_⟩
      · show (s.c.landManifest ..).hashes.lookup k = some h
        rw [hsame, hk]
      · rw [hleft] at hgone
        cases hgone
    · obtain ⟨m', rfl, rfl⟩ := putting_eq_loaded hread
      refine ⟨fun k h hk => ?_, fun _ => ⟨idx, nowMs, began, m', mtime, hpc, ?_, fun k h hk => ?_⟩,
        fun _ hgone => ?_⟩
      · show (s.c.landManifest ..).hashes.lookup k = some h
        rw [hmerged]
        exact lookup_mergeManifest _ hk
      · exact ⟨hadmits.live, hadmits.generation, hadmits.pieceSize, hadmits.fileSize,
          hadmits.identity⟩
      · change (s.c.landManifest ..).hashes.lookup k = some h at hk
        rw [hmerged] at hk
        rcases mem_mergeManifest hk with hold | hmem
        · exact Or.inl hold
        · exact Or.inr (List.mem_of_mem_filter hmem)
      · rw [hleft] at hgone
        cases hgone
  | done hpc => exact ⟨fun k h hk => hk, fun hne => absurd rfl hne, fun _ _ => rfl⟩
  | look hpc =>
    refine ⟨fun k h hk => hk, fun hne => absurd rfl hne, fun hloads => ?_⟩
    rw [hpc] at hloads
    cases hloads
  | leave hpc =>
    refine ⟨fun k h hk => hk, fun hne => absurd rfl hne, fun hloads => ?_⟩
    rw [hpc] at hloads
    cases hloads

/-! ## Every run -/

/-- **Loads in any run**: at most one is in flight, the claim stands exactly as long, and whatever a
load does next leaves every digest and merges only what the entry admits in the generation the load
began in. -/
theorem load_of_run {c : Cached φ Digest} {s : World τ φ} (hfree : c.manifestLoading = false)
    (hrun : Run (Step S) Always (start τ c) s) :
    Claimed Pc.loads s.c.manifestLoading s.pc ∧
      ∀ t s', LoadStep S t s s' → Safe S t s s' := by
  refine ⟨?_, fun t s' hstep => hstep.safe⟩
  have hstart : Loads (start τ c) := by
    unfold Loads start
    rw [hfree]
    exact Claimed.of_free fun _ => rfl
  have hstep : ∀ s s' : World τ φ, Loads s → Step S s s' → Always s s' → Loads s' :=
    fun s s' hloads hstep _ => hloads.step hstep
  exact Run.invariant hstep hstart hrun

/-- A node that waits three seconds. -/
def siteA : Site UInt8 where
  pieceSize := 4096
  pieceSize_pos := by decide
  pieceSize_le := by decide
  zero := 0
  digest _ := digestA
  blake3 _ := digestA
  root := ascii "/o"
  rel := ascii "a"
  retryMs := 3000

/-- Its one load under way, at `pc`. -/
def loadingA (pc : Pc Unit) : World Bool Unit :=
  ⟨{ coldEntry 1 with manifestLoading := true }, Function.update (fun _ => .idle) true pc⟩

theorem moveTo_loadingA (pc pc' : Pc Unit) : (loadingA pc).moveTo true pc' = loadingA pc' := by
  unfold loadingA World.moveTo
  rw [Function.update_idem]

/-- A load off the origin that brings the entry its first digest. -/
theorem load_of_run_once : ∃ s s' : World Bool Unit, LoadStep siteA true s s' ∧
    s.c.hashes.lookup 0 = none ∧ s'.c.hashes.lookup 0 = some digestA ∧
      Claimed Pc.loads s.c.manifestLoading s.pc ∧ Safe siteA true s s' := by
  obtain ⟨blob, -, hdecode, hlen⟩ := @manifestDecode_blob ⟨4096, 4096, [⟨0, digestA⟩], none⟩
    (by decide) (by decide) (List.pairwise_singleton ..) (by simp; decide) nofun
  have hread : readManifest siteA.blake3 siteA.node siteA.rel (fun _ => some ⟨blob, none⟩) =
      .loaded ⟨4096, 4096, [⟨0, digestA⟩], none⟩ none := by
    obtain ⟨path, hpath⟩ := Option.isSome_iff_exists.mp
      (manifestPath_blockNode (fun _ => digestA) (ascii "a"))
    have hfits : ¬ maxManifestBytes < blob.length := by
      rw [hlen]
      decide
    unfold readManifest
    rw [show manifestPath siteA.blake3 siteA.node.root siteA.rel = some path from hpath]
    dsimp only
    rw [if_neg hfits, hdecode]
  have henter : LoadStep siteA true (start Bool (coldEntry 1)) (loadingA (.claimed 0 0)) :=
    .enter 0 0 rfl
  have hsample : LoadStep siteA true (loadingA (.claimed 0 0))
      (loadingA (.reading 0 0 (loadingA .idle).c)) := by
    have hpc : (loadingA (.claimed 0 0)).pc true = .claimed 0 0 := rfl
    rw [← moveTo_loadingA (.claimed 0 0) (.reading 0 0 (loadingA .idle).c)]
    exact .sample hpc
  have hreading : LoadStep siteA true (loadingA (.reading 0 0 (loadingA .idle).c))
      (loadingA (.decoded 0 0 (loadingA .idle).c
        (.loaded ⟨4096, 4096, [⟨0, digestA⟩], none⟩ none))) := by
    have hpc : (loadingA (.reading 0 0 (loadingA .idle).c)).pc true =
        .reading 0 0 (loadingA .idle).c := rfl
    rw [← moveTo_loadingA (.reading 0 0 (loadingA .idle).c) (.decoded 0 0 _ _), ← hread]
    exact .read _ hpc
  have hland := @LoadStep.land _ _ _ _ siteA true (loadingA (.decoded 0 0 (loadingA .idle).c
    (.loaded ⟨4096, 4096, [⟨0, digestA⟩], none⟩ none))) 0 0 _ _ (fun _ => true) rfl
  have hrun := ((Run.refl (start Bool (coldEntry 1))).then (Step.load henter)).then
    (Step.load hsample)
  have hloads := load_of_run rfl (hrun.then (Step.load hreading))
  exact ⟨_, _, hland, rfl, rfl, hloads.1, hloads.2 true _ hland⟩

end ManifestLoad

end ModelFs
