import ModelFs.Artifacts
import ModelFs.Catalog
import ModelFs.Install
import ModelFs.ManifestCodec

/-!
# Sweeping stale claims

Every node goes over the control directory and the manifests below it, and unlinks the leases and
the staging files that are older than its own lease by more than `sweep_min_age_secs`. Its own lease
is the clock: without it nothing is swept. A name is judged by its shape alone. Names are collected,
sorted and only then unlinked, and if memory runs out before that nothing is.

* `isStagingName_tmpName`, `not_isStagingName_manifestName` — the shape of a temporary name and that
  of a published one.
* `mem_sweepDir` — what one directory loses.
* `sweepLeases_spec` — **published manifests, the own lease and what is younger stay; every stale
  claim goes, in one order.** Ages are whole seconds.
* `sweepLeases_subsecond` — within a second the younger file may go.
-/

namespace ModelFs

namespace Sweep

open Discover (validId)
open Inodes (pathMax slash)
open Install (tmpExt tmpName)
open Proto (decimal)

variable {blake3 : List UInt8 → Digest}

/-! ## Names -/

/-- `std.ascii.isDigit`. -/
def isDigit (ch : UInt8) : Bool := 48 ≤ ch.toNat && ch.toNat ≤ 57

/-- `std.ascii.isUpper`. -/
def isUpper (ch : UInt8) : Bool := 65 ≤ ch.toNat && ch.toNat ≤ 90

/-- `std.ascii.isHex`. -/
def isHex (ch : UInt8) : Bool :=
  isDigit ch || (97 ≤ ch.toNat && ch.toNat ≤ 102) || (65 ≤ ch.toNat && ch.toNat ≤ 70)

def isStagingName (name : List UInt8) : Bool :=
  match indexOf (ascii ".tmp") name with
  | none => false
  | some mark =>
    let digits := name.take mark
    if digits = [] then false
    else if !digits.all fun ch => isHex ch && !isUpper ch then false
    else
      let tail := name.drop (mark + 4)
      if tail = [] then true
      else if tail.head? ≠ some 46 then false
      else if !tail.tail.all fun ch => isDigit ch || ch = 46 then false
      else 1 < tail.length

inductive SweepKind where
  | leases
  | staging
  deriving DecidableEq

/-- The names that one sweep considers. -/
def considers (selfId : List UInt8) (kind : SweepKind) (name : List UInt8) : Bool :=
  if name = [] ∨ name.head? = some 46 then false
  else if (ascii ".json").isSuffixOf name then
    kind = .leases && name.take (name.length - 5) ≠ selfId
  else
    match kind with
    | .leases => (ascii ".tmp").isSuffixOf name
    | .staging => isStagingName name

/-! ## The sweep -/

/-- `st_mtim`. -/
structure Timespec where
  sec : Int
  nsec : Nat

/-- What the kernel answers: the names of a directory, in its order, unless it cannot be opened, and
the `lstat` of a path. A path longer than the kernel takes has none. -/
structure Env where
  readdir : List UInt8 → Option (List (List UInt8))
  lstat : List UInt8 → Option Timespec
  /-- There is memory for the names of the directory. -/
  memory : List UInt8 → Bool
  noSlash : ∀ dir listed, readdir dir = some listed → ∀ name ∈ listed, slash ∉ name
  fits : ∀ path st, lstat path = some st → path.length < pathMax

def sweepMinAgeSecs : Int := 300

/-- The paths of one directory that are given to `unlink`, in this order. -/
def sweepDir (env : Env) (selfId dirz : List UInt8) (cutoff : Int) (kind : SweepKind) :
    List (List UInt8) :=
  match env.readdir dirz with
  | none => []
  | some listed =>
    if !env.memory dirz then []
    else
      ((listed.filter (considers selfId kind)).insertionSort fun a b => ¬ b < a).filterMap
        fun name =>
          match joinZ pathMax dirz name with
          | none => none
          | some fp =>
            match env.lstat fp with
            | none => none
            | some st => if cutoff < st.sec then none else some fp

/-- The path of the own lease. -/
def ownLease (selfId dirz : List UInt8) : Option (List UInt8) :=
  (joinZ pathMax dirz selfId).bind fun ipath => appendExt pathMax ipath (ascii ".json")

def sweepCutoff (env : Env) (selfId dirz : List UInt8) : Option Int :=
  (ownLease selfId dirz).bind fun zown =>
    (env.lstat zown).map fun ost => satSubI64 ost.sec sweepMinAgeSecs

def sweepLeases (env : Env) (origin selfId : List UInt8) : List (List UInt8) :=
  match joinZ pathMax origin clusterDir with
  | none => []
  | some dirz =>
    match sweepCutoff env selfId dirz with
    | none => []
    | some cutoff =>
      sweepDir env selfId dirz cutoff .leases ++
        match joinZ pathMax dirz (ascii "manifests") with
        | none => []
        | some mdirz => sweepDir env selfId mdirz cutoff .staging

/-! ## The shape of a name -/

theorem hex_of_mem_digestHex {d : Digest} {b : UInt8} (h : b ∈ digestHex d) :
    b ≠ 46 ∧ b ≠ slash ∧ (isHex b && !isUpper b) = true := by
  have hall : ∀ k : Nat, k < 16 → hexLower.getD k 0 ≠ 46 ∧ hexLower.getD k 0 ≠ slash ∧
      (isHex (hexLower.getD k 0) && !isUpper (hexLower.getD k 0)) = true := by decide
  obtain ⟨c, -, hb⟩ := List.mem_flatMap.mp h
  have hc := c.toNat_lt
  rcases List.mem_cons.mp hb with rfl | hb
  · exact hall _ (by omega)
  · rw [List.mem_singleton.mp hb]
    exact hall _ (by omega)

theorem manifestName_ne_nil (rel : List UInt8) : manifestName blake3 rel ≠ [] := by
  intro hnil
  have hlen : (manifestName blake3 rel).length = 2 * digestLen := length_digestHex _
  rw [hnil] at hlen
  cases hlen

/-- The suffix of a temporary name, behind `.tmp`: a dot, and behind it digits and dots. -/
theorem tmpExt_eq (pid seq : Nat) : ∃ tail, tmpExt pid seq = ascii ".tmp" ++ tail ∧
    (tail = [] ∨ ∃ rest, tail = 46 :: rest ∧ rest ≠ [] ∧
      ∀ ch ∈ rest, (isDigit ch || decide (ch = 46)) = true) := by
  have hdigit : ∀ n, ∀ ch ∈ decimal n, (isDigit ch || decide (ch = 46)) = true := by
    intro n ch hch
    have hrange := Proto.digit_of_mem_decimal hch
    simp [isDigit, hrange]
  unfold tmpExt
  dsimp only
  split
  · exact ⟨[], by simp, Or.inl rfl⟩
  · refine ⟨46 :: (decimal pid ++ (46 :: decimal seq)), ?_, Or.inr ⟨_, rfl, by simp, ?_⟩⟩
    · have hdot : ascii "." = [46] := by decide
      have hmark : ascii ".tmp." = ascii ".tmp" ++ [46] := by decide
      rw [hdot, hmark]
      simp
    · intro ch hch
      rcases List.mem_append.mp hch with hch | hch
      · exact hdigit pid ch hch
      · rcases List.mem_cons.mp hch with rfl | hch
        · decide
        · exact hdigit seq ch hch

/-- **A temporary name has the shape**, whatever manifest, process and ordinal it is of. -/
theorem isStagingName_tmpName (rel : List UInt8) (pid seq : Nat) :
    isStagingName (tmpName (manifestName blake3 rel) pid seq) = true := by
  obtain ⟨tail, hext, htail⟩ := tmpExt_eq pid seq
  generalize hname : manifestName blake3 rel = name
  have hhex : ∀ b ∈ name, b ≠ 46 ∧ b ≠ slash ∧ (isHex b && !isUpper b) = true := by
    intro b hb
    rw [← hname] at hb
    exact hex_of_mem_digestHex hb
  have hne : name ≠ [] := hname ▸ manifestName_ne_nil rel
  have hmark : indexOf (ascii ".tmp") (name ++ (ascii ".tmp" ++ tail)) = some name.length := by
    have hhere : indexOf (ascii ".tmp") (ascii ".tmp" ++ tail) = some 0 := rfl
    have hneedle : ascii ".tmp" = 46 :: ascii "tmp" := by decide
    rw [hneedle, indexOf_pass fun hmem => (hhex _ hmem).1 rfl, ← hneedle, hhere]
    rfl
  have hdrop : (name ++ (ascii ".tmp" ++ tail)).drop (name.length + 4) = tail := by
    rw [← List.drop_drop, List.drop_left]
    rfl
  have hall : (name.all fun ch => isHex ch && !isUpper ch) = true :=
    List.all_eq_true.mpr fun b hb => (hhex b hb).2.2
  rw [tmpName, hext]
  unfold isStagingName
  rw [hmark]
  dsimp only
  rw [List.take_left, hdrop, if_neg hne, hall, Bool.not_true, if_neg Bool.false_ne_true]
  rcases htail with rfl | ⟨rest, rfl, hrest, hdigits⟩
  · rfl
  · have hpos := List.length_pos_of_ne_nil hrest
    have hall' : (rest.all fun ch => isDigit ch || ch = 46) = true :=
      List.all_eq_true.mpr hdigits
    simp only [List.head?_cons, List.tail_cons, hall', List.length_cons]
    simp [hpos]

/-- **The name of a published manifest has not.** -/
theorem not_isStagingName_manifestName (rel : List UInt8) :
    isStagingName (manifestName blake3 rel) = false := by
  have hneedle : ascii ".tmp" = 46 :: ascii "tmp" := by decide
  have hnone : indexOf (46 :: ascii "tmp") (manifestName blake3 rel) = none := by
    have hpass := @indexOf_pass 46 (ascii "tmp") (manifestName blake3 rel)
      (fun hmem => (hex_of_mem_digestHex hmem).1 rfl) []
    rw [List.append_nil] at hpass
    rw [hpass]
    rfl
  unfold isStagingName
  rw [hneedle, hnone]

/-! ## Paths -/

/-- A name of a directory as a path: names have no slash. -/
theorem joinZ_name {dir name : List UInt8} (hne : name ≠ []) (hname : slash ∉ name) :
    joinZ pathMax dir name =
      if pathMax ≤ (rootStem dir ++ slash :: name).length then none
      else some (rootStem dir ++ slash :: name) := by
  refine joinZ_of_edges hne (fun h => hname ?_) (fun h => hname ?_)
  · exact List.mem_of_mem_head? h
  · exact List.mem_of_getLast? h

/-- The directory a sweep of a kind goes over. -/
def controlDir (origin : List UInt8) : SweepKind → Option (List UInt8)
  | .leases => joinZ pathMax origin clusterDir
  | .staging => (joinZ pathMax origin clusterDir).bind fun d => joinZ pathMax d (ascii "manifests")

/-- The same below the origin. -/
def controlSub : SweepKind → List UInt8
  | .leases => clusterDir
  | .staging => manifestsDir

theorem controlDir_eq {origin dir : List UInt8} {kind : SweepKind}
    (h : controlDir origin kind = some dir) :
    rootStem dir = dir ∧ dir = rootStem origin ++ slash :: controlSub kind := by
  have hcluster : ∀ {d}, joinZ pathMax origin clusterDir = some d →
      d = rootStem origin ++ slash :: clusterDir := fun hd =>
    joinZ_eq (by decide) (by decide) (by decide) hd
  cases kind with
  | leases =>
    obtain rfl := hcluster h
    exact ⟨rootStem_append (by decide) (by decide), rfl⟩
  | staging =>
    obtain ⟨d, hd, hjoin⟩ := Option.bind_eq_some_iff.mp h
    obtain rfl := hcluster hd
    have hdir := joinZ_eq (by decide) (by decide) (by decide) hjoin
    rw [rootStem_append (by decide) (by decide)] at hdir
    have hstem : rootStem dir = dir := by
      rw [hdir]
      exact rootStem_append (by decide) (by decide)
    refine ⟨hstem, ?_⟩
    rw [hdir, List.append_assoc]
    rfl

/-- A published manifest is a name of the directory of staging files. -/
theorem manifestPath_eq {origin rel p : List UInt8} (h : manifestPath blake3 origin rel = some p) :
    p = rootStem origin ++ slash :: (manifestsDir ++ slash :: manifestName blake3 rel) := by
  obtain ⟨d, hd, hjoin⟩ := Option.bind_eq_some_iff.mp h
  have hdir : d = rootStem origin ++ slash :: manifestsDir :=
    joinZ_eq (by decide) (by decide) (by decide) hd
  have hslash : slash ∉ manifestName blake3 rel := fun hmem =>
    (hex_of_mem_digestHex hmem).2.1 rfl
  have hstem : rootStem d = d := by
    have hsplit : manifestsDir = clusterDir ++ slash :: ascii "manifests" := rfl
    rw [hdir, hsplit, ← List.cons_append, ← List.append_assoc]
    exact rootStem_append (by decide) (by decide)
  rw [joinZ_name (manifestName_ne_nil rel) hslash] at hjoin
  split at hjoin
  · cases hjoin
  · rw [← Option.some.inj hjoin, hstem, hdir, List.append_assoc]
    rfl

/-! ## One directory -/

variable {env : Env} {selfId : List UInt8}

/-- **What one directory loses**: every name that is considered and is not younger than the cutoff,
if there is memory. -/
theorem mem_sweepDir {dirz p : List UInt8} {cutoff : Int} {kind : SweepKind} :
    p ∈ sweepDir env selfId dirz cutoff kind ↔
      env.memory dirz = true ∧ ∃ listed, env.readdir dirz = some listed ∧ ∃ name ∈ listed,
        considers selfId kind name = true ∧ joinZ pathMax dirz name = some p ∧
        ∃ st, env.lstat p = some st ∧ st.sec ≤ cutoff := by
  unfold sweepDir
  cases hlisted : env.readdir dirz with
  | none => simp
  | some listed =>
    cases hmem : env.memory dirz with
    | false => simp
    | true =>
      simp only [Bool.not_true, Bool.false_eq_true, if_false, List.mem_filterMap,
        List.mem_insertionSort, List.mem_filter, true_and, Option.some.injEq, exists_eq_left']
      refine exists_congr fun name => ?_
      rw [and_assoc]
      refine and_congr_right fun _ => and_congr_right fun _ => ?_
      cases hjoin : joinZ pathMax dirz name with
      | none => simp
      | some fp =>
        dsimp only
        cases hstat : env.lstat fp with
        | none =>
          simp only [reduceCtorEq, Option.some.injEq, false_iff]
          rintro ⟨rfl, st, hst, -⟩
          cases hstat.symm.trans hst
        | some st =>
          simp only [Option.some.injEq]
          split
          · next hyoung =>
            simp only [reduceCtorEq, false_iff]
            rintro ⟨rfl, st', hst, hle⟩
            obtain rfl := Option.some.inj (hstat.symm.trans hst)
            omega
          · next hold =>
            constructor
            · intro hfp
              obtain rfl := Option.some.inj hfp
              exact ⟨rfl, st, hstat, by omega⟩
            · rintro ⟨rfl, -⟩
              rfl

/-- **The order** is that of the names, not that of the directory. -/
theorem sweepDir_congr {env' : Env} {dirz : List UInt8} (hlstat : env'.lstat = env.lstat)
    (hmemory : env'.memory dirz = env.memory dirz)
    (hlisted : Option.Rel List.Perm (env'.readdir dirz) (env.readdir dirz)) (cutoff : Int)
    (kind : SweepKind) :
    sweepDir env' selfId dirz cutoff kind = sweepDir env selfId dirz cutoff kind := by
  unfold sweepDir
  rw [hlstat, hmemory]
  generalize env'.readdir dirz = a at hlisted
  generalize env.readdir dirz = b at hlisted
  cases hlisted with
  | none => rfl
  | @some listed' listed hperm =>
    have hsorted := Catalog.strictTotal_bytes.insertionSort_of_perm
      (hperm.filter (considers selfId kind))
    dsimp only
    rw [hsorted]

/-! ## Both directories -/

/-- The own lease is there, and this is when it was written. -/
def Clock (env : Env) (origin selfId : List UInt8) (t : Timespec) : Prop :=
  ∃ dirz own, controlDir origin .leases = some dirz ∧ ownLease selfId dirz = some own ∧
    env.lstat own = some t

/-- The names of claims: the leases of the others, and what a publish of a lease or of a manifest
that did not end leaves. -/
inductive Claim (blake3 : List UInt8 → Digest) (selfId : List UInt8) :
    SweepKind → List UInt8 → Prop
  | lease {id : List UInt8} (hid : validId id = true) (hother : id ≠ selfId) :
      Claim blake3 selfId .leases (id ++ ascii ".json")
  | leaseStaging {id : List UInt8} (hid : validId id = true) :
      Claim blake3 selfId .leases (id ++ ascii ".json" ++ ascii ".tmp")
  | staging (rel : List UInt8) (pid seq : Nat) :
      Claim blake3 selfId .staging (tmpName (manifestName blake3 rel) pid seq)

/-- What is unlinked, by directory and name. -/
theorem mem_sweepLeases {origin p : List UInt8} :
    p ∈ sweepLeases env origin selfId ↔ ∃ t, Clock env origin selfId t ∧
      ∃ kind dir, controlDir origin kind = some dir ∧
        p ∈ sweepDir env selfId dir (satSubI64 t.sec sweepMinAgeSecs) kind := by
  have hclock : ∀ {dirz}, joinZ pathMax origin clusterDir = some dirz → ∀ cutoff,
      sweepCutoff env selfId dirz = some cutoff ↔
        ∃ t, Clock env origin selfId t ∧ satSubI64 t.sec sweepMinAgeSecs = cutoff := by
    intro dirz hdir cutoff
    unfold sweepCutoff
    constructor
    · intro h
      obtain ⟨own, hown, h⟩ := Option.bind_eq_some_iff.mp h
      obtain ⟨t, ht, hcut⟩ := Option.map_eq_some_iff.mp h
      exact ⟨t, ⟨dirz, own, hdir, hown, ht⟩, hcut⟩
    · rintro ⟨t, ⟨dirz', own, hdir', hown, ht⟩, hcut⟩
      obtain rfl := Option.some.inj (hdir.symm.trans hdir')
      rw [hown, Option.bind_some, ht, Option.map_some, hcut]
  unfold sweepLeases
  cases hdir : joinZ pathMax origin clusterDir with
  | none =>
    simp only [List.not_mem_nil, false_iff]
    rintro ⟨t, ⟨dirz, own, hdir', -⟩, -⟩
    cases hdir.symm.trans hdir'
  | some dirz =>
    dsimp only
    cases hcut : sweepCutoff env selfId dirz with
    | none =>
      simp only [List.not_mem_nil, false_iff]
      rintro ⟨t, ht, -⟩
      cases hcut.symm.trans ((hclock hdir _).mpr ⟨t, ht, rfl⟩)
    | some cutoff =>
      have hleases : controlDir origin .leases = some dirz := hdir
      have hstaging : controlDir origin .staging = joinZ pathMax dirz (ascii "manifests") := by
        rw [controlDir, hdir, Option.bind_some]
      dsimp only
      rw [List.mem_append]
      constructor
      · intro h
        obtain ⟨t, ht, rfl⟩ := (hclock hdir cutoff).mp hcut
        refine ⟨t, ht, ?_⟩
        rcases h with h | h
        · exact ⟨.leases, dirz, hleases, h⟩
        · split at h
          · cases h
          · next mdirz hmdir => exact ⟨.staging, mdirz, hstaging.trans hmdir, h⟩
      · rintro ⟨t, ht, kind, dir, hkind, h⟩
        have hsame := (hclock hdir _).mpr ⟨t, ht, rfl⟩
        obtain rfl := Option.some.inj (hcut.symm.trans hsame)
        cases kind with
        | leases =>
          obtain rfl := Option.some.inj (hleases.symm.trans hkind)
          exact Or.inl h
        | staging =>
          right
          rw [← hstaging, hkind]
          exact h

/-- A path that is unlinked is a name of one of the directories that has no slash. -/
theorem exists_name_of_mem {origin p dir : List UInt8} {cutoff : Int} {kind : SweepKind}
    (hdir : controlDir origin kind = some dir) (h : p ∈ sweepDir env selfId dir cutoff kind) :
    ∃ name, slash ∉ name ∧ considers selfId kind name = true ∧
      p = rootStem origin ++ slash :: (controlSub kind ++ slash :: name) := by
  obtain ⟨-, listed, hlisted, name, hname, hconsiders, hjoin, -⟩ := mem_sweepDir.mp h
  obtain ⟨hstem, hbelow⟩ := controlDir_eq hdir
  have hslash := env.noSlash dir listed hlisted name hname
  have hne : name ≠ [] := by
    rintro rfl
    cases hconsiders
  refine ⟨name, hslash, hconsiders, ?_⟩
  rw [joinZ_name hne hslash] at hjoin
  split at hjoin
  · cases hjoin
  · rw [← Option.some.inj hjoin, hstem, hbelow, List.append_assoc]
    rfl

/-- Names without a slash are told apart by their paths. -/
theorem controlSub_inj {kind kind' : SweepKind} {name name' : List UInt8} (h : slash ∉ name)
    (h' : slash ∉ name')
    (heq : controlSub kind ++ slash :: name = controlSub kind' ++ slash :: name') :
    kind = kind' ∧ name = name' := by
  have hdeep : ∀ {n n' : List UInt8}, slash ∉ n →
      clusterDir ++ slash :: n ≠ manifestsDir ++ slash :: n' := by
    intro n n' hn hsame
    have hsplit : manifestsDir ++ slash :: n' =
        clusterDir ++ slash :: (ascii "manifests" ++ slash :: n') := by
      rw [manifestsDir, List.append_assoc]
      rfl
    rw [hsplit] at hsame
    have hname := (List.cons.inj (List.append_cancel_left hsame)).2
    rw [hname] at hn
    exact hn (by simp)
  cases kind with
  | leases =>
    cases kind' with
    | leases => exact ⟨rfl, (List.cons.inj (List.append_cancel_left heq)).2⟩
    | staging => exact absurd heq (hdeep h)
  | staging =>
    cases kind' with
    | leases => exact absurd heq.symm (hdeep h')
    | staging => exact ⟨rfl, (List.cons.inj (List.append_cancel_left heq)).2⟩

theorem validId_spec {id : List UInt8} (h : validId id = true) :
    id ≠ [] ∧ id.head? ≠ some 46 ∧ slash ∉ id := by
  unfold validId at h
  split at h
  · cases h
  next hlen =>
  split at h
  · cases h
  next hdot =>
  refine ⟨fun hnil => hlen (Or.inl hnil), hdot, fun hmem => ?_⟩
  have hch := List.all_eq_true.mp h _ hmem
  exact absurd hch (by decide)

/-- **Every claim is considered.** -/
theorem considers_of_claim {kind : SweepKind} {name : List UInt8}
    (h : Claim blake3 selfId kind name) : considers selfId kind name = true := by
  have hhead : ∀ {id ext : List UInt8}, validId id = true →
      ¬ (id ++ ext = [] ∨ (id ++ ext).head? = some 46) := by
    intro id ext hid
    obtain ⟨hne, hdot, -⟩ := validId_spec hid
    obtain ⟨b, rest, rfl⟩ := List.exists_cons_of_ne_nil hne
    simpa using hdot
  cases h with
  | @lease id hid hother =>
    have hsuffix : (ascii ".json").isSuffixOf (id ++ ascii ".json") = true :=
      List.isSuffixOf_iff_suffix.mpr (List.suffix_append _ _)
    have htake : (id ++ ascii ".json").take ((id ++ ascii ".json").length - 5) = id := by
      rw [List.length_append]
      exact List.take_left' (by simp [ascii])
    unfold considers
    rw [if_neg (hhead hid), if_pos hsuffix, htake]
    simp [hother]
  | @leaseStaging id hid =>
    have hno : ¬ (ascii ".json").isSuffixOf (id ++ ascii ".json" ++ ascii ".tmp") = true := by
      rw [List.isSuffixOf_iff_suffix]
      intro hsuffix
      have hshort := List.suffix_of_suffix_length_le
        (List.suffix_append (id ++ ascii ".json") (ascii ".tmp")) hsuffix (by decide)
      exact absurd hshort (by decide)
    unfold considers
    rw [List.append_assoc, if_neg (hhead hid), ← List.append_assoc, if_neg hno]
    exact List.isSuffixOf_iff_suffix.mpr (List.suffix_append _ _)
  | staging rel pid seq =>
    obtain ⟨b, rest, hname⟩ := List.exists_cons_of_ne_nil (@manifestName_ne_nil blake3 rel)
    have hmem : b ∈ manifestName blake3 rel := by
      rw [hname]
      exact List.mem_cons_self
    have hb : b ≠ 46 := (hex_of_mem_digestHex hmem).1
    have hfirst : ¬ (tmpName (manifestName blake3 rel) pid seq = [] ∨
        (tmpName (manifestName blake3 rel) pid seq).head? = some 46) := by
      rw [tmpName, hname]
      simpa using hb
    -- no byte of the name is the `j` of `.json`
    have hno : ¬ (ascii ".json").isSuffixOf (tmpName (manifestName blake3 rel) pid seq) = true := by
      rw [List.isSuffixOf_iff_suffix]
      intro hsuffix
      have hj : (106 : UInt8) ∈ tmpName (manifestName blake3 rel) pid seq :=
        hsuffix.subset (by decide)
      obtain ⟨tail, hext, htail⟩ := tmpExt_eq pid seq
      rw [tmpName, hext] at hj
      rcases List.mem_append.mp hj with hj | hj
      · exact absurd (hex_of_mem_digestHex hj).2.2 (by decide)
      · rcases List.mem_append.mp hj with hj | hj
        · exact absurd hj (by decide)
        · rcases htail with rfl | ⟨rest, rfl, -, hdigits⟩
          · cases hj
          · rcases List.mem_cons.mp hj with hj | hj
            · exact absurd hj (by decide)
            · exact absurd (hdigits _ hj) (by decide)
    unfold considers
    rw [if_neg hfirst, if_neg hno]
    exact isStagingName_tmpName rel pid seq

/-- The own lease is the name that is not considered. -/
theorem not_considers_own (kind : SweepKind) :
    considers selfId kind (selfId ++ ascii ".json") = false := by
  have hsuffix : (ascii ".json").isSuffixOf (selfId ++ ascii ".json") = true :=
    List.isSuffixOf_iff_suffix.mpr (List.suffix_append _ _)
  have htake : (selfId ++ ascii ".json").take ((selfId ++ ascii ".json").length - 5) = selfId := by
    rw [List.length_append]
    exact List.take_left' (by simp [ascii])
  unfold considers
  rw [if_pos hsuffix, htake]
  simp

theorem not_considers_manifestName (rel : List UInt8) :
    considers selfId .staging (manifestName blake3 rel) = false := by
  unfold considers
  split
  · rfl
  split
  · rfl
  · exact not_isStagingName_manifestName rel

theorem ownLease_eq {origin dirz own : List UInt8} (hself : validId selfId = true)
    (hdirz : controlDir origin .leases = some dirz) (hown : ownLease selfId dirz = some own) :
    own = rootStem origin ++ slash :: (clusterDir ++ slash :: (selfId ++ ascii ".json")) := by
  obtain ⟨hne, -, hslash⟩ := validId_spec hself
  obtain ⟨hstem, hdir⟩ := controlDir_eq hdirz
  obtain ⟨ipath, hjoin, hext⟩ := Option.bind_eq_some_iff.mp hown
  rw [joinZ_name hne hslash, hstem] at hjoin
  split at hjoin
  · cases hjoin
  · unfold appendExt at hext
    split at hext
    · cases hext
    · rw [← Option.some.inj hext, ← Option.some.inj hjoin, hdir]
      simp [controlSub]

/-- **The sweep.** Temporary names have the shape it looks for. For each valid id: a published
manifest is never unlinked, nor the own lease, nor anything whose second is later than that of the
own lease less the age; every claim that is not later is unlinked if there is memory for the names;
and the unlinks and their order do not depend on the order of the directories. -/
theorem sweepLeases_spec (blake3 : List UInt8 → Digest) :
    (∀ rel pid seq, isStagingName (tmpName (manifestName blake3 rel) pid seq) = true) ∧
    ∀ (env : Env) (origin selfId : List UInt8), validId selfId = true →
      (∀ rel p, manifestPath blake3 origin rel = some p → p ∉ sweepLeases env origin selfId) ∧
      (∀ dirz own, controlDir origin .leases = some dirz → ownLease selfId dirz = some own →
        own ∉ sweepLeases env origin selfId) ∧
      (∀ p ∈ sweepLeases env origin selfId, ∃ t st, Clock env origin selfId t ∧
        env.lstat p = some st ∧ st.sec ≤ satSubI64 t.sec sweepMinAgeSecs) ∧
      (∀ t, Clock env origin selfId t → ∀ kind dir, controlDir origin kind = some dir →
        env.memory dir = true → ∀ listed, env.readdir dir = some listed → ∀ name ∈ listed,
        Claim blake3 selfId kind name → ∀ st, env.lstat (dir ++ slash :: name) = some st →
        st.sec ≤ satSubI64 t.sec sweepMinAgeSecs →
        dir ++ slash :: name ∈ sweepLeases env origin selfId) ∧
      ∀ env' : Env, env'.lstat = env.lstat → env'.memory = env.memory →
        (∀ dir, Option.Rel List.Perm (env'.readdir dir) (env.readdir dir)) →
        sweepLeases env' origin selfId = sweepLeases env origin selfId := by
  refine ⟨isStagingName_tmpName, fun env origin selfId hself => ⟨fun rel p hp hmem => ?_,
    fun dirz own hdirz hown hmem => ?_, fun p hmem => ?_,
    fun t ht kind dir hdir hmemory listed hlisted name hname hclaim st hst hold => ?_,
    fun env' hlstat hmemory hlisted => ?_⟩⟩
  · -- a manifest is no name of the leases, and its own is not considered
    obtain ⟨t, -, kind, dir, hdir, hin⟩ := mem_sweepLeases.mp hmem
    obtain ⟨name, hslash, hconsiders, rfl⟩ := exists_name_of_mem hdir hin
    have hhex : slash ∉ manifestName blake3 rel := fun h => (hex_of_mem_digestHex h).2.1 rfl
    have hpath := (List.cons.inj (List.append_cancel_left (manifestPath_eq hp))).2
    obtain ⟨rfl, rfl⟩ := @controlSub_inj kind .staging _ _ hslash hhex hpath
    rw [not_considers_manifestName] at hconsiders
    cases hconsiders
  · obtain ⟨t, -, kind, dir, hdir, hin⟩ := mem_sweepLeases.mp hmem
    obtain ⟨name, hslash, hconsiders, rfl⟩ := exists_name_of_mem hdir hin
    have hplain : slash ∉ selfId ++ ascii ".json" := by
      rw [List.mem_append, not_or]
      exact ⟨(validId_spec hself).2.2, by decide⟩
    have hpath := (List.cons.inj (List.append_cancel_left (ownLease_eq hself hdirz hown))).2
    obtain ⟨rfl, rfl⟩ := @controlSub_inj kind .leases _ _ hslash hplain hpath
    rw [not_considers_own] at hconsiders
    cases hconsiders
  · obtain ⟨t, ht, kind, dir, -, hin⟩ := mem_sweepLeases.mp hmem
    obtain ⟨-, listed, -, name, -, -, -, st, hst, hold⟩ := mem_sweepDir.mp hin
    exact ⟨t, st, ht, hst, hold⟩
  · refine mem_sweepLeases.mpr ⟨t, ht, kind, dir, hdir, mem_sweepDir.mpr ⟨hmemory, listed, hlisted,
      name, hname, considers_of_claim hclaim, ?_, st, hst, hold⟩⟩
    have hne : name ≠ [] := by
      rintro rfl
      cases considers_of_claim hclaim
    have hfits := env.fits _ st hst
    rw [joinZ_name hne (env.noSlash dir listed hlisted name hname), (controlDir_eq hdir).1,
      if_neg (Nat.not_le.mpr hfits)]
  · have hdirs : ∀ dirz cutoff kind, sweepDir env' selfId dirz cutoff kind =
        sweepDir env selfId dirz cutoff kind := fun dirz cutoff kind =>
      sweepDir_congr hlstat (by rw [hmemory]) (hlisted dirz) cutoff kind
    unfold sweepLeases sweepCutoff
    simp only [hlstat, hdirs]

/-! ## Within a second -/

/-- Two leases in `/o/.cluster`; the own one is of second 1000. -/
def twoLeases (other : Timespec) (memory : Bool) : Env where
  readdir := fun dir =>
    if dir = ascii "/o/.cluster" then some [ascii "b.json", ascii "a.json"] else none
  lstat := fun path =>
    if path = ascii "/o/.cluster/a.json" then some ⟨1000, 0⟩
    else if path = ascii "/o/.cluster/b.json" then some other
    else none
  memory := fun _ => memory
  noSlash := by
    intro dir listed h name hname
    split at h
    · rw [← Option.some.inj h] at hname
      have hall : ∀ n ∈ [ascii "b.json", ascii "a.json"], slash ∉ n := by decide
      exact hall name hname
    · cases h
  fits := by
    intro path st h
    split at h
    · next heq =>
      rw [heq]
      decide
    · split at h
      · next heq =>
        rw [heq]
        decide
      · cases h

/-- **Nanoseconds do not count, and neither does a claim there is no memory for**: a lease that is
five nanoseconds younger than the own one less the age is unlinked; an old one is not when the names
cannot be kept. -/
theorem sweepLeases_subsecond : validId (ascii "a") = true ∧
    Clock (twoLeases ⟨700, 5⟩ true) (ascii "/o") (ascii "a") ⟨1000, 0⟩ ∧
    (twoLeases ⟨700, 5⟩ true).lstat (ascii "/o/.cluster/b.json") =
      some ⟨1000 - sweepMinAgeSecs, 0 + 5⟩ ∧
    ascii "/o/.cluster/b.json" ∈
      sweepLeases (twoLeases ⟨700, 5⟩ true) (ascii "/o") (ascii "a") ∧
    Clock (twoLeases ⟨0, 0⟩ false) (ascii "/o") (ascii "a") ⟨1000, 0⟩ ∧
    (twoLeases ⟨0, 0⟩ false).lstat (ascii "/o/.cluster/b.json") = some ⟨0, 0⟩ ∧
    ascii "/o/.cluster/b.json" ∉
      sweepLeases (twoLeases ⟨0, 0⟩ false) (ascii "/o") (ascii "a") := by
  refine ⟨by decide, ⟨ascii "/o/.cluster", ascii "/o/.cluster/a.json", by decide, by decide, rfl⟩,
    rfl, by decide, ⟨ascii "/o/.cluster", ascii "/o/.cluster/a.json", by decide, by decide, rfl⟩,
    rfl, by decide⟩

end Sweep

end ModelFs
