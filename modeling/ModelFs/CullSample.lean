import ModelFs.Cached
import ModelFs.Catalog
import ModelFs.Lib.Select
import ModelFs.Paths

/-!
# What a cull round looks at

`cullOne` looks at 32 live entries, those that were idle the longest, and pins them by a reference
while it does; `cullOneOnDisk` at 8 files of the data tree that no live entry stands for. Both
samples are filled by one insertion: at the end, then forwards past everything younger, the youngest
going when the sample is full. The walk over the data tree passes over what a full sample would
refuse before it asks for its pin and its entry.

* `sampleIdle_lowest`, `sampleIdle_refs` — the entries that were sampled, and the references on
  them.
* `walkData_eq`, `walkData_lowest` — the walk shows the sample every file of the tree that can be a
  victim, prefilter or not.
* `samples_lowest` — **both samples are the oldest there are, in whatever order they are visited.**
-/

namespace ModelFs

namespace Cull

open Inodes (pathMax)
open Select (consider Considered sampleOf Lowest)
open StableSort (StrictTotal)

abbrev Name := List UInt8

/-! ## Live entries -/

/-- `idle_sample_cap`. -/
def idleSampleCap : Nat := 32

/-- An entry, by its name, and its last access as the round loaded it. -/
structure IdleCand where
  rel : Name
  at_ : Int
  deriving DecidableEq, Repr

def idleOlder (a b : IdleCand) : Bool := if a.at_ ≠ b.at_ then a.at_ < b.at_ else a.rel < b.rel

/-- The sample, and the references of every entry. -/
structure Sampling where
  cands : List IdleCand := []
  refs : Name → Nat

def Sampling.fetchAdd (s : Sampling) (rel : Name) : Sampling :=
  { s with refs := Function.update s.refs rel (s.refs rel + 1) }

def Sampling.fetchSub (s : Sampling) (rel : Name) : Sampling :=
  { s with refs := Function.update s.refs rel (s.refs rel - 1) }

/-- The entry takes a slot or does not; the one it pushes out is let go. -/
def considerIdle (s : Sampling) (f : IdleCand) : Sampling × Bool :=
  match consider idleOlder idleSampleCap s.cands f with
  | (cands, .added) => ({ s with cands }, true)
  | (cands, .replaced evicted) => ({ s with cands }.fetchSub evicted.rel, true)
  | (_, .refused) => (s, false)

/-- The recency gate. -/
def isIdle (nowSec : Int) (f : IdleCand) : Bool := ¬ satSubI64 nowSec f.at_ < recencySecs

/-- The first phase of `cullOne`: the files map in the order of its iteration. -/
def sampleIdle (nowSec : Int) : List IdleCand → Sampling → Sampling
  | [], s => s
  | f :: files, s =>
    if satSubI64 nowSec f.at_ < recencySecs then sampleIdle nowSec files s
    else
      match considerIdle (s.fetchAdd f.rel) f with
      | (s, true) => sampleIdle nowSec files s
      | (s, false) => sampleIdle nowSec files (s.fetchSub f.rel)

/-! ## Files on disk -/

/-- `walk_sample_cap`. -/
def walkSampleCap : Nat := 8

/-- `walk_max_depth`. -/
def walkMaxDepth : Nat := 64

structure DiskVictim where
  rel : Name
  at_ : Int
  deriving DecidableEq, Repr

def victimOlder (a b : DiskVictim) : Bool :=
  if a.at_ ≠ b.at_ then a.at_ < b.at_
  else if a.rel.length ≠ b.rel.length then a.rel.length < b.rel.length
  else a.rel < b.rel

def considerVictim (victims : List DiskVictim) (v : DiskVictim) : List DiskVictim :=
  (consider victimOlder walkSampleCap victims v).1

/-- A name of the data tree, as `lstat` and `opendir` have it: a directory that cannot be opened is
one without entries, and a name that cannot be asked about is none of the others. -/
inductive DataNode where
  | reg (blocks : Nat) (mtimeSec : Int)
  | dir (children : List (Name × DataNode))
  | other

/-- What a walk asks about a name beside the tree. -/
structure WalkEnv where
  pinExists : Name → Bool
  inMem : Name → Bool

/-- `sys.toZ` into a buffer for a path. -/
def toZ (s : Name) : Option Name := if pathMax < s.length + 1 then none else some s

/-- A full sample would refuse the file. -/
def prefilter (victims : List DiskVictim) (v : DiskVictim) : Bool :=
  victims.length = walkSampleCap &&
    match victims.getLast? with
    | some last => !victimOlder v last
    | none => false

section Walk

variable (env : WalkEnv) (skip : List DiskVictim → DiskVictim → Bool)

/-- One name of a directory; `walkDir` is the walk below it. -/
def visitName
    (walkDir : Name → Name → List (Name × DataNode) → List DiskVictim → List DiskVictim)
    (dirPath rel : Name) (victims : List DiskVictim) (child : Name × DataNode) :
    List DiskVictim :=
  let name := child.1
  if name = [] ∨ name = dot ∨ name = dotDot then victims
  else if ¬ relOk name then victims
  else
    match joinZ pathMax dirPath name with
    | none => victims
    | some cp =>
      match if rel = [] then toZ name else joinZ pathMax rel name with
      | none => victims
      | some nrel =>
        match child.2 with
        | .dir children => walkDir cp nrel children victims
        | .other => victims
        | .reg blocks mtimeSec =>
          if blocks = 0 then victims
          else if skip victims ⟨nrel, mtimeSec⟩ then victims
          else if env.pinExists nrel then victims
          else if env.inMem nrel then victims
          else considerVictim victims ⟨nrel, mtimeSec⟩

/-- The walk with `levels` more directories to enter. -/
def walkLevels : Nat → Name → Name → List (Name × DataNode) → List DiskVictim → List DiskVictim
  | 0, _, _, _, victims => victims
  | levels + 1, dirPath, rel, children, victims =>
    match toZ dirPath with
    | none => victims
    | some dz => children.foldl (visitName env skip (walkLevels levels) dz rel) victims

end Walk

/-- `walkData`, from the root of the data tree. -/
def walkData (env : WalkEnv) (root : Name) (children : List (Name × DataNode)) : List DiskVictim :=
  walkLevels env prefilter walkMaxDepth root [] children []

/-! ## The idle sample -/

/-- What entries are ordered by. -/
def IdleCand.key (f : IdleCand) : Int × Name := (f.at_, f.rel)

/-- Older, or of the same age and before it in bytes. -/
def IdleLt (a b : Int × Name) : Prop := a.1 < b.1 ∨ a.1 = b.1 ∧ a.2 < b.2

theorem strictTotal_idle : StrictTotal IdleLt := StrictTotal.of_lt.lex Catalog.strictTotal_bytes

theorem idleOlder_iff (a b : IdleCand) : idleOlder a b = true ↔ IdleLt a.key b.key := by
  unfold idleOlder IdleLt IdleCand.key
  by_cases hat : a.at_ = b.at_
  · simp [hat]
  · simp [hat]

theorem IdleCand.key_injective : Function.Injective IdleCand.key := by
  rintro ⟨rel, at_⟩ ⟨rel', at_'⟩ h
  simp only [IdleCand.key, Prod.mk.injEq] at h
  rw [h.1, h.2]

theorem fetchAdd_refs (s : Sampling) (held rel : Name) :
    (s.fetchAdd held).refs rel = s.refs rel + if held = rel then 1 else 0 := by
  change Function.update s.refs held (s.refs held + 1) rel = _
  by_cases h : rel = held
  · rw [h, Function.update_self, if_pos rfl]
  · rw [Function.update_of_ne h, if_neg (Ne.symm h), Nat.add_zero]

theorem fetchSub_refs (s : Sampling) (held rel : Name) :
    (s.fetchSub held).refs rel = s.refs rel - if held = rel then 1 else 0 := by
  change Function.update s.refs held (s.refs held - 1) rel = _
  by_cases h : rel = held
  · rw [h, Function.update_self, if_pos rfl]
  · rw [Function.update_of_ne h, if_neg (Ne.symm h), Nat.sub_zero]

/-- Every reference beyond those it started with is held for an entry of the sample. -/
def Pinned (refs : Name → Nat) (s : Sampling) : Prop :=
  ∀ rel, s.refs rel = refs rel + s.cands.countP fun f => f.rel = rel

/-- One entry that is shown to the sample: its own reference stays or is taken back, and that of the
one it pushes out is. -/
def sampleOne (s : Sampling) (f : IdleCand) : Sampling :=
  match considerIdle (s.fetchAdd f.rel) f with
  | (s, true) => s
  | (s, false) => s.fetchSub f.rel

theorem sampleOne_spec {refs : Name → Nat} {s : Sampling} (h : Pinned refs s) (f : IdleCand) :
    (sampleOne s f).cands = (consider idleOlder idleSampleCap s.cands f).1 ∧
      Pinned refs (sampleOne s f) := by
  have hcount := fun rel : Name => @Select.consider_count IdleCand idleOlder
    (fun g : IdleCand => g.rel = rel) idleSampleCap s.cands f
  have hone : ∀ rel (g : IdleCand), [g].countP (fun g : IdleCand => decide (g.rel = rel)) =
      if g.rel = rel then 1 else 0 := by
    intro rel g
    by_cases hg : g.rel = rel <;> simp [hg]
  have hfetch : (s.fetchAdd f.rel).cands = s.cands := rfl
  unfold sampleOne considerIdle
  rw [hfetch]
  cases hnew : consider idleOlder idleSampleCap s.cands f with
  | mk cands what =>
    rw [hnew] at hcount
    cases what with
    | added =>
      refine ⟨rfl, fun rel => ?_⟩
      have hc : cands.countP (fun g => decide (g.rel = rel)) =
          s.cands.countP (fun g => decide (g.rel = rel)) + if f.rel = rel then 1 else 0 := by
        rw [← hone]
        exact hcount rel
      have hrefs : ((s.fetchAdd f.rel).refs rel) = s.refs rel + if f.rel = rel then 1 else 0 :=
        fetchAdd_refs s f.rel rel
      have hr := h rel
      change (s.fetchAdd f.rel).refs rel = refs rel + cands.countP _
      omega
    | replaced evicted =>
      refine ⟨rfl, fun rel => ?_⟩
      have hc : cands.countP (fun g => decide (g.rel = rel)) +
            (if evicted.rel = rel then 1 else 0) =
          s.cands.countP (fun g => decide (g.rel = rel)) + if f.rel = rel then 1 else 0 := by
        rw [← hone, ← hone]
        exact hcount rel
      have hrefs := fetchAdd_refs s f.rel rel
      have hback : ({ s.fetchAdd f.rel with cands }.fetchSub evicted.rel).refs rel =
          (s.fetchAdd f.rel).refs rel - if evicted.rel = rel then 1 else 0 := fetchSub_refs ..
      have hr := h rel
      change ({ s.fetchAdd f.rel with cands }.fetchSub evicted.rel).refs rel =
        refs rel + cands.countP _
      omega
    | refused =>
      have hsame : cands = s.cands := hcount f.rel
      refine ⟨hsame.symm, fun rel => ?_⟩
      have hrefs := fetchAdd_refs s f.rel rel
      have hback := fetchSub_refs (s.fetchAdd f.rel) f.rel rel
      have hr := h rel
      change ((s.fetchAdd f.rel).fetchSub f.rel).refs rel = refs rel + s.cands.countP _
      omega

/-- The first phase, as the sample of the idle entries. -/
theorem sampleIdle_spec {nowSec : Int} {refs : Name → Nat} (files : List IdleCand) (s : Sampling)
    (h : Pinned refs s) :
    (sampleIdle nowSec files s).cands =
        (files.filter (isIdle nowSec)).foldl
          (fun l f => (consider idleOlder idleSampleCap l f).1) s.cands ∧
      Pinned refs (sampleIdle nowSec files s) := by
  induction files generalizing s with
  | nil => exact ⟨rfl, h⟩
  | cons f files ih =>
    rw [sampleIdle]
    by_cases hrecent : satSubI64 nowSec f.at_ < recencySecs
    · rw [if_pos hrecent, List.filter_cons_of_neg (by simp [isIdle, hrecent])]
      exact ih s h
    · obtain ⟨hcands, hpinned⟩ := sampleOne_spec h f
      obtain ⟨hrest, hrefs⟩ := ih (sampleOne s f) hpinned
      rw [if_neg hrecent, List.filter_cons_of_pos (by simp [isIdle, hrecent]), List.foldl_cons,
        ← hcands, ← hrest]
      have hstep : (match considerIdle (s.fetchAdd f.rel) f with
          | (s, true) => sampleIdle nowSec files s
          | (s, false) => sampleIdle nowSec files (s.fetchSub f.rel)) =
          sampleIdle nowSec files (sampleOne s f) := by
        unfold sampleOne
        cases considerIdle (s.fetchAdd f.rel) f with
        | mk s' took => cases took <;> rfl
      rw [hstep]
      exact ⟨rfl, hrefs⟩

/-- **The sampled entries** are the longest idle, sorted. -/
theorem sampleIdle_lowest (nowSec : Int) (files : List IdleCand) (refs : Name → Nat) :
    Lowest IdleLt IdleCand.key idleSampleCap (files.filter (isIdle nowSec))
      (sampleIdle nowSec files { refs }).cands := by
  have hstart : Pinned refs { refs } := fun rel => rfl
  rw [(sampleIdle_spec files { refs } hstart).1]
  exact Select.sampleOf_lowest strictTotal_idle idleOlder_iff _ _

/-- **One reference more on each sampled entry**, and on no other. -/
theorem sampleIdle_refs (nowSec : Int) {files : List IdleCand}
    (hnames : (files.map IdleCand.rel).Nodup) (refs : Name → Nat) (rel : Name) :
    (sampleIdle nowSec files { refs }).refs rel =
      refs rel + if ∃ f ∈ (sampleIdle nowSec files { refs }).cands, f.rel = rel then 1 else 0 := by
  have hstart : Pinned refs { refs } := fun rel => rfl
  have hpinned := (@sampleIdle_spec nowSec refs files { refs } hstart).2
  obtain ⟨out, hperm, -⟩ := (sampleIdle_lowest nowSec files refs).others
  generalize (sampleIdle nowSec files { refs }) = s at *
  have hnodup : (s.cands.map IdleCand.rel).Nodup := by
    have hall : ((files.filter (isIdle nowSec)).map IdleCand.rel).Nodup :=
      hnames.sublist (List.filter_sublist.map _)
    have hboth := ((hperm.map IdleCand.rel).nodup_iff).mp hall
    rw [List.map_append] at hboth
    exact (List.nodup_append.mp hboth).1
  have hcount : s.cands.countP (fun f => decide (f.rel = rel)) =
      (s.cands.map IdleCand.rel).count rel := by
    rw [List.count, List.countP_map]
    refine List.countP_congr fun f _ => ?_
    simp
  rw [hpinned rel, hcount]
  split
  · next hmem =>
    obtain ⟨f, hf, rfl⟩ := hmem
    rw [List.count_eq_one_of_mem hnodup (List.mem_map_of_mem hf)]
  · next hno =>
    rw [List.count_eq_zero_of_not_mem]
    intro hmem
    obtain ⟨f, hf, hrel⟩ := List.mem_map.mp hmem
    exact hno ⟨f, hf, hrel⟩

/-! ## The walk -/

/-- What victims are ordered by. -/
def DiskVictim.key (v : DiskVictim) : Int × Nat × Name := (v.at_, v.rel.length, v.rel)

/-- Older; or of the same age and shorter; or as long and before it in bytes. -/
def VictimLt (a b : Int × Nat × Name) : Prop :=
  a.1 < b.1 ∨ a.1 = b.1 ∧ (a.2.1 < b.2.1 ∨ a.2.1 = b.2.1 ∧ a.2.2 < b.2.2)

theorem strictTotal_victim : StrictTotal VictimLt :=
  StrictTotal.of_lt.lex (StrictTotal.of_lt.lex Catalog.strictTotal_bytes)

theorem victimOlder_iff (a b : DiskVictim) : victimOlder a b = true ↔ VictimLt a.key b.key := by
  unfold victimOlder VictimLt DiskVictim.key
  by_cases hat : a.at_ = b.at_
  · by_cases hlen : a.rel.length = b.rel.length
    · simp [hat, hlen]
    · simp [hat, hlen]
  · simp [hat]

theorem DiskVictim.key_injective : Function.Injective DiskVictim.key := by
  rintro ⟨rel, at_⟩ ⟨rel', at_'⟩ h
  simp only [DiskVictim.key, Prod.mk.injEq] at h
  rw [h.1, h.2.2]

/-- A file the prefilter passes over is one the sample refuses. -/
theorem considerVictim_of_prefilter {victims : List DiskVictim} {v : DiskVictim}
    (h : prefilter victims v = true) : considerVictim victims v = victims := by
  unfold prefilter at h
  rw [Bool.and_eq_true, decide_eq_true_eq] at h
  unfold considerVictim
  rcases @Select.consider_cases DiskVictim victimOlder walkSampleCap victims v with
    ⟨hroom, -⟩ | ⟨-, hnew, -⟩ | ⟨init, last, -, rfl, hless, -⟩
  · omega
  · rw [hnew]
  · rw [List.getLast?_concat] at h
    simp [hless] at h

section Walk

variable (env : WalkEnv)

/-- The names of a directory and below that can be victims, in the order of the walk; `below` is
those of a directory in it. -/
def eligibleName (below : Name → Name → List (Name × DataNode) → List DiskVictim)
    (dirPath rel : Name) (child : Name × DataNode) : List DiskVictim :=
  let name := child.1
  if name = [] ∨ name = dot ∨ name = dotDot then []
  else if ¬ relOk name then []
  else
    match joinZ pathMax dirPath name with
    | none => []
    | some cp =>
      match if rel = [] then toZ name else joinZ pathMax rel name with
      | none => []
      | some nrel =>
        match child.2 with
        | .dir children => below cp nrel children
        | .other => []
        | .reg blocks mtimeSec =>
          if blocks = 0 ∨ env.pinExists nrel ∨ env.inMem nrel then [] else [⟨nrel, mtimeSec⟩]

/-- The files a walk can take: they have blocks, no pin and no entry. -/
def eligible : Nat → Name → Name → List (Name × DataNode) → List DiskVictim
  | 0, _, _, _ => []
  | levels + 1, dirPath, rel, children =>
    match toZ dirPath with
    | none => []
    | some dz => children.flatMap (eligibleName env (eligible levels) dz rel)

variable {env}

/-- What a walk may pass over without a difference. -/
def Harmless (skip : List DiskVictim → DiskVictim → Bool) : Prop :=
  ∀ victims v, skip victims v = true → considerVictim victims v = victims

theorem visitName_eq {skip : List DiskVictim → DiskVictim → Bool} (hskip : Harmless skip)
    {walkDir : Name → Name → List (Name × DataNode) → List DiskVictim → List DiskVictim}
    {below : Name → Name → List (Name × DataNode) → List DiskVictim}
    (hbelow : ∀ dirPath rel children victims, walkDir dirPath rel children victims =
      (below dirPath rel children).foldl considerVictim victims)
    (dirPath rel : Name) (victims : List DiskVictim) (child : Name × DataNode) :
    visitName env skip walkDir dirPath rel victims child =
      (eligibleName env below dirPath rel child).foldl considerVictim victims := by
  unfold visitName eligibleName
  dsimp only
  split
  · rfl
  split
  · rfl
  split
  · rfl
  split
  · rfl
  cases child.2 with
  | dir children => exact hbelow _ _ children victims
  | other => rfl
  | reg blocks mtimeSec =>
    dsimp only
    by_cases hblocks : blocks = 0
    · rw [if_pos hblocks, if_pos (Or.inl hblocks)]
      rfl
    rw [if_neg hblocks]
    next nrel _ =>
    by_cases hpin : env.pinExists nrel = true
    · rw [if_pos hpin, ite_self, if_pos (Or.inr (Or.inl hpin))]
      rfl
    by_cases hmem : env.inMem nrel = true
    · rw [if_neg hpin, if_pos hmem, ite_self, if_pos (Or.inr (Or.inr hmem))]
      rfl
    have htaken : ¬ (blocks = 0 ∨ env.pinExists nrel = true ∨ env.inMem nrel = true) :=
      not_or.mpr ⟨hblocks, not_or.mpr ⟨hpin, hmem⟩⟩
    rw [if_neg hpin, if_neg hmem, if_neg htaken]
    split
    · next hskipped => exact (hskip _ _ hskipped).symm
    · rfl

/-- **The walk shows the sample every file it can take**, in its order. -/
theorem walkLevels_eq {skip : List DiskVictim → DiskVictim → Bool} (hskip : Harmless skip)
    (levels : Nat) (dirPath rel : Name) (children : List (Name × DataNode))
    (victims : List DiskVictim) :
    walkLevels env skip levels dirPath rel children victims =
      (eligible env levels dirPath rel children).foldl considerVictim victims := by
  induction levels generalizing dirPath rel children victims with
  | zero => rfl
  | succ levels ih =>
    rw [walkLevels, eligible]
    cases toZ dirPath with
    | none => rfl
    | some dz =>
      dsimp only
      induction children generalizing victims with
      | nil => rfl
      | cons child children ihc =>
        rw [List.foldl_cons, List.flatMap_cons, List.foldl_append, ihc,
          visitName_eq hskip fun dirPath rel children victims => ih dirPath rel children victims]

theorem walkData_eq (root : Name) (children : List (Name × DataNode)) :
    walkData env root children =
      sampleOf victimOlder walkSampleCap (eligible env walkMaxDepth root [] children) :=
  walkLevels_eq (fun _ _ => considerVictim_of_prefilter) ..

/-- **The sampled victims** are the oldest there are, sorted. -/
theorem walkData_lowest (root : Name) (children : List (Name × DataNode)) :
    Lowest VictimLt DiskVictim.key walkSampleCap (eligible env walkMaxDepth root [] children)
      (walkData env root children) := by
  rw [walkData_eq]
  exact Select.sampleOf_lowest strictTotal_victim victimOlder_iff _ _

end Walk

/-- **Both samples.** The entries sampled are the 32 lowest by last access and name of those that
are idle, sorted, each with one reference more and no other entry with any; the victims are the 8
lowest of the files the walk can take, and the same without the prefilter. Neither depends on the
order in which entries or files are visited. -/
theorem samples_lowest :
    (∀ (nowSec : Int) (files : List IdleCand) (refs : Name → Nat),
      (files.map IdleCand.rel).Nodup →
      Lowest IdleLt IdleCand.key idleSampleCap (files.filter (isIdle nowSec))
        (sampleIdle nowSec files { refs }).cands ∧
      (∀ rel, (sampleIdle nowSec files { refs }).refs rel = refs rel +
        if ∃ f ∈ (sampleIdle nowSec files { refs }).cands, f.rel = rel then 1 else 0) ∧
      ∀ files', files'.Perm files → (sampleIdle nowSec files' { refs }).cands =
        (sampleIdle nowSec files { refs }).cands) ∧
    ∀ (env : WalkEnv) (root : Name) (children : List (Name × DataNode)),
      Lowest VictimLt DiskVictim.key walkSampleCap (eligible env walkMaxDepth root [] children)
        (walkData env root children) ∧
      walkData env root children =
        walkLevels env (fun _ _ => false) walkMaxDepth root [] children [] ∧
      ∀ children', (eligible env walkMaxDepth root [] children').Perm
          (eligible env walkMaxDepth root [] children) →
        walkData env root children' = walkData env root children := by
  refine ⟨fun nowSec files refs hnames => ⟨sampleIdle_lowest nowSec files refs,
    sampleIdle_refs nowSec hnames refs, fun files' hperm => ?_⟩,
    fun env root children => ⟨walkData_lowest root children, ?_, fun children' hperm => ?_⟩⟩
  · exact (sampleIdle_lowest nowSec files' refs).unique strictTotal_idle IdleCand.key_injective
      (sampleIdle_lowest nowSec files refs) (hperm.filter _)
  · have hnone : Harmless fun _ _ => false := fun _ _ h => nomatch h
    rw [walkData_eq, walkLevels_eq hnone]
    rfl
  · exact (walkData_lowest root children').unique strictTotal_victim DiskVictim.key_injective
      (walkData_lowest root children) hperm

end Cull

end ModelFs
