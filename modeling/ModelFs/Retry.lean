import ModelFs.Lib.NameCalls
import ModelFs.Paths

/-!
# Namespace operations that are retried

`unlinkOrigin`, `renameOrigin`, `mkdirOrigin` and `rmdirOrigin` pass a call on to the origin and
take some of its errors for the trace of an earlier call whose reply was lost. What they do to the
cache beside it is in `ModelFs.MountCache`; here is what they answer, and the origin's tree.

* `unlink_tolerant`, `mkdir_tolerant`, `rmdir_tolerant` — **a repeated call changes nothing**.
* `renameOrigin_unchanged` — what a rename that answers zero and changes nothing has found.
* `settled_of_plain` — it has, after a rename by directories only that leaves no whiteout.
* `tolerant_iff` — **when a retry is told from a first call**.
* `rename_of_nothing` — a name that never was is moved, says the answer.
-/

namespace ModelFs

namespace Retry

open Inodes (slash pathMax)
open NameTree (Errno Path Host has validFlags renameExchange renameNoReplace renameWhiteout)

abbrev OriginTree := NameTree.Tree (List UInt8)

/-! ## Paths -/

def partOf (seg : List UInt8) : NameTree.Part (List UInt8) :=
  if seg = dot then .self else if seg = dotDot then .up else .name seg

/-- A path as the kernel takes it apart. -/
def pathOf (path : List UInt8) : Path (List UInt8) :=
  let absolute := path.head? = some slash
  let parts := ((path.splitOn slash).filter (· ≠ [])).map partOf
  match parts.getLast? with
  | some (.name c) => ⟨absolute, parts.dropLast, some c⟩
  | _ => ⟨absolute, parts, none⟩

/-! ## The operations

A code of zero is `none`. -/

section Operations

variable (host : Host (List UInt8)) (roots : Roots) (t : OriginTree)

def unlinkOrigin (rel : List UInt8) : Option Errno × OriginTree :=
  match originPath roots pathMax rel with
  | none => (some .nametoolong, t)
  | some op =>
    match t.unlink host (pathOf op) with
    | .ok t' => (none, t')
    | .error rc => if rc = .noent then (none, t) else (some rc, t)

/-- `sys.lstatPath`, and that it is no directory. -/
def isOther (path : List UInt8) : Bool :=
  match t.find host (pathOf path) with
  | .ok i => !t.isDir i
  | .error _ => false

def renameOrigin (orel nrel : List UInt8) (flags : UInt32) : Option Errno × OriginTree :=
  match originPath roots pathMax orel with
  | none => (some .nametoolong, t)
  | some oa =>
    match originPath roots pathMax nrel with
    | none => (some .nametoolong, t)
    | some ob =>
      match t.renameat2 host (pathOf oa) (pathOf ob) flags with
      | .ok t' => (none, t')
      | .error e =>
        if orel ≠ nrel ∧ e = .noent ∧ isOther host t ob = true then (none, t) else (some e, t)

def mkdirOrigin (rel : List UInt8) (mode : Nat) : Option Errno × OriginTree :=
  match originPath roots pathMax rel with
  | none => (some .nametoolong, t)
  | some op =>
    match t.mkdir host (pathOf op) mode with
    | .ok t' => (none, t')
    | .error rc =>
      if rc ≠ .exist then (some rc, t)
      else
        match t.find host (pathOf op) with
        | .error _ => (some rc, t)
        | .ok i => if t.isDir i then (none, t) else (some rc, t)

def rmdirOrigin (rel : List UInt8) : Option Errno × OriginTree :=
  if rel = [] then (some .busy, t)
  else
    match originPath roots pathMax rel with
    | none => (some .nametoolong, t)
    | some op =>
      match t.rmdir host (pathOf op) with
      | .ok t' => (none, t')
      | .error rc => if rc = .noent then (none, t) else (some rc, t)

end Operations

/-- One call of an operation. -/
inductive Call where
  | unlink (rel : List UInt8)
  | rename (orel nrel : List UInt8) (flags : UInt32)
  | mkdir (rel : List UInt8) (mode : Nat)
  | rmdir (rel : List UInt8)
  deriving DecidableEq

section Calls

variable (host : Host (List UInt8)) (roots : Roots) (t : OriginTree)

def Call.run : Call → Option Errno × OriginTree
  | .unlink rel => unlinkOrigin host roots t rel
  | .rename orel nrel flags => renameOrigin host roots t orel nrel flags
  | .mkdir rel mode => mkdirOrigin host roots t rel mode
  | .rmdir rel => rmdirOrigin host roots t rel

/-- The file of a name. -/
def fileOf (rel : List UInt8) : Except Errno Nat :=
  match originPath roots pathMax rel with
  | none => .error .nametoolong
  | some path => t.find host (pathOf path)

/-- The origin's own call made `t'` of the tree. -/
def Call.Succeeds (t' : OriginTree) : Call → Prop
  | .unlink rel => ∃ op, originPath roots pathMax rel = some op ∧
      t.unlink host (pathOf op) = .ok t'
  | .rename orel nrel flags => ∃ oa ob, originPath roots pathMax orel = some oa ∧
      originPath roots pathMax nrel = some ob ∧
      t.renameat2 host (pathOf oa) (pathOf ob) flags = .ok t'
  | .mkdir rel mode => ∃ op, originPath roots pathMax rel = some op ∧
      t.mkdir host (pathOf op) mode = .ok t'
  | .rmdir rel => rel ≠ [] ∧ ∃ op, originPath roots pathMax rel = some op ∧
      t.rmdir host (pathOf op) = .ok t'

/-! ## What a retry is to find -/

/-- The calls that may be made twice: all but the swaps, the renames of a name to itself, and those
of a directory. -/
def Call.Repeatable : Call → Prop
  | .rename orel nrel flags => orel ≠ nrel ∧ has flags renameExchange = false ∧
      ∃ i, fileOf host roots t orel = .ok i ∧ t.isDir i = false
  | _ => True

/-- The file of the old name in `t` has the new name's entry in `t'`. -/
def Moves (t' : OriginTree) (orel nrel : List UInt8) : Prop :=
  ∃ oa ob d c e b i, originPath roots pathMax orel = some oa ∧
    originPath roots pathMax nrel = some ob ∧ t.parentAt host (pathOf oa) = .ok d ∧
    (pathOf oa).last = some c ∧ t.look host d (.name c) = .ok i ∧
    t.parentAt host (pathOf ob) = .ok e ∧ (pathOf ob).last = some b ∧
    t'.look host e (.name b) = .ok i

/-- A call that succeeded may be repeated, and a rename that answers zero has moved the file, or has
moved it before: `earlier` are the renames that did. -/
structure Tolerant (earlier : List Call) (call : Call) : Prop where
  again : call.Repeatable host roots t → ∀ t', call.Succeeds host roots t t' →
    call.run host roots t' = (none, t')
  honest : ∀ orel nrel flags, call = .rename orel nrel flags →
    (call.run host roots t).1 = none →
      Moves host roots t (call.run host roots t).2 orel nrel ∨ call ∈ earlier

/-- The old name is missing, the new one is there and no directory, and no such rename has been
made. -/
def Misread (earlier : List Call) (orel nrel : List UInt8) (flags : UInt32) : Prop :=
  orel ≠ nrel ∧ validFlags flags = true ∧ fileOf host roots t orel = .error .noent ∧
    (∃ i, fileOf host roots t nrel = .ok i ∧ t.isDir i = false) ∧
    .rename orel nrel flags ∉ earlier

/-- The old name is missing and the new one is there, or both are names of one file. -/
def Settled (orel nrel : List UInt8) (flags : UInt32) : Prop :=
  (fileOf host roots t orel = .error .noent ∧
      ∃ i, fileOf host roots t nrel = .ok i ∧ t.isDir i = false) ∨
    has flags renameNoReplace = false ∧
      ∃ i, fileOf host roots t orel = .ok i ∧ fileOf host roots t nrel = .ok i

end Calls

variable {host : Host (List UInt8)} {roots : Roots} {t t' : OriginTree}

theorem unlink_tolerant {rel : List UInt8} (h : (Call.unlink rel).Succeeds host roots t t') :
    unlinkOrigin host roots t' rel = (none, t') := by
  obtain ⟨op, hop, hcall⟩ := h
  unfold unlinkOrigin
  rw [hop]
  dsimp only
  rw [NameTree.Tree.unlink_again hcall]
  rfl

theorem rmdir_tolerant {rel : List UInt8} (h : (Call.rmdir rel).Succeeds host roots t t') :
    rmdirOrigin host roots t' rel = (none, t') := by
  obtain ⟨hne, op, hop, hcall⟩ := h
  unfold rmdirOrigin
  rw [if_neg hne, hop]
  dsimp only
  rw [NameTree.Tree.rmdir_again hcall]
  rfl

theorem mkdir_tolerant {rel : List UInt8} {mode : Nat}
    (h : (Call.mkdir rel mode).Succeeds host roots t t') :
    mkdirOrigin host roots t' rel mode = (none, t') := by
  obtain ⟨op, hop, hcall⟩ := h
  obtain ⟨hexist, i, hfind, hdir⟩ := NameTree.Tree.mkdir_again hcall
  unfold mkdirOrigin
  rw [hop]
  dsimp only
  rw [hexist]
  dsimp only
  rw [if_neg (fun hne => hne rfl), hfind]
  exact if_pos hdir

/-! ## Renames -/

variable {orel nrel oa ob : List UInt8} {flags : UInt32}

theorem fileOf_eq {rel path : List UInt8} (h : originPath roots pathMax rel = some path) :
    fileOf host roots t rel = t.find host (pathOf path) := by
  unfold fileOf
  rw [h]

theorem path_of_fileOf {rel : List UInt8} {i : Nat} (h : fileOf host roots t rel = .ok i) :
    ∃ path, originPath roots pathMax rel = some path := by
  unfold fileOf at h
  split at h
  · cases h
  · exact ⟨_, ‹_›⟩

theorem path_of_missing {rel : List UInt8} (h : fileOf host roots t rel = .error .noent) :
    ∃ path, originPath roots pathMax rel = some path := by
  unfold fileOf at h
  split at h
  · cases h
  · exact ⟨_, ‹_›⟩

theorem isOther_iff (hb : originPath roots pathMax nrel = some ob) :
    isOther host t ob = true ↔ ∃ i, fileOf host roots t nrel = .ok i ∧ t.isDir i = false := by
  rw [fileOf_eq hb]
  unfold isOther
  cases t.find host (pathOf ob) with
  | error rc => simp
  | ok i => simp

/-- A rename that has nothing to do. -/
theorem renameOrigin_eq (ha : originPath roots pathMax orel = some oa)
    (hb : originPath roots pathMax nrel = some ob) :
    renameOrigin host roots t orel nrel flags =
      match t.renameat2 host (pathOf oa) (pathOf ob) flags with
      | .ok t' => (none, t')
      | .error e =>
        if orel ≠ nrel ∧ e = .noent ∧ isOther host t ob = true then (none, t) else (some e, t) := by
  unfold renameOrigin
  rw [ha]
  dsimp only
  rw [hb]

/-- What a missing old name in front of a new one comes to. -/
theorem renameat2_noent_iff (ha : originPath roots pathMax orel = some oa)
    (hb : originPath roots pathMax nrel = some ob) :
    t.renameat2 host (pathOf oa) (pathOf ob) flags = .error .noent ∧ isOther host t ob = true ↔
      validFlags flags = true ∧ fileOf host roots t orel = .error .noent ∧
        ∃ i, fileOf host roots t nrel = .ok i ∧ t.isDir i = false := by
  rw [isOther_iff hb, fileOf_eq ha, fileOf_eq hb]
  constructor
  · rintro ⟨hnoent, i, hi, hdir⟩
    obtain ⟨hvalid, hmissing⟩ := NameTree.Tree.find_of_renameat2 hnoent hi hdir
    exact ⟨hvalid, hmissing, i, hi, hdir⟩
  · rintro ⟨hvalid, hmissing, i, hi, hdir⟩
    obtain ⟨b, hlast⟩ := Option.isSome_iff_exists.mp (NameTree.Tree.last_of_not_dir hi hdir)
    exact ⟨NameTree.Tree.renameat2_missing hvalid hlast hmissing hi, i, hi, hdir⟩

/-- **Zero, and no change**: what the rename has found. -/
theorem renameOrigin_unchanged (hne : orel ≠ nrel) (hvalid : validFlags flags = true)
    (ha : originPath roots pathMax orel = some oa) (hb : originPath roots pathMax nrel = some ob)
    (hla : (pathOf oa).last.isSome = true) (hlb : (pathOf ob).last.isSome = true) :
    renameOrigin host roots t orel nrel flags = (none, t) ↔
      Settled host roots t orel nrel flags := by
  have hnoent := @renameat2_noent_iff host roots t orel nrel oa ob flags ha hb
  rw [renameOrigin_eq ha hb, Settled]
  constructor
  · intro h
    cases hcall : t.renameat2 host (pathOf oa) (pathOf ob) flags with
    | ok u =>
      rw [hcall] at h
      obtain rfl := (Prod.mk.inj h).2
      obtain ⟨k, hp, hq, hno⟩ := NameTree.Tree.renameat2_unchanged hcall
      rw [fileOf_eq ha, fileOf_eq hb]
      exact Or.inr ⟨hno, k, hp, hq⟩
    | error e =>
      rw [hcall] at h
      dsimp only at h
      split_ifs at h with hmiss
      · obtain ⟨-, rfl, hother⟩ := hmiss
        exact Or.inl (hnoent.mp ⟨hcall, hother⟩).2
      · cases (Prod.mk.inj h).1
  · rintro (hmissing | ⟨hno, k, hp, hq⟩)
    · obtain ⟨hcall, hother⟩ := hnoent.mpr ⟨hvalid, hmissing⟩
      rw [hcall]
      exact if_pos ⟨hne, rfl, hother⟩
    · obtain ⟨c, hc⟩ := Option.isSome_iff_exists.mp hla
      obtain ⟨b, hb'⟩ := Option.isSome_iff_exists.mp hlb
      rw [fileOf_eq ha] at hp
      rw [fileOf_eq hb] at hq
      rw [NameTree.Tree.renameat2_same hvalid hc hb' hp hq hno]

/-- What a rename that succeeded has moved. -/
theorem moves_of_succeeds (h : (Call.rename orel nrel flags).Succeeds host roots t t') :
    Moves host roots t t' orel nrel := by
  obtain ⟨oa, ob, ha, hb, hcall⟩ := h
  obtain ⟨-, d, c, e, b, hd, hc, he, hb', hentry⟩ := NameTree.Tree.renameat2_eq_ok hcall
  obtain ⟨i, hren⟩ := NameTree.Tree.renameEntry_eq_ok hentry
  exact ⟨oa, ob, d, c, e, b, i, ha, hb, hd, hc, hren.oldFile, he, hb', hren.lands⟩

/-- **Zero**: the origin's rename, or what is taken for its trace. -/
theorem renameOrigin_zero (h : (renameOrigin host roots t orel nrel flags).1 = none) :
    (∃ t', (Call.rename orel nrel flags).Succeeds host roots t t' ∧
      renameOrigin host roots t orel nrel flags = (none, t')) ∨
    orel ≠ nrel ∧ validFlags flags = true ∧ fileOf host roots t orel = .error .noent ∧
      ∃ i, fileOf host roots t nrel = .ok i ∧ t.isDir i = false := by
  cases ha : originPath roots pathMax orel with
  | none => simp [renameOrigin, ha] at h
  | some oa =>
    cases hb : originPath roots pathMax nrel with
    | none => simp [renameOrigin, ha, hb] at h
    | some ob =>
      have heq := @renameOrigin_eq host roots t orel nrel oa ob flags ha hb
      cases hcall : t.renameat2 host (pathOf oa) (pathOf ob) flags with
      | ok t' =>
        rw [hcall] at heq
        exact Or.inl ⟨t', ⟨oa, ob, ha, hb, hcall⟩, heq⟩
      | error e =>
        rw [hcall] at heq
        rw [heq] at h
        dsimp only at h
        split_ifs at h with hmiss
        obtain ⟨hne, rfl, hother⟩ := hmiss
        exact Or.inr ⟨hne, (renameat2_noent_iff ha hb).mp ⟨hcall, hother⟩⟩

/-- What is not there is not moved. -/
theorem not_moves_of_missing (h : fileOf host roots t orel = .error .noent) :
    ¬ Moves host roots t t' orel nrel := by
  rintro ⟨oa, ob, d, c, e, b, i, ha, -, hd, hc, hi, -⟩
  rw [fileOf_eq ha, NameTree.Tree.find_eq hd hc hi] at h
  cases h

/-- **After a rename by directories only** that leaves no whiteout, the retry finds its trace. -/
theorem settled_of_plain (ha : originPath roots pathMax orel = some oa)
    (hb : originPath roots pathMax nrel = some ob) (hplain : t.Plain host (pathOf oa))
    (hplain' : t.Plain host (pathOf ob)) (hwhite : has flags renameWhiteout = false)
    (hrep : (Call.rename orel nrel flags).Repeatable host roots t)
    (h : t.renameat2 host (pathOf oa) (pathOf ob) flags = .ok t') :
    Settled host roots t' orel nrel flags := by
  obtain ⟨-, hswap, i, hi, hfile⟩ := hrep
  rw [fileOf_eq ha] at hi
  rw [Settled, fileOf_eq ha, fileOf_eq hb]
  by_cases hsame : t.find host (pathOf ob) = .ok i
  · -- two names of one file stay as they are
    obtain ⟨-, d, c, e, b, hd, hc, he, hb', hentry⟩ := NameTree.Tree.renameat2_eq_ok h
    obtain ⟨k, hren⟩ := NameTree.Tree.renameEntry_eq_ok hentry
    obtain ⟨e', he', hj⟩ := NameTree.Tree.find_name hb' hsame
    obtain rfl := Except.ok.inj (he'.symm.trans he)
    obtain rfl : k = i := Except.ok.inj ((NameTree.Tree.find_eq hd hc hren.oldFile).symm.trans hi)
    have hno : has flags renameNoReplace = false := by
      by_contra hyes
      have hfresh := hren.fresh (Bool.not_eq_false _ ▸ hyes)
      rw [hj] at hfresh
      cases hfresh
    have hsame' : t' = t := by
      rcases hren.result with ⟨-, hsame'⟩ | ⟨hother, -⟩
      · exact hsame'
      · exact absurd hj hother
    rw [hsame']
    exact Or.inr ⟨hno, k, hi, hsame⟩
  · obtain ⟨hmissing, hnew, hkind⟩ :=
      NameTree.Tree.find_moved h hplain hplain' hi hfile hsame hswap hwhite
    exact Or.inl ⟨hmissing, i, hnew, hkind⟩

/-- **When a retry is told from a first call**: always, except for a rename that finds its old name
missing and something else under the new one, and for one that leaves its own old name, or another
file, in the way of a retry. -/
theorem tolerant_iff (host : Host (List UInt8)) (roots : Roots) (t : OriginTree)
    (earlier : List Call) (call : Call) :
    Tolerant host roots t earlier call ↔
      ∀ orel nrel flags, call = .rename orel nrel flags →
        ¬ Misread host roots t earlier orel nrel flags ∧
        (call.Repeatable host roots t → ∀ t', call.Succeeds host roots t t' →
          Settled host roots t' orel nrel flags) := by
  constructor
  · rintro ⟨hagain, hhonest⟩ orel nrel flags rfl
    refine ⟨?_, fun hrep t' hcall => ?_⟩
    · rintro ⟨hne, hvalid, hmissing, hnew, hfirst⟩
      obtain ⟨oa, ha⟩ := path_of_missing hmissing
      obtain ⟨ob, hb⟩ := path_of_fileOf hnew.choose_spec.1
      obtain ⟨hcall, hother⟩ := (renameat2_noent_iff ha hb).mpr ⟨hvalid, hmissing, hnew⟩
      have hrun : renameOrigin host roots t orel nrel flags = (none, t) := by
        rw [renameOrigin_eq ha hb, hcall]
        exact if_pos ⟨hne, rfl, hother⟩
      rcases hhonest orel nrel flags rfl (congrArg Prod.fst hrun) with hmoved | hbefore
      · exact not_moves_of_missing hmissing hmoved
      · exact hfirst hbefore
    · obtain ⟨oa, ob, ha, hb, hcall'⟩ := hcall
      obtain ⟨hvalid, d, c, e, b, -, hc, -, hb', -⟩ := NameTree.Tree.renameat2_eq_ok hcall'
      exact (renameOrigin_unchanged hrep.1 hvalid ha hb (by rw [hc]; rfl) (by rw [hb']; rfl)).mp
        (hagain hrep t' ⟨oa, ob, ha, hb, hcall'⟩)
  · intro hcond
    refine ⟨fun hrep t' hcall => ?_, ?_⟩
    · cases call with
      | unlink rel => exact unlink_tolerant hcall
      | mkdir rel mode => exact mkdir_tolerant hcall
      | rmdir rel => exact rmdir_tolerant hcall
      | rename orel nrel flags =>
        obtain ⟨oa, ob, ha, hb, hcall'⟩ := id hcall
        obtain ⟨hvalid, d, c, e, b, -, hc, -, hb', -⟩ := NameTree.Tree.renameat2_eq_ok hcall'
        exact (renameOrigin_unchanged hrep.1 hvalid ha hb (by rw [hc]; rfl)
          (by rw [hb']; rfl)).mpr ((hcond orel nrel flags rfl).2 hrep t' hcall)
    · rintro orel nrel flags rfl hzero
      rcases renameOrigin_zero hzero with ⟨t', hcall, hrun⟩ | ⟨hne, hvalid, hmissing, hnew⟩
      · refine Or.inl ?_
        rw [Call.run, hrun]
        exact moves_of_succeeds hcall
      · refine Or.inr ?_
        by_contra hfirst
        exact (hcond orel nrel flags rfl).1 ⟨hne, hvalid, hmissing, hnew, hfirst⟩

/-! ## A name that never was -/

/-- A root directory `/o` with one file `n` in it. -/
def oneName : OriginTree where
  root := 0
  cwd := 0
  nodes := fun i =>
    if i = 0 then .dir 0o755 0 (AList.singleton (ascii "o") 1)
    else if i = 1 then .dir 0o755 0 (AList.singleton (ascii "n") 2)
    else .file
  next := 3
  unused := fun i hi => by
    rw [if_neg (by omega), if_neg (by omega)]
  rootDir := rfl
  cwdDir := rfl

/-- A host that refuses nothing. -/
def easyHost : Host (List UInt8) := ⟨fun c => 255 < c.length, fun _ => true, fun _ _ => none⟩

/-- **A name that never was is moved, says the answer.** -/
theorem rename_of_nothing :
    ¬ Tolerant easyHost ⟨ascii "/o", ascii "/c"⟩ oneName [] (.rename (ascii "m") (ascii "n") 0) := by
  intro h
  have hmissing : fileOf easyHost ⟨ascii "/o", ascii "/c"⟩ oneName (ascii "m") = .error .noent := by
    decide
  have hzero : (renameOrigin easyHost ⟨ascii "/o", ascii "/c"⟩ oneName (ascii "m") (ascii "n") 0).1 =
      none := by
    decide
  rcases h.honest _ _ _ rfl hzero with hmoved | hbefore
  · exact not_moves_of_missing hmissing hmoved
  · cases hbefore

end Retry

end ModelFs
