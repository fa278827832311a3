import ModelFs.Artifacts
import ModelFs.Lib.Landing
import ModelFs.Retry

/-!
# A model pulled onto the origin

`pull` reads the list of a revision's files and takes one after the other. What is there with its
listed size is left alone; the rest is fetched under its name and `.part`, beside the file, and
takes its name when all of it has landed. The stage names are names of the tree that the list fills,
and nothing keeps the two apart.

The disk has the names of `NameTree` and the bytes of its regular files. It may hold anything
before: files under several names, links, directories in the way. What the endpoint answers for a file and
which calls fail is an `Answer`; std.json is the function `decode`.

* `land_eq_ok` — all that a fetch does to the disk.
* `turn_complete`, `turns_complete` — **what the turns come to** while no fetch touches a file of
  an earlier one.
* `pull_complete` — **when a pull is complete**, and what becomes of a file that is touched.
* `pull_incomplete` — a list of two files of which one has the stage name of the other.
-/

namespace ModelFs

namespace Pull

open Inodes (slash pathMax)
open NameTree (Errno Host Path)
open Retry (OriginTree pathOf)

/-! ## The disk -/

structure Disk where
  tree : OriginTree
  /-- The bytes of a regular file, and `none` for the other kinds. -/
  data : Nat → Option (List UInt8)

namespace Disk

variable (host : Host (List UInt8)) (d : Disk)

/-- The bytes of a file that is a regular one. -/
def regular (i : Nat) : Option (List UInt8) :=
  if i < d.tree.next then
    match (d.tree.nodes i).kind with
    | .file => d.data i
    | _ => none
  else none

/-- `lstat`, of a regular file. -/
def lstat (path : List UInt8) : Option (List UInt8) :=
  match d.tree.find host (pathOf path) with
  | .ok i => d.regular i
  | .error _ => none

def write (i : Nat) (bytes : List UInt8) : Disk :=
  { d with data := Function.update d.data i ((d.data i).map fun _ => bytes) }

/-- A new regular file, as entry `c` of directory `dir`. -/
def create (dir : Nat) (c : List UInt8) : Disk where
  tree := (d.tree.alloc .file).bind dir c (some d.tree.next)
  data := Function.update d.data d.tree.next (some [])

/-- `open` with `O_CREAT`, `O_WRONLY`, `O_TRUNC` and `O_NOFOLLOW`: the file that is open. -/
def openPart (part : Path (List UInt8)) : Option (Nat × Disk) :=
  match d.tree.parentAt host part with
  | .error _ => none
  | .ok dir =>
    match part.last with
    | none => none
    | some c =>
      match d.tree.look host dir (.name c) with
      | .error .noent => some (d.tree.next, d.create dir c)
      | .error _ => none
      | .ok i =>
        match (d.tree.nodes i).kind with
        | .file => some (i, d.write i [])
        | _ => none

/-- An `unlink` whose answer nobody looks at. -/
def unlink (path : List UInt8) : Disk :=
  match d.tree.unlink host (pathOf path) with
  | .ok t => { d with tree := t }
  | .error _ => d

end Disk

/-! ## Directories -/

section Directories

variable (host : Host (List UInt8))

/-- One level of `sys.mkdirAll`. -/
def mkdirLevel (level : List UInt8) (t : OriginTree) : Except Errno OriginTree :=
  match t.mkdir host (pathOf level) 0o755 with
  | .ok t' => .ok t'
  | .error .exist =>
    match t.find host (pathOf level) with
    | .error e => .error e
    | .ok i =>
      match (t.nodes i).kind with
      | .dir => .ok t
      | .link .. => .error .loop
      | .file => .error .notdir
  | .error e => .error e

def mkdirLevels : List (List UInt8) → OriginTree → Option Errno × OriginTree
  | [], t => (none, t)
  | level :: rest, t =>
    match mkdirLevel host level t with
    | .error e => (some e, t)
    | .ok t' => mkdirLevels rest t'

/-- What ends in front of a slash, or at the end. -/
def levels (path : List UInt8) : List (List UInt8) :=
  let start := if path.head? = some slash then 1 else 0
  ((List.range (path.length + 1)).filter fun i =>
    start ≤ i ∧ (i = path.length ∨ path[i]? = some slash)).map path.take

def mkdirAll (path : List UInt8) (t : OriginTree) : Option Errno × OriginTree :=
  if path = [] ∨ pathMax ≤ path.length then (some .nametoolong, t)
  else mkdirLevels host (levels path) t

end Directories

/-- `sys.parentOf`. -/
def parentOf (path : List UInt8) : List UInt8 :=
  let body := path.rdropWhile (· = slash)
  let before := body.rdropWhile (· ≠ slash)
  if path = [] then dot
  else if body = [] then [slash]
  else if before = [] then dot
  else if before.length = 1 then [slash]
  else before.dropLast

/-! ## The listing -/

inductive PullError where
  | listingTooLarge
  | listingFailed
  | listingDenied
  | repoNotFound
  | listingRateLimited
  | badListing
  | badEntryPath
  | emptyRevision
  | nameTooLong
  | makeDirFailed
  | openFailed
  | notRegular
  | downloadFailed
  | downloadDenied
  | downloadRateLimited
  | writeFailed
  | renameFailed
  deriving DecidableEq, Repr

def listingError (status : Nat) : PullError :=
  if status = 401 ∨ status = 403 then .listingDenied
  else if status = 404 then .repoNotFound
  else if status = 429 then .listingRateLimited
  else .listingFailed

def downloadError (status : Nat) : PullError :=
  if status = 401 ∨ status = 403 then .downloadDenied
  else if status = 429 then .downloadRateLimited
  else .downloadFailed

structure TreeItem where
  type : List UInt8
  path : List UInt8
  size : Nat
  deriving DecidableEq

structure Entry where
  path : List UInt8
  size : Nat
  deriving DecidableEq

def joinRel (dest path : List UInt8) : Option (List UInt8) :=
  if dest = [] then if pathMax < path.length then none else some path
  else if pathMax < dest.length + path.length + 1 then none
  else some (dest ++ slash :: path)

def parseItems (dest : List UInt8) : List TreeItem → Except PullError (List Entry)
  | [] => .ok []
  | item :: rest =>
    if item.type ≠ ascii "file" then parseItems dest rest
    else if !relOk item.path then .error .badEntryPath
    else
      match joinRel dest item.path with
      | none => .error .badEntryPath
      | some rel =>
        if !relOk rel || relIsCluster rel then .error .badEntryPath
        else (parseItems dest rest).map (⟨item.path, item.size⟩ :: ·)

def parseTree (dest : List UInt8) : Option (List TreeItem) → Except PullError (List Entry)
  | none => .error .badListing
  | some items => parseItems dest items

/-! ## One file -/

def partialExt : List UInt8 := ascii ".part"

/-- What comes of the download of one file. -/
structure Answer where
  /-- Nothing but the names refuses the `open`. -/
  opens : Bool
  stats : Bool
  blocks : Bool
  /-- The status, or `none` for a transfer that broke. -/
  status : Option Nat
  /-- The bytes that reached the part file. -/
  body : List UInt8
  flushes : Bool
  closes : Bool

section Files

variable (host : Host (List UInt8)) (origin dest : List UInt8)

/-- The directories of `rel`. -/
def makeParent (rel : List UInt8) (d : Disk) : Option PullError × Disk :=
  if parentOf rel = dot then (none, d)
  else
    match joinZ pathMax origin (parentOf rel) with
    | none => (some .nameTooLong, d)
    | some dir =>
      match mkdirAll host dir d.tree with
      | (none, t) => (none, { d with tree := t })
      | (some _, t) => (some .makeDirFailed, { d with tree := t })

/-- From the `open` of the part file on. -/
def land (path : List UInt8) (entry : Entry) (a : Answer) (d : Disk) : Option PullError × Disk :=
  match appendExt pathMax path partialExt with
  | none => (some .nameTooLong, d)
  | some part =>
    if !a.opens then (some .openFailed, d)
    else
      match d.openPart host (pathOf part) with
      | none => (some .openFailed, d)
      | some (fd, d) =>
        let fail := fun (err : PullError) (d : Disk) => (some err, d.unlink host part)
        if !a.stats then fail .openFailed d
        else if d.regular fd = none then fail .notRegular d
        else if !a.blocks then fail .openFailed d
        else
          let d := d.write fd a.body
          match a.status with
          | none => fail .downloadFailed d
          | some status =>
            if status ≠ 200 then fail (downloadError status) d
            else if !a.flushes then fail .writeFailed d
            else if a.body.length ≠ entry.size then fail .downloadFailed d
            else if !a.closes then fail .writeFailed d
            else
              match d.tree.renameat2 host (pathOf part) (pathOf path) 0 with
              | .error _ => fail .renameFailed d
              | .ok t => (none, { d with tree := t })

def fetchOne (rel path : List UInt8) (entry : Entry) (a : Answer) (d : Disk) :
    Option PullError × Disk :=
  match makeParent host origin rel d with
  | (some err, d) => (some err, d)
  | (none, d) => land host path entry a d

/-! ## The pull -/

structure Report where
  pulled : Nat
  skipped : Nat
  bytes : Nat
  deriving DecidableEq

structure Run where
  disk : Disk
  report : Report
  /-- The files fetched and what was served for each, the last one first. -/
  served : List (List UInt8 × List UInt8)

def turn (entry : Entry) (a : Answer) (run : Run) : Option PullError × Run :=
  match joinRel dest entry.path with
  | none => (some .nameTooLong, run)
  | some rel =>
    match joinZ pathMax origin rel with
    | none => (some .nameTooLong, run)
    | some path =>
      if (run.disk.lstat host path).map List.length = some entry.size then
        (none, { run with report := { run.report with skipped := run.report.skipped + 1 } })
      else
        match fetchOne host origin rel path entry a run.disk with
        | (some err, d) => (some err, { run with disk := d })
        | (none, d) =>
          (none, {
            disk := d
            report := { run.report with
              pulled := run.report.pulled + 1
              bytes := run.report.bytes + entry.size }
            served := (entry.path, a.body) :: run.served })

def turns : List (Entry × Answer) → Run → Option PullError × Run
  | [], run => (none, run)
  | (entry, a) :: rest, run =>
    match turn host origin dest entry a run with
    | (some err, run) => (some err, run)
    | (none, run) => turns rest run

/-- How the request for the listing ends. -/
inductive ListingAnswer where
  | tooLarge
  | failed
  | answered (status : Nat) (body : List UInt8)

def start (d : Disk) : Run := ⟨d, ⟨0, 0, 0⟩, []⟩

/-- `serve` answers for the entries by their place in the listing. -/
def pull (decode : List UInt8 → Option (List TreeItem)) (listing : ListingAnswer)
    (serve : Nat → Answer) (d : Disk) : Option PullError × Run :=
  match listing with
  | .tooLarge => (some .listingTooLarge, start d)
  | .failed => (some .listingFailed, start d)
  | .answered status body =>
    if status ≠ 200 then (some (listingError status), start d)
    else
      match parseTree dest (decode body) with
      | .error err => (some err, start d)
      | .ok entries =>
        if entries = [] then (some .emptyRevision, start d)
        else turns host origin dest (entries.mapIdx fun i entry => (entry, serve i)) (start d)

end Files

/-! ## What a pull is to leave -/

section Claims

variable (host : Host (List UInt8)) (origin dest : List UInt8)

/-- Where a listed path is on the origin. -/
def pathIn (p : List UInt8) : Option (List UInt8) :=
  (joinRel dest p).bind (joinZ pathMax origin)

/-- Every listed file is there with its size, what was fetched is what was served, and every entry
was counted. -/
structure Complete (entries : List Entry) (run : Run) : Prop where
  placed : ∀ entry ∈ entries, ∃ path bytes, pathIn origin dest entry.path = some path ∧
    run.disk.lstat host path = some bytes ∧ bytes.length = entry.size
  served : ∀ p bytes, run.served.lookup p = some bytes →
    ∃ path, pathIn origin dest p = some path ∧ run.disk.lstat host path = some bytes
  counted : run.report.pulled + run.report.skipped = entries.length

/-- A fetch of `path` does not touch the file that `other` finds: the stage name is not one of its
names, and `other` does not lead through the name that is replaced. -/
structure Spares (d : Disk) (path part other : List UInt8) : Prop where
  stage : d.tree.find host (pathOf part) ≠ d.tree.find host (pathOf other)
  way : (d.tree.without host (pathOf path)).find host (pathOf other) =
    d.tree.find host (pathOf other)

/-- A fetch of `path` touches none of the files of `done`, and does not cut its own way off. -/
structure Clear (done : List (List UInt8)) (d : Disk) (path part : List UInt8) : Prop where
  own : (d.tree.without host (pathOf path)).parentAt host (pathOf path) =
    d.tree.parentAt host (pathOf path)
  others : ∀ other ∈ done, Spares host d path part other

/-- The file, its stage name and the disk with its directories made, when the turn of `entry` comes
to an `open`. -/
def fetches (entry : Entry) (run : Run) : Option (List UInt8 × List UInt8 × Disk) :=
  match joinRel dest entry.path with
  | none => none
  | some rel =>
    match joinZ pathMax origin rel with
    | none => none
    | some path =>
      if (run.disk.lstat host path).map List.length = some entry.size then none
      else
        match makeParent host origin rel run.disk with
        | (some _, _) => none
        | (none, d) => (appendExt pathMax path partialExt).map fun part => (path, part, d)

/-- No fetch touches the file of an earlier entry. -/
def Undisturbed : List (Entry × Answer) → List (List UInt8) → Run → Prop
  | [], _, _ => True
  | (entry, a) :: rest, done, run =>
    (∀ path part d, fetches host origin dest entry run = some (path, part, d) →
      Clear host done d path part) ∧
    ∀ next, turn host origin dest entry a run = (none, next) →
      Undisturbed rest (done ++ (pathIn origin dest entry.path).toList) next

instance (d : Disk) (path part other : List UInt8) : Decidable (Spares host d path part other) :=
  decidable_of_iff (d.tree.find host (pathOf part) ≠ d.tree.find host (pathOf other) ∧
      (d.tree.without host (pathOf path)).find host (pathOf other) =
        d.tree.find host (pathOf other))
    ⟨fun h => ⟨h.1, h.2⟩, fun h => ⟨h.stage, h.way⟩⟩

instance (done : List (List UInt8)) (d : Disk) (path part : List UInt8) :
    Decidable (Clear host done d path part) :=
  decidable_of_iff ((d.tree.without host (pathOf path)).parentAt host (pathOf path) =
      d.tree.parentAt host (pathOf path) ∧ ∀ other ∈ done, Spares host d path part other)
    ⟨fun h => ⟨h.1, h.2⟩, fun h => ⟨h.own, h.others⟩⟩

end Claims

/-! ## One fetch -/

section Fetch

variable {host : Host (List UInt8)} {origin dest path part : List UInt8} {d d' : Disk}
  {entry : Entry} {a : Answer}

theorem regular_eq_some {k : Nat} {bytes : List UInt8} :
    d.regular k = some bytes ↔
      k < d.tree.next ∧ (d.tree.nodes k).kind = .file ∧ d.data k = some bytes := by
  unfold Disk.regular
  split_ifs with hk
  · cases (d.tree.nodes k).kind with
    | file => simp [hk]
    | dir => simp
    | link => simp
  · simp [hk]

/-- A file that keeps its kind and its bytes. -/
theorem regular_keep {k : Nat} {bytes : List UInt8} (hnext : d.tree.next ≤ d'.tree.next)
    (hkind : (d'.tree.nodes k).kind = (d.tree.nodes k).kind) (hdata : d'.data k = d.data k)
    (h : d.regular k = some bytes) : d'.regular k = some bytes := by
  rw [regular_eq_some] at h ⊢
  obtain ⟨hk, hfile, hbytes⟩ := h
  exact ⟨lt_of_lt_of_le hk hnext, hkind.trans hfile, hdata.trans hbytes⟩

theorem lstat_eq_some {bytes : List UInt8} :
    d.lstat host path = some bytes ↔
      ∃ k, d.tree.find host (pathOf path) = .ok k ∧ d.regular k = some bytes := by
  unfold Disk.lstat
  cases d.tree.find host (pathOf path) with
  | error e => simp
  | ok k => simp

theorem openPart_eq_some {p : Path (List UInt8)} {fd : Nat} {d₁ : Disk}
    (h : d.openPart host p = some (fd, d₁)) (hfd : d₁.regular fd ≠ none) :
    NameTree.Tree.Staged host d.tree p fd d₁.tree ∧ ∀ k, k ≠ fd → d₁.data k = d.data k := by
  obtain ⟨bytes₀, hbytes₀⟩ := Option.ne_none_iff_exists'.mp hfd
  obtain ⟨hused, hkind, -⟩ := regular_eq_some.mp hbytes₀
  unfold Disk.openPart at h
  split at h
  · cases h
  rename_i dir hdir
  split at h
  · cases h
  rename_i c hc
  split at h
  · rename_i hnone
    obtain ⟨rfl, rfl⟩ := Prod.mk.inj (Option.some.inj h)
    exact ⟨.made hdir hc hnone rfl, fun k hk => Function.update_of_ne hk ..⟩
  · cases h
  · rename_i i hi
    split at h
    · rename_i hfile
      obtain ⟨rfl, rfl⟩ := Prod.mk.inj (Option.some.inj h)
      have hnode : d.tree.nodes i = .file := by
        cases hn : d.tree.nodes i with
        | file => rfl
        | dir => rw [hn] at hfile; cases hfile
        | link => rw [hn] at hfile; cases hfile
      exact ⟨.taken (NameTree.Tree.find_eq hdir hc hi) hc hnode hused,
        fun k hk => Function.update_of_ne hk ..⟩
    · cases h

theorem regular_write {k : Nat} (bytes : List UInt8) (h : d.regular k ≠ none) :
    (d.write k bytes).regular k = some bytes := by
  obtain ⟨old, hold⟩ := Option.ne_none_iff_exists'.mp h
  obtain ⟨hk, hfile, hbytes⟩ := regular_eq_some.mp hold
  refine regular_eq_some.mpr ⟨hk, hfile, ?_⟩
  unfold Disk.write
  dsimp only
  rw [Function.update_self, hbytes]
  rfl

/-- **A fetch**: what is served is in the file that lands, and no other file has changed. -/
theorem land_eq_ok (h : land host path entry a d = (none, d')) :
    ∃ part m dir c e b, appendExt pathMax path partialExt = some part ∧
      NameTree.Tree.Landed host d.tree d'.tree (pathOf part) (pathOf path) m dir c e b ∧
      d'.regular m = some a.body ∧ a.body.length = entry.size ∧
      ∀ k bytes, k ≠ m → d.regular k = some bytes → d'.regular k = some bytes := by
  unfold land at h
  split at h
  · cases h
  rename_i part hpart
  split at h
  · cases h
  split at h
  · cases h
  rename_i fd d₁ hopen
  dsimp only at h
  split at h
  · cases h
  split at h
  · cases h
  rename_i hregular
  split at h
  · cases h
  split at h
  · cases h
  split at h
  · cases h
  split at h
  · cases h
  split at h
  · cases h
  rename_i hsize
  split at h
  · cases h
  split at h
  · cases h
  rename_i t hrename
  obtain ⟨hstage, hothers⟩ := openPart_eq_some hopen hregular
  obtain ⟨dir, c, e, b, hland⟩ := NameTree.Tree.landed_of_rename hstage hrename
  obtain rfl : { d₁.write fd a.body with tree := t } = d' := (Prod.mk.inj h).2
  refine ⟨part, fd, dir, c, e, b, hpart, hland, ?_, not_not.mp hsize, fun k bytes hk hold => ?_⟩
  · obtain ⟨-, -, hdata⟩ := regular_eq_some.mp (regular_write a.body hregular)
    refine regular_eq_some.mpr ⟨hland.inUse, ?_, hdata⟩
    rw [hland.kinds, hland.file, NameTree.Node.kind]
  · refine regular_keep hland.next (hland.kinds k) ?_ hold
    exact (Function.update_of_ne hk ..).trans (hothers k hk)

/-- A file that a fetch spares is as it was. -/
theorem land_keep {other bytes : List UInt8} (h : land host path entry a d = (none, d'))
    (hpart : appendExt pathMax path partialExt = some part)
    (hspare : Spares host d path part other) (hother : d.lstat host other = some bytes) :
    d'.lstat host other = some bytes := by
  obtain ⟨part', m, dir, c, e, b, hpart', hland, -, -, hkeep⟩ := land_eq_ok h
  obtain rfl := Option.some.inj (hpart.symm.trans hpart')
  obtain ⟨k, hfind, hbytes⟩ := lstat_eq_some.mp hother
  have hway : (d.tree.without host (pathOf path)).find host (pathOf other) = .ok k :=
    hspare.way.trans hfind
  have hne : k ≠ m := by
    refine hland.ne_of_stage (regular_eq_some.mp hbytes).1 ?_
    rw [← hfind]
    exact hspare.stage
  exact lstat_eq_some.mpr ⟨k, (hland.find_iff hne).mpr hway, hkeep k bytes hne hbytes⟩

/-- The fetched file itself. -/
theorem land_own (h : land host path entry a d = (none, d'))
    (hown : (d.tree.without host (pathOf path)).parentAt host (pathOf path) =
      d.tree.parentAt host (pathOf path)) :
    d'.lstat host path = some a.body ∧ a.body.length = entry.size := by
  obtain ⟨part, m, dir, c, e, b, -, hland, hbody, hsize, -⟩ := land_eq_ok h
  exact ⟨lstat_eq_some.mpr ⟨m, hland.find_own hown, hbody⟩, hsize⟩

/-- Conversely, a file of another size that is there afterwards was spared. -/
theorem spares_of_land {other bytes : List UInt8} (h : land host path entry a d = (none, d'))
    (hpart : appendExt pathMax path partialExt = some part)
    (hother : d'.lstat host other = some bytes) (hsize : bytes.length ≠ entry.size) :
    Spares host d path part other := by
  obtain ⟨part', m, dir, c, e, b, hpart', hland, hbody, hlen, -⟩ := land_eq_ok h
  obtain rfl := Option.some.inj (hpart.symm.trans hpart')
  obtain ⟨k, hfind, hbytes⟩ := lstat_eq_some.mp hother
  have hne : k ≠ m := by
    rintro rfl
    rw [hbody] at hbytes
    exact hsize (Option.some.inj hbytes ▸ hlen)
  have hway := (hland.find_iff hne).mp hfind
  have hbefore := hland.find_of_without hway
  refine ⟨fun hsame => hne ?_, hway.trans hbefore.symm⟩
  exact hland.eq_of_find_stage (hsame.trans hbefore)

/-- A file with the stage name for its name is gone, whatever its size. -/
theorem land_stage {bytes : List UInt8} (h : land host path entry a d = (none, d'))
    (hpart : appendExt pathMax path partialExt = some part)
    (hthere : d.lstat host part = some bytes)
    (hother : d.tree.find host (pathOf path) ≠ d.tree.find host (pathOf part)) :
    d'.lstat host part = none := by
  obtain ⟨part', m, dir, c, e, b, hpart', hland, -⟩ := land_eq_ok h
  obtain rfl := Option.some.inj (hpart.symm.trans hpart')
  obtain ⟨k, hfind, -⟩ := lstat_eq_some.mp hthere
  cases hlater : d'.lstat host part with
  | none => rfl
  | some bytes' =>
    obtain ⟨j, hj, -⟩ := lstat_eq_some.mp hlater
    exact absurd hj (hland.stage_missing hfind hother j)

end Fetch

/-! ## Directories are only added -/

section Directories

variable {host : Host (List UInt8)}

theorem mkdirLevel_grown {level : List UInt8} {t t' : OriginTree}
    (h : mkdirLevel host level t = .ok t') : NameTree.Tree.Grown host t t' := by
  unfold mkdirLevel at h
  split at h
  · rename_i t₁ hmkdir
    obtain rfl := Except.ok.inj h
    exact NameTree.Tree.grown_mkdir hmkdir
  · split at h
    · cases h
    · split at h
      · obtain rfl := Except.ok.inj h
        exact .refl
      · cases h
      · cases h
  · cases h

theorem mkdirLevels_grown (ls : List (List UInt8)) (t : OriginTree) :
    NameTree.Tree.Grown host t (mkdirLevels host ls t).2 := by
  induction ls generalizing t with
  | nil => exact .refl
  | cons level rest ih =>
    rw [mkdirLevels]
    cases hlevel : mkdirLevel host level t with
    | error e => exact .refl
    | ok t' => exact (mkdirLevel_grown hlevel).trans (ih t')

theorem mkdirAll_grown (path : List UInt8) (t : OriginTree) :
    NameTree.Tree.Grown host t (mkdirAll host path t).2 := by
  unfold mkdirAll
  split_ifs
  · exact .refl
  · exact mkdirLevels_grown _ t

theorem makeParent_grown {origin rel : List UInt8} {d d' : Disk}
    (h : makeParent host origin rel d = (none, d')) :
    NameTree.Tree.Grown host d.tree d'.tree ∧ d'.data = d.data := by
  unfold makeParent at h
  split at h
  · obtain rfl := (Prod.mk.inj h).2
    exact ⟨.refl, rfl⟩
  · split at h
    · cases h
    · rename_i dir hdir
      have hgrown := @mkdirAll_grown host dir d.tree
      split at h
      · rename_i t hmk
        rw [hmk] at hgrown
        obtain rfl := (Prod.mk.inj h).2
        exact ⟨hgrown, rfl⟩
      · cases h

/-- The files that are there stay. -/
theorem makeParent_keep {origin rel path bytes : List UInt8} {d d' : Disk}
    (h : makeParent host origin rel d = (none, d')) (hthere : d.lstat host path = some bytes) :
    d'.lstat host path = some bytes := by
  obtain ⟨hgrown, hdata⟩ := makeParent_grown h
  obtain ⟨k, hfind, hbytes⟩ := lstat_eq_some.mp hthere
  have hk := (regular_eq_some.mp hbytes).1
  exact lstat_eq_some.mpr ⟨k, hgrown.find hfind,
    regular_keep hgrown.next (hgrown.nodes k hk) (by rw [hdata]) hbytes⟩

end Directories

/-! ## The run -/

section Runs

variable {host : Host (List UInt8)} {origin dest : List UInt8} {entry : Entry} {a : Answer}
  {run next : Run}

theorem fetches_eq_some {path part : List UInt8} {d : Disk}
    (h : fetches host origin dest entry run = some (path, part, d)) :
    pathIn origin dest entry.path = some path ∧ appendExt pathMax path partialExt = some part ∧
      (run.disk.lstat host path).map List.length ≠ some entry.size := by
  unfold fetches at h
  split at h
  · cases h
  rename_i rel hrel
  split at h
  · cases h
  rename_i path' hpath
  split at h
  · cases h
  rename_i hmissing
  split at h
  · cases h
  obtain ⟨part', hpart, heq⟩ := Option.map_eq_some_iff.mp h
  obtain ⟨rfl, hrest⟩ := Prod.mk.inj heq
  obtain rfl := (Prod.mk.inj hrest).1
  exact ⟨by rw [pathIn, hrel, Option.bind_some, hpath], hpart, hmissing⟩

/-- **A turn**: the entry is there with its size and is left alone, or it is fetched. -/
theorem turn_eq_ok (h : turn host origin dest entry a run = (none, next)) :
    ∃ path, pathIn origin dest entry.path = some path ∧
      ((run.disk.lstat host path).map List.length = some entry.size ∧
        next = { run with report := { run.report with skipped := run.report.skipped + 1 } } ∨
      ∃ part d, fetches host origin dest entry run = some (path, part, d) ∧
        appendExt pathMax path partialExt = some part ∧
        (∀ other bytes, run.disk.lstat host other = some bytes → d.lstat host other = some bytes) ∧
        land host path entry a d = (none, next.disk) ∧
        next.report.pulled = run.report.pulled + 1 ∧ next.report.skipped = run.report.skipped ∧
        next.served = (entry.path, a.body) :: run.served) := by
  unfold turn at h
  split at h
  · cases h
  rename_i rel hrel
  split at h
  · cases h
  rename_i path hpath
  refine ⟨path, by rw [pathIn, hrel, Option.bind_some, hpath], ?_⟩
  split at h
  · rename_i hthere
    exact Or.inl ⟨hthere, ((Prod.mk.inj h).2).symm⟩
  rename_i hmissing
  split at h
  · cases h
  rename_i d' hfetch
  obtain rfl := (Prod.mk.inj h).2
  unfold fetchOne at hfetch
  split at hfetch
  · cases hfetch
  rename_i d hmake
  obtain ⟨part, m, dir, c, e, b, hpart, -⟩ := land_eq_ok hfetch
  refine Or.inr
    ⟨part, d, ?_, hpart, fun other bytes => makeParent_keep hmake, hfetch, rfl, rfl, rfl⟩
  unfold fetches
  rw [hrel]
  dsimp only
  rw [hpath]
  dsimp only
  rw [if_neg hmissing, hmake]
  dsimp only
  rw [hpart]
  rfl

/-- What was served was asked for. -/
def Asked (done : List Entry) (run : Run) : Prop :=
  ∀ p bytes, run.served.lookup p = some bytes → ∃ entry ∈ done, entry.path = p

/-- The paths of `done`. -/
def pathsOf (origin dest : List UInt8) (done : List Entry) : List (List UInt8) :=
  done.filterMap fun entry => pathIn origin dest entry.path

/-- **One turn** keeps what the turns before it have come to. -/
theorem turn_complete {done : List Entry} (hdone : Complete host origin dest done run)
    (hasked : Asked done run)
    (hclear : ∀ path part d, fetches host origin dest entry run = some (path, part, d) →
      Clear host (pathsOf origin dest done) d path part)
    (h : turn host origin dest entry a run = (none, next)) :
    Complete host origin dest (done ++ [entry]) next ∧ Asked (done ++ [entry]) next := by
  have hwider : Asked (done ++ [entry]) run := fun p bytes hp => by
    obtain ⟨q, hq, hqp⟩ := hasked p bytes hp
    exact ⟨q, List.mem_append_left _ hq, hqp⟩
  obtain ⟨path, hpath, ⟨hthere, rfl⟩ | ⟨part, d, hfetch, hpart, hmake, hland, hpulled, hskipped,
    hserved⟩⟩ := turn_eq_ok h
  · -- The file is left alone.
    refine ⟨⟨fun q hq => ?_, hdone.served, ?_⟩, hwider⟩
    · rcases List.mem_append.mp hq with hq | hq
      · exact hdone.placed q hq
      · obtain rfl := List.mem_singleton.mp hq
        obtain ⟨bytes, hbytes, hlen⟩ := Option.map_eq_some_iff.mp hthere
        exact ⟨path, bytes, hpath, hbytes, hlen⟩
    · have hcounted := hdone.counted
      simp only [List.length_append, List.length_singleton]
      omega
  · -- It is fetched, and the files of the earlier entries are spared.
    have hcl := hclear path part d hfetch
    obtain ⟨hown, hlen⟩ := land_own hland hcl.own
    have hkeep : ∀ q ∈ done, ∀ other bytes, pathIn origin dest q.path = some other →
        run.disk.lstat host other = some bytes → next.disk.lstat host other = some bytes := by
      intro q hq other bytes hother hbytes
      have hmem : other ∈ pathsOf origin dest done := List.mem_filterMap.mpr ⟨q, hq, hother⟩
      exact land_keep hland hpart (hcl.others other hmem) (hmake other bytes hbytes)
    refine ⟨⟨fun q hq => ?_, fun p bytes hp => ?_, ?_⟩, fun p bytes hp => ?_⟩
    · rcases List.mem_append.mp hq with hq | hq
      · obtain ⟨other, bytes, hother, hbytes, hsize⟩ := hdone.placed q hq
        exact ⟨other, bytes, hother, hkeep q hq other bytes hother hbytes, hsize⟩
      · obtain rfl := List.mem_singleton.mp hq
        exact ⟨path, a.body, hpath, hown, hlen⟩
    · rw [hserved, List.lookup_cons] at hp
      split at hp
      · rename_i heq
        obtain rfl := beq_iff_eq.mp heq
        obtain rfl := Option.some.inj hp
        exact ⟨path, hpath, hown⟩
      · obtain ⟨other, hother, hbytes⟩ := hdone.served p bytes hp
        obtain ⟨q, hq, rfl⟩ := hasked p bytes hp
        exact ⟨other, hother, hkeep q hq other bytes hother hbytes⟩
    · have hcounted := hdone.counted
      rw [hpulled, hskipped, List.length_append, List.length_singleton]
      omega
    · rw [hserved, List.lookup_cons] at hp
      split at hp
      · rename_i heq
        exact ⟨entry, List.mem_append_right _ (List.mem_singleton_self _), (beq_iff_eq.mp heq).symm⟩
      · exact hwider p bytes hp

/-- **The run**: the files of the entries that had their turn are in place. -/
theorem turns_complete (rest : List (Entry × Answer)) {done : List Entry} {final : Run}
    (hdone : Complete host origin dest done run) (hasked : Asked done run)
    (hundisturbed : Undisturbed host origin dest rest (pathsOf origin dest done) run)
    (h : turns host origin dest rest run = (none, final)) :
    Complete host origin dest (done ++ rest.map Prod.fst) final := by
  induction rest generalizing done run with
  | nil =>
    obtain rfl := (Prod.mk.inj h).2
    rw [List.map_nil, List.append_nil]
    exact hdone
  | cons pair rest ih =>
    obtain ⟨entry, a⟩ := pair
    obtain ⟨hclear, hlater⟩ := hundisturbed
    rw [turns] at h
    split at h
    · cases h
    · rename_i next hturn
      obtain ⟨hnext, hasked'⟩ := turn_complete hdone hasked hclear hturn
      have hpaths : pathsOf origin dest (done ++ [entry]) =
          pathsOf origin dest done ++ (pathIn origin dest entry.path).toList := by
        unfold pathsOf
        rw [List.filterMap_append]
        congr 1
      have hrest := ih hnext hasked' (hpaths ▸ hlater next hturn) h
      rwa [List.append_assoc] at hrest

/-- Every turn counts once, whatever becomes of the files. -/
theorem turns_counted (rest : List (Entry × Answer)) {final : Run}
    (h : turns host origin dest rest run = (none, final)) :
    final.report.pulled + final.report.skipped =
      run.report.pulled + run.report.skipped + rest.length := by
  induction rest generalizing run with
  | nil =>
    obtain rfl := (Prod.mk.inj h).2
    rfl
  | cons pair rest ih =>
    obtain ⟨entry, a⟩ := pair
    rw [turns] at h
    split at h
    · cases h
    · rename_i next hturn
      rw [ih h, List.length_cons]
      obtain ⟨path, -, ⟨-, rfl⟩ | ⟨part, d, -, -, -, -, hpulled, hskipped, -⟩⟩ := turn_eq_ok hturn
      · dsimp only
        omega
      · omega

/-- **A file that is not spared**: of another size it is not there afterwards, and not at all when
its name is the stage name. -/
theorem turn_harm {path part other bytes : List UInt8} {d : Disk} {size : Nat}
    (h : turn host origin dest entry a run = (none, next))
    (hfetch : fetches host origin dest entry run = some (path, part, d))
    (hthere : run.disk.lstat host other = some bytes)
    (hharm : ¬ Spares host d path part other ∧ size ≠ entry.size ∨
      other = part ∧ d.tree.find host (pathOf path) ≠ d.tree.find host (pathOf part)) :
    (next.disk.lstat host other).map List.length ≠ some size := by
  obtain ⟨hpath, -, hmissing⟩ := fetches_eq_some hfetch
  obtain ⟨path', hpath', ⟨hskip, -⟩ | ⟨part', d', hfetch', hpart, hmake, hland, -⟩⟩ := turn_eq_ok h
  · obtain rfl := Option.some.inj (hpath.symm.trans hpath')
    exact absurd hskip hmissing
  · obtain ⟨rfl, rfl, rfl⟩ : path = path' ∧ part = part' ∧ d = d' := by
      simpa using hfetch.symm.trans hfetch'
    intro hafter
    obtain ⟨after, hother, hlen⟩ := Option.map_eq_some_iff.mp hafter
    rcases hharm with ⟨hspare, hne⟩ | ⟨rfl, hne⟩
    · exact hspare (spares_of_land hland hpart hother (hlen ▸ hne))
    · rw [land_stage hland hpart (hmake other bytes hthere) hne] at hother
      cases hother

end Runs

/-! ## The pull -/

section Pulls

variable {host : Host (List UInt8)} {origin dest : List UInt8}

/-- An accepted entry has a name that passes the gate. -/
theorem relOk_of_mem {items : List TreeItem} {entries : List Entry} {entry : Entry}
    (h : parseItems dest items = .ok entries) (hmem : entry ∈ entries) :
    ∃ rel, joinRel dest entry.path = some rel ∧ relOk rel = true := by
  induction items generalizing entries with
  | nil =>
    obtain rfl := Except.ok.inj h
    cases hmem
  | cons item rest ih =>
    rw [parseItems] at h
    split at h
    · exact ih h hmem
    split at h
    · cases h
    split at h
    · cases h
    rename_i rel hrel
    split at h
    · cases h
    rename_i hgate
    cases hrest : parseItems dest rest with
    | error e =>
      rw [hrest] at h
      cases h
    | ok more =>
      rw [hrest] at h
      obtain rfl := Except.ok.inj h
      rcases List.mem_cons.mp hmem with rfl | hmem
      · refine ⟨rel, hrel, ?_⟩
        revert hgate
        cases relOk rel <;> simp
      · exact ih hrest hmem

theorem joinRel_append {p rel rel' ext : List UInt8} (h : joinRel dest p = some rel)
    (h' : joinRel dest (p ++ ext) = some rel') : rel' = rel ++ ext := by
  unfold joinRel at h h'
  split_ifs at h h'
  · rw [← Option.some.inj h, ← Option.some.inj h']
  · rw [← Option.some.inj h, ← Option.some.inj h', List.append_assoc, List.cons_append]

theorem items_of_parseTree {parsed : Option (List TreeItem)} {entries : List Entry}
    (h : parseTree dest parsed = .ok entries) : ∃ items, parseItems dest items = .ok entries := by
  cases parsed with
  | none => cases h
  | some items => exact ⟨items, h⟩

/-- A listed name that is another one and `.part` is the stage name of it. -/
theorem part_of_name {p rel path part other : List UInt8} (hrel : joinRel dest p = some rel)
    (hok : relOk rel = true) (hpath : pathIn origin dest p = some path)
    (hpart : appendExt pathMax path partialExt = some part)
    (hother : pathIn origin dest (p ++ partialExt) = some other) : other = part := by
  obtain ⟨hne, hlead, htrail⟩ := edges_of_relOk hok
  obtain ⟨rel', hrel', hjoin'⟩ := Option.bind_eq_some_iff.mp hother
  obtain rfl := joinRel_append hrel hrel'
  rw [pathIn, hrel, Option.bind_some] at hpath
  unfold appendExt at hpart
  split at hpart
  · cases hpart
  rw [← Option.some.inj hpart, joinZ_eq hne hlead htrail hpath, joinZ_eq _ _ _ hjoin']
  · rw [List.append_assoc, List.cons_append]
  · exact List.append_ne_nil_of_left_ne_nil hne _
  · rwa [List.head?_append_of_ne_nil _ hne]
  · have hlast : partialExt.getLast? = some 116 := by decide
    rw [List.getLast?_append, hlast, Option.some_or]
    decide

/-- The entries, each with what the endpoint answers for it. -/
def turnsOf (serve : Nat → Answer) (entries : List Entry) : List (Entry × Answer) :=
  entries.mapIdx fun i entry => (entry, serve i)

theorem map_fst_turnsOf (serve : Nat → Answer) (entries : List Entry) :
    (turnsOf serve entries).map Prod.fst = entries := by
  unfold turnsOf
  refine List.ext_getElem (by simp) fun i hi hi' => ?_
  rw [List.getElem_map, List.getElem_mapIdx]

/-- **When a pull is complete.** The turns of an accepted listing are counted in every pull that
ends without an error. Where no fetch touches the file of an earlier entry, every listed file is in
place and holds what was served for it. A fetch that does touch one leaves it with another size, or
missing when its name was the stage name. -/
theorem pull_complete {decode : List UInt8 → Option (List TreeItem)} {body : List UInt8}
    {serve : Nat → Answer} {d : Disk} {entries : List Entry} {run : Run}
    (hlist : parseTree dest (decode body) = .ok entries)
    (hpull : pull host origin dest decode (.answered 200 body) serve d = (none, run)) :
    run.report.pulled + run.report.skipped = entries.length ∧
      (Undisturbed host origin dest (turnsOf serve entries) [] (start d) →
        Complete host origin dest entries run) ∧
      ∀ before entry a after mid next, turnsOf serve entries = before ++ (entry, a) :: after →
        turns host origin dest before (start d) = (none, mid) →
        turn host origin dest entry a mid = (none, next) →
        ∀ path part d', fetches host origin dest entry mid = some (path, part, d') →
        ∀ earlier ∈ before.map Prod.fst, ∀ other, pathIn origin dest earlier.path = some other →
        (mid.disk.lstat host other).map List.length = some earlier.size →
        ¬ Spares host d' path part other ∧ earlier.size ≠ entry.size ∨
          earlier.path = entry.path ++ partialExt ∧
            d'.tree.find host (pathOf path) ≠ d'.tree.find host (pathOf part) →
        (next.disk.lstat host other).map List.length ≠ some earlier.size := by
  have hturns : turns host origin dest (turnsOf serve entries) (start d) = (none, run) := by
    unfold pull at hpull
    dsimp only at hpull
    rw [if_neg (by decide), hlist] at hpull
    dsimp only at hpull
    split at hpull
    · cases hpull
    · exact hpull
  refine ⟨?_, fun hundisturbed => ?_, ?_⟩
  · have hcounted := turns_counted _ hturns
    rw [turnsOf, List.length_mapIdx] at hcounted
    simpa [start] using hcounted
  · have hstart : Complete host origin dest [] (start d) := {
      placed := fun q hq => absurd hq List.not_mem_nil
      served := fun p bytes hp => by cases hp
      counted := rfl }
    have hasked : Asked [] (start d) := fun p bytes hp => by cases hp
    have hdone := turns_complete _ hstart hasked hundisturbed hturns
    rwa [map_fst_turnsOf] at hdone
  · intro before entry a after mid next hsplit _ hturn path part d' hfetch earlier _ other hother
      hthere hharm
    obtain ⟨bytes, hbytes, -⟩ := Option.map_eq_some_iff.mp hthere
    refine turn_harm hturn hfetch hbytes (hharm.imp_right ?_)
    rintro ⟨hname, hlinked⟩
    have hmem : entry ∈ entries := by
      rw [← map_fst_turnsOf serve entries, hsplit, List.map_append, List.map_cons]
      exact List.mem_append_right _ List.mem_cons_self
    obtain ⟨items, hitems⟩ := items_of_parseTree hlist
    obtain ⟨rel, hrel, hok⟩ := relOk_of_mem hitems hmem
    rw [hname] at hother
    obtain ⟨hpath, hpart, -⟩ := fetches_eq_some hfetch
    exact ⟨part_of_name hrel hok hpath hpart hother, hlinked⟩

theorem eq_mk_snd {α β : Type*} {x : α × β} {a : α} (h : x.1 = a) : x = (a, x.2) := by
  rw [← h]

/-- The condition, turn by turn, as it is computed. -/
theorem undisturbed_cons {entry : Entry} {a : Answer} {rest : List (Entry × Answer)}
    {done : List (List UInt8)} {run : Run} :
    Undisturbed host origin dest ((entry, a) :: rest) done run ↔
      (∀ x ∈ fetches host origin dest entry run, Clear host done x.2.2 x.1 x.2.1) ∧
        ((turn host origin dest entry a run).1 = none →
          Undisturbed host origin dest rest (done ++ (pathIn origin dest entry.path).toList)
            (turn host origin dest entry a run).2) := by
  constructor
  · rintro ⟨hclear, hrest⟩
    exact ⟨fun x hx => hclear x.1 x.2.1 x.2.2 hx, fun hnone => hrest _ (eq_mk_snd hnone)⟩
  · rintro ⟨hclear, hrest⟩
    refine ⟨fun path part d hx => hclear (path, part, d) hx, fun next hnext => ?_⟩
    rw [hnext] at hrest
    exact hrest rfl

instance decidableUndisturbed :
    ∀ (rest : List (Entry × Answer)) (done : List (List UInt8)) (run : Run),
    Decidable (Undisturbed host origin dest rest done run)
  | [], _, _ => isTrue trivial
  | (entry, a) :: rest, done, run =>
    have := decidableUndisturbed rest (done ++ (pathIn origin dest entry.path).toList)
      (turn host origin dest entry a run).2
    decidable_of_iff _ undisturbed_cons.symm
/-- An origin `/o` with nothing in it. -/
def emptyOrigin : Disk where
  tree := {
    root := 0
    cwd := 0
    nodes := fun i =>
      if i = 0 then .dir 0o755 0 (AList.singleton (ascii "o") 1)
      else if i = 1 then .dir 0o755 0 ∅
      else .file
    next := 2
    unused := fun i hi => by
      rw [if_neg (by omega), if_neg (by omega)]
    rootDir := rfl
    cwdDir := rfl }
  data := fun _ => none

/-- A file of one byte, served as `[b]`. -/
def oneByte (b : UInt8) : Answer := ⟨true, true, true, some 200, [b], true, true⟩

/-- Two files of one byte each, one with the stage name of the other. -/
def twoItems (first second : String) : List TreeItem :=
  [⟨ascii "file", ascii first, 1⟩, ⟨ascii "file", ascii second, 1⟩]

/-- The pull of two files into `/o/m`. -/
def pullTwo (first second : String) : Option PullError × Run :=
  pull Retry.easyHost (ascii "/o") (ascii "m") (fun _ => some (twoItems first second))
    (.answered 200 []) (fun i => oneByte (UInt8.ofNat i)) emptyOrigin

/-- In the other order both are there. -/
theorem pull_complete_two :
    Complete Retry.easyHost (ascii "/o") (ascii "m") [⟨ascii "a", 1⟩, ⟨ascii "a.part", 1⟩]
      (pullTwo "a" "a.part").2 := by
  have hlist : parseTree (ascii "m") (some (twoItems "a" "a.part")) =
      .ok [⟨ascii "a", 1⟩, ⟨ascii "a.part", 1⟩] := by decide +kernel
  have hends : (pullTwo "a" "a.part").1 = none := by decide +kernel
  have hpull : pullTwo "a" "a.part" = (none, (pullTwo "a" "a.part").2) := eq_mk_snd hends
  have h := @pull_complete Retry.easyHost (ascii "/o") (ascii "m")
    (fun _ => some (twoItems "a" "a.part")) [] (fun i => oneByte (UInt8.ofNat i)) emptyOrigin _
    (pullTwo "a" "a.part").2 hlist hpull
  exact h.2.1 (by decide +kernel)

/-- **Two files of which one has the stage name of the other**, in the order that destroys it. -/
theorem pull_incomplete : ¬ ∀ host origin dest decode body serve d entries run,
    parseTree dest (decode body) = .ok entries →
    pull host origin dest decode (.answered 200 body) serve d = (none, run) →
    Complete host origin dest entries run := by
  intro h
  have hlist : parseTree (ascii "m") (some (twoItems "a.part" "a")) =
      .ok [⟨ascii "a.part", 1⟩, ⟨ascii "a", 1⟩] := by decide +kernel
  have hends : (pullTwo "a.part" "a").1 = none := by decide +kernel
  have hpull : pullTwo "a.part" "a" = (none, (pullTwo "a.part" "a").2) := eq_mk_snd hends
  have hcomplete := h Retry.easyHost (ascii "/o") (ascii "m")
    (fun _ => some (twoItems "a.part" "a")) [] (fun i => oneByte (UInt8.ofNat i)) emptyOrigin _
    (pullTwo "a.part" "a").2 hlist hpull
  obtain ⟨path, bytes, hpath, hbytes, -⟩ := hcomplete.placed ⟨ascii "a.part", 1⟩ List.mem_cons_self
  have hwhere : pathIn (ascii "/o") (ascii "m") (ascii "a.part") = some (ascii "/o/m/a.part") := by
    decide +kernel
  have hgone : (pullTwo "a.part" "a").2.disk.lstat Retry.easyHost (ascii "/o/m/a.part") = none := by
    decide +kernel
  obtain rfl := Option.some.inj (hpath.symm.trans hwhere)
  rw [hgone] at hbytes
  cases hbytes

end Pulls

end Pull

end ModelFs
