import Mathlib.Data.List.AList

/-!
# A tree of names, and the calls that change it

The names of a POSIX file system: directories that map names to numbered files, and symbolic links
that a walk follows up to a limit. `unlink`, `mkdir`, `rmdir` and `renameat2` answer with the tree
they leave or the error that the kernel's order of checks comes to.

* `look_bind_self`, `look_bind_of_ne` — a changed entry, and the others.
* `walk_erase` — a name less turns a walk into "no such entry", or leaves it as it was.
* `walk_keep` — a walk finds its way again in a tree that keeps the entries it went by.
* `walk_plain` — a walk by directories only does not see what becomes of the other files.
-/

namespace ModelFs

namespace NameTree

inductive Errno where
  | noent
  | exist
  | notdir
  | isdir
  | notempty
  | inval
  | busy
  | loop
  | nametoolong
  | acces
  /-- Any other refusal. -/
  | other (n : Nat)
  deriving DecidableEq, Repr

/-- One part of a path: `.`, `..` or a name. -/
inductive Part (ν : Type) where
  | self
  | up
  | name (c : ν)
  deriving DecidableEq

inductive Node (ν : Type) where
  | dir (mode parent : Nat) (entries : AList fun _ : ν => Nat)
  | link (absolute : Bool) (target : List (Part ν))
  /-- Regular files, and every other kind a walk cannot go through. -/
  | file

/-- What a walk asks of a file. -/
inductive Kind (ν : Type) where
  | dir
  | link (absolute : Bool) (target : List (Part ν))
  | file

def Node.kind {ν : Type} : Node ν → Kind ν
  | .dir .. => .dir
  | .link absolute target => .link absolute target
  | .file => .file

def Node.bind {ν : Type} [DecidableEq ν] (c : ν) (o : Option Nat) : Node ν → Node ν
  | .dir mode parent entries =>
    .dir mode parent (match o with
      | none => entries.erase c
      | some i => entries.insert c i)
  | n => n

def Node.reparent {ν : Type} (d : Nat) : Node ν → Node ν
  | .dir mode _ entries => .dir mode d entries
  | n => n

@[simp] theorem Node.kind_bind {ν : Type} [DecidableEq ν] (c : ν) (o : Option Nat) (n : Node ν) :
    (n.bind c o).kind = n.kind := by
  cases n <;> rfl

@[simp] theorem Node.kind_reparent {ν : Type} (d : Nat) (n : Node ν) :
    (n.reparent d).kind = n.kind := by
  cases n <;> rfl

/-- An update that keeps the kind of the file it is for keeps every kind. -/
theorem kind_update {ν : Type} {nodes : Nat → Node ν} {d : Nat} {n : Node ν}
    (h : n.kind = (nodes d).kind) (k : Nat) :
    (Function.update nodes d n k).kind = (nodes k).kind := by
  rcases eq_or_ne k d with rfl | hne
  · rw [Function.update_self, h]
  · rw [Function.update_of_ne hne]

/-- And one that keeps it a file that cannot be gone through. -/
theorem file_update {ν : Type} {nodes : Nat → Node ν} {d i : Nat} {n : Node ν}
    (h : n.kind = (nodes d).kind) (hfile : nodes i = .file) :
    Function.update nodes d n i = .file := by
  have hkind := kind_update h i
  rw [hfile] at hkind
  cases hn : Function.update nodes d n i with
  | file => rfl
  | dir => rw [hn] at hkind; cases hkind
  | link => rw [hn] at hkind; cases hkind

/-- Files by number. Numbers from `next` on are not in use. -/
structure Tree (ν : Type) where
  root : Nat
  cwd : Nat
  nodes : Nat → Node ν
  next : Nat
  unused : ∀ i, next ≤ i → nodes i = .file
  rootDir : (nodes root).kind = .dir
  cwdDir : (nodes cwd).kind = .dir

/-- A path up to its last name. A path that ends in no name has all of its parts in `dirs`. -/
structure Path (ν : Type) where
  absolute : Bool
  dirs : List (Part ν)
  last : Option ν

/-- A change, by the entries that it is about. -/
inductive Request (ν : Type) where
  | unlink (d : Nat) (c : ν)
  | mkdir (d : Nat) (c : ν)
  | rmdir (d : Nat) (c : ν)
  | rename (d : Nat) (c : ν) (e : Nat) (b : ν) (flags : UInt32)

/-- What the names do not decide: which names are too long, which directories the process may
search, and which changes are refused for reasons of their own (rights, quotas, mounts). -/
structure Host (ν : Type) where
  long : ν → Bool
  searchable : Nat → Bool
  refuse : Tree ν → Request ν → Option Nat

variable {ν : Type} [DecidableEq ν] (host : Host ν) (t : Tree ν)

namespace Tree

/-! ## Walks -/

def isDir (i : Nat) : Bool :=
  match (t.nodes i).kind with
  | .dir => true
  | _ => false

/-- One part, looked up in directory `d`. -/
def look (d : Nat) (p : Part ν) : Except Errno Nat :=
  match t.nodes d with
  | .dir mode parent entries =>
    if !host.searchable mode then .error .acces
    else
      match p with
      | .self => .ok d
      | .up => .ok parent
      | .name c =>
        if host.long c then .error .nametoolong
        else
          match entries.lookup c with
          | none => .error .noent
          | some i => .ok i
  | _ => .error .notdir

/-- The directory that `parts` lead to; `follow` goes on behind a link. -/
def walkFrom (follow : Nat → List (Part ν) → Except Errno Nat) :
    Nat → List (Part ν) → Except Errno Nat
  | d, [] => .ok d
  | d, p :: rest =>
    match t.look host d p with
    | .error e => .error e
    | .ok i =>
      match (t.nodes i).kind with
      | .dir => walkFrom follow i rest
      | .link absolute target => follow (if absolute then t.root else d) (target ++ rest)
      | .file => .error .notdir

/-- A walk by at most `budget` links. -/
def walk : Nat → Nat → List (Part ν) → Except Errno Nat
  | 0 => t.walkFrom host fun _ _ => .error .loop
  | budget + 1 => t.walkFrom host (walk budget)

/-- `MAXSYMLINKS`. -/
def maxSymlinks : Nat := 40

def parentAt (p : Path ν) : Except Errno Nat :=
  t.walk host maxSymlinks (if p.absolute then t.root else t.cwd) p.dirs

/-- `lstat`: the file of a path, a link at its end not followed. -/
def find (p : Path ν) : Except Errno Nat :=
  match t.parentAt host p with
  | .error e => .error e
  | .ok d =>
    match p.last with
    | none => .ok d
    | some c => t.look host d (.name c)

/-! ## Changes -/

/-- Entry `c` of directory `d` names `o`. -/
def bind (d : Nat) (c : ν) (o : Option Nat) : Tree ν :=
  { t with
    nodes := Function.update t.nodes d ((t.nodes d).bind c o)
    unused := fun i hi => file_update (Node.kind_bind ..) (t.unused i hi)
    rootDir := (kind_update (Node.kind_bind ..) _).trans t.rootDir
    cwdDir := (kind_update (Node.kind_bind ..) _).trans t.cwdDir }

def reparent (i d : Nat) : Tree ν :=
  { t with
    nodes := Function.update t.nodes i ((t.nodes i).reparent d)
    unused := fun k hk => file_update (Node.kind_reparent ..) (t.unused k hk)
    rootDir := (kind_update (Node.kind_reparent ..) _).trans t.rootDir
    cwdDir := (kind_update (Node.kind_reparent ..) _).trans t.cwdDir }

omit [DecidableEq ν] in
theorem ne_next {k : Nat} (h : (t.nodes k).kind ≠ .file) : k ≠ t.next := by
  rintro rfl
  exact h (by rw [t.unused _ le_rfl, Node.kind])

/-- A file that has no name yet. -/
def alloc (n : Node ν) : Tree ν :=
  { t with
    nodes := Function.update t.nodes t.next n
    next := t.next + 1
    unused := fun i hi => by
      rw [Function.update_of_ne (Nat.ne_of_gt hi), t.unused i (Nat.le_of_lt hi)]
    rootDir := by
      rw [Function.update_of_ne (t.ne_next (by rw [t.rootDir]; exact nofun)), t.rootDir]
    cwdDir := by
      rw [Function.update_of_ne (t.ne_next (by rw [t.cwdDir]; exact nofun)), t.cwdDir] }

/-- Whether `i` is `d` or above it, seen from at most `fuel` directories up. -/
def above : Nat → Nat → Nat → Bool
  | 0, _, _ => false
  | fuel + 1, i, d =>
    i == d || (d != t.root &&
      match t.nodes d with
      | .dir _ parent _ => above fuel i parent
      | _ => false)

def isEmpty (i : Nat) : Bool :=
  match t.nodes i with
  | .dir _ _ entries => entries.entries.isEmpty
  | _ => true

def refused (r : Request ν) (t' : Tree ν) : Except Errno (Tree ν) :=
  match host.refuse t r with
  | some n => .error (.other n)
  | none => .ok t'

def unlink (p : Path ν) : Except Errno (Tree ν) :=
  match t.parentAt host p with
  | .error e => .error e
  | .ok d =>
    match p.last with
    | none => .error .isdir
    | some c =>
      match t.look host d (.name c) with
      | .error e => .error e
      | .ok i =>
        if t.isDir i then .error .isdir else t.refused host (.unlink d c) (t.bind d c none)

def mkdir (p : Path ν) (mode : Nat) : Except Errno (Tree ν) :=
  match t.parentAt host p with
  | .error e => .error e
  | .ok d =>
    match p.last with
    | none => .error .exist
    | some c =>
      match t.look host d (.name c) with
      | .ok _ => .error .exist
      | .error .noent =>
        t.refused host (.mkdir d c) ((t.alloc (.dir mode d ∅)).bind d c (some t.next))
      | .error e => .error e

def rmdir (p : Path ν) : Except Errno (Tree ν) :=
  match t.parentAt host p with
  | .error e => .error e
  | .ok d =>
    match p.last with
    | none => .error .busy
    | some c =>
      match t.look host d (.name c) with
      | .error e => .error e
      | .ok i =>
        if !t.isDir i then .error .notdir
        else if !t.isEmpty i then .error .notempty
        else t.refused host (.rmdir d c) (t.bind d c none)

end Tree

/-- `RENAME_NOREPLACE`. -/
def renameNoReplace : UInt32 := 1

/-- `RENAME_EXCHANGE`. -/
def renameExchange : UInt32 := 2

/-- `RENAME_WHITEOUT`. -/
def renameWhiteout : UInt32 := 4

def has (flags bit : UInt32) : Bool := flags &&& bit != 0

def validFlags (flags : UInt32) : Bool :=
  flags ||| 7 == 7 && !(has flags renameExchange && (has flags renameNoReplace || has flags renameWhiteout))

namespace Tree

/-- The old entry goes, or is left to a device that hides the name; the new one names file `i`. -/
def moved (d : Nat) (c : ν) (e : Nat) (b : ν) (i : Nat) (flags : UInt32) : Tree ν :=
  let left := if has flags renameWhiteout then (t.alloc .file).bind d c (some t.next)
    else t.bind d c none
  (left.bind e b (some i)).reparent i e

def exchanged (d : Nat) (c : ν) (e : Nat) (b : ν) (i j : Nat) : Tree ν :=
  ((((t.bind d c (some j)).bind e b (some i)).reparent j d).reparent i e)

/-- File `i` over what the new entry names. Two names of one file stay as they are. -/
def replace (d : Nat) (c : ν) (e : Nat) (b : ν) (i : Nat) (o : Option Nat) (flags : UInt32) :
    Except Errno (Tree ν) :=
  if o = some i then .ok t
  else if t.above (t.next + 1) i e then .error .inval
  else if o.any fun j => t.above (t.next + 1) j d then
    .error (if has flags renameExchange then .inval else .notempty)
  else
    match o with
    | none => t.refused host (.rename d c e b flags) (t.moved d c e b i flags)
    | some j =>
      if has flags renameExchange then
        t.refused host (.rename d c e b flags) (t.exchanged d c e b i j)
      else if t.isDir i && !t.isDir j then .error .notdir
      else if !t.isDir i && t.isDir j then .error .isdir
      else if !t.isEmpty j then .error .notempty
      else t.refused host (.rename d c e b flags) (t.moved d c e b i flags)

/-- Entry `c` of `d` becomes entry `b` of `e`. -/
def renameEntry (d : Nat) (c : ν) (e : Nat) (b : ν) (flags : UInt32) : Except Errno (Tree ν) :=
  match t.look host d (.name c) with
  | .error err => .error err
  | .ok i =>
    match t.look host e (.name b) with
    | .ok j =>
      if has flags renameNoReplace then .error .exist else t.replace host d c e b i (some j) flags
    | .error .noent =>
      if has flags renameExchange then .error .noent else t.replace host d c e b i none flags
    | .error err => .error err

def renameat2 (p q : Path ν) (flags : UInt32) : Except Errno (Tree ν) :=
  if !validFlags flags then .error .inval
  else
    match t.parentAt host p with
    | .error err => .error err
    | .ok d =>
      match t.parentAt host q with
      | .error err => .error err
      | .ok e =>
        match p.last, q.last with
        | none, _ => .error .busy
        | _, none => .error (if has flags renameNoReplace then .exist else .busy)
        | some c, some b => t.renameEntry host d c e b flags

/-! ## What a change leaves of the names -/

variable {host t} {d e i : Nat} {c : ν}

@[simp] theorem kind_bind (o : Option Nat) (k : Nat) :
    ((t.bind d c o).nodes k).kind = (t.nodes k).kind :=
  kind_update (Node.kind_bind ..) k

omit [DecidableEq ν] in
theorem nodes_alloc {n : Node ν} {k : Nat} (hk : (t.nodes k).kind ≠ .file) :
    (t.alloc n).nodes k = t.nodes k :=
  Function.update_of_ne (t.ne_next hk) ..

@[simp] theorem isDir_bind (o : Option Nat) (k : Nat) : (t.bind d c o).isDir k = t.isDir k := by
  rw [isDir, isDir, kind_bind]

/-- Directory `d` can be searched for `c`. -/
def Searches (host : Host ν) (t : Tree ν) (d : Nat) (c : ν) : Prop :=
  ∃ mode parent entries, t.nodes d = .dir mode parent entries ∧ host.searchable mode = true ∧
    host.long c = false

theorem searches_of_look
    (h : (∃ k, t.look host d (.name c) = .ok k) ∨ t.look host d (.name c) = .error .noent) :
    t.Searches host d c := by
  unfold look at h
  cases hn : t.nodes d with
  | link => simp [hn] at h
  | file => simp [hn] at h
  | dir mode parent entries =>
    rw [hn] at h
    dsimp only at h
    split_ifs at h with hsearch hlong
    · simp at h
    · simp at h
    · exact ⟨mode, parent, entries, hn, by simpa using hsearch, Bool.not_eq_true _ ▸ hlong⟩

theorem searches_of_ok (h : t.look host d (.name c) = .ok i) : t.Searches host d c :=
  searches_of_look (Or.inl ⟨i, h⟩)

theorem searches_of_noent (h : t.look host d (.name c) = .error .noent) : t.Searches host d c :=
  searches_of_look (Or.inr h)

theorem Searches.bind (h : t.Searches host d c) (x : Nat) (b : ν) (o : Option Nat) :
    (t.bind x b o).Searches host d c := by
  obtain ⟨mode, parent, entries, hnode, hsearch, hlong⟩ := h
  unfold Searches Tree.bind
  rcases eq_or_ne d x with rfl | hne
  · dsimp only
    rw [Function.update_self, hnode]
    exact ⟨mode, parent, _, rfl, hsearch, hlong⟩
  · dsimp only
    rw [Function.update_of_ne hne]
    exact ⟨mode, parent, entries, hnode, hsearch, hlong⟩

omit [DecidableEq ν] in
theorem Searches.alloc (h : t.Searches host d c) (n : Node ν) :
    (t.alloc n).Searches host d c := by
  obtain ⟨mode, parent, entries, hnode, hsearch, hlong⟩ := h
  refine ⟨mode, parent, entries, ?_, hsearch, hlong⟩
  rw [nodes_alloc (by rw [hnode]; exact nofun), hnode]

theorem kind_of_look {p : Part ν} (h : t.look host d p = .ok i) : (t.nodes d).kind = .dir := by
  unfold look at h
  cases hn : t.nodes d with
  | dir => rfl
  | link => simp [hn] at h
  | file => simp [hn] at h

/-- Other entries stay. -/
theorem look_bind_of_ne {o : Option Nat} {x : Nat} {p : Part ν} (h : x ≠ d ∨ p ≠ .name c) :
    (t.bind d c o).look host x p = t.look host x p := by
  rcases eq_or_ne x d with rfl | hne
  · have hp : p ≠ .name c := h.resolve_left fun hx => hx rfl
    unfold look bind
    dsimp only
    rw [Function.update_self]
    cases t.nodes x with
    | link => rfl
    | file => rfl
    | dir mode parent entries =>
      cases p with
      | self => rfl
      | up => rfl
      | name b =>
        have hb : b ≠ c := fun hb => hp (congrArg Part.name hb)
        cases o with
        | none =>
          dsimp only [Node.bind]
          rw [AList.lookup_erase_ne hb]
        | some j =>
          dsimp only [Node.bind]
          rw [AList.lookup_insert_ne hb]
  · unfold look bind
    dsimp only
    rw [Function.update_of_ne hne]

/-- The entry itself. -/
theorem look_bind_self (h : t.Searches host d c) (o : Option Nat) :
    (t.bind d c o).look host d (.name c) =
      match o with
      | none => .error .noent
      | some j => .ok j := by
  obtain ⟨mode, parent, entries, hnode, hsearch, hlong⟩ := h
  unfold look bind
  dsimp only
  rw [Function.update_self, hnode]
  dsimp only [Node.bind]
  rw [hsearch, hlong]
  cases o with
  | none => simp
  | some j => simp

theorem look_reparent (x : Nat) (b : ν) :
    (t.reparent i e).look host x (.name b) = t.look host x (.name b) := by
  unfold look reparent
  rcases eq_or_ne x i with rfl | hne
  · dsimp only
    rw [Function.update_self]
    cases t.nodes x <;> rfl
  · dsimp only
    rw [Function.update_of_ne hne]

theorem look_alloc {n : Node ν} {x : Nat} {p : Part ν} (h : (t.nodes x).kind = .dir) :
    (t.alloc n).look host x p = t.look host x p := by
  have hkeep : (t.alloc n).nodes x = t.nodes x := nodes_alloc (by rw [h]; exact nofun)
  unfold look
  rw [hkeep]

omit [DecidableEq ν] in
theorem reparent_of_not_dir (h : t.isDir i = false) : t.reparent i e = t := by
  have hnode : (t.nodes i).reparent e = t.nodes i := by
    unfold isDir at h
    cases hn : t.nodes i with
    | dir => simp [hn, Node.kind] at h
    | link => rfl
    | file => rfl
  unfold reparent
  congr 1
  rw [hnode, Function.update_eq_self]

/-! ## Walks in a changed tree -/

variable {t' : Tree ν}

theorem walkFrom_erase {follow follow' : Nat → List (Part ν) → Except Errno Nat}
    (hroot : t'.root = t.root) (hkind : ∀ k, (t'.nodes k).kind = (t.nodes k).kind)
    (hlook : ∀ x p, t'.look host x p = t.look host x p ∨ t'.look host x p = .error .noent)
    (hfollow : ∀ x ps, follow' x ps = follow x ps ∨ follow' x ps = .error .noent) (x : Nat)
    (ps : List (Part ν)) :
    t'.walkFrom host follow' x ps = t.walkFrom host follow x ps ∨
      t'.walkFrom host follow' x ps = .error .noent := by
  induction ps generalizing x with
  | nil => exact Or.inl rfl
  | cons p rest ih =>
    rw [walkFrom, walkFrom]
    rcases hlook x p with hsame | hgone
    · rw [hsame]
      cases t.look host x p with
      | error err => exact Or.inl rfl
      | ok k =>
        dsimp only
        rw [hkind, hroot]
        cases (t.nodes k).kind with
        | dir => exact ih k
        | link absolute target => exact hfollow _ _
        | file => exact Or.inl rfl
    · rw [hgone]
      exact Or.inr rfl

/-- **A name less**: a walk ends as before, or on the missing name. -/
theorem walk_erase (budget x : Nat) (ps : List (Part ν))
    (h : t.look host d (.name c) = .ok i) :
    (t.bind d c none).walk host budget x ps = t.walk host budget x ps ∨
      (t.bind d c none).walk host budget x ps = .error .noent := by
  have hlook : ∀ x p, (t.bind d c none).look host x p = t.look host x p ∨
      (t.bind d c none).look host x p = .error .noent := by
    intro x p
    by_cases hp : x = d ∧ p = .name c
    · obtain ⟨rfl, rfl⟩ := hp
      exact Or.inr (look_bind_self (searches_of_ok h) none)
    · exact Or.inl (look_bind_of_ne (not_and_or.mp hp))
  have hroot : (t.bind d c none).root = t.root := rfl
  induction budget generalizing x ps with
  | zero => exact walkFrom_erase hroot (kind_bind none) hlook (fun _ _ => Or.inl rfl) x ps
  | succ budget ih => exact walkFrom_erase hroot (kind_bind none) hlook ih x ps

/-- A walk by files of kinds `P` that a changed tree keeps. -/
theorem walkFrom_keep {follow follow' : Nat → List (Part ν) → Except Errno Nat}
    {P : Kind ν → Prop} (hroot : t'.root = t.root) (hdir : P .dir)
    (hlink : ∀ a target x rest r, follow x rest = .ok r → P (.link a target))
    (hfollow : ∀ x rest r, follow x rest = .ok r → follow' x rest = .ok r)
    (hkeep : ∀ x p k, t.look host x p = .ok k → P (t.nodes k).kind →
      t'.look host x p = .ok k ∧ (t'.nodes k).kind = (t.nodes k).kind)
    {x r : Nat} {ps : List (Part ν)} (h : t.walkFrom host follow x ps = .ok r) :
    t'.walkFrom host follow' x ps = .ok r := by
  induction ps generalizing x with
  | nil => exact h
  | cons p rest ih =>
    rw [walkFrom] at h ⊢
    cases hlook : t.look host x p with
    | error err =>
      rw [hlook] at h
      cases h
    | ok k =>
      rw [hlook] at h
      dsimp only at h
      cases hkind : (t.nodes k).kind with
      | dir =>
        obtain ⟨hlook', hkind'⟩ := hkeep x p k hlook (hkind ▸ hdir)
        rw [hkind] at h hkind'
        rw [hlook']
        dsimp only
        rw [hkind']
        exact ih h
      | link absolute target =>
        rw [hkind] at h
        obtain ⟨hlook', hkind'⟩ := hkeep x p k hlook (hkind ▸ hlink absolute target _ _ _ h)
        rw [hkind] at hkind'
        rw [hlook']
        dsimp only
        rw [hkind', hroot]
        exact hfollow _ _ _ h
      | file =>
        rw [hkind] at h
        cases h

/-- **A walk finds its way again** where every entry it may have gone by is kept. -/
theorem walk_keep (hroot : t'.root = t.root)
    (hkeep : ∀ x p k, t.look host x p = .ok k → (t.nodes k).kind ≠ .file →
      t'.look host x p = .ok k ∧ (t'.nodes k).kind = (t.nodes k).kind) {budget x r : Nat}
    {ps : List (Part ν)} (h : t.walk host budget x ps = .ok r) :
    t'.walk host budget x ps = .ok r := by
  have hlink : ∀ (follow : Nat → List (Part ν) → Except Errno Nat) a target x rest r,
      follow x rest = .ok r → (Kind.link a target : Kind ν) ≠ .file := fun _ _ _ _ _ _ _ => nofun
  induction budget generalizing x ps r with
  | zero => exact walkFrom_keep (P := (· ≠ .file)) hroot nofun (hlink _) (fun _ _ _ h => h) hkeep h
  | succ budget ih =>
    exact walkFrom_keep (P := (· ≠ .file)) hroot nofun (hlink _) (fun _ _ _ h => ih h) hkeep h

/-- **A walk by directories only** does not see what becomes of the other entries. -/
theorem walk_plain (hroot : t'.root = t.root)
    (hkeep : ∀ x p k, t.look host x p = .ok k → (t.nodes k).kind = .dir →
      t'.look host x p = .ok k ∧ (t'.nodes k).kind = .dir) {x r : Nat} {ps : List (Part ν)}
    (h : t.walk host 0 x ps = .ok r) (budget : Nat) : t'.walk host budget x ps = .ok r := by
  have hkeep' : ∀ x p k, t.look host x p = .ok k → (t.nodes k).kind = .dir →
      t'.look host x p = .ok k ∧ (t'.nodes k).kind = (t.nodes k).kind := by
    intro x p k hlook hkind
    rw [hkind]
    exact hkeep x p k hlook hkind
  have hany : ∀ follow', t'.walkFrom host follow' x ps = .ok r := by
    intro follow'
    refine walkFrom_keep (P := (· = .dir)) hroot rfl ?_ ?_ hkeep' h
    · intro a target y rest s hs
      cases hs
    · intro y rest s hs
      cases hs
  cases budget with
  | zero => exact hany _
  | succ budget => exact hany _

end Tree

end NameTree

end ModelFs
