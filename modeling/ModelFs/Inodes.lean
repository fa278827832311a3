import Mathlib.Logic.Function.Basic
import ModelFs.Lib.Machine

/-!
# The inode table

The kernel names files by inode numbers, the mount by paths. `nodes` says which path a number
stands for and how many lookup references the kernel has to it, `paths` which number a path has,
`opens` the path of each open handle. `internPath` and `dropLookup` add and remove references, and
`renameNodes` moves whatever is at or below a renamed path, one node after the other in the order
in which the hash map gives them.

The tables are functions, and the order of a walk is any list of the live numbers (`Order`). An
allocation that fails is a parameter: of `internPath`, and in `renameNodes` one for each node and
each handle (`Fails`). All three functions run under `nodes_mu`, so each is one step.

* `consistent_of_run` — a path's number stands for that path, in every run.
* `tables_of_run` — **the two maps are inverses, and a rename carries each node to its new name in
  any order**, in every run whose renames allocate what they need and land on free names.
* `tables_fail` — what goes wrong after the other renames.
-/

namespace ModelFs

namespace Inodes

/-- `sys.c.PATH_MAX`. -/
def pathMax : Nat := 4096

/-- The mount root. It is never in the tables. -/
def rootIno : Nat := 1

def slash : UInt8 := 47

def rootPath : List UInt8 := [slash]

structure Node where
  path : List UInt8
  /-- Lookup references of the kernel. -/
  nlookup : Nat
  deriving DecidableEq

/-- `nodes`, `paths` and `opens` of the daemon's state. -/
structure Tables where
  nodes : Nat → Option Node := fun _ => none
  paths : List UInt8 → Option Nat := fun _ => none
  opens : Nat → Option (List UInt8) := fun _ => none
  nextIno : Nat := 2
  nextFh : Nat := 1

/-- A path that fits the caller's buffer. -/
def fitting (path : List UInt8) : Option (List UInt8) :=
  if pathMax < path.length then none else some path

def pathForIno (s : Tables) (ino : Nat) : Option (List UInt8) :=
  if ino = rootIno then some rootPath
  else (s.nodes ino).bind fun node => fitting node.path

def pathForFh (s : Tables) (fh : Nat) : Option (List UInt8) :=
  if fh = 0 then none else (s.opens fh).bind fitting

/-- The handle's path where there is one, else the inode's. -/
def pathForOp (s : Tables) (ino fh : Nat) : Option (List UInt8) :=
  (pathForFh s fh).orElse fun _ => pathForIno s ino

/-- `parent` joined with one component: the root's children do not get a second slash. -/
def childPath (parent name : List UInt8) : Option (List UInt8) :=
  let stem := if parent = rootPath then [] else parent
  if pathMax ≤ stem.length + 1 + name.length then none else some (stem ++ slash :: name)

/-- `alloc` says whether the allocations for a new node succeed. -/
def internPath (s : Tables) (path : List UInt8) (alloc : Bool) : Option (Nat × Tables) :=
  if path = rootPath then some (rootIno, s)
  else match s.paths path with
    | some ino =>
      some (ino, { s with
        nodes := Function.update s.nodes ino
          ((s.nodes ino).map fun node => { node with nlookup := node.nlookup + 1 }) })
    | none =>
      if alloc then
        some (s.nextIno, { s with
          nextIno := s.nextIno + 1
          nodes := Function.update s.nodes s.nextIno (some ⟨path, 1⟩)
          paths := Function.update s.paths path (some s.nextIno) })
      else none

/-- The name `path` no longer stands for `ino`. -/
def unmap (paths : List UInt8 → Option Nat) (path : List UInt8) (ino : Nat) :
    List UInt8 → Option Nat :=
  if paths path = some ino then Function.update paths path none else paths

/-- FORGET of `n` references. -/
def dropLookup (s : Tables) (ino n : Nat) : Tables :=
  if ino = rootIno then s
  else match s.nodes ino with
    | none => s
    | some node =>
      if n < node.nlookup then
        { s with
          nodes := Function.update s.nodes ino
            (some { node with nlookup := node.nlookup - n }) }
      else
        { s with
          paths := unmap s.paths node.path ino
          nodes := Function.update s.nodes ino none }

/-- The rename of `old` moves `path`: it is `old`, or below it. -/
def covered (old path : List UInt8) : Bool :=
  path = old ||
    (old.length < path.length && old.isPrefixOf path && path[old.length]? = some slash)

def renamedPath (old new path : List UInt8) : Option (List UInt8) :=
  if covered old path then some (new ++ path.drop old.length) else none

/-- How the allocations for one node go: `renamedPath`'s may fail, or that of `paths.put`. -/
inductive Alloc where
  | ok
  | noPath
  | noPut
  deriving DecidableEq

/-- The allocations of one `renameNodes`, for each node and each handle. -/
structure Fails where
  node : Nat → Alloc := fun _ => .ok
  handle : Nat → Bool := fun _ => false

/-- One round of the walk over `nodes`. -/
def renameNode (old new : List UInt8) (alloc : Alloc) (s : Tables) (ino : Nat) : Tables :=
  match s.nodes ino with
  | none => s
  | some node =>
    match alloc, renamedPath old new node.path with
    | .noPath, _ => s
    | _, none => s
    | alloc, some moved =>
      -- whoever had the destination name loses it
      let paths := Function.update (unmap s.paths node.path ino) moved none
      { s with
        nodes := Function.update s.nodes ino (some { node with path := moved })
        paths := if alloc = .ok then Function.update paths moved (some ino) else paths }

/-- What the walk over `opens` makes of one handle's path. -/
def renamedOpen (old new : List UInt8) (fails : Bool) (path : List UInt8) : List UInt8 :=
  if fails then path else (renamedPath old new path).getD path

def renameNodes (s : Tables) (order : List Nat) (old new : List UInt8) (fails : Fails) : Tables :=
  let s := order.foldl (fun s ino => renameNode old new (fails.node ino) s ino) s
  { s with opens := fun fh => (s.opens fh).map (renamedOpen old new (fails.handle fh)) }

/-- `none` from an allocation leaves no record, which handle 0 stands for. -/
def rememberOpen (s : Tables) (path : List UInt8) (alloc : Bool) : Nat × Tables :=
  if alloc then
    (s.nextFh, { s with
      nextFh := s.nextFh + 1, opens := Function.update s.opens s.nextFh (some path) })
  else (0, s)

def forgetOpen (s : Tables) (fh : Nat) : Tables :=
  if fh = 0 then s else { s with opens := Function.update s.opens fh none }

/-- A walk over `nodes` visits each live number once, in an order of the map's own. -/
def Order (s : Tables) (order : List Nat) : Prop :=
  order.Nodup ∧ ∀ ino, ino ∈ order ↔ (s.nodes ino).isSome = true

/-- One call, with any arguments; a destination is never the root. `Allowed` is asked about each
rename. -/
inductive Step (Allowed : Tables → List UInt8 → List UInt8 → Fails → Prop) (s : Tables) :
    Tables → Prop where
  | internPath {path : List UInt8} {alloc : Bool} {ino : Nat} {s' : Tables}
      (h : internPath s path alloc = some (ino, s')) : Step Allowed s s'
  | dropLookup (ino n : Nat) : Step Allowed s (dropLookup s ino n)
  | renameNodes {order : List Nat} {old new : List UInt8} {fails : Fails} (horder : Order s order)
      (hnew : 1 < new.length) (hallowed : Allowed s old new fails) :
      Step Allowed s (renameNodes s order old new fails)

variable {s s' : Tables} {old new path moved : List UInt8} {fails : Fails} {order : List Nat}

/-! ## Renamed paths -/

theorem renamedPath_eq_some (h : renamedPath old new path = some moved) :
    ∃ suffix, path = old ++ suffix ∧ moved = new ++ suffix := by
  unfold renamedPath covered at h
  split_ifs at h with hcov
  obtain rfl := Option.some.inj h
  refine ⟨path.drop old.length, ?_, rfl⟩
  rcases (Bool.or_eq_true _ _).mp hcov with heq | hbelow
  · rw [of_decide_eq_true heq]
    simp
  · simp only [Bool.and_eq_true] at hbelow
    obtain ⟨suffix, hsuffix⟩ := List.isPrefixOf_iff_prefix.mp hbelow.1.2
    rw [← hsuffix]
    simp

/-- Different paths stay different. -/
theorem renamedPath_inj {path' : List UInt8} (h : renamedPath old new path = some moved)
    (h' : renamedPath old new path' = some moved) : path = path' := by
  obtain ⟨suffix, hpath, hmoved⟩ := renamedPath_eq_some h
  obtain ⟨suffix', hpath', hmoved'⟩ := renamedPath_eq_some h'
  have hsuffix : suffix = suffix' := List.append_cancel_left (hmoved.symm.trans hmoved')
  rw [hpath, hpath', hsuffix]

theorem renamedPath_ne_root (hnew : 1 < new.length) (h : renamedPath old new path = some moved) :
    moved ≠ rootPath := by
  obtain ⟨suffix, -, hmoved⟩ := renamedPath_eq_some h
  intro hroot
  have hlen := congrArg List.length (hmoved.symm.trans hroot)
  rw [List.length_append] at hlen
  unfold rootPath at hlen
  rw [List.length_singleton] at hlen
  omega

/-! ## A path's number stands for that path -/

/-- The number a path has stands for that path, and numbers are not used before they are due. -/
structure Consistent (s : Tables) : Prop where
  named : ∀ p i, s.paths p = some i → ∃ node, s.nodes i = some node ∧ node.path = p
  fresh : ∀ i, s.nextIno ≤ i → s.nodes i = none

theorem Consistent.lt_next (h : Consistent s) {i : Nat} {node : Node}
    (hnode : s.nodes i = some node) : i < s.nextIno := by
  by_contra hge
  rw [h.fresh i (Nat.not_lt.mp hge)] at hnode
  cases hnode

theorem unmap_eq_some {paths : List UInt8 → Option Nat} {ino i : Nat} {p : List UInt8}
    (h : unmap paths path ino p = some i) : paths p = some i ∧ ¬ (p = path ∧ i = ino) := by
  unfold unmap at h
  split_ifs at h with hmap
  · by_cases hp : p = path
    · rw [hp, Function.update_self] at h
      cases h
    · rw [Function.update_of_ne hp] at h
      exact ⟨h, fun hboth => hp hboth.1⟩
  · refine ⟨h, fun hboth => hmap ?_⟩
    rw [← hboth.1, ← hboth.2]
    exact h

/-- What `internPath` answers: the root, a known path's number, or a new one. -/
theorem internPath_cases {alloc : Bool} {ino : Nat}
    (h : internPath s path alloc = some (ino, s')) :
    (path = rootPath ∧ ino = rootIno ∧ s' = s) ∨
      (path ≠ rootPath ∧ s.paths path = some ino ∧ s' = { s with
        nodes := Function.update s.nodes ino
          ((s.nodes ino).map fun node => { node with nlookup := node.nlookup + 1 }) }) ∨
      (path ≠ rootPath ∧ s.paths path = none ∧ ino = s.nextIno ∧ s' = { s with
        nextIno := s.nextIno + 1
        nodes := Function.update s.nodes s.nextIno (some ⟨path, 1⟩)
        paths := Function.update s.paths path (some s.nextIno) }) := by
  unfold internPath at h
  by_cases hroot : path = rootPath
  · rw [if_pos hroot] at h
    cases h
    exact Or.inl ⟨hroot, rfl, rfl⟩
  · rw [if_neg hroot] at h
    rcases hpath : s.paths path with _ | i
    · rw [hpath] at h
      cases alloc
      · cases h
      · cases h
        exact Or.inr (Or.inr ⟨hroot, rfl, rfl, rfl⟩)
    · rw [hpath] at h
      cases h
      exact Or.inr (Or.inl ⟨hroot, rfl, rfl⟩)

/-- What `dropLookup` does: nothing, it takes references off a node, or it drops the node. -/
theorem dropLookup_cases (s : Tables) (ino n : Nat) :
    (dropLookup s ino n = s ∧ (ino = rootIno ∨ s.nodes ino = none)) ∨
      ∃ node, ino ≠ rootIno ∧ s.nodes ino = some node ∧
        ((n < node.nlookup ∧ dropLookup s ino n = { s with
            nodes := Function.update s.nodes ino
              (some { node with nlookup := node.nlookup - n }) }) ∨
          (node.nlookup ≤ n ∧ dropLookup s ino n = { s with
            paths := unmap s.paths node.path ino
            nodes := Function.update s.nodes ino none })) := by
  unfold dropLookup
  by_cases hroot : ino = rootIno
  · rw [if_pos hroot]
    exact Or.inl ⟨rfl, Or.inl hroot⟩
  · rw [if_neg hroot]
    rcases hnode : s.nodes ino with _ | node
    · exact Or.inl ⟨rfl, Or.inr rfl⟩
    · refine Or.inr ⟨node, hroot, rfl, ?_⟩
      dsimp only
      by_cases hn : n < node.nlookup
      · rw [if_pos hn]
        exact Or.inl ⟨hn, rfl⟩
      · rw [if_neg hn]
        exact Or.inr ⟨Nat.not_lt.mp hn, rfl⟩

/-- A node changes and keeps its path. -/
theorem Consistent.updateNode (h : Consistent s) {ino : Nat} {node node' : Node}
    (hnode : s.nodes ino = some node) (hpath : node'.path = node.path) :
    Consistent { s with nodes := Function.update s.nodes ino (some node') } := by
  have hlt := h.lt_next hnode
  refine ⟨fun p i hmap => ?_, fun i hi => ?_⟩
  · obtain ⟨node₀, hnode₀, hname⟩ := h.named p i hmap
    dsimp only
    by_cases hi : i = ino
    · subst hi
      rw [hnode] at hnode₀
      cases hnode₀
      exact ⟨node', Function.update_self .., hpath.trans hname⟩
    · exact ⟨node₀, by rw [Function.update_of_ne hi, hnode₀], hname⟩
  · dsimp only at hi ⊢
    rw [Function.update_of_ne (by omega)]
    exact h.fresh i hi

theorem Consistent.internPath (h : Consistent s) {alloc : Bool} {ino : Nat}
    (hcall : internPath s path alloc = some (ino, s')) : Consistent s' := by
  rcases internPath_cases hcall with ⟨-, -, rfl⟩ | ⟨-, hpath, rfl⟩ | ⟨-, hpath, rfl, rfl⟩
  · exact h
  · obtain ⟨node, hnode, -⟩ := h.named path ino hpath
    rw [hnode]
    exact h.updateNode hnode rfl
  · refine ⟨fun p i hmap => ?_, fun i hi => ?_⟩
    · dsimp only at hmap ⊢
      by_cases hp : p = path
      · rw [hp, Function.update_self] at hmap
        obtain rfl := Option.some.inj hmap
        exact ⟨_, Function.update_self .., hp.symm⟩
      · rw [Function.update_of_ne hp] at hmap
        obtain ⟨node, hnode, hname⟩ := h.named p i hmap
        exact ⟨node, by rw [Function.update_of_ne (Nat.ne_of_lt (h.lt_next hnode)), hnode], hname⟩
    · dsimp only at hi ⊢
      rw [Function.update_of_ne (by omega)]
      exact h.fresh i (by omega)

theorem Consistent.dropLookup (h : Consistent s) (ino n : Nat) :
    Consistent (dropLookup s ino n) := by
  rcases dropLookup_cases s ino n with
    ⟨heq, -⟩ | ⟨node, -, hnode, ⟨-, heq⟩ | ⟨-, heq⟩⟩ <;> rw [heq]
  · exact h
  · exact h.updateNode hnode rfl
  · have hlt := h.lt_next hnode
    refine ⟨fun p i hmap => ?_, fun i hi => ?_⟩
    · obtain ⟨hmap, hother⟩ := unmap_eq_some hmap
      obtain ⟨node', hnode', hname⟩ := h.named p i hmap
      have hi : i ≠ ino := by
        rintro rfl
        rw [hnode] at hnode'
        cases hnode'
        exact hother ⟨hname.symm, rfl⟩
      dsimp only
      exact ⟨node', by rw [Function.update_of_ne hi, hnode'], hname⟩
    · dsimp only at hi ⊢
      rw [Function.update_of_ne (by omega)]
      exact h.fresh i hi

/-- What one round of the walk does: nothing, or one node moves. -/
theorem renameNode_cases (old new : List UInt8) (alloc : Alloc) (s : Tables) (ino : Nat) :
    renameNode old new alloc s ino = s ∧ (alloc = .noPath ∨
        ∀ node, s.nodes ino = some node → renamedPath old new node.path = none) ∨
      ∃ node moved, s.nodes ino = some node ∧ renamedPath old new node.path = some moved ∧
        alloc ≠ .noPath ∧ renameNode old new alloc s ino = { s with
          nodes := Function.update s.nodes ino (some { node with path := moved })
          paths := Function.update (unmap s.paths node.path ino) moved
            (if alloc = .ok then some ino else none) } := by
  unfold renameNode
  rcases hnode : s.nodes ino with _ | node
  · exact Or.inl ⟨rfl, Or.inr fun _ h => absurd h (by simp)⟩
  · dsimp only
    rcases hmoved : renamedPath old new node.path with _ | moved
    · refine Or.inl ⟨by cases alloc <;> rfl, Or.inr fun node' h => ?_⟩
      rw [← Option.some.inj h]
      exact hmoved
    · cases alloc with
      | noPath => exact Or.inl ⟨rfl, Or.inl rfl⟩
      | ok =>
        refine Or.inr ⟨node, moved, rfl, hmoved, by decide, ?_⟩
        dsimp only
        rw [if_pos rfl, if_pos rfl, Function.update_idem]
      | noPut =>
        refine Or.inr ⟨node, moved, rfl, hmoved, by decide, ?_⟩
        dsimp only
        rw [if_neg (by decide), if_neg (by decide)]

/-- A round is about one node. -/
theorem nodes_renameNode_of_ne (alloc : Alloc) {ino i : Nat} (hi : i ≠ ino) :
    (renameNode old new alloc s ino).nodes i = s.nodes i := by
  rcases renameNode_cases old new alloc s ino with ⟨heq, -⟩ | ⟨node, moved, -, -, -, heq⟩
  · rw [heq]
  · rw [heq]
    exact Function.update_of_ne hi ..

/-- The nodes after the walk: each has its renamed path, unless there was no memory for it. -/
theorem nodes_renameNodes {i : Nat} {node : Node} (horder : Order s order)
    (hnode : s.nodes i = some node)
    (hok : ∀ moved, renamedPath old new node.path = some moved → fails.node i ≠ .noPath) :
    (renameNodes s order old new fails).nodes i =
      some { node with path := (renamedPath old new node.path).getD node.path } := by
  have hrest : ∀ (order : List Nat) (s : Tables), i ∉ order →
      (order.foldl (fun s ino => renameNode old new (fails.node ino) s ino) s).nodes i =
        s.nodes i := by
    intro order
    induction order with
    | nil => exact fun s _ => rfl
    | cons ino rest ih =>
      intro s hi
      exact (ih _ fun hmem => hi (List.mem_cons_of_mem _ hmem)).trans
        (nodes_renameNode_of_ne (fails.node ino) (List.ne_of_not_mem_cons hi))
  have hround : ∀ s : Tables, s.nodes i = some node →
      (renameNode old new (fails.node i) s i).nodes i =
        some { node with path := (renamedPath old new node.path).getD node.path } := by
    intro s hnode
    rcases renameNode_cases old new (fails.node i) s i with
      ⟨heq, hstays⟩ | ⟨node', moved, hnode', hmoved, -, heq⟩
    · rw [heq, hnode]
      rcases hmoved : renamedPath old new node.path with _ | moved
      · rfl
      · rcases hstays with hfail | hstays
        · exact absurd hfail (hok moved hmoved)
        · rw [hstays node hnode] at hmoved
          cases hmoved
    · rw [hnode] at hnode'
      cases hnode'
      rw [heq, hmoved]
      exact Function.update_self ..
  have hwalk : ∀ (order : List Nat) (s : Tables), order.Nodup → i ∈ order → s.nodes i = some node →
      (order.foldl (fun s ino => renameNode old new (fails.node ino) s ino) s).nodes i =
        some { node with path := (renamedPath old new node.path).getD node.path } := by
    intro order
    induction order with
    | nil => exact fun s _ hi => absurd hi List.not_mem_nil
    | cons ino rest ih =>
      intro s hnodup hi hnode
      obtain ⟨hnew, hnodup⟩ := List.nodup_cons.mp hnodup
      by_cases hino : i = ino
      · subst hino
        exact (hrest rest _ hnew).trans (hround s hnode)
      · exact ih _ hnodup ((List.mem_cons.mp hi).resolve_left hino)
          ((nodes_renameNode_of_ne (fails.node ino) hino).trans hnode)
  exact hwalk order s horder.1 ((horder.2 i).mpr (by rw [hnode]; rfl)) hnode

theorem nodes_renameNodes_none {i : Nat} (hnode : s.nodes i = none) :
    (renameNodes s order old new fails).nodes i = none := by
  have hwalk : (order.foldl (fun s ino => renameNode old new (fails.node ino) s ino) s).nodes i =
      none := by
    induction order generalizing s with
    | nil => exact hnode
    | cons ino rest ih =>
      refine ih ?_
      by_cases hino : i = ino
      · subst hino
        rcases renameNode_cases old new (fails.node i) s i with
          ⟨heq, -⟩ | ⟨node', moved, hnode', -, -, -⟩
        · dsimp only
          rw [heq, hnode]
        · rw [hnode] at hnode'
          cases hnode'
      · exact (nodes_renameNode_of_ne (fails.node ino) hino).trans hnode
  exact hwalk

theorem next_renameNodes (s : Tables) (order : List Nat) (old new : List UInt8) (fails : Fails) :
    (renameNodes s order old new fails).nextIno = s.nextIno ∧
      (renameNodes s order old new fails).nextFh = s.nextFh ∧
      (renameNodes s order old new fails).opens =
        fun fh => (s.opens fh).map (renamedOpen old new (fails.handle fh)) := by
  have hwalk : ∀ s : Tables,
      (order.foldl (fun s ino => renameNode old new (fails.node ino) s ino) s).nextIno =
          s.nextIno ∧
        (order.foldl (fun s ino => renameNode old new (fails.node ino) s ino) s).nextFh =
          s.nextFh ∧
        (order.foldl (fun s ino => renameNode old new (fails.node ino) s ino) s).opens =
          s.opens := by
    induction order with
    | nil => exact fun s => ⟨rfl, rfl, rfl⟩
    | cons ino rest ih =>
      intro s
      obtain ⟨h₁, h₂, h₃⟩ := ih (renameNode old new (fails.node ino) s ino)
      rcases renameNode_cases old new (fails.node ino) s ino with
        ⟨heq, -⟩ | ⟨node', moved, -, -, -, heq⟩ <;> rw [heq] at h₁ h₂ h₃ <;>
        refine ⟨?_, ?_, ?_⟩ <;> rw [List.foldl_cons, heq]
      exacts [h₁, h₂, h₃, h₁, h₂, h₃]
  obtain ⟨h₁, h₂, h₃⟩ := hwalk s
  exact ⟨h₁, h₂, by unfold renameNodes; dsimp only; rw [h₃]⟩

theorem Consistent.renameNode (h : Consistent s) (alloc : Alloc) (ino : Nat) :
    Consistent (renameNode old new alloc s ino) := by
  rcases renameNode_cases old new alloc s ino with ⟨heq, -⟩ | ⟨node, moved, hnode, -, -, heq⟩
  · rw [heq]
    exact h
  · rw [heq]
    have hlt := h.lt_next hnode
    refine ⟨fun p i hmap => ?_, fun i hi => ?_⟩
    · dsimp only at hmap ⊢
      by_cases hp : p = moved
      · rw [hp, Function.update_self] at hmap
        split_ifs at hmap with hok
        obtain rfl := Option.some.inj hmap
        exact ⟨_, Function.update_self .., hp.symm⟩
      · rw [Function.update_of_ne hp] at hmap
        obtain ⟨hmap, hother⟩ := unmap_eq_some hmap
        obtain ⟨node', hnode', hname⟩ := h.named p i hmap
        have hi : i ≠ ino := by
          rintro rfl
          rw [hnode] at hnode'
          cases hnode'
          exact hother ⟨hname.symm, rfl⟩
        exact ⟨node', by rw [Function.update_of_ne hi, hnode'], hname⟩
    · dsimp only at hi ⊢
      rw [Function.update_of_ne (by omega)]
      exact h.fresh i hi

theorem Consistent.renameNodes (h : Consistent s) (order : List Nat) (old new : List UInt8)
    (fails : Fails) : Consistent (renameNodes s order old new fails) := by
  have hwalk : Consistent
      (order.foldl (fun s ino => Inodes.renameNode old new (fails.node ino) s ino) s) := by
    induction order generalizing s with
    | nil => exact h
    | cons ino rest ih => exact ih (h.renameNode (fails.node ino) ino)
  exact ⟨hwalk.named, hwalk.fresh⟩

theorem Consistent.step {Allowed : Tables → List UInt8 → List UInt8 → Fails → Prop}
    (h : Consistent s) (hstep : Step Allowed s s') : Consistent s' := by
  cases hstep with
  | internPath hcall => exact h.internPath hcall
  | dropLookup ino n => exact h.dropLookup ino n
  | renameNodes => exact h.renameNodes _ _ _ _

theorem consistent_empty : Consistent {} := ⟨nofun, fun _ _ => rfl⟩

/-- **A path's number stands for that path**, in every run. -/
theorem consistent_of_run {Allowed : Tables → List UInt8 → List UInt8 → Fails → Prop}
    (hrun : Run (Step Allowed) Always {} s) : Consistent s :=
  hrun.invariant (fun _ _ h hstep _ => h.step hstep) consistent_empty

/-! ## One rename -/

/-- The condition: the rename has the memory it needs, and no node it moves lands on the name of a
node it leaves where it is. -/
def Clear (s : Tables) (old new : List UInt8) (fails : Fails) : Prop :=
  ∀ i node moved, s.nodes i = some node → renamedPath old new node.path = some moved →
    fails.node i = .ok ∧
      ∀ j node', s.nodes j = some node' → renamedPath old new node'.path = none →
        node'.path ≠ moved

/-- Every rename. -/
def Any (_ : Tables) (_ _ : List UInt8) (_ : Fails) : Prop := True

/-- The two maps are inverses of each other, and the root is in neither. -/
structure Exact (s : Tables) : Prop extends Consistent s where
  owned : ∀ i node, s.nodes i = some node → s.paths node.path = some i
  rootless : s.paths rootPath = none
  root : s.nodes rootIno = none
  next : rootIno < s.nextIno

/-- Whether `p` is the name of `i` once the nodes in `done` have moved: it moved there, or it was
there and stays, and none of them has taken the name. -/
def Holds (old new : List UInt8) (s : Tables) (done : List Nat) (p : List UInt8) (i : Nat) : Prop :=
  ∃ node, s.nodes i = some node ∧
    (i ∈ done ∧ renamedPath old new node.path = some p ∨
      (i ∈ done → renamedPath old new node.path = none) ∧ node.path = p ∧
        ∀ k ∈ done, ∀ node', s.nodes k = some node' → renamedPath old new node'.path ≠ some p)

/-- The tables `s` of a walk that began at `s₀` and has been to the nodes in `done`. -/
structure Walk (old new : List UInt8) (s₀ : Tables) (done : List Nat) (s : Tables) : Prop where
  nodes : ∀ i, s.nodes i = (s₀.nodes i).map fun node =>
    if i ∈ done then { node with path := (renamedPath old new node.path).getD node.path } else node
  paths : ∀ p i, s.paths p = some i ↔ Holds old new s₀ done p i
  opens : s.opens = s₀.opens
  nextIno : s.nextIno = s₀.nextIno
  nextFh : s.nextFh = s₀.nextFh

theorem Exact.inj (h : Exact s) {i j : Nat} {node node' : Node} (hi : s.nodes i = some node)
    (hj : s.nodes j = some node') (hpath : node.path = node'.path) : i = j := by
  have hmap := h.owned i node hi
  rw [hpath, h.owned j node' hj] at hmap
  exact (Option.some.inj hmap).symm

theorem walk_start (old new : List UInt8) (h : Exact s) : Walk old new s [] s := by
  refine ⟨fun i => ?_, fun p i => ⟨fun hmap => ?_, ?_⟩, rfl, rfl, rfl⟩
  · simp
  · obtain ⟨node, hnode, hname⟩ := h.named p i hmap
    exact ⟨node, hnode, Or.inr ⟨nofun, hname, nofun⟩⟩
  · rintro ⟨node, hnode, ⟨hdone, -⟩ | ⟨-, hname, -⟩⟩
    · cases hdone
    · rw [← hname]
      exact h.owned i node hnode

/-- A node the walk leaves where it is. -/
theorem Walk.skip {s₀ : Tables} {done : List Nat} {ino : Nat} (h : Walk old new s₀ done s)
    (hstays : ∀ node, s₀.nodes ino = some node → renamedPath old new node.path = none) :
    Walk old new s₀ (ino :: done) s := by
  refine ⟨fun i => ?_, fun p i => (h.paths p i).trans ?_, h.opens, h.nextIno, h.nextFh⟩
  · rw [h.nodes i]
    rcases hnode : s₀.nodes i with _ | node
    · rfl
    · by_cases hi : i = ino
      · subst hi
        rw [Option.map_some, Option.map_some, hstays node hnode]
        simp
      · simp [hi]
  · constructor
    · rintro ⟨node, hnode, ⟨hdone, hmoved⟩ | ⟨hkept, hname, hfree⟩⟩
      · exact ⟨node, hnode, Or.inl ⟨List.mem_cons_of_mem _ hdone, hmoved⟩⟩
      · refine ⟨node, hnode, Or.inr ⟨fun hdone => ?_, hname, fun k hk node' hnode' => ?_⟩⟩
        · rcases List.mem_cons.mp hdone with rfl | hdone
          · exact hstays node hnode
          · exact hkept hdone
        · rcases List.mem_cons.mp hk with rfl | hk
          · rw [hstays node' hnode']
            exact nofun
          · exact hfree k hk node' hnode'
    · rintro ⟨node, hnode, ⟨hdone, hmoved⟩ | ⟨hkept, hname, hfree⟩⟩
      · refine ⟨node, hnode, Or.inl ⟨?_, hmoved⟩⟩
        rcases List.mem_cons.mp hdone with rfl | hdone
        · rw [hstays node hnode] at hmoved
          cases hmoved
        · exact hdone
      · exact ⟨node, hnode, Or.inr ⟨fun hdone => hkept (List.mem_cons_of_mem _ hdone), hname,
          fun k hk => hfree k (List.mem_cons_of_mem _ hk)⟩⟩

/-- A node moves to a name that none of those before it has got. -/
theorem Walk.move (h₀ : Exact s) {s₁ : Tables} {done : List Nat} {ino : Nat} {node : Node}
    (h : Walk old new s done s₁) (hnew : ino ∉ done) (hnode : s.nodes ino = some node)
    (hmoved : renamedPath old new node.path = some moved) :
    Walk old new s (ino :: done) { s₁ with
      nodes := Function.update s₁.nodes ino (some { node with path := moved })
      paths := Function.update (unmap s₁.paths node.path ino) moved (some ino) } := by
  have hsame : ∀ {i : Nat} {node' : Node}, s.nodes i = some node' →
      renamedPath old new node'.path = some moved → i = ino := fun hi hmoved' =>
    h₀.inj hi hnode (renamedPath_inj hmoved' hmoved)
  refine ⟨fun i => ?_, fun p i => ?_, h.opens, h.nextIno, h.nextFh⟩
  · dsimp only
    by_cases hi : i = ino
    · subst hi
      rw [Function.update_self, hnode]
      simp [hmoved]
    · rw [Function.update_of_ne hi, h.nodes i]
      simp [hi]
  · dsimp only
    by_cases hp : p = moved
    · subst hp
      rw [Function.update_self]
      constructor
      · intro hi
        obtain rfl := Option.some.inj hi
        exact ⟨node, hnode, Or.inl ⟨List.mem_cons_self, hmoved⟩⟩
      · rintro ⟨node', hnode', ⟨-, hmoved'⟩ | ⟨-, -, hfree⟩⟩
        · rw [hsame hnode' hmoved']
        · exact absurd hmoved (hfree ino List.mem_cons_self node hnode)
    · rw [Function.update_of_ne hp]
      -- the name is not the new one, so the walk so far decides, but for the name just given up
      have hstep : Holds old new s (ino :: done) p i ↔ Holds old new s done p i ∧ i ≠ ino := by
        constructor
        · rintro ⟨node', hnode', ⟨hdone, hmoved'⟩ | ⟨hkept, hname, hfree⟩⟩
          · have hi : i ≠ ino := by
              rintro rfl
              rw [hnode] at hnode'
              cases hnode'
              exact hp (Option.some.inj (hmoved'.symm.trans hmoved))
            exact ⟨⟨node', hnode', Or.inl ⟨(List.mem_cons.mp hdone).resolve_left hi, hmoved'⟩⟩, hi⟩
          · have hi : i ≠ ino := by
              rintro rfl
              rw [hnode] at hnode'
              cases hnode'
              rw [hkept List.mem_cons_self] at hmoved
              cases hmoved
            exact ⟨⟨node', hnode', Or.inr ⟨fun hdone => hkept (List.mem_cons_of_mem _ hdone), hname,
              fun k hk => hfree k (List.mem_cons_of_mem _ hk)⟩⟩, hi⟩
        · rintro ⟨⟨node', hnode', ⟨hdone, hmoved'⟩ | ⟨hkept, hname, hfree⟩⟩, hi⟩
          · exact ⟨node', hnode', Or.inl ⟨List.mem_cons_of_mem _ hdone, hmoved'⟩⟩
          · refine ⟨node', hnode', Or.inr ⟨fun hdone => ?_, hname, fun k hk node'' hnode'' => ?_⟩⟩
            · exact hkept ((List.mem_cons.mp hdone).resolve_left hi)
            · rcases List.mem_cons.mp hk with rfl | hk
              · rw [hnode] at hnode''
                cases hnode''
                rw [hmoved]
                exact fun hp' => hp (Option.some.inj hp').symm
              · exact hfree k hk node'' hnode''
      rw [hstep, ← h.paths p i]
      constructor
      · intro hunmap
        obtain ⟨hmap, hother⟩ := unmap_eq_some hunmap
        refine ⟨hmap, ?_⟩
        rintro rfl
        obtain ⟨node', hnode', ⟨hdone, -⟩ | ⟨-, hname, -⟩⟩ := (h.paths p i).mp hmap
        · exact hnew hdone
        · rw [hnode] at hnode'
          cases hnode'
          exact hother ⟨hname.symm, rfl⟩
      · rintro ⟨hmap, hi⟩
        unfold unmap
        split_ifs with hmine
        · by_cases hp' : p = node.path
          · rw [hp', hmine] at hmap
            exact absurd (Option.some.inj hmap).symm hi
          · rw [Function.update_of_ne hp']
            exact hmap
        · exact hmap

/-- **The walk**, over nodes it has not been to. -/
theorem Walk.foldl (h₀ : Exact s) {s₁ : Tables} {done : List Nat} (h : Walk old new s done s₁)
    (hnodup : order.Nodup) (hnew : ∀ i ∈ order, i ∉ done)
    (hok : ∀ i node moved, s.nodes i = some node → renamedPath old new node.path = some moved →
      fails.node i = .ok) :
    ∃ done', (∀ i, i ∈ done' ↔ i ∈ order ∨ i ∈ done) ∧ Walk old new s done'
      (order.foldl (fun s ino => renameNode old new (fails.node ino) s ino) s₁) := by
  induction order generalizing s₁ done with
  | nil => exact ⟨done, fun i => by simp, h⟩
  | cons ino rest ih =>
    have hino : ino ∉ done := hnew ino List.mem_cons_self
    have hnode₁ : s₁.nodes ino = s.nodes ino := by
      rw [h.nodes ino]
      simp [hino]
    have hstep : Walk old new s (ino :: done) (renameNode old new (fails.node ino) s₁ ino) := by
      rcases renameNode_cases old new (fails.node ino) s₁ ino with
        ⟨heq, hstays⟩ | ⟨node, moved, hnode, hmoved, -, heq⟩
      · rw [heq]
        refine h.skip fun node hnode => ?_
        rcases hmoved : renamedPath old new node.path with _ | moved
        · rfl
        · rcases hstays with hfail | hstays
          · rw [hok ino node moved hnode hmoved] at hfail
            cases hfail
          · exact hmoved.symm.trans (hstays node (hnode₁.trans hnode))
      · have hnode' := hnode₁.symm.trans hnode
        rw [heq, if_pos (hok ino node moved hnode' hmoved)]
        exact h.move h₀ hino hnode' hmoved
    have hnodup' := List.nodup_cons.mp hnodup
    obtain ⟨done', hdone', hwalk⟩ := ih hstep hnodup'.2 fun i hi hmem => by
      rcases List.mem_cons.mp hmem with rfl | hmem
      · exact hnodup'.1 hi
      · exact hnew i (List.mem_cons_of_mem _ hi) hmem
    refine ⟨done', fun i => (hdone' i).trans ?_, hwalk⟩
    simp only [List.mem_cons]
    tauto

/-- The whole rename, in whatever order. -/
theorem walk_renameNodes (h : Exact s) (horder : Order s order)
    (hclear : Clear s old new fails) : ∃ done s₁, (∀ i, i ∈ done ↔ (s.nodes i).isSome = true) ∧
      Walk old new s done s₁ ∧ renameNodes s order old new fails =
        { s₁ with opens := fun fh => (s.opens fh).map (renamedOpen old new (fails.handle fh)) } := by
  obtain ⟨done, hdone, hwalk⟩ := (walk_start old new h).foldl h horder.1
    (fun _ _ => List.not_mem_nil) fun i node moved hnode hmoved =>
      (hclear i node moved hnode hmoved).1
  refine ⟨done, _, fun i => ?_, hwalk, ?_⟩
  · rw [hdone, ← horder.2 i]
    simp
  · unfold renameNodes
    dsimp only
    rw [hwalk.opens]

theorem Exact.renameNodes (h : Exact s) (horder : Order s order) (hnew : 1 < new.length)
    (hclear : Clear s old new fails) : Exact (renameNodes s order old new fails) := by
  refine ⟨h.toConsistent.renameNodes order old new fails, fun i node' hnode' => ?_, ?_, ?_, ?_⟩ <;>
    obtain ⟨done, s₁, hdone, hwalk, heq⟩ := walk_renameNodes h horder hclear
  · rw [heq] at hnode' ⊢
    rw [hwalk.nodes i] at hnode'
    rcases hnode : s.nodes i with _ | node
    · rw [hnode] at hnode'
      cases hnode'
    · have hmem : i ∈ done := (hdone i).mpr (by rw [hnode]; rfl)
      rw [hnode, Option.map_some, if_pos hmem] at hnode'
      obtain rfl := Option.some.inj hnode'
      refine (hwalk.paths _ i).mpr ⟨node, hnode, ?_⟩
      rcases hmoved : renamedPath old new node.path with _ | moved
      · refine Or.inr ⟨fun _ => rfl, rfl, fun k _ node' hnode' hlands => ?_⟩
        exact (hclear k node' _ hnode' hlands).2 i node hnode hmoved rfl
      · exact Or.inl ⟨hmem, rfl⟩
  · rw [heq]
    refine Option.eq_none_iff_forall_not_mem.mpr fun i hmap => ?_
    obtain ⟨node, hnode, ⟨-, hmoved⟩ | ⟨-, hname, -⟩⟩ := (hwalk.paths _ i).mp hmap
    · exact renamedPath_ne_root hnew hmoved rfl
    · have hmap' := h.owned i node hnode
      rw [hname, h.rootless] at hmap'
      cases hmap'
  · rw [heq]
    show s₁.nodes rootIno = none
    rw [hwalk.nodes, h.root]
    rfl
  · rw [heq]
    show rootIno < s₁.nextIno
    rw [hwalk.nextIno]
    exact h.next

/-- A node changes its count. -/
theorem Exact.updateNode (h : Exact s) {ino : Nat} {node node' : Node}
    (hnode : s.nodes ino = some node) (hpath : node'.path = node.path) :
    Exact { s with nodes := Function.update s.nodes ino (some node') } := by
  refine ⟨h.toConsistent.updateNode hnode hpath, fun i node₀ hnode₀ => ?_, h.rootless, ?_, h.next⟩
  · dsimp only at hnode₀ ⊢
    by_cases hi : i = ino
    · subst hi
      rw [Function.update_self] at hnode₀
      rw [← Option.some.inj hnode₀, hpath]
      exact h.owned i node hnode
    · rw [Function.update_of_ne hi] at hnode₀
      exact h.owned i node₀ hnode₀
  · have hino : rootIno ≠ ino := by
      rintro rfl
      rw [h.root] at hnode
      cases hnode
    exact (Function.update_of_ne hino ..).trans h.root

theorem Exact.internPath (h : Exact s) {alloc : Bool} {ino : Nat}
    (hcall : internPath s path alloc = some (ino, s')) : Exact s' := by
  have hconsistent := h.toConsistent.internPath hcall
  rcases internPath_cases hcall with ⟨-, -, rfl⟩ | ⟨-, hpath, rfl⟩ | ⟨hroot, hpath, rfl, rfl⟩
  · exact h
  · obtain ⟨node, hnode, -⟩ := h.named path ino hpath
    rw [hnode]
    exact h.updateNode hnode rfl
  · refine ⟨hconsistent, fun i node hnode => ?_, ?_, ?_, Nat.lt_succ_of_lt h.next⟩
    · dsimp only at hnode ⊢
      by_cases hi : i = s.nextIno
      · rw [hi, Function.update_self] at hnode
        rw [← Option.some.inj hnode, hi, Function.update_self]
      · rw [Function.update_of_ne hi] at hnode
        have hmap := h.owned i node hnode
        rw [Function.update_of_ne fun hname => ?_]
        · exact hmap
        · rw [hname, hpath] at hmap
          cases hmap
    · exact (Function.update_of_ne (Ne.symm hroot) ..).trans h.rootless
    · exact (Function.update_of_ne (Nat.ne_of_lt h.next) ..).trans h.root

theorem Exact.dropLookup (h : Exact s) (ino n : Nat) : Exact (dropLookup s ino n) := by
  have hconsistent := h.toConsistent.dropLookup ino n
  rcases dropLookup_cases s ino n with ⟨heq, -⟩ | ⟨node, hino, hnode, ⟨-, heq⟩ | ⟨-, heq⟩⟩
  · rw [heq]
    exact h
  · rw [heq]
    exact h.updateNode hnode rfl
  · rw [heq] at hconsistent ⊢
    have hmine := h.owned ino node hnode
    refine ⟨hconsistent, fun i node' hnode' => ?_, ?_, ?_, h.next⟩ <;> dsimp only at *
    · by_cases hi : i = ino
      · rw [hi, Function.update_self] at hnode'
        cases hnode'
      · rw [Function.update_of_ne hi] at hnode'
        have hmap := h.owned i node' hnode'
        unfold unmap
        rw [if_pos hmine, Function.update_of_ne fun hname => ?_]
        · exact hmap
        · rw [hname, hmine] at hmap
          exact hi (Option.some.inj hmap).symm
    · unfold unmap
      rw [if_pos hmine, Function.update_of_ne fun hname => ?_]
      · exact h.rootless
      · rw [← hname, h.rootless] at hmine
        cases hmine
    · exact (Function.update_of_ne (Ne.symm hino) ..).trans h.root

theorem Exact.step (h : Exact s) (hstep : Step Clear s s') : Exact s' := by
  cases hstep with
  | internPath hcall => exact h.internPath hcall
  | dropLookup ino n => exact h.dropLookup ino n
  | renameNodes horder hnew hclear => exact h.renameNodes horder hnew hclear

theorem exact_empty : Exact {} := ⟨consistent_empty, nofun, rfl, rfl, by decide⟩

/-- No inode resolves to a path that another one has. -/
def Apart (s : Tables) : Prop :=
  ∀ i j p, pathForIno s i = some p → s.paths p = some j → i = j

theorem Exact.apart (h : Exact s) : Apart s := by
  intro i j p hpath hmap
  unfold pathForIno at hpath
  split_ifs at hpath with hroot
  · rw [← Option.some.inj hpath, h.rootless] at hmap
    cases hmap
  · obtain ⟨node, hnode, hfit⟩ := Option.bind_eq_some_iff.mp hpath
    unfold fitting at hfit
    split_ifs at hfit
    rw [← Option.some.inj hfit, h.owned i node hnode] at hmap
    exact Option.some.inj hmap

/-- What a rename of `old` to `new` owes. -/
structure Moves (s : Tables) (old new : List UInt8) (fails : Fails) : Prop where
  /-- The order of the walk does not show. -/
  order : ∀ order order', Order s order → Order s order' →
    renameNodes s order old new fails = renameNodes s order' old new fails
  /-- The new name of a moved inode answers with that inode. -/
  found : ∀ order, Order s order → ∀ i node moved, s.nodes i = some node →
    renamedPath old new node.path = some moved → fails.node i ≠ .noPath →
      (internPath (renameNodes s order old new fails) moved true).map Prod.fst = some i
  /-- An inode whose move failed resolves to nothing. -/
  stale : ∀ order, Order s order → ∀ i node moved, s.nodes i = some node →
    renamedPath old new node.path = some moved → fails.node i ≠ .ok →
      pathForIno (renameNodes s order old new fails) i = none
  apart : ∀ order, Order s order → Apart (renameNodes s order old new fails)

theorem Walk.paths_eq {s₁ s₂ : Tables} {done done' : List Nat} (h₁ : Walk old new s done s₁)
    (h₂ : Walk old new s done' s₂) (hdone : ∀ i, i ∈ done ↔ i ∈ done') :
    s₁.nodes = s₂.nodes ∧ s₁.paths = s₂.paths := by
  refine ⟨funext fun i => ?_, funext fun p => Option.ext fun i => ?_⟩
  · rw [h₁.nodes i, h₂.nodes i]
    simp only [hdone]
  · refine (h₁.paths p i).trans (Iff.trans ?_ (h₂.paths p i).symm)
    unfold Holds
    simp only [hdone]

theorem Exact.moves (h : Exact s) (hnew : 1 < new.length) (hclear : Clear s old new fails) :
    Moves s old new fails := by
  refine ⟨fun order order' horder horder' => ?_,
    fun order horder i node moved hnode hmoved _ => ?_,
    fun order horder i node moved hnode hmoved hfail => ?_,
    fun order horder => (h.renameNodes horder hnew hclear).apart⟩
  · obtain ⟨done, s₁, hdone, hwalk, heq⟩ := walk_renameNodes h horder hclear
    obtain ⟨done', s₂, hdone', hwalk', heq'⟩ := walk_renameNodes h horder' hclear
    obtain ⟨hnodes, hpaths⟩ := hwalk.paths_eq hwalk' fun i => (hdone i).trans (hdone' i).symm
    rw [heq, heq', hnodes, hpaths, hwalk.nextIno, hwalk'.nextIno, hwalk.nextFh, hwalk'.nextFh]
  · obtain ⟨done, s₁, hdone, hwalk, heq⟩ := walk_renameNodes h horder hclear
    have hmem : i ∈ done := (hdone i).mpr (by rw [hnode]; rfl)
    have hmap : (Inodes.renameNodes s order old new fails).paths moved = some i := by
      rw [heq]
      exact (hwalk.paths moved i).mpr ⟨node, hnode, Or.inl ⟨hmem, hmoved⟩⟩
    unfold Inodes.internPath
    rw [if_neg (renamedPath_ne_root hnew hmoved), hmap]
    rfl
  · exact absurd (hclear i node moved hnode hmoved).1 hfail

/-- **The tables stay exact**, along every run whose renames have the memory they need and land on
free names: a path's number stands for that path, no inode resolves to another's path, and each
rename of that kind moves what it should, in any order. -/
theorem tables_of_run (hrun : Run (Step Clear) Always {} s) :
    Consistent s ∧ Apart s ∧ ∀ old new fails, 1 < new.length → Clear s old new fails →
      Moves s old new fails := by
  have hstep : ∀ s s', Exact s → Step Clear s s' → Always s s' → Exact s' :=
    fun _ _ h hstep _ => h.step hstep
  have hexact := hrun.invariant hstep exact_empty
  exact ⟨hexact.toConsistent, hexact.apart, fun old new fails hnew hclear => hexact.moves hnew hclear⟩

/-! ## The other renames -/

/-- A node whose new path has no memory keeps the old one, whatever the order. -/
theorem stale_of_noPath {i : Nat} {node : Node} (hnode : s.nodes i = some node)
    (hfail : fails.node i = .noPath) :
    (renameNodes s order old new fails).nodes i = some node := by
  have hround : ∀ (s : Tables) (ino : Nat), s.nodes i = some node →
      (renameNode old new (fails.node ino) s ino).nodes i = some node := by
    intro s ino hnode
    rcases renameNode_cases old new (fails.node ino) s ino with
      ⟨heq, -⟩ | ⟨node', moved, -, -, hok, heq⟩
    · rw [heq]
      exact hnode
    · rw [heq]
      have hi : i ≠ ino := fun hi => hok (hi ▸ hfail)
      exact (Function.update_of_ne hi ..).trans hnode
  have hwalk : (order.foldl (fun s ino => renameNode old new (fails.node ino) s ino) s).nodes i =
      some node := by
    induction order generalizing s with
    | nil => exact hnode
    | cons ino rest ih => exact ih (hround s ino hnode)
  exact hwalk

def pathA : List UInt8 := [47, 97]

def pathB : List UInt8 := [47, 98]

def pathC : List UInt8 := [47, 99]

/-- The kernel has looked up `/a`, number 2, and `/b`, number 3. -/
def twoFiles : Tables where
  nodes := Function.update (Function.update (fun _ => none) 2 (some ⟨pathA, 1⟩)) 3 (some ⟨pathB, 1⟩)
  paths := Function.update (Function.update (fun _ => none) pathA (some 2)) pathB (some 3)
  nextIno := 4

theorem run_twoFiles {Allowed : Tables → List UInt8 → List UInt8 → Fails → Prop} :
    Run (Step Allowed) Always {} twoFiles := by
  have r₀ : Run (Step Allowed) Always {} {} := Run.refl _
  have r₁ := r₀.then (Step.internPath (show internPath {} pathA true = some (2, _) from rfl))
  exact r₁.then (Step.internPath (show internPath _ pathB true = some (3, twoFiles) from rfl))

theorem order_twoFiles {nodes : Nat → Option Node} {node node' : Node} {order : List Nat}
    (hnodes : nodes = Function.update (Function.update (fun _ => none) 2 (some node)) 3 (some node'))
    (hnodup : order.Nodup) (hmem : ∀ i, i ∈ order ↔ i = 2 ∨ i = 3) (hs : s.nodes = nodes) :
    Order s order := by
  refine ⟨hnodup, fun i => (hmem i).trans ?_⟩
  rw [hs, hnodes]
  by_cases h3 : i = 3
  · simp [h3]
  · by_cases h2 : i = 2
    · simp [h2]
    · simp [h2, h3]

theorem path_twoFiles {i : Nat} {node : Node} (h : twoFiles.nodes i = some node) :
    node.path = pathA ∨ node.path = pathB := by
  unfold twoFiles at h
  dsimp only at h
  by_cases h3 : i = 3
  · rw [h3, Function.update_self] at h
    exact Or.inr (by rw [← Option.some.inj h])
  · rw [Function.update_of_ne h3] at h
    by_cases h2 : i = 2
    · rw [h2, Function.update_self] at h
      exact Or.inl (by rw [← Option.some.inj h])
    · rw [Function.update_of_ne h2] at h
      cases h

/-- `/a` is about to be renamed to `/c`. -/
theorem tables_of_run_two :
    Consistent twoFiles ∧ Apart twoFiles ∧ Moves twoFiles pathA pathC {} := by
  obtain ⟨hconsistent, hapart, hmoves⟩ := tables_of_run run_twoFiles
  refine ⟨hconsistent, hapart, hmoves pathA pathC {} (by decide) ?_⟩
  intro i node moved _ hmoved
  obtain ⟨suffix, -, hnew⟩ := renamedPath_eq_some hmoved
  refine ⟨rfl, fun j node' hnode' _ hlands => ?_⟩
  have hsecond := congrArg (fun p : List UInt8 => p[1]?) (hlands.trans hnew)
  rcases path_twoFiles hnode' with hpath | hpath <;> rw [hpath] at hsecond <;>
    exact absurd hsecond (by simp [pathA, pathB, pathC])

/-- `/a` has been renamed to `/b`, and 3 still has that path. -/
def landed : Tables := renameNodes twoFiles [2, 3] pathA pathB {}

theorem run_landed : Run (Step Any) Always {} landed :=
  run_twoFiles.then (Step.renameNodes (order_twoFiles rfl (by decide) (by simp) rfl) (by decide)
    trivial)

theorem nodes_landed : landed.nodes =
    Function.update (Function.update (fun _ => none) 2 (some ⟨pathB, 1⟩)) 3 (some ⟨pathB, 1⟩) := by
  have hround : landed.nodes = Function.update twoFiles.nodes 2 (some ⟨pathB, 1⟩) := rfl
  rw [hround]
  unfold twoFiles
  rw [Function.update_comm (by decide), Function.update_idem]

/-- A rename onto a name the kernel holds, and one without memory: the displaced inode resolves to
the other's path, the next rename of that path depends on the order of the walk, a node that could
not be moved resolves to its old name, and one that could not be entered is not found. -/
theorem tables_fail :
    ¬ (∀ s, Run (Step Any) Always {} s → Apart s) ∧
    ¬ (∀ s, Run (Step Any) Always {} s → ∀ old new fails, 1 < new.length →
      ∀ order order', Order s order → Order s order' →
        renameNodes s order old new fails = renameNodes s order' old new fails) ∧
    ¬ (∀ s, Run (Step Any) Always {} s → ∀ old new fails, 1 < new.length →
      ∀ order, Order s order → ∀ i node moved, s.nodes i = some node →
        renamedPath old new node.path = some moved → fails.node i ≠ .ok →
          pathForIno (renameNodes s order old new fails) i = none) ∧
    ¬ (∀ s, Run (Step Any) Always {} s → ∀ old new fails, 1 < new.length →
      ∀ order, Order s order → ∀ i node moved, s.nodes i = some node →
        renamedPath old new node.path = some moved → fails.node i ≠ .noPath →
          (internPath (renameNodes s order old new fails) moved true).map Prod.fst = some i) := by
  have htwo : Order twoFiles [2, 3] := order_twoFiles rfl (by decide) (by simp) rfl
  refine ⟨fun h => ?_, fun h => ?_, fun h => ?_, fun h => ?_⟩
  · exact absurd (h landed run_landed 3 2 pathB rfl rfl) (by decide)
  · have heq := h landed run_landed pathB pathC {} (by decide) [2, 3] [3, 2]
      (order_twoFiles nodes_landed (by decide) (by simp) rfl)
      (order_twoFiles nodes_landed (by decide) (by simp [or_comm]) rfl)
    exact absurd (congrArg (fun s => s.paths pathC) heq) (by decide)
  · exact absurd (h twoFiles run_twoFiles pathA pathC ⟨fun _ => .noPath, fun _ => false⟩ (by decide)
      [2, 3] htwo 2 ⟨pathA, 1⟩ pathC rfl rfl (by decide)) (by decide)
  · exact absurd (h twoFiles run_twoFiles pathA pathC ⟨fun _ => .noPut, fun _ => false⟩ (by decide)
      [2, 3] htwo 2 ⟨pathA, 1⟩ pathC rfl rfl (by decide)) (by decide)

end Inodes

end ModelFs
