import ModelFs.Inodes
import ModelFs.Lib.Spelling

/-!
# The inode table and the kernel

The kernel has a tree of names of its own. A LOOKUP or CREATE reply enters a name with the inode
number in it and one reference to that number, FORGET gives references back once the number has
neither a name nor an open file, an unlink takes a name out, a rename moves a name with all that is
below it, and a `RENAME_EXCHANGE` makes two names trade places. Requests name files by the numbers
in this tree; the handlers of the mount turn these into paths, and the paths should be the names.

`ll_rename` leaves the tables alone under `RENAME_EXCHANGE`. Its comment says that the tables then
describe the mount already, but the kernel has moved its numbers.

* `named_of_run` — **each name's number resolves to that name**, also through an open handle, in
  every run without an exchange whose renames have the memory they need and whose names stay within
  the path buffer.
* `named_fails_after_exchange` — two names trade places.
-/

namespace ModelFs

namespace Inodes

/-- A name of the kernel: its components. `[]` is the root. -/
abbrev Name := List (List UInt8)

/-- A name as the tables spell it. -/
def spelled (n : Name) : List UInt8 := if n = [] then rootPath else spell slash n

/-- A component the kernel sends is not empty and has no slash. -/
def Component (c : List UInt8) : Prop := c ≠ [] ∧ slash ∉ c

/-- What the kernel keeps of the mount, and the tables. -/
structure World where
  tables : Tables := {}
  /-- The kernel's names. -/
  names : Name → Option Nat := fun n => if n = [] then some rootIno else none
  /-- Lookup references of the kernel to each number. -/
  count : Nat → Nat := fun _ => 0
  /-- Open files: handle and number. -/
  handles : List (Nat × Nat) := []

namespace World

/-- The path a handler computes for the child `c` of the number `parent`. -/
def childOf (s : World) (parent : Nat) (c : List UInt8) : Option (List UInt8) :=
  (pathForIno s.tables parent).bind fun path => childPath path c

/-- A reply enters a name. -/
def entry (s : World) (t : Tables) (n : Name) (ino : Nat) : World :=
  { s with
    tables := t
    names := Function.update s.names n (some ino)
    count := Function.update s.count ino (s.count ino + 1) }

end World

open World

/-- One request, or one change the kernel makes on its own. `Allowed` is asked about each plain
rename, and `exchanges` says whether there are others. -/
inductive Request (Allowed : World → Name → Name → Fails → Prop) (exchanges : Bool) (s : World) :
    World → Prop where
  /-- `ll_lookup` and `ll_mkdir`. -/
  | lookup {n : Name} {c path : List UInt8} {parent ino : Nat} (alloc : Bool) {t : Tables}
      (hparent : s.names n = some parent) (hc : Component c)
      (hpath : s.childOf parent c = some path)
      (hintern : internPath s.tables path alloc = some (ino, t)) :
      Request Allowed exchanges s (s.entry t (n ++ [c]) ino)
  /-- The reply was discarded. -/
  | lookupLost {n : Name} {c path : List UInt8} {parent ino : Nat} {alloc : Bool} {t : Tables}
      (hparent : s.names n = some parent) (hc : Component c)
      (hpath : s.childOf parent c = some path)
      (hintern : internPath s.tables path alloc = some (ino, t)) :
      Request Allowed exchanges s { s with tables := dropLookup t ino 1 }
  | create {n : Name} {c path : List UInt8} {parent ino : Nat} {alloc alloc' : Bool} {t : Tables}
      (hparent : s.names n = some parent) (hc : Component c)
      (hpath : s.childOf parent c = some path)
      (hintern : internPath s.tables path alloc = some (ino, t)) :
      Request Allowed exchanges s
        { s.entry (rememberOpen t path alloc').2 (n ++ [c]) ino with
          handles := ((rememberOpen t path alloc').1, ino) :: s.handles }
  | createLost {n : Name} {c path : List UInt8} {parent ino : Nat} {alloc alloc' : Bool}
      {t : Tables} (hparent : s.names n = some parent) (hc : Component c)
      (hpath : s.childOf parent c = some path)
      (hintern : internPath s.tables path alloc = some (ino, t)) :
      Request Allowed exchanges s { s with
        tables := dropLookup (forgetOpen (rememberOpen t path alloc').2
          (rememberOpen t path alloc').1) ino 1 }
  /-- `ll_open`; the kernel opens files only, and only by numbers it has references to. -/
  | openFile {ino : Nat} {path : List UInt8} {alloc : Bool} (hfile : ino ≠ rootIno)
      (href : 0 < s.count ino) (hpath : pathForIno s.tables ino = some path) :
      Request Allowed exchanges s { s with
        tables := (rememberOpen s.tables path alloc).2
        handles := ((rememberOpen s.tables path alloc).1, ino) :: s.handles }
  | openLost {ino : Nat} {path : List UInt8} {alloc : Bool} (hfile : ino ≠ rootIno)
      (href : 0 < s.count ino) (hpath : pathForIno s.tables ino = some path) :
      Request Allowed exchanges s { s with
        tables := forgetOpen (rememberOpen s.tables path alloc).2
          (rememberOpen s.tables path alloc).1 }
  | release {fh ino : Nat} (hopen : (fh, ino) ∈ s.handles) :
      Request Allowed exchanges s { s with
        tables := forgetOpen s.tables fh, handles := s.handles.erase (fh, ino) }
  /-- `ll_forget`, and each entry of `ll_forget_multi`. The kernel keeps a reference as long as the
  number has a name or an open file. -/
  | forget {ino n : Nat} (hn : n ≤ s.count ino)
      (hkept : (∃ m, s.names m = some ino) ∨ (∃ fh, (fh, ino) ∈ s.handles) → n < s.count ino) :
      Request Allowed exchanges s { s with
        tables := dropLookup s.tables ino n
        count := Function.update s.count ino (s.count ino - n) }
  /-- An unlink or rmdir, which leaves the tables alone, or a negative LOOKUP reply. -/
  | unlink {n : Name} {c : List UInt8} : Request Allowed exchanges s { s with
      names := cut s.names (n ++ [c]) }
  | rename {m n : Name} {a b old new : List UInt8} {parent newparent : Nat} {order : List Nat}
      {fails : Fails} (hparent : s.names m = some parent) (ha : Component a)
      (hold : s.childOf parent a = some old) (hnewparent : s.names n = some newparent)
      (hb : Component b) (hnew : s.childOf newparent b = some new)
      (horder : Order s.tables order) (hallowed : Allowed s (m ++ [a]) (n ++ [b]) fails) :
      Request Allowed exchanges s { s with
        tables := renameNodes s.tables order old new fails
        names := regraft s.names (m ++ [a]) (n ++ [b]) }
  /-- `ll_rename` with `RENAME_EXCHANGE` does not call `renameNodes`. -/
  | exchange {m n : Name} {a b old new : List UInt8} {parent newparent : Nat}
      (hparent : s.names m = some parent) (ha : Component a)
      (hold : s.childOf parent a = some old) (hnewparent : s.names n = some newparent)
      (hb : Component b) (hnew : s.childOf newparent b = some new) (hallowed : exchanges = true) :
      Request Allowed exchanges s { s with
        names := ModelFs.exchange s.names (m ++ [a]) (n ++ [b]) }

/-- A name's number resolves to the name, also through any handle open on it. -/
def Named (s : World) : Prop :=
  ∀ n i, s.names n = some i → pathForIno s.tables i = some (spelled n) ∧
    ∀ fh, (fh, i) ∈ s.handles → pathForOp s.tables i fh = some (spelled n)

/-- The condition on a rename: there is memory for the nodes and the handles it covers, and the
names below the new one fit the path buffer. -/
def Room (s : World) (old new : Name) (fails : Fails) : Prop :=
  (∀ i node, s.tables.nodes i = some node → covered (spelled old) node.path = true →
    fails.node i ≠ .noPath) ∧
  (∀ fh path, s.tables.opens fh = some path → covered (spelled old) path = true →
    fails.handle fh = false) ∧
  ∀ k i, s.names (old ++ k) = some i → (spelled (new ++ k)).length ≤ pathMax

/-! ## Spellings -/

theorem spelled_snoc (n : Name) (c : List UInt8) :
    spelled (n ++ [c]) = spell slash n ++ slash :: c := by
  unfold spelled
  rw [if_neg (by simp), spell_append]
  simp

theorem spell_ne_root {n : Name} (hn : ∀ c ∈ n, Component c) : spell slash n ≠ rootPath := by
  cases n with
  | nil => exact nofun
  | cons c n =>
    intro h
    have htail := (List.cons.inj h).2
    exact (hn c List.mem_cons_self).1 (List.append_eq_nil_iff.mp htail).1

/-- **The child's path is the child's name.** -/
theorem childPath_spelled {n : Name} {c path : List UInt8} (hn : ∀ c ∈ n, Component c)
    (h : childPath (spelled n) c = some path) :
    path = spelled (n ++ [c]) ∧ path.length < pathMax := by
  have hstem : (if spelled n = rootPath then [] else spelled n) = spell slash n := by
    unfold spelled
    by_cases hroot : n = []
    · rw [if_pos hroot, if_pos rfl, hroot]
      rfl
    · rw [if_neg hroot, if_neg (spell_ne_root hn)]
  unfold childPath at h
  rw [hstem] at h
  dsimp only at h
  split_ifs at h with hlen
  obtain rfl := Option.some.inj h
  refine ⟨(spelled_snoc n c).symm, ?_⟩
  rw [List.length_append, List.length_cons]
  omega

theorem plain_of_components {n : Name} (hn : ∀ c ∈ n, Component c) : Plain slash n :=
  fun c hc => (hn c hc).2

/-- `covered` is "at or below", on names. -/
theorem covered_spell {m n : Name} (hm : ∀ c ∈ m, Component c) (hn : ∀ c ∈ n, Component c) :
    covered (spell slash m) (spell slash n) = true ↔ m <+: n := by
  rw [prefix_iff_spell (plain_of_components hm) (plain_of_components hn)]
  unfold covered
  rw [Bool.or_eq_true, decide_eq_true_iff]
  constructor
  · rintro (heq | hbelow)
    · exact ⟨[], Or.inl rfl, by rw [List.append_nil, heq]⟩
    · simp only [Bool.and_eq_true, decide_eq_true_iff] at hbelow
      obtain ⟨⟨hlen, hprefix⟩, hslash⟩ := hbelow
      obtain ⟨rest, hrest⟩ := List.isPrefixOf_iff_prefix.mp hprefix
      refine ⟨rest, ?_, hrest⟩
      rw [← hrest, List.getElem?_append_right le_rfl, Nat.sub_self] at hslash
      cases rest with
      | nil => exact Or.inl rfl
      | cons b rest => exact Or.inr ⟨rest, by rw [Option.some.inj hslash]⟩
  · rintro ⟨rest, rfl | ⟨rest, rfl⟩, hrest⟩
    · exact Or.inl (by rw [← hrest, List.append_nil])
    · refine Or.inr ?_
      rw [← hrest]
      simp

theorem renamedPath_below {m n k : Name} (hm : ∀ c ∈ m, Component c) (hk : ∀ c ∈ k, Component c) :
    renamedPath (spell slash m) (spell slash n) (spell slash (m ++ k)) =
      some (spell slash (n ++ k)) := by
  have hcov := (covered_spell (n := m ++ k) hm fun c hc =>
    (List.mem_append.mp hc).elim (hm c) (hk c)).mpr (List.prefix_append m k)
  unfold renamedPath
  rw [if_pos hcov, spell_append, spell_append, List.drop_left]

theorem renamedPath_beside {m n p : Name} (hm : ∀ c ∈ m, Component c)
    (hp : ∀ c ∈ p, Component c) (hbeside : ¬ m <+: p) :
    renamedPath (spell slash m) (spell slash n) (spell slash p) = none :=
  if_neg fun hcov => hbeside ((covered_spell hm hp).mp hcov)

/-! ## The invariant -/

/-- What ties the tables to the kernel: each name's node has that name's path, the kernel's counts
are the table's, and an open handle has its node's path. -/
structure Agrees (s : World) : Prop where
  consistent : Consistent s.tables
  rootNode : s.tables.nodes rootIno = none
  next : rootIno < s.tables.nextIno
  nextFh : 0 < s.tables.nextFh
  rootName : ∀ i, s.names [] = some i → i = rootIno
  component : ∀ n i, s.names n = some i → ∀ c ∈ n, Component c
  named : ∀ n i, n ≠ [] → s.names n = some i →
    ∃ node, s.tables.nodes i = some node ∧ node.path = spelled n
  fits : ∀ n i, s.names n = some i → (spelled n).length ≤ pathMax
  count : ∀ i, i ≠ rootIno → s.count i = ((s.tables.nodes i).map Node.nlookup).getD 0
  alive : ∀ i node, s.tables.nodes i = some node → 0 < node.nlookup
  handle : ∀ fh i, (fh, i) ∈ s.handles → fh ≠ 0 → fh < s.tables.nextFh ∧
    ∃ node, s.tables.nodes i = some node ∧ s.tables.opens fh = some node.path
  distinct : s.handles.Pairwise fun x y => x.1 ≠ 0 → x.1 ≠ y.1

variable {Allowed : World → Name → Name → Fails → Prop} {exchanges : Bool} {s s' : World}
variable {n : Name} {c path : List UInt8} {parent ino : Nat} {t : Tables} {alloc : Bool}

theorem Agrees.resolves (h : Agrees s) {i : Nat} (hname : s.names n = some i) :
    pathForIno s.tables i = some (spelled n) := by
  unfold pathForIno
  by_cases hroot : n = []
  · subst hroot
    rw [if_pos (h.rootName i hname)]
    rfl
  · obtain ⟨node, hnode, hpath⟩ := h.named n i hroot hname
    have hi : i ≠ rootIno := by
      rintro rfl
      rw [h.rootNode] at hnode
      cases hnode
    rw [if_neg hi, hnode]
    show fitting node.path = _
    unfold fitting
    rw [hpath, if_neg (Nat.not_lt.mpr (h.fits n i hname))]

/-- Each request acts on the name the kernel means. -/
theorem Agrees.child (h : Agrees s) (hparent : s.names n = some parent)
    (hpath : s.childOf parent c = some path) :
    path = spelled (n ++ [c]) ∧ path.length < pathMax := by
  unfold childOf at hpath
  rw [h.resolves hparent] at hpath
  exact childPath_spelled (h.component n parent hparent) hpath

theorem Agrees.isNamed (h : Agrees s) : Named s := by
  intro n i hname
  have hino := h.resolves hname
  refine ⟨hino, fun fh hopen => ?_⟩
  unfold pathForOp pathForFh
  by_cases hfh : fh = 0
  · rw [if_pos hfh]
    exact hino
  · rw [if_neg hfh]
    obtain ⟨-, node, hnode, hpath⟩ := h.handle fh i hopen hfh
    have hroot : n ≠ [] := by
      rintro rfl
      rw [h.rootName i hname, h.rootNode] at hnode
      cases hnode
    obtain ⟨node', hnode', hspelled⟩ := h.named n i hroot hname
    rw [hnode] at hnode'
    cases hnode'
    rw [hpath, hspelled]
    show (fitting (spelled n)).orElse _ = _
    unfold fitting
    rw [if_neg (Nat.not_lt.mpr (h.fits n i hname))]
    rfl

/-! ## One request -/

/-- What `internPath` does to the nodes. -/
structure Interned (s t : Tables) (path : List UInt8) (ino : Nat) : Prop where
  consistent : Consistent t
  root : ino ≠ rootIno
  here : ∃ node, t.nodes ino = some node ∧ node.path = path ∧
    node.nlookup = ((s.nodes ino).map Node.nlookup).getD 0 + 1
  same : ∀ node, s.nodes ino = some node → node.path = path
  others : ∀ i, i ≠ ino → t.nodes i = s.nodes i
  opens : t.opens = s.opens
  nextFh : t.nextFh = s.nextFh
  nextIno : s.nextIno ≤ t.nextIno

theorem Agrees.interned (h : Agrees s) (hpath : path ≠ rootPath)
    (hintern : internPath s.tables path alloc = some (ino, t)) : Interned s.tables t path ino := by
  have hconsistent := h.consistent.internPath hintern
  rcases internPath_cases hintern with ⟨hroot, -, -⟩ | ⟨-, hmap, rfl⟩ | ⟨-, hmap, rfl, rfl⟩
  · exact absurd hroot hpath
  · obtain ⟨node, hnode, hname⟩ := h.consistent.named path ino hmap
    have hroot : ino ≠ rootIno := by
      rintro rfl
      rw [h.rootNode] at hnode
      cases hnode
    refine ⟨hconsistent, hroot, ⟨{ node with nlookup := node.nlookup + 1 }, ?_, hname, ?_⟩, ?_,
      fun i hi => Function.update_of_ne hi .., rfl, rfl, le_rfl⟩
    · dsimp only
      rw [Function.update_self, hnode]
      rfl
    · rw [hnode]
      rfl
    · intro node' hnode'
      rw [hnode] at hnode'
      cases hnode'
      exact hname
  · have hfresh := h.consistent.fresh s.tables.nextIno le_rfl
    refine ⟨hconsistent, (Nat.ne_of_lt h.next).symm, ⟨⟨path, 1⟩, Function.update_self .., rfl, ?_⟩,
      ?_, fun i hi => Function.update_of_ne hi .., rfl, rfl, Nat.le_succ _⟩
    · rw [hfresh]
      rfl
    · intro node hnode
      rw [hfresh] at hnode
      cases hnode

theorem spelled_ne_root (hn : ∀ c ∈ n, Component c) (hne : n ≠ []) : spelled n ≠ rootPath := by
  unfold spelled
  rw [if_neg hne]
  exact spell_ne_root hn

theorem components_snoc (hn : ∀ c ∈ n, Component c) (hc : Component c) :
    ∀ d ∈ n ++ [c], Component d := by
  intro d hd
  rcases List.mem_append.mp hd with hd | hd
  · exact hn d hd
  · rw [List.mem_singleton.mp hd]
    exact hc

/-- A reply enters a name. -/
theorem Agrees.entry (h : Agrees s) (hparent : s.names n = some parent) (hc : Component c)
    (hpath : s.childOf parent c = some path)
    (hintern : internPath s.tables path alloc = some (ino, t)) :
    Agrees (s.entry t (n ++ [c]) ino) := by
  obtain ⟨rfl, hlen⟩ := h.child hparent hpath
  have hcomponents := components_snoc (h.component n parent hparent) hc
  have hi := h.interned (spelled_ne_root hcomponents (by simp)) hintern
  obtain ⟨node, hnode, hname, hlookup⟩ := hi.here
  -- every other node is as it was, and this one has the path it had
  have hnode' : ∀ j node', s.tables.nodes j = some node' →
      ∃ node'', t.nodes j = some node'' ∧ node''.path = node'.path := by
    intro j node' hj
    by_cases hji : j = ino
    · subst hji
      exact ⟨node, hnode, by rw [hname, hi.same node' hj]⟩
    · exact ⟨node', by rw [hi.others j hji, hj], rfl⟩
  have hentry : ∀ m i, (s.entry t (n ++ [c]) ino).names m = some i →
      m = n ++ [c] ∧ i = ino ∨ s.names m = some i := by
    intro m i hm
    have hm' : Function.update s.names (n ++ [c]) (some ino) m = some i := hm
    by_cases hmn : m = n ++ [c]
    · rw [hmn, Function.update_self] at hm'
      exact Or.inl ⟨hmn, (Option.some.inj hm').symm⟩
    · rw [Function.update_of_ne hmn] at hm'
      exact Or.inr hm'
  refine ⟨hi.consistent, ?_, h.next.trans_le hi.nextIno, ?_, fun i hm => ?_, fun m i hm => ?_,
    fun m i hne hm => ?_, fun m i hm => ?_, fun i hroot => ?_, fun i node' hnode₀ => ?_,
    fun fh i hopen hfh => ?_, h.distinct⟩
  · exact (hi.others rootIno hi.root.symm).trans h.rootNode
  · exact hi.nextFh ▸ h.nextFh
  · rcases hentry [] i hm with ⟨hnil, -⟩ | hm
    · exact absurd hnil.symm (by simp)
    · exact h.rootName i hm
  · rcases hentry m i hm with ⟨rfl, -⟩ | hm
    · exact hcomponents
    · exact h.component m i hm
  · rcases hentry m i hm with ⟨rfl, rfl⟩ | hm
    · exact ⟨node, hnode, hname⟩
    · obtain ⟨node', hj, hspelled⟩ := h.named m i hne hm
      obtain ⟨node'', hj', hsame⟩ := hnode' i node' hj
      exact ⟨node'', hj', hsame.trans hspelled⟩
  · rcases hentry m i hm with ⟨rfl, -⟩ | hm
    · exact Nat.le_of_lt hlen
    · exact h.fits m i hm
  · show Function.update s.count ino (s.count ino + 1) i = ((t.nodes i).map Node.nlookup).getD 0
    by_cases hii : i = ino
    · subst hii
      rw [Function.update_self, h.count i hroot, hnode]
      exact hlookup.symm
    · rw [Function.update_of_ne hii, hi.others i hii]
      exact h.count i hroot
  · have hnode₀' : t.nodes i = some node' := hnode₀
    by_cases hii : i = ino
    · rw [hii, hnode] at hnode₀'
      rw [← Option.some.inj hnode₀', hlookup]
      exact Nat.succ_pos _
    · rw [hi.others i hii] at hnode₀'
      exact h.alive i node' hnode₀'
  · obtain ⟨hlt, node', hj, hopens⟩ := h.handle fh i hopen hfh
    obtain ⟨node'', hj', hsame⟩ := hnode' i node' hj
    refine ⟨?_, node'', hj', ?_⟩
    · exact hi.nextFh ▸ hlt
    · show t.opens fh = some node''.path
      rw [hi.opens, hopens, hsame]

/-- The tables change, but no node does, and no record of a handle that is out. -/
theorem Agrees.of_nodes (h : Agrees s) (ht : Consistent t) (hnodes : t.nodes = s.tables.nodes)
    (hnext : s.tables.nextIno ≤ t.nextIno) (hnextFh : s.tables.nextFh ≤ t.nextFh)
    (hopens : ∀ fh, fh < s.tables.nextFh → t.opens fh = s.tables.opens fh) :
    Agrees { s with tables := t } where
  consistent := ht
  rootNode := by
    dsimp only
    rw [hnodes]
    exact h.rootNode
  next := h.next.trans_le hnext
  nextFh := h.nextFh.trans_le hnextFh
  rootName := h.rootName
  component := h.component
  named m i hne hm := by
    dsimp only
    rw [hnodes]
    exact h.named m i hne hm
  fits := h.fits
  count i hi := by
    dsimp only
    rw [hnodes]
    exact h.count i hi
  alive i node hnode := by
    dsimp only at hnode
    rw [hnodes] at hnode
    exact h.alive i node hnode
  handle fh i hopen hfh := by
    obtain ⟨hlt, node, hnode, hpath⟩ := h.handle fh i hopen hfh
    dsimp only
    rw [hnodes, hopens fh hlt]
    exact ⟨hlt.trans_le hnextFh, node, hnode, hpath⟩
  distinct := h.distinct

/-- A lookup taken back leaves the nodes. -/
theorem nodes_lost (h : Agrees s) (hi : Interned s.tables t path ino) {t' : Tables}
    (ht' : t'.nodes = t.nodes) : (dropLookup t' ino 1).nodes = s.tables.nodes := by
  obtain ⟨node, hnode, hname, hlookup⟩ := hi.here
  have hback : ∀ v : Option Node, s.tables.nodes ino = v →
      Function.update t'.nodes ino v = s.tables.nodes := by
    intro v hv
    funext i
    by_cases hii : i = ino
    · rw [hii, Function.update_self, hv]
    · rw [Function.update_of_ne hii, ht', hi.others i hii]
  rcases dropLookup_cases t' ino 1 with ⟨-, hroot | hnone⟩ | ⟨node', -, hnode', hdrop⟩
  · exact absurd hroot hi.root
  · rw [ht', hnode] at hnone
    cases hnone
  · rw [ht', hnode] at hnode'
    cases hnode'
    rcases hold : s.tables.nodes ino with _ | node₀
    · rw [hold] at hlookup
      rcases hdrop with ⟨hlt, -⟩ | ⟨-, heq⟩
      · rw [hlookup] at hlt
        exact absurd hlt (by simp)
      · rw [heq]
        exact hback none hold
    · have hpos := h.alive ino node₀ hold
      rw [hold] at hlookup
      have hlookup' : node.nlookup = node₀.nlookup + 1 := hlookup
      rcases hdrop with ⟨-, heq⟩ | ⟨hle, -⟩
      · rw [heq]
        refine hback _ (hold.trans (congrArg some ?_))
        rw [hlookup', hname, ← hi.same node₀ hold]
        rfl
      · omega

theorem rest_dropLookup (t : Tables) (ino n : Nat) : (dropLookup t ino n).opens = t.opens ∧
    (dropLookup t ino n).nextFh = t.nextFh ∧ (dropLookup t ino n).nextIno = t.nextIno := by
  rcases dropLookup_cases t ino n with ⟨heq, -⟩ | ⟨node, -, -, ⟨-, heq⟩ | ⟨-, heq⟩⟩ <;> rw [heq] <;>
    exact ⟨rfl, rfl, rfl⟩

theorem rest_rememberOpen (t : Tables) (path : List UInt8) (alloc : Bool) :
    (rememberOpen t path alloc).2.nodes = t.nodes ∧ (rememberOpen t path alloc).2.paths = t.paths ∧
      (rememberOpen t path alloc).2.nextIno = t.nextIno ∧
      t.nextFh ≤ (rememberOpen t path alloc).2.nextFh ∧
      ∀ fh, fh < t.nextFh → (rememberOpen t path alloc).2.opens fh = t.opens fh := by
  cases alloc
  · exact ⟨rfl, rfl, rfl, le_rfl, fun _ _ => rfl⟩
  · exact ⟨rfl, rfl, rfl, Nat.le_succ _, fun fh hlt => Function.update_of_ne (Nat.ne_of_lt hlt) ..⟩

theorem Consistent.of_eq {t t' : Tables} (h : Consistent t) (hnodes : t'.nodes = t.nodes)
    (hpaths : t'.paths = t.paths) (hnext : t'.nextIno = t.nextIno) : Consistent t' := by
  refine ⟨fun p i hmap => ?_, fun i hi => ?_⟩
  · rw [hpaths] at hmap
    rw [hnodes]
    exact h.named p i hmap
  · rw [hnext] at hi
    rw [hnodes]
    exact h.fresh i hi

theorem forgetOpen_rest (t : Tables) (fh : Nat) :
    (forgetOpen t fh).nodes = t.nodes ∧ (forgetOpen t fh).paths = t.paths ∧
      (forgetOpen t fh).nextIno = t.nextIno ∧ (forgetOpen t fh).nextFh = t.nextFh ∧
      ∀ fh', fh' ≠ fh → (forgetOpen t fh).opens fh' = t.opens fh' := by
  unfold forgetOpen
  split_ifs
  · exact ⟨rfl, rfl, rfl, rfl, fun _ _ => rfl⟩
  · exact ⟨rfl, rfl, rfl, rfl, fun _ hne => Function.update_of_ne hne ..⟩

/-- The record of a handle the kernel did not get. -/
theorem rest_forgetOpen (t : Tables) (path : List UInt8) (alloc : Bool) :
    (forgetOpen (rememberOpen t path alloc).2 (rememberOpen t path alloc).1).nodes = t.nodes ∧
      (forgetOpen (rememberOpen t path alloc).2 (rememberOpen t path alloc).1).paths = t.paths ∧
      (forgetOpen (rememberOpen t path alloc).2 (rememberOpen t path alloc).1).nextIno =
        t.nextIno ∧
      t.nextFh ≤ (forgetOpen (rememberOpen t path alloc).2 (rememberOpen t path alloc).1).nextFh ∧
      ∀ fh, fh < t.nextFh →
        (forgetOpen (rememberOpen t path alloc).2 (rememberOpen t path alloc).1).opens fh =
          t.opens fh := by
  cases alloc
  · exact ⟨rfl, rfl, rfl, le_rfl, fun _ _ => rfl⟩
  · obtain ⟨hnodes, hpaths, hnext, hnextFh, hopens⟩ := rest_rememberOpen t path true
    obtain ⟨hnodes', hpaths', hnext', hnextFh', hopens'⟩ :=
      forgetOpen_rest (rememberOpen t path true).2 t.nextFh
    refine ⟨hnodes'.trans hnodes, hpaths'.trans hpaths, hnext'.trans hnext,
      hnextFh.trans (le_of_eq hnextFh'.symm), fun fh hlt => ?_⟩
    exact (hopens' fh (Nat.ne_of_lt hlt)).trans (hopens fh hlt)

/-- A handle goes out, on a node with the path that was remembered for it. -/
theorem Agrees.remember (h : Agrees s) {node : Node} (hnode : s.tables.nodes ino = some node)
    (hpath : node.path = path) (alloc : Bool) : Agrees { s with
      tables := (rememberOpen s.tables path alloc).2
      handles := ((rememberOpen s.tables path alloc).1, ino) :: s.handles } := by
  obtain ⟨hnodes, hpaths, hnext, hnextFh, hopens⟩ := rest_rememberOpen s.tables path alloc
  have hbase := h.of_nodes (h.consistent.of_eq hnodes hpaths hnext) hnodes (le_of_eq hnext.symm)
    hnextFh hopens
  refine ⟨hbase.consistent, hbase.rootNode, hbase.next, hbase.nextFh, h.rootName, h.component,
    hbase.named, h.fits, hbase.count, hbase.alive, fun fh i hopen hfh => ?_, ?_⟩
  · rcases List.mem_cons.mp hopen with heq | hold
    · obtain ⟨rfl, rfl⟩ := Prod.mk.inj heq
      rw [hnodes]
      cases alloc
      · exact absurd rfl hfh
      · exact ⟨Nat.lt_succ_self _, node, hnode, by rw [hpath]; exact Function.update_self ..⟩
    · exact hbase.handle fh i hold hfh
  · refine List.pairwise_cons.mpr ⟨fun y hy hne => ?_, h.distinct⟩
    cases alloc
    · exact absurd rfl hne
    · intro heq
      have hy0 : y.1 ≠ 0 := heq ▸ Nat.ne_of_gt h.nextFh
      have hlt := (h.handle y.1 y.2 hy hy0).1
      exact absurd (heq.symm ▸ hlt) (Nat.lt_irrefl _)

theorem Agrees.release (h : Agrees s) {fh : Nat} (hopen : (fh, ino) ∈ s.handles) : Agrees { s with
    tables := forgetOpen s.tables fh, handles := s.handles.erase (fh, ino) } := by
  have hrest : ∀ x ∈ s.handles.erase (fh, ino), fh ≠ 0 → x.1 ≠ fh := by
    intro x hx hfh heq
    have hperm := List.perm_cons_erase hopen
    have hsymm : ∀ {x y : Nat × Nat}, (x.1 ≠ 0 → x.1 ≠ y.1) → y.1 ≠ 0 → y.1 ≠ x.1 := by
      intro x y hxy hy heq
      exact hxy (by rw [← heq]; exact hy) heq.symm
    have hpair := (hperm.pairwise_iff hsymm).mp h.distinct
    exact (List.pairwise_cons.mp hpair).1 x hx hfh heq.symm
  have hsub : ∀ x, x ∈ s.handles.erase (fh, ino) → x ∈ s.handles := fun x => List.mem_of_mem_erase
  have hsorted := h.distinct.sublist (List.erase_sublist (a := (fh, ino)))
  unfold forgetOpen
  split_ifs with hfh
  · exact ⟨h.consistent, h.rootNode, h.next, h.nextFh, h.rootName, h.component, h.named, h.fits,
      h.count, h.alive, fun fh' i hx => h.handle fh' i (hsub _ hx), hsorted⟩
  · refine ⟨h.consistent.of_eq rfl rfl rfl, h.rootNode, h.next, h.nextFh, h.rootName, h.component,
      h.named, h.fits, h.count, h.alive, fun fh' i hx hfh' => ?_, hsorted⟩
    obtain ⟨hlt, node, hnode, hpath⟩ := h.handle fh' i (hsub _ hx) hfh'
    refine ⟨hlt, node, hnode, ?_⟩
    exact (Function.update_of_ne (hrest _ hx hfh) ..).trans hpath

theorem Agrees.forget (h : Agrees s) {n : Nat} (hn : n ≤ s.count ino)
    (hkept : (∃ m, s.names m = some ino) ∨ (∃ fh, (fh, ino) ∈ s.handles) → n < s.count ino) :
    Agrees { s with
      tables := dropLookup s.tables ino n
      count := Function.update s.count ino (s.count ino - n) } := by
  obtain ⟨hopens, hnextFh, hnext⟩ := rest_dropLookup s.tables ino n
  have hconsistent := h.consistent.dropLookup ino n
  -- the nodes of names and handles stay, whatever becomes of the others
  have hcore : ∀ nodes : Nat → Option Node, (dropLookup s.tables ino n).nodes = nodes →
      (∀ i, i ≠ ino → nodes i = s.tables.nodes i) →
      (∀ node, s.tables.nodes ino = some node → n < s.count ino →
        ∃ node', nodes ino = some node' ∧ node'.path = node.path) →
      nodes rootIno = none →
      (ino ≠ rootIno → s.count ino - n = ((nodes ino).map Node.nlookup).getD 0) →
      (∀ node, nodes ino = some node → 0 < node.nlookup) →
      Agrees { s with
        tables := dropLookup s.tables ino n
        count := Function.update s.count ino (s.count ino - n) } := by
    rintro nodes rfl hothers hhere hroot hcount halive
    have hpaths : ∀ i node, s.tables.nodes i = some node →
        (i = ino → n < s.count ino) → ∃ node', (dropLookup s.tables ino n).nodes i = some node' ∧
          node'.path = node.path := by
      intro i node hnode hlt
      by_cases hi : i = ino
      · subst hi
        exact hhere node hnode (hlt rfl)
      · exact ⟨node, (hothers i hi).trans hnode, rfl⟩
    refine ⟨hconsistent, hroot, ?_, ?_, h.rootName, h.component, fun m i hne hm => ?_, h.fits,
      fun i hi => ?_, fun i node hnode => ?_, fun fh i hopen hfh => ?_, h.distinct⟩
    · rw [hnext]
      exact h.next
    · rw [hnextFh]
      exact h.nextFh
    · obtain ⟨node, hnode, hpath⟩ := h.named m i hne hm
      obtain ⟨node', hnode', hsame⟩ := hpaths i node hnode fun hi => hkept (Or.inl ⟨m, hi ▸ hm⟩)
      exact ⟨node', hnode', hsame.trans hpath⟩
    · dsimp only
      by_cases hii : i = ino
      · rw [hii, Function.update_self]
        exact hcount (hii ▸ hi)
      · rw [Function.update_of_ne hii, hothers i hii]
        exact h.count i hi
    · by_cases hii : i = ino
      · exact halive node (hii ▸ hnode)
      · exact h.alive i node ((hothers i hii).symm.trans hnode)
    · obtain ⟨hlt, node, hnode, hpath⟩ := h.handle fh i hopen hfh
      obtain ⟨node', hnode', hsame⟩ := hpaths i node hnode fun hi => hkept (Or.inr ⟨fh, hi ▸ hopen⟩)
      rw [hnextFh, hopens, hpath, hsame.symm]
      exact ⟨hlt, node', hnode', rfl⟩
  rcases dropLookup_cases s.tables ino n with
    ⟨heq, hnothing⟩ | ⟨node, hroot, hnode, ⟨hlt, heq⟩ | ⟨hle, heq⟩⟩
  · refine hcore s.tables.nodes (by rw [heq]) (fun _ _ => rfl) (fun node hnode _ => ⟨node, hnode, rfl⟩)
      h.rootNode (fun hroot => ?_) (h.alive ino)
    have hnone := hnothing.resolve_left hroot
    have hzero := h.count ino hroot
    rw [hnone] at hzero ⊢
    have hzero' : s.count ino = 0 := hzero
    rw [hzero']
    exact Nat.zero_sub n
  · have hcount := h.count ino hroot
    rw [hnode] at hcount
    have hcount' : s.count ino = node.nlookup := hcount
    refine hcore (Function.update s.tables.nodes ino (some { node with nlookup := node.nlookup - n }))
      (by rw [heq]) (fun i hi => Function.update_of_ne hi ..) (fun node' hnode' _ => ?_)
      ((Function.update_of_ne hroot.symm ..).trans h.rootNode) (fun _ => ?_) (fun node' hnode' => ?_)
    · rw [hnode] at hnode'
      exact ⟨_, Function.update_self .., by rw [← Option.some.inj hnode']⟩
    · rw [Function.update_self, hcount']
      rfl
    · rw [Function.update_self] at hnode'
      rw [← Option.some.inj hnode']
      exact Nat.sub_pos_of_lt hlt
  · have hcount := h.count ino hroot
    rw [hnode] at hcount
    have hcount' : s.count ino = node.nlookup := hcount
    refine hcore (Function.update s.tables.nodes ino none) (by rw [heq])
      (fun i hi => Function.update_of_ne hi ..) (fun _ _ hlt => ?_)
      ((Function.update_of_ne hroot.symm ..).trans h.rootNode) (fun _ => ?_) (fun node' hnode' => ?_)
    · omega
    · rw [Function.update_self]
      show s.count ino - n = 0
      omega
    · rw [Function.update_self] at hnode'
      cases hnode'

theorem Agrees.unlink (h : Agrees s) (m : Name) (c : List UInt8) :
    Agrees { s with names := cut s.names (m ++ [c]) } where
  consistent := h.consistent
  rootNode := h.rootNode
  next := h.next
  nextFh := h.nextFh
  rootName i hm := h.rootName i (cut_eq_some hm).2
  component n i hm := h.component n i (cut_eq_some hm).2
  named n i hne hm := h.named n i hne (cut_eq_some hm).2
  fits n i hm := h.fits n i (cut_eq_some hm).2
  count := h.count
  alive := h.alive
  handle := h.handle
  distinct := h.distinct

/-- **A rename moves the names and the paths alike.** -/
theorem Agrees.rename (h : Agrees s) {m n : Name} {a b old new : List UInt8} {newparent : Nat}
    {order : List Nat} {fails : Fails} (hparent : s.names m = some parent) (ha : Component a)
    (hold : s.childOf parent a = some old) (hnewparent : s.names n = some newparent)
    (hb : Component b) (hnew : s.childOf newparent b = some new) (horder : Order s.tables order)
    (hroom : Room s (m ++ [a]) (n ++ [b]) fails) : Agrees { s with
      tables := renameNodes s.tables order old new fails
      names := regraft s.names (m ++ [a]) (n ++ [b]) } := by
  obtain ⟨rfl, -⟩ := h.child hparent hold
  obtain ⟨rfl, -⟩ := h.child hnewparent hnew
  have hold' := components_snoc (h.component m parent hparent) ha
  have hnew' := components_snoc (h.component n newparent hnewparent) hb
  have hspell : ∀ k c, spelled (k ++ [c]) = spell slash (k ++ [c]) := fun k c =>
    if_neg (by simp)
  obtain ⟨hnext, hnextFh, hopens⟩ :=
    next_renameNodes s.tables order (spelled (m ++ [a])) (spelled (n ++ [b])) fails
  obtain ⟨hnodeRoom, hhandleRoom, hfits⟩ := hroom
  set moved := fun path : List UInt8 =>
    (renamedPath (spelled (m ++ [a])) (spelled (n ++ [b])) path).getD path with hmoved
  have hnodes : ∀ i node, s.tables.nodes i = some node →
      (renameNodes s.tables order (spelled (m ++ [a])) (spelled (n ++ [b])) fails).nodes i =
        some { node with path := moved node.path } := fun i node hnode =>
    nodes_renameNodes horder hnode fun p hp => hnodeRoom i node hnode (by
      unfold renamedPath at hp
      split_ifs at hp with hcov
      exact hcov)
  have hnone : ∀ i, s.tables.nodes i = none →
      (renameNodes s.tables order (spelled (m ++ [a])) (spelled (n ++ [b])) fails).nodes i =
        none := fun i => nodes_renameNodes_none
  have hkept : ∀ i, ((renameNodes s.tables order (spelled (m ++ [a])) (spelled (n ++ [b]))
      fails).nodes i).map Node.nlookup = (s.tables.nodes i).map Node.nlookup := by
    intro i
    rcases hnode : s.tables.nodes i with _ | node
    · rw [hnone i hnode]
    · rw [hnodes i node hnode]
      rfl
  -- the names after the rename, with the node each of them has
  have hnames : ∀ p i, regraft s.names (m ++ [a]) (n ++ [b]) p = some i →
      (∃ k, p = (n ++ [b]) ++ k ∧ s.names ((m ++ [a]) ++ k) = some i) ∨
        ¬ (m ++ [a]) <+: p ∧ s.names p = some i := fun p i => regraft_eq_some
  have hbelow : ∀ k i, s.names ((m ++ [a]) ++ k) = some i → ∀ c ∈ k, Component c :=
    fun k i hk c hc => h.component _ i hk c (List.mem_append_right _ hc)
  refine ⟨h.consistent.renameNodes _ _ _ _, hnone _ h.rootNode, ?_, ?_, fun i hp => ?_,
    fun p i hp => ?_, fun p i hne hp => ?_, fun p i hp => ?_, fun i hi => ?_,
    fun i node hnode => ?_, fun fh i hopen hfh => ?_, h.distinct⟩
  · rw [hnext]
    exact h.next
  · rw [hnextFh]
    exact h.nextFh
  · rcases hnames [] i hp with ⟨k, hk, -⟩ | ⟨-, hp⟩
    · exact absurd hk.symm (by simp)
    · exact h.rootName i hp
  · rcases hnames p i hp with ⟨k, rfl, hk⟩ | ⟨-, hp⟩
    · intro c hc
      rcases List.mem_append.mp hc with hc | hc
      · exact hnew' c hc
      · exact hbelow k i hk c hc
    · exact h.component p i hp
  · rcases hnames p i hp with ⟨k, rfl, hk⟩ | ⟨hbeside, hp⟩
    · obtain ⟨node, hnode, hpath⟩ := h.named _ i (by simp) hk
      refine ⟨_, hnodes i node hnode, ?_⟩
      have hspelled : ∀ (x : Name) (d : List UInt8), spelled (x ++ [d] ++ k) =
          spell slash (x ++ [d] ++ k) := fun x d => if_neg (by simp)
      rw [hmoved]
      dsimp only
      rw [hpath, hspelled m a, hspelled n b, hspell m a, hspell n b,
        renamedPath_below hold' (hbelow k i hk)]
      rfl
    · obtain ⟨node, hnode, hpath⟩ := h.named p i hne hp
      refine ⟨_, hnodes i node hnode, ?_⟩
      rw [hmoved]
      dsimp only
      have hspelled : spelled p = spell slash p := if_neg hne
      rw [hpath, hspelled, hspell m a, hspell n b,
        renamedPath_beside hold' (h.component p i hp) hbeside]
      rfl
  · rcases hnames p i hp with ⟨k, rfl, hk⟩ | ⟨-, hp⟩
    · exact hfits k i hk
    · exact h.fits p i hp
  · exact (h.count i hi).trans (congrArg (fun o => Option.getD o 0) (hkept i).symm)
  · rcases hold : s.tables.nodes i with _ | node₀
    · exact absurd ((hnone i hold).symm.trans hnode) (by simp)
    · have heq := Option.some.inj ((hnodes i node₀ hold).symm.trans hnode)
      rw [← heq]
      exact h.alive i node₀ hold
  · obtain ⟨hlt, node, hnode, hpath⟩ := h.handle fh i hopen hfh
    refine ⟨by rw [hnextFh]; exact hlt, _, hnodes i node hnode, ?_⟩
    rw [hopens]
    dsimp only
    rw [hpath]
    refine congrArg some ?_
    unfold renamedOpen
    by_cases hcov : covered (spelled (m ++ [a])) node.path = true
    · rw [hhandleRoom fh node.path hpath hcov]
      rfl
    · have hstays : moved node.path = node.path := by
        rw [hmoved]
        dsimp only
        unfold renamedPath
        rw [if_neg hcov]
        rfl
      split_ifs
      · exact hstays.symm
      · rfl

/-- **Each request keeps the tables and the kernel in step.** -/
theorem Agrees.request (h : Agrees s) (hrequest : Request Room false s s') : Agrees s' := by
  cases hrequest with
  | lookup alloc hparent hc hpath hintern => exact h.entry hparent hc hpath hintern
  | @lookupLost n c path parent ino alloc t hparent hc hpath hintern =>
    obtain ⟨rfl, -⟩ := h.child hparent hpath
    have hroot := spelled_ne_root (components_snoc (h.component n parent hparent) hc) (by simp)
    have hi := h.interned hroot hintern
    obtain ⟨hopens, hnextFh, hnext⟩ := rest_dropLookup t ino 1
    refine h.of_nodes (hi.consistent.dropLookup ino 1) (nodes_lost h hi rfl) ?_ ?_ fun fh _ => ?_
    · rw [hnext]
      exact hi.nextIno
    · rw [hnextFh, hi.nextFh]
    · rw [hopens, hi.opens]
  | @create n c path parent ino alloc alloc' t hparent hc hpath hintern =>
    have hentry := h.entry hparent hc hpath hintern
    obtain ⟨rfl, -⟩ := h.child hparent hpath
    have hroot := spelled_ne_root (components_snoc (h.component n parent hparent) hc) (by simp)
    obtain ⟨node, hnode, hname, -⟩ := (h.interned hroot hintern).here
    exact hentry.remember (s := s.entry t (n ++ [c]) ino) hnode hname alloc'
  | @createLost n c path parent ino alloc alloc' t hparent hc hpath hintern =>
    obtain ⟨rfl, -⟩ := h.child hparent hpath
    have hroot := spelled_ne_root (components_snoc (h.component n parent hparent) hc) (by simp)
    have hi := h.interned hroot hintern
    obtain ⟨hnodes, hpaths, hnext', hnextFh', hopens'⟩ :=
      rest_forgetOpen t (spelled (n ++ [c])) alloc'
    obtain ⟨hopens, hnextFh, hnext⟩ := rest_dropLookup (forgetOpen
      (rememberOpen t (spelled (n ++ [c])) alloc').2
      (rememberOpen t (spelled (n ++ [c])) alloc').1) ino 1
    refine h.of_nodes ((hi.consistent.of_eq hnodes hpaths hnext').dropLookup ino 1)
      (nodes_lost h hi hnodes) ?_ ?_ fun fh hlt => ?_
    · rw [hnext, hnext']
      exact hi.nextIno
    · rw [hnextFh, ← hi.nextFh]
      exact hnextFh'
    · rw [hopens, hopens' fh (hi.nextFh ▸ hlt), hi.opens]
  | @openFile ino path alloc hfile href hpath =>
    unfold pathForIno at hpath
    rw [if_neg hfile] at hpath
    obtain ⟨node, hnode, hfit⟩ := Option.bind_eq_some_iff.mp hpath
    unfold fitting at hfit
    split_ifs at hfit
    exact h.remember hnode (Option.some.inj hfit) alloc
  | @openLost ino path alloc hfile href hpath =>
    obtain ⟨hnodes, hpaths, hnext, hnextFh, hopens⟩ := rest_forgetOpen s.tables path alloc
    exact h.of_nodes (h.consistent.of_eq hnodes hpaths hnext) hnodes (le_of_eq hnext.symm) hnextFh
      hopens
  | release hopen => exact h.release hopen
  | forget hn hkept => exact h.forget hn hkept
  | @unlink n c => exact h.unlink n c
  | rename hparent ha hold hnewparent hb hnew horder hroom =>
    exact h.rename hparent ha hold hnewparent hb hnew horder hroom
  | exchange _ _ _ _ _ _ hallowed => cases hallowed

theorem agrees_start : Agrees {} := by
  have hroot : ∀ (n : Name) i, ({} : World).names n = some i → n = [] ∧ i = rootIno := by
    intro n i h
    have h' : (if n = [] then some rootIno else none) = some i := h
    split_ifs at h' with hn
    exact ⟨hn, (Option.some.inj h').symm⟩
  refine ⟨consistent_empty, rfl, by decide, by decide, fun i h => (hroot [] i h).2,
    fun n i h => ?_, fun n i hne h => absurd (hroot n i h).1 hne, fun n i h => ?_,
    fun _ _ => rfl, nofun, nofun, List.Pairwise.nil⟩
  · rw [(hroot n i h).1]
    exact nofun
  · rw [(hroot n i h).1]
    decide

/-- **Each name's number resolves to that name**, and so does each handle open on it, in every run
of requests without an exchange whose renames have room. -/
theorem named_of_run (hrun : Run (Request Room false) Always {} s) : Named s := by
  have hstep : ∀ s s', Agrees s → Request Room false s s' → Always s s' → Agrees s' :=
    fun _ _ h hrequest _ => h.request hrequest
  exact (hrun.invariant hstep agrees_start).isNamed

/-- The kernel has looked up `/a`, number 2. -/
def oneFile : World :=
  World.entry {}
    { nodes := Function.update (fun _ => none) 2 (some ⟨pathA, 1⟩)
      paths := Function.update (fun _ => none) pathA (some 2)
      nextIno := 3 } [[97]] 2

theorem room_oneFile : Room oneFile [[97]] [[99]] {} := by
  refine ⟨fun _ _ _ _ => nofun, fun _ _ _ _ => rfl, fun k i hname => ?_⟩
  have hk : k = [] := by
    by_contra hk
    have hne : [[97]] ++ k ≠ ([[97]] : Name) := by simpa using hk
    have hold := (Function.update_of_ne hne ..).symm.trans hname
    cases hold
  rw [hk]
  decide

theorem order_oneFile : Order oneFile.tables [2] := by
  refine ⟨by decide, fun i => ?_⟩
  by_cases hi : i = 2
  · rw [hi]
    exact iff_of_true (by decide) rfl
  · have hnone : oneFile.tables.nodes i = none :=
      (Function.update_of_ne hi _ (fun _ => none)).trans rfl
    rw [hnone]
    exact iff_of_false (by simpa using hi) (by decide)

/-- `/a` is looked up and renamed to `/c`: its number resolves to `/c`. -/
theorem named_of_run_rename : ∃ s : World, s.names [[99]] = some 2 ∧ Named s := by
  have r₀ : Run (Request Room false) Always {} {} := Run.refl _
  have r₁ : Run (Request Room false) Always {} oneFile :=
    r₀.then (Request.lookup (n := []) (c := [97]) true rfl ⟨by decide, by decide⟩ rfl rfl)
  have r₂ := r₁.then (Request.rename (m := []) (n := []) (a := [97]) (b := [99]) rfl
    ⟨by decide, by decide⟩ rfl rfl ⟨by decide, by decide⟩ rfl order_oneFile room_oneFile)
  exact ⟨_, rfl, named_of_run r₂⟩

/-- `/a` and `/b` trade places: the number of `/a` is the one that was looked up as `/b`, and it
resolves to `/b`. -/
theorem named_fails_after_exchange :
    ¬ ∀ s, Run (Request Room true) Always {} s → Named s := by
  intro h
  have r₀ : Run (Request Room true) Always {} {} := Run.refl _
  have r₁ := r₀.then (Request.lookup (n := []) (c := [97]) true rfl
    ⟨by decide, by decide⟩ rfl rfl)
  have r₂ := r₁.then (Request.lookup (n := []) (c := [98]) true rfl ⟨by decide, by decide⟩ rfl rfl)
  have r₃ := r₂.then (Request.exchange (m := []) (n := []) (a := [97]) (b := [98]) rfl
    ⟨by decide, by decide⟩ rfl rfl ⟨by decide, by decide⟩ rfl rfl)
  exact absurd (h _ r₃ [[97]] 3 rfl).1 (by decide)

end Inodes

end ModelFs
