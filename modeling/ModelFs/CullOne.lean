import ModelFs.CullSample
import ModelFs.Lib.PutAll
import ModelFs.Punch

/-!
# One round of culling

`cullOne` tries the 32 entries that were idle the longest, the oldest first: one that is pinned or
has no mark is passed over, of the others the last marked piece is punched, and the first punch that
succeeds ends the round. When none does, `cullOneOnDisk` tries one punch on each of the 8 oldest
files that no entry stands for.

What the kernel answers is a parameter: `Quiet` says that it refuses nothing it could grant. A hole
of length 0 it never grants, so a last mark past the size is put back by every punch of it.

* `cullOne_eq_true_iff` — **when a round punches**: something among the oldest can be punched.
* `cullOne_progress_iff` — so a round makes progress wherever there is something to cull exactly if
  something within its reach can be.
* `cullOne_starves` — 32 pinned entries hide a younger one that is not.
* `cullOne_stuck` — a mark past the size hides the marked pieces inside it.
-/

namespace ModelFs

namespace Cull

open Inodes (pathMax)
open Select (Lowest)

variable {φ δ κ : Type}

/-! ## The store -/

/-- The files map, in the order of its iteration. -/
structure Files (φ δ : Type) where
  entries : List (Name × Cached φ δ)
  names : (entries.map Prod.fst).Nodup

def Files.get (files : Files φ δ) (rel : Name) : Option (Cached φ δ) :=
  (files.entries.find? fun e => e.1 = rel).map Prod.snd

/-- An entry is changed in place. -/
def Files.set (files : Files φ δ) (rel : Name) (c : Cached φ δ) : Files φ δ where
  entries := files.entries.map fun e => if e.1 = rel then (e.1, c) else e
  names := by
    have hsame : (Prod.fst ∘ fun e : Name × Cached φ δ => if e.1 = rel then (e.1, c) else e) =
        Prod.fst := by
      funext e
      simp only [Function.comp_apply]
      split <;> rfl
    rw [List.map_map, hsame]
    exact files.names

/-- A data file that no entry stands for, as a punch finds it: its size by `fstat`, unless that
fails or is none, and what its sidecar loads as under that size, unless that fails. -/
structure DataFile where
  size : Option UInt64
  loaded : Option LoadedBits

structure Store (φ δ κ : Type) where
  pieceSize : UInt32
  cache : Name
  files : Files φ δ
  refs : Name → Nat := fun _ => 0
  /-- `pinExists`. -/
  pins : Name → Bool
  tree : List (Name × DataNode)
  data : Name → DataFile
  purgeEpoch : Nat := 0
  piecesCulled : Nat := 0
  /-- What was done to which files, the last first. -/
  ops : List (Name × List (Io φ ⊕ DiskOp κ)) := []

/-- What the calls of a round are answered, by name. -/
structure Answers (φ : Type) where
  /-- The cache file of an entry, where it has no descriptor. -/
  opened : Name → Option φ
  saved : Name → Bool
  /-- A cache read began while the sidecar was being saved. -/
  lateXfer : Name → Bool
  punched : Name → Bool
  /-- The data file of a name without an entry, to be punched. -/
  dataOpened : Name → Bool
  disk : Name → Punch.DiskEnv

/-- The kernel refuses nothing it could grant, and nobody reads in between. -/
structure Quiet (a : Answers φ) : Prop where
  opened : ∀ rel, (a.opened rel).isSome = true
  saved : ∀ rel, a.saved rel = true
  lateXfer : ∀ rel, a.lateXfer rel = false
  punched : ∀ rel, a.punched rel = true
  dataOpened : ∀ rel, a.dataOpened rel = true
  disk : ∀ rel, (a.disk rel).encoded = true ∧ (a.disk rel).saved = .done ∧
    (a.disk rel).punched = true

section Round

variable (a : Answers φ) (nowSec : Int)

/-! ## The round -/

/-- `punchPiece` on the entry of a name. -/
def punchEntry (s : Store φ δ κ) (rel : Name) (c : Cached φ δ) (idx : Nat) :
    Bool × Store φ δ κ :=
  let r := c.punchPiece s.pieceSize.toNat idx
    ⟨nowSec, s.pins rel, a.opened rel, a.saved rel, a.lateXfer rel, a.punched rel⟩
  (r.2.2, { s with
    files := s.files.set rel r.1
    ops := (rel, r.2.1.map Sum.inl) :: s.ops
    piecesCulled := if r.2.2 then s.piecesCulled + 1 else s.piecesCulled })

/-- The second phase of `cullOne`. -/
def punchFirst : List IdleCand → Store φ δ κ → Bool × Store φ δ κ
  | [], s => (false, s)
  | cd :: cands, s =>
    if s.pins cd.rel then punchFirst cands s
    else
      match s.files.get cd.rel with
      | none => punchFirst cands s
      | some c =>
        match c.bits.lastSet with
        | none => punchFirst cands s
        | some idx =>
          match punchEntry a nowSec s cd.rel c idx with
          | (true, s) => (true, s)
          | (false, s) => punchFirst cands s

/-- `punchDisk`, with `punchDiskUnclaimed`. -/
def punchDisk (s : Store φ δ κ) (rel : Name) : Bool × Store φ δ κ :=
  if s.pins rel then (false, s)
  else if !a.dataOpened rel then (false, s)
  else
    match (s.data rel).size, (s.data rel).loaded with
    | some size, some loaded =>
      let r : List (DiskOp κ) × Bool := Punch.punchDisk s.pieceSize s.purgeEpoch
        (s.files.get rel).isSome ⟨s.purgeEpoch, size, loaded⟩ (a.disk rel)
      (r.2, { s with
        ops := (rel, r.1.map Sum.inr) :: s.ops
        purgeEpoch := if r.2 then s.purgeEpoch + 1 else s.purgeEpoch
        piecesCulled := if r.2 then s.piecesCulled + 1 else s.piecesCulled })
    | _, _ => (false, s)

/-- The loop of `cullOneOnDisk`. -/
def punchVictims : List DiskVictim → Bool → Store φ δ κ → Bool × Store φ δ κ
  | [], punched, s => (punched, s)
  | v :: victims, punched, s =>
    match s.files.get v.rel with
    | none =>
      match punchDisk a s v.rel with
      | (ok, s) => punchVictims victims (ok || punched) s
    | some live =>
      match live.bits.lastSet with
      | none => punchVictims victims punched s
      | some i =>
        match punchEntry a nowSec s v.rel live i with
        | (ok, s) => punchVictims victims (ok || punched) s

/-- What the walk asks of the store. -/
def Store.walkEnv (s : Store φ δ κ) : WalkEnv := ⟨s.pins, fun rel => (s.files.get rel).isSome⟩

def cullOneOnDisk (s : Store φ δ κ) : Bool × Store φ δ κ :=
  match joinZ pathMax s.cache (ascii "data") with
  | none => (false, s)
  | some root => punchVictims a nowSec (walkData s.walkEnv root s.tree) false s

/-- The entries as the first phase loads them. -/
def Store.cands (s : Store φ δ κ) : List IdleCand :=
  s.files.entries.map fun e => ⟨e.1, e.2.lastAccess⟩

/-- `releaseFile` on each of them. -/
def Store.release (s : Store φ δ κ) (cands : List IdleCand) : Store φ δ κ :=
  { s with refs := fun rel => s.refs rel - cands.countP fun cd => cd.rel = rel }

def cullOne (s : Store φ δ κ) : Bool × Store φ δ κ :=
  let sampling := sampleIdle nowSec s.cands { refs := s.refs }
  match punchFirst a nowSec sampling.cands { s with refs := sampling.refs } with
  | (true, s) => (true, s.release sampling.cands)
  | (false, s) =>
    match cullOneOnDisk a nowSec s with
    | (punched, s) => (punched, s.release sampling.cands)

end Round

/-! ## What can be punched -/

/-- The last marked piece of an entry may go: it is not being filled, nobody reads, and it has a
byte inside the size. -/
def Ready (pieceSize : Nat) (nowSec : Int) (c : Cached φ δ) : Prop :=
  ¬ satSubI64 nowSec c.lastAccess < recencySecs ∧
    ∃ idx, c.bits.lastSet = some idx ∧ idx ∉ c.filling ∧ c.xferBusy = false ∧
      0 < Piece.len c.size idx pieceSize

/-- An entry without a pin that can be punched. -/
def CanPunch (nowSec : Int) (s : Store φ δ κ) (rel : Name) : Prop :=
  ∃ c, s.files.get rel = some c ∧ s.pins rel = false ∧ Ready s.pieceSize.toNat nowSec c

/-- A data file has a piece to go: the last marked one, if it has a byte inside the size, or all of
the file where none is marked. -/
def DataFile.Ready (pieceSize : Nat) (f : DataFile) : Prop :=
  ∃ size loaded, f.size = some size ∧ f.loaded = some loaded ∧
    ((∃ idx, loaded.bits.lastSet = some idx ∧ 0 < Piece.len size.toNat idx pieceSize) ∨
      loaded.bits.lastSet = none ∧ size ≠ 0)

/-- The files the walk can take. -/
def Store.victims (s : Store φ δ κ) : List DiskVictim :=
  match joinZ pathMax s.cache (ascii "data") with
  | none => []
  | some root => eligible s.walkEnv walkMaxDepth root [] s.tree

/-- An entry that is not pinned can be punched, and fewer than 32 idle entries are older; or a file
on disk can be, and fewer than 8 files the walk can take are older. -/
def InReach (nowSec : Int) (s : Store φ δ κ) : Prop :=
  (∃ rel c, s.files.get rel = some c ∧ s.pins rel = false ∧ Ready s.pieceSize.toNat nowSec c ∧
    ((s.cands.filter (isIdle nowSec)).countP fun f => idleOlder f ⟨rel, c.lastAccess⟩) <
      idleSampleCap) ∨
  ∃ v ∈ s.victims, (s.data v.rel).Ready s.pieceSize.toNat ∧
    (s.victims.countP fun w => victimOlder w v) < walkSampleCap

/-- There is something to cull: an idle entry, not pinned and without a transfer or a fill, with a
marked piece inside its size; or a file the walk can take, whose sidecar can be read. -/
def Cullable (nowSec : Int) (s : Store φ δ κ) : Prop :=
  (∃ rel c, s.files.get rel = some c ∧ s.pins rel = false ∧
    ¬ satSubI64 nowSec c.lastAccess < recencySecs ∧ c.xferBusy = false ∧ (∀ i, i ∉ c.filling) ∧
    ∃ i, c.bits.get i = true ∧ Piece.offset i s.pieceSize.toNat < c.size) ∨
  ∃ v ∈ s.victims, ∃ size loaded,
    (s.data v.rel).size = some size ∧ (s.data v.rel).loaded = some loaded

/-! ## The map -/

theorem Files.get_eq_some {files : Files φ δ} {rel : Name} {c : Cached φ δ} :
    files.get rel = some c ↔ (rel, c) ∈ files.entries := by
  unfold Files.get
  rw [Option.map_eq_some_iff]
  constructor
  · rintro ⟨e, hfind, rfl⟩
    obtain ⟨hmem, rfl⟩ := (find?_key_eq_some files.names).mp hfind
    exact hmem
  · exact fun hmem => ⟨(rel, c), (find?_key_eq_some files.names).mpr ⟨hmem, rfl⟩, rfl⟩

/-- An entry that is changed in place is found as it is now, and the others as they were. -/
theorem Files.get_set (files : Files φ δ) (rel rel' : Name) (c : Cached φ δ) :
    (files.set rel c).get rel' =
      if rel' = rel then (files.get rel').map fun _ => c else files.get rel' := by
  have hkey : ((fun e : Name × Cached φ δ => decide (e.1 = rel')) ∘
      fun e => if e.1 = rel then (e.1, c) else e) = fun e => decide (e.1 = rel') := by
    funext e
    simp only [Function.comp_apply]
    split <;> rfl
  unfold Files.get Files.set
  rw [List.find?_map, hkey]
  cases hfind : files.entries.find? fun e => decide (e.1 = rel') with
  | none => simp
  | some e =>
    have hname : e.1 = rel' := by simpa using List.find?_some hfind
    simp only [Option.map_some, hname]
    split <;> rfl

/-! ## What a punch that fails leaves -/

/-- An entry, but for its descriptor. -/
def shut (c : Cached φ δ) : Cached φ δ := { c with cacheFd := none }

/-- A store that differs only in what was done to the files, and in what is open. -/
structure Store.Left (s s' : Store φ δ κ) : Prop where
  pieceSize : s'.pieceSize = s.pieceSize
  cache : s'.cache = s.cache
  pins : s'.pins = s.pins
  tree : s'.tree = s.tree
  data : s'.data = s.data
  piecesCulled : s'.piecesCulled = s.piecesCulled
  get : ∀ rel, (s'.files.get rel).map shut = (s.files.get rel).map shut

namespace Store.Left

variable {nowSec : Int} {s s' s'' : Store φ δ κ}

theorem refl (s : Store φ δ κ) : s.Left s := ⟨rfl, rfl, rfl, rfl, rfl, rfl, fun _ => rfl⟩

theorem trans (h : s.Left s') (h' : s'.Left s'') : s.Left s'' where
  pieceSize := h'.pieceSize.trans h.pieceSize
  cache := h'.cache.trans h.cache
  pins := h'.pins.trans h.pins
  tree := h'.tree.trans h.tree
  data := h'.data.trans h.data
  piecesCulled := h'.piecesCulled.trans h.piecesCulled
  get := fun rel => (h'.get rel).trans (h.get rel)

/-- Whether an entry can be punched has nothing to do with its descriptor. -/
theorem canPunch_iff (h : s.Left s') (rel : Name) :
    CanPunch nowSec s' rel ↔ CanPunch nowSec s rel := by
  have hshut : ∀ t : Store φ δ κ, CanPunch nowSec t rel ↔
      ∃ c, (t.files.get rel).map shut = some c ∧ t.pins rel = false ∧
        Ready t.pieceSize.toNat nowSec c := by
    intro t
    constructor
    · rintro ⟨c, hget, hpin, hready⟩
      exact ⟨shut c, by rw [hget]; rfl, hpin, hready⟩
    · rintro ⟨_, hmap, hpin, hready⟩
      obtain ⟨c, hget, rfl⟩ := Option.map_eq_some_iff.mp hmap
      exact ⟨c, hget, hpin, hready⟩
  rw [hshut s', hshut s, h.get rel, h.pins, h.pieceSize]

theorem isSome_get (h : s.Left s') (rel : Name) :
    (s'.files.get rel).isSome = (s.files.get rel).isSome := by
  have hget := congrArg Option.isSome (h.get rel)
  rwa [Option.isSome_map, Option.isSome_map] at hget

/-- So what the walk can take stays the same. -/
theorem victims (h : s.Left s') : s'.victims = s.victims := by
  have henv : s'.walkEnv = s.walkEnv := by
    unfold Store.walkEnv
    rw [h.pins, funext h.isSome_get]
  unfold Store.victims
  rw [henv, h.cache, h.tree]

end Store.Left

/-! ## One punch -/

section Quiet

variable {a : Answers φ} {nowSec : Int}

/-- A punch of a marked piece, when nothing is refused: it succeeds, or the entry is left as it was,
but for its descriptor. -/
theorem punchPiece_quiet (pieceSize : Nat) {c : Cached φ δ} {idx : Nat} {env : Cached.PunchEnv φ}
    (hpinned : env.pinned = false) (hopened : env.opened.isSome = true) (hsaved : env.saved = true)
    (hlate : env.lateXfer = false) (hpunched : env.punched = true) (hbit : c.bits.get idx = true) :
    ((c.punchPiece pieceSize idx env).2.2 = true ∧
      (¬ satSubI64 env.nowSec c.lastAccess < recencySecs ∧ idx ∉ c.filling ∧
        c.xferBusy = false ∧ 0 < Piece.len c.size idx pieceSize)) ∨
    (((c.punchPiece pieceSize idx env).2.2 = false ∧
        shut (c.punchPiece pieceSize idx env).1 = shut c) ∧
      ¬ (¬ satSubI64 env.nowSec c.lastAccess < recencySecs ∧ idx ∉ c.filling ∧
        c.xferBusy = false ∧ 0 < Piece.len c.size idx pieceSize)) := by
  unfold Cached.punchPiece
  by_cases hrecent : satSubI64 env.nowSec c.lastAccess < recencySecs
  · rw [if_pos hrecent]
    exact Or.inr ⟨⟨rfl, rfl⟩, fun h => h.1 hrecent⟩
  rw [if_neg hrecent, hpinned, if_neg Bool.false_ne_true]
  by_cases hfill : idx ∈ c.filling
  · rw [if_pos hfill]
    exact Or.inr ⟨⟨rfl, rfl⟩, fun h => h.2.1 hfill⟩
  rw [if_neg hfill]
  cases hxfer : c.xferBusy with
  | true =>
    rw [if_pos rfl]
    exact Or.inr ⟨⟨rfl, rfl⟩, fun h => Bool.noConfusion h.2.2.1⟩
  | false =>
    have hopen : ∃ fd, c.openCacheUnlocked env.opened =
        ({ c with cacheFd := some fd }, (c.openCacheUnlocked env.opened).2) := by
      unfold Cached.openCacheUnlocked
      cases hfd : c.cacheFd with
      | some fd =>
        refine ⟨fd, Prod.ext ?_ rfl⟩
        simp only
        rw [← hfd]
      | none =>
        obtain ⟨fd, hfd'⟩ := Option.isSome_iff_exists.mp hopened
        exact ⟨fd, by rw [hfd']⟩
    obtain ⟨fd, hopen⟩ := hopen
    rw [if_neg Bool.false_ne_true, hbit, hsaved, hlate, hpunched, hopen]
    simp only [Bool.not_true, Bool.false_eq_true, if_false, Bool.false_or, Cached.punchHole,
      Bool.true_and]
    by_cases hlen : 0 < Piece.len c.size idx pieceSize
    · rw [decide_eq_true hlen]
      exact Or.inl ⟨rfl, hrecent, hfill, trivial, hlen⟩
    · rw [decide_eq_false hlen]
      -- the mark is put back
      have hbits : (c.bits.clear idx).set idx = c.bits :=
        Bitfield.eq_of_get (by simp) fun i => Cached.get_set_clear hbit i
      refine Or.inr ⟨⟨rfl, ?_⟩, fun h => hlen h.2.2.2⟩
      simp only [Bool.not_false, if_true, hbits]
      rfl

/-- What became of a try: a punch, which takes `what` to be so, or a store left as it was. -/
def Outcome (s : Store φ δ κ) (what : Prop) (r : Bool × Store φ δ κ) : Prop :=
  (r.1 = true ∧ r.2.piecesCulled = s.piecesCulled + 1 ∧ what) ∨
    ((r.1 = false ∧ s.Left r.2) ∧ ¬ what)

/-- A try on a store that another try left as it was. -/
theorem Outcome.of_left {s s' : Store φ δ κ} {what : Prop} {r : Bool × Store φ δ κ}
    (hleft : s.Left s') (h : Outcome s' what r) : Outcome s what r := by
  rcases h with ⟨hok, hculled, hwhat⟩ | ⟨⟨hno, hleft'⟩, hnot⟩
  · exact Or.inl ⟨hok, by rw [hculled, hleft.piecesCulled], hwhat⟩
  · exact Or.inr ⟨⟨hno, hleft.trans hleft'⟩, hnot⟩

/-- A punch on an entry, when nothing is refused. -/
theorem punchEntry_quiet (hquiet : Quiet a) {s : Store φ δ κ} {rel : Name} {c : Cached φ δ}
    {idx : Nat} (hget : s.files.get rel = some c) (hpin : s.pins rel = false)
    (hlast : c.bits.lastSet = some idx) :
    Outcome s (Ready s.pieceSize.toNat nowSec c) (punchEntry a nowSec s rel c idx) := by
  have hbit : c.bits.get idx = true := (Bitfield.isGreatest_of_lastSet hlast).1
  have hpunch := @punchPiece_quiet φ δ s.pieceSize.toNat c idx
    ⟨nowSec, s.pins rel, a.opened rel, a.saved rel, a.lateXfer rel, a.punched rel⟩ hpin
    (hquiet.opened rel) (hquiet.saved rel) (hquiet.lateXfer rel) (hquiet.punched rel) hbit
  rcases hpunch with ⟨hok, hidle, hfree⟩ | ⟨⟨hno, hshut⟩, hbusy⟩
  · left
    refine ⟨hok, ?_, hidle, idx, hlast, hfree⟩
    simp only [punchEntry, hok, if_true]
  · right
    refine ⟨⟨hno, rfl, rfl, rfl, rfl, rfl, ?_, fun rel' => ?_⟩, ?_⟩
    · simp only [punchEntry, hno, Bool.false_eq_true, if_false]
    · simp only [punchEntry, Files.get_set]
      split
      · next h => rw [h, hget, Option.map_map]; exact congrArg some hshut
      · rfl
    · rintro ⟨hidle, idx', hlast', hfree⟩
      obtain rfl := Option.some.inj (hlast.symm.trans hlast')
      exact hbusy ⟨hidle, hfree⟩

/-- **The second phase**: it punches iff one of the entries can be punched. -/
theorem punchFirst_quiet (hquiet : Quiet a) (cands : List IdleCand) (s : Store φ δ κ) :
    Outcome s (∃ cd ∈ cands, CanPunch nowSec s cd.rel) (punchFirst a nowSec cands s) := by
  induction cands generalizing s with
  | nil => exact Or.inr ⟨⟨rfl, Store.Left.refl s⟩, by simp⟩
  | cons cd cands ih =>
    rw [List.exists_mem_cons_iff]
    -- a candidate that is passed over, or whose punch fails, leaves the store to the others
    have hpass : ∀ s', s.Left s' → ¬ CanPunch nowSec s cd.rel →
        punchFirst a nowSec (cd :: cands) s = punchFirst a nowSec cands s' →
        Outcome s (CanPunch nowSec s cd.rel ∨ ∃ cd ∈ cands, CanPunch nowSec s cd.rel)
          (punchFirst a nowSec (cd :: cands) s) := by
      intro s' hleft hnot hstep
      rw [hstep, or_iff_right hnot]
      have hothers := Outcome.of_left hleft (ih s')
      simpa only [hleft.canPunch_iff] using hothers
    by_cases hpin : s.pins cd.rel = true
    · refine hpass s (Store.Left.refl s) (fun h => ?_) (by rw [punchFirst, if_pos hpin])
      obtain ⟨c, -, hfree, -⟩ := h
      exact Bool.noConfusion (hpin.symm.trans hfree)
    have hfree : s.pins cd.rel = false := Bool.eq_false_iff.mpr hpin
    cases hget : s.files.get cd.rel with
    | none =>
      refine hpass s (Store.Left.refl s) (fun h => ?_) (by rw [punchFirst, if_neg hpin, hget])
      obtain ⟨c, hsome, -⟩ := h
      cases hget.symm.trans hsome
    | some c =>
      cases hlast : c.bits.lastSet with
      | none =>
        refine hpass s (Store.Left.refl s) (fun h => ?_)
          (by rw [punchFirst, if_neg hpin, hget]; simp only [hlast])
        obtain ⟨c', hsome, -, -, idx, hlast', -⟩ := h
        obtain rfl := Option.some.inj (hget.symm.trans hsome)
        cases hlast.symm.trans hlast'
      | some idx =>
        have hentry := @punchEntry_quiet φ δ κ a nowSec hquiet s cd.rel c idx hget hfree hlast
        have hcan : CanPunch nowSec s cd.rel ↔ Ready s.pieceSize.toNat nowSec c := by
          refine ⟨fun ⟨c', hsome, _, hready⟩ => ?_, fun hready => ⟨c, hget, hfree, hready⟩⟩
          obtain rfl := Option.some.inj (hget.symm.trans hsome)
          exact hready
        have hstep : punchFirst a nowSec (cd :: cands) s =
            match punchEntry a nowSec s cd.rel c idx with
            | (true, s) => (true, s)
            | (false, s) => punchFirst a nowSec cands s := by
          rw [punchFirst, if_neg hpin, hget]
          simp only [hlast]
        generalize punchEntry a nowSec s cd.rel c idx = r at hentry hstep
        obtain ⟨ok, s'⟩ := r
        rcases hentry with ⟨hok, hculled, hready⟩ | ⟨⟨hno, hleft⟩, hnot⟩
        · obtain rfl : ok = true := hok
          rw [hstep]
          exact Or.inl ⟨rfl, hculled, Or.inl (hcan.mpr hready)⟩
        · obtain rfl : ok = false := hno
          exact hpass s' hleft (fun h => hnot (hcan.mp h)) hstep

/-- A hole for a data file: its last marked piece, or all of it. -/
theorem diskPunch_quiet (hquiet : Quiet a) (rel : Name) (pieceSize : UInt32) (epoch : Nat)
    (size : UInt64) (loaded : LoadedBits) :
    (@Punch.punchDisk κ pieceSize epoch false ⟨epoch, size, loaded⟩ (a.disk rel)).2 = true ↔
      (∃ idx, loaded.bits.lastSet = some idx ∧ 0 < Piece.len size.toNat idx pieceSize.toNat) ∨
        loaded.bits.lastSet = none ∧ size ≠ 0 := by
  obtain ⟨hencoded, hsaved, hpunched⟩ := hquiet.disk rel
  unfold Punch.punchDisk
  cases hlast : loaded.bits.lastSet with
  | none =>
    dsimp only
    unfold Punch.punchDiskUnclaimed Punch.saveThenPunch
    rw [hencoded, hsaved, hpunched]
    by_cases hsize : size = 0
    · simp [hsize]
    · have hpos : 0 < size.toNat := Nat.pos_of_ne_zero fun h => hsize (UInt64.toNat_inj.mp h)
      simp [hsize, hpos, SaveResult.ok, Cached.punchHole]
  | some idx =>
    dsimp only
    unfold Punch.saveThenPunch
    rw [hencoded, hsaved, hpunched]
    by_cases hlen : 0 < Piece.len size.toNat idx pieceSize.toNat
    · simp [hlen, SaveResult.ok, Cached.punchHole]
    · simp [hlen, SaveResult.ok, Cached.punchHole]

/-- What the punches of a disk round leave alone. -/
def Store.Kept (s s' : Store φ δ κ) : Prop :=
  s'.pieceSize = s.pieceSize ∧ s'.files = s.files ∧ s'.pins = s.pins ∧ s'.data = s.data

/-- A punch on a file without an entry, when nothing is refused. -/
theorem punchDisk_quiet (hquiet : Quiet a) {s : Store φ δ κ} {rel : Name}
    (hget : s.files.get rel = none) (hpin : s.pins rel = false) :
    s.Kept (punchDisk a s rel).2 ∧
      (((punchDisk a s rel).1 = true ∧ (s.data rel).Ready s.pieceSize.toNat ∧
        (punchDisk a s rel).2.piecesCulled = s.piecesCulled + 1) ∨
      ((punchDisk a s rel).1 = false ∧ ¬ (s.data rel).Ready s.pieceSize.toNat ∧
        (punchDisk a s rel).2.piecesCulled = s.piecesCulled)) := by
  unfold punchDisk
  rw [hpin, hquiet.dataOpened rel, if_neg Bool.false_ne_true, Bool.not_true,
    if_neg Bool.false_ne_true]
  cases hsize : (s.data rel).size with
  | none =>
    refine ⟨⟨rfl, rfl, rfl, rfl⟩, Or.inr ⟨rfl, fun h => ?_, rfl⟩⟩
    obtain ⟨size, loaded, hsome, -⟩ := h
    cases hsize.symm.trans hsome
  | some size =>
    cases hloaded : (s.data rel).loaded with
    | none =>
      refine ⟨⟨rfl, rfl, rfl, rfl⟩, Or.inr ⟨rfl, fun h => ?_, rfl⟩⟩
      obtain ⟨size', loaded, -, hsome, -⟩ := h
      cases hloaded.symm.trans hsome
    | some loaded =>
      rw [hget]
      have hiff := @diskPunch_quiet φ κ a hquiet rel s.pieceSize s.purgeEpoch size loaded
      have hready : (s.data rel).Ready s.pieceSize.toNat ↔
          (∃ idx, loaded.bits.lastSet = some idx ∧
            0 < Piece.len size.toNat idx s.pieceSize.toNat) ∨
          loaded.bits.lastSet = none ∧ size ≠ 0 := by
        constructor
        · rintro ⟨size', loaded', hs, hl, h⟩
          obtain rfl := Option.some.inj (hsize.symm.trans hs)
          obtain rfl := Option.some.inj (hloaded.symm.trans hl)
          exact h
        · exact fun h => ⟨size, loaded, hsize, hloaded, h⟩
      rw [← hready] at hiff
      dsimp only [Option.isSome_none]
      refine ⟨⟨rfl, rfl, rfl, rfl⟩, ?_⟩
      by_cases hok : (@Punch.punchDisk κ s.pieceSize s.purgeEpoch false
          ⟨s.purgeEpoch, size, loaded⟩ (a.disk rel)).2 = true
      · exact Or.inl ⟨hok, hiff.mp hok, if_pos hok⟩
      · exact Or.inr ⟨Bool.eq_false_iff.mpr hok, fun h => hok (hiff.mpr h), if_neg hok⟩

/-- **The disk round**: every victim is tried, so it punches iff one of them can be. -/
theorem punchVictims_quiet (hquiet : Quiet a) {victims : List DiskVictim} {s : Store φ δ κ}
    (hfree : ∀ v ∈ victims, s.files.get v.rel = none ∧ s.pins v.rel = false) (punched : Bool) :
    ((punchVictims a nowSec victims punched s).1 = true ↔
      punched = true ∨ ∃ v ∈ victims, (s.data v.rel).Ready s.pieceSize.toNat) ∧
    s.piecesCulled ≤ (punchVictims a nowSec victims punched s).2.piecesCulled ∧
    ((∃ v ∈ victims, (s.data v.rel).Ready s.pieceSize.toNat) →
      s.piecesCulled < (punchVictims a nowSec victims punched s).2.piecesCulled) := by
  induction victims generalizing s punched with
  | nil => exact ⟨by simp [punchVictims], le_refl _, by simp⟩
  | cons v victims ih =>
    obtain ⟨hget, hpin⟩ := hfree v List.mem_cons_self
    obtain ⟨⟨hsize, hfiles, hpins, hdata⟩, hcases⟩ := punchDisk_quiet hquiet hget hpin
    rw [punchVictims, hget]
    dsimp only
    generalize punchDisk a s v.rel = r at *
    obtain ⟨ok, s'⟩ := r
    dsimp only at *
    have hrest : ∀ w ∈ victims, s'.files.get w.rel = none ∧ s'.pins w.rel = false := by
      intro w hw
      rw [hfiles, hpins]
      exact hfree w (List.mem_cons_of_mem _ hw)
    obtain ⟨hiff, hle, hlt⟩ := ih hrest (ok || punched)
    rw [hsize, hdata] at hiff hlt
    rw [List.exists_mem_cons_iff, hiff]
    rcases hcases with ⟨rfl, hready, hculled⟩ | ⟨rfl, hno, hculled⟩
    · refine ⟨by simp [hready], by omega, fun _ => by omega⟩
    · refine ⟨by simp [hno], by omega, fun h => ?_⟩
      have := hlt (h.resolve_left hno)
      omega

end Quiet

/-! ## What is tried -/

/-- A file the walk can take has neither a pin nor an entry. -/
theorem free_of_eligible {env : WalkEnv} {levels : Nat} {dirPath rel : Name}
    {children : List (Name × DataNode)} {v : DiskVictim}
    (h : v ∈ eligible env levels dirPath rel children) :
    env.pinExists v.rel = false ∧ env.inMem v.rel = false := by
  induction levels generalizing dirPath rel children with
  | zero => cases h
  | succ levels ih =>
    rw [eligible] at h
    split at h
    · cases h
    obtain ⟨child, -, hv⟩ := List.mem_flatMap.mp h
    unfold eligibleName at hv
    dsimp only at hv
    split at hv
    · cases hv
    split at hv
    · cases hv
    split at hv
    · cases hv
    split at hv
    · cases hv
    split at hv
    · exact ih hv
    · cases hv
    · split at hv
      · cases hv
      · next hfree =>
        rw [List.mem_singleton.mp hv]
        simp only [not_or, Bool.not_eq_true] at hfree
        exact hfree.2

section Round

variable {nowSec : Int}

/-- The entries that are tried and can be punched. -/
theorem sampled_canPunch_iff (s : Store φ δ κ) :
    (∃ cd ∈ (sampleIdle nowSec s.cands { refs := s.refs }).cands, CanPunch nowSec s cd.rel) ↔
      ∃ rel c, s.files.get rel = some c ∧ s.pins rel = false ∧
        Ready s.pieceSize.toNat nowSec c ∧
        ((s.cands.filter (isIdle nowSec)).countP fun f => idleOlder f ⟨rel, c.lastAccess⟩) <
          idleSampleCap := by
  have hmem := fun cd => (sampleIdle_lowest nowSec s.cands s.refs).mem_iff strictTotal_idle
    IdleCand.key_injective idleOlder_iff cd
  constructor
  · rintro ⟨cd, hcd, c, hget, hpin, hready⟩
    obtain ⟨hin, hcount⟩ := (hmem cd).mp hcd
    obtain ⟨e, he, rfl⟩ := List.mem_map.mp (List.mem_filter.mp hin).1
    obtain rfl : e.2 = c := Option.some.inj ((Files.get_eq_some.mpr he).symm.trans hget)
    exact ⟨e.1, e.2, hget, hpin, hready, hcount⟩
  · rintro ⟨rel, c, hget, hpin, hready, hcount⟩
    refine ⟨⟨rel, c.lastAccess⟩, (hmem _).mpr ⟨List.mem_filter.mpr ⟨?_, ?_⟩, hcount⟩, c, hget, hpin,
      hready⟩
    · exact List.mem_map.mpr ⟨(rel, c), Files.get_eq_some.mp hget, rfl⟩
    · exact decide_eq_true hready.1

/-- The files that are tried, and none of them has a pin or an entry. -/
theorem mem_walked {s : Store φ δ κ} {root : Name}
    (hroot : joinZ pathMax s.cache (ascii "data") = some root) (v : DiskVictim) :
    v ∈ walkData s.walkEnv root s.tree ↔
      v ∈ s.victims ∧ (s.victims.countP fun w => victimOlder w v) < walkSampleCap := by
  have hvictims : s.victims = eligible s.walkEnv walkMaxDepth root [] s.tree := by
    unfold Store.victims
    rw [hroot]
  rw [hvictims]
  exact (walkData_lowest root s.tree).mem_iff strictTotal_victim DiskVictim.key_injective
    victimOlder_iff v

theorem free_of_mem_victims {s : Store φ δ κ} {v : DiskVictim} (h : v ∈ s.victims) :
    s.files.get v.rel = none ∧ s.pins v.rel = false := by
  unfold Store.victims at h
  split at h
  · cases h
  · obtain ⟨hpin, hmem⟩ := free_of_eligible h
    exact ⟨Option.isSome_eq_false_iff.mp hmem |> Option.isNone_iff_eq_none.mp, hpin⟩

variable {a : Answers φ}

/-- **The disk round**, by what the walk can take. -/
theorem cullOneOnDisk_quiet (hquiet : Quiet a) (s : Store φ δ κ) :
    ((cullOneOnDisk a nowSec s).1 = true ↔
      ∃ v ∈ s.victims, (s.data v.rel).Ready s.pieceSize.toNat ∧
        (s.victims.countP fun w => victimOlder w v) < walkSampleCap) ∧
    ((cullOneOnDisk a nowSec s).1 = true →
      s.piecesCulled < (cullOneOnDisk a nowSec s).2.piecesCulled) := by
  unfold cullOneOnDisk
  split
  · next hroot =>
    have hnone : s.victims = [] := by
      unfold Store.victims
      rw [hroot]
    simp [hnone]
  · next root hroot =>
    have hmem := mem_walked hroot
    obtain ⟨hiff, -, hlt⟩ := @punchVictims_quiet φ δ κ a nowSec hquiet
      (walkData s.walkEnv root s.tree) s (fun v hv => free_of_mem_victims ((hmem v).mp hv).1) false
    have hready : (∃ v ∈ walkData s.walkEnv root s.tree,
          (s.data v.rel).Ready s.pieceSize.toNat) ↔
        ∃ v ∈ s.victims, (s.data v.rel).Ready s.pieceSize.toNat ∧
          (s.victims.countP fun w => victimOlder w v) < walkSampleCap := by
      refine exists_congr fun v => ?_
      rw [hmem v, and_assoc, and_comm (a := _ < _)]
    rw [← hready]
    simp only [Bool.false_eq_true, false_or] at hiff
    exact ⟨hiff, fun h => hlt (hiff.mp h)⟩

/-- **When a round punches**: something among the oldest can be punched. -/
theorem cullOne_eq_true_iff (hquiet : Quiet a) (s : Store φ δ κ) :
    ((cullOne a nowSec s).1 = true ↔ InReach nowSec s) ∧
    ((cullOne a nowSec s).1 = true → s.piecesCulled < (cullOne a nowSec s).2.piecesCulled) := by
  let sampling := sampleIdle nowSec s.cands { refs := s.refs }
  have hsampled : (∃ cd ∈ sampling.cands, CanPunch nowSec { s with refs := sampling.refs } cd.rel) ↔
      _ := sampled_canPunch_iff s
  have hround : cullOne a nowSec s =
      match punchFirst a nowSec sampling.cands { s with refs := sampling.refs } with
      | (true, s) => (true, s.release sampling.cands)
      | (false, s) =>
        match cullOneOnDisk a nowSec s with
        | (punched, s) => (punched, s.release sampling.cands) := rfl
  rw [hround]
  have hfirst := @punchFirst_quiet φ δ κ a nowSec hquiet sampling.cands
    { s with refs := sampling.refs }
  generalize punchFirst a nowSec sampling.cands { s with refs := sampling.refs } = r at *
  obtain ⟨ok, s'⟩ := r
  rcases hfirst with ⟨hok, hculled, hcan⟩ | ⟨⟨hno, hleft⟩, hnot⟩
  · obtain rfl : ok = true := hok
    refine ⟨iff_of_true rfl (Or.inl (hsampled.mp hcan)), fun _ => ?_⟩
    have hgrew : s'.piecesCulled = s.piecesCulled + 1 := hculled
    change s.piecesCulled < s'.piecesCulled
    omega
  · obtain rfl : ok = false := hno
    -- what the disk round goes by is not what the first phase may have changed
    have hdisk := @cullOneOnDisk_quiet φ δ κ nowSec a hquiet s'
    rw [hleft.victims, hleft.data, hleft.pieceSize, hleft.piecesCulled] at hdisk
    dsimp only
    generalize cullOneOnDisk a nowSec s' = r at *
    obtain ⟨punched, s''⟩ := r
    obtain ⟨hiff, hgrew⟩ := hdisk
    refine ⟨hiff.trans ?_, hgrew⟩
    unfold InReach
    rw [or_iff_right fun h => hnot (hsampled.mpr h)]
    rfl

/-- **Progress.** A round that nothing hinders punches a piece exactly if one is within its reach:
so it does wherever there is something to cull iff what there is to cull is within its reach. -/
theorem cullOne_progress_iff (hquiet : Quiet a) (s : Store φ δ κ) :
    ((cullOne a nowSec s).1 = true ∧ s.piecesCulled < (cullOne a nowSec s).2.piecesCulled ↔
      InReach nowSec s) ∧
    ((Cullable nowSec s → (cullOne a nowSec s).1 = true ∧
        s.piecesCulled < (cullOne a nowSec s).2.piecesCulled) ↔
      (Cullable nowSec s → InReach nowSec s)) := by
  obtain ⟨hiff, hgrew⟩ := cullOne_eq_true_iff hquiet s
  have hprogress : (cullOne a nowSec s).1 = true ∧
      s.piecesCulled < (cullOne a nowSec s).2.piecesCulled ↔ InReach nowSec s := by
    rw [← hiff]
    exact and_iff_left_of_imp hgrew
  exact ⟨hprogress, imp_congr_right fun _ => hprogress⟩

end Round

/-! ## A crowd -/

/-- An entry of one piece, which is cached. -/
def onePiece : Cached Nat Nat where
  size := 4096
  bits := (Bitfield.init 1).set 0

/-- Entries that are idle alike, named by their number; those below `pinned` have a pin. There is
nothing else. -/
def crowd (n pinned : Nat) (hn : n ≤ 256) : Store Nat Nat Nat where
  pieceSize := 4096
  cache := [0x2f]
  files :=
    { entries := (List.range n).map fun i => ([UInt8.ofNat i], onePiece)
      names := by
        rw [List.map_map]
        refine List.Nodup.map_on (fun i hi j hj h => ?_) List.nodup_range
        have hbytes : UInt8.ofNat i = UInt8.ofNat j := List.head_eq_of_cons_eq h
        have hnat := congrArg UInt8.toNat hbytes
        rw [List.mem_range] at hi hj
        rw [UInt8.toNat_ofNat', UInt8.toNat_ofNat'] at hnat
        omega }
  pins := fun rel => rel < [UInt8.ofNat pinned]
  tree := []
  data := fun _ => ⟨none, none⟩

/-- The kernel of a store whose calls all succeed. -/
def obliging : Answers Nat where
  opened := fun _ => some 3
  saved := fun _ => true
  lateXfer := fun _ => false
  punched := fun _ => true
  dataOpened := fun _ => true
  disk := fun _ => ⟨true, .done, true⟩

theorem obliging_quiet : Quiet obliging where
  opened := fun _ => rfl
  saved := fun _ => rfl
  lateXfer := fun _ => rfl
  punched := fun _ => rfl
  dataOpened := fun _ => rfl
  disk := fun _ => ⟨rfl, rfl, rfl⟩

theorem crowd_cullable : Cullable 1000 (crowd 33 32 (by decide)) := by
  left
  refine ⟨[32], onePiece, rfl, by decide, by decide, rfl, fun i => ?_, 0, by decide, by decide⟩
  exact List.not_mem_nil

/-- **A round can starve**: 32 entries with a pin hide the one without, though the kernel refuses
nothing. -/
theorem cullOne_starves : Quiet obliging ∧ Cullable 1000 (crowd 33 32 (by decide)) ∧
    ¬ (cullOne obliging 1000 (crowd 33 32 (by decide))).1 = true := by
  refine ⟨obliging_quiet, crowd_cullable, ?_⟩
  decide +kernel

theorem crowd_inReach : InReach 1000 (crowd 33 31 (by decide)) := by
  left
  refine ⟨[31], onePiece, rfl, by decide, ⟨by decide, 0, by decide, List.not_mem_nil, rfl, ?_⟩, ?_⟩
  · decide
  decide +kernel

theorem cullOne_progress_iff_crowd :
    (cullOne obliging 1000 (crowd 33 31 (by decide))).1 = true ∧
      0 < (cullOne obliging 1000 (crowd 33 31 (by decide))).2.piecesCulled :=
  (cullOne_progress_iff obliging_quiet (crowd 33 31 (by decide))).1.mpr crowd_inReach

/-- An entry of one piece of 4 bytes, which is cached, with a mark past its size. -/
def overhung : Store Nat Nat Nat where
  pieceSize := 4
  cache := [0x2f]
  files := ⟨[([0x61], { size := 4, bits := ((Bitfield.init 2).set 0).set 1 })], by decide⟩
  pins := fun _ => false
  tree := []
  data := fun _ => ⟨none, none⟩

/-- **A round can be stuck**: the last mark is tried alone, its hole would have no bytes, and so the
marked piece inside the size stays, though the entry is within reach of the sample. -/
theorem cullOne_stuck : Quiet obliging ∧ Cullable 1000 overhung ∧
    ¬ (cullOne obliging 1000 overhung).1 = true := by
  refine ⟨obliging_quiet, Or.inl ?_, by decide +kernel⟩
  exact ⟨[0x61], _, rfl, rfl, by decide, rfl, fun _ => List.not_mem_nil, 0, by decide, by decide⟩

end Cull

end ModelFs
