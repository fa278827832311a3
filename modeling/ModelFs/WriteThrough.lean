import ModelFs.Lib.Machine
import ModelFs.Lib.SparseFile
import ModelFs.Sections

/-!
# Copying a write into the cache

After a write has landed on the origin, `copyIntoCache` puts its bytes in the cache file and sets
or drops the marks of the pieces it touches. It holds `content_mu` from its look at the transfers
to the section that marks. Any number of threads copy writes, fill pieces, and run the other
sections of the entry: those that take `content_mu` when it is free, the rest at any time. The
reaper is left out; it takes entries that nobody has a reference to.

The file is the one the entry's descriptor is of, or the one its path names.

* `inv_step` — the claims, the lock and the bytes of a copy, through one step.
* `late_step` — a fill that was in flight when a copy moved the generation stays too late.
* `good_iff_safe` — **what `copyIntoCache` leaves, and exactly when**: at each copy of each run,
  retries find the new bytes, and otherwise marks, bytes and digests agree and no earlier fill
  marks, if and only if the copy is safe.
* `good_fails_after_truncate` — a piece that was cut short before the copy keeps the digest of
  bytes it does not have.
-/

namespace ModelFs

namespace WriteThrough

open Cached

/-- Where a thread is. -/
inductive Pc (β : Type) where
  | idle
  /-- `beginFill` answered `.len`. -/
  | filling (idx : Nat)
  /-- `completeFill` past its check; `opened` is whether it has the descriptor. -/
  | landing (idx : Nat) (buf : List β) (opened : Bool)
  | landed (idx : Nat) (buf : List β) (ok : Bool)
  /-- `copyIntoCache` with no transfer in the way. -/
  | copying (off : Nat) (data : List β) (opened : Bool)
  /-- `copyIntoCache` before the section that marks. -/
  | copied (off : Nat) (data : List β) (ok : Bool)
  deriving DecidableEq

/-- The piece a thread has a claim on. -/
def Pc.fills {β : Type} : Pc β → Option Nat
  | .filling idx => some idx
  | .landing idx _ _ => some idx
  | .landed idx _ _ => some idx
  | _ => none

/-- The thread has `content_mu`. -/
def Pc.holdsMu {β : Type} : Pc β → Bool
  | .idle => false
  | .filling _ => false
  | _ => true

structure World (τ φ β δ : Type) where
  c : Cached φ δ
  file : SparseFile β
  contentMu : Bool := false
  pc : τ → Pc β

variable {τ φ β δ : Type} [DecidableEq τ] [DecidableEq δ]

/-- What an operation does to the file of entry `c`. An unlinked file stays behind a descriptor. -/
def afterIo (c : Cached φ δ) (file : SparseFile β) : Io φ → SparseFile β
  | .cut _ n => file.ftruncate n
  | .punch _ off n => file.punch off n
  | .unlinkData => if c.cacheFd.isSome then file else SparseFile.empty
  | _ => file

namespace World

/-- A section runs. -/
def act (P : Entry.Params β δ) (s : World τ φ β δ) (sec : Section φ β δ) : World τ φ β δ :=
  { s with
    c := sec.run P s.c
    file := (sec.io P s.c).foldl (afterIo s.c) s.file }

def moveTo (s : World τ φ β δ) (t : τ) (pc : Pc β) : World τ φ β δ :=
  { s with pc := Function.update s.pc t pc }

def lock (s : World τ φ β δ) : World τ φ β δ := { s with contentMu := true }

def unlock (s : World τ φ β δ) : World τ φ β δ := { s with contentMu := false }

def pwrite (s : World τ φ β δ) (off : Nat) (bytes : List β) : World τ φ β δ :=
  { s with file := s.file.pwrite off bytes }

/-- The last section of `copyIntoCache`, run by `t`. -/
def markCopy (P : Entry.Params β δ) (s : World τ φ β δ) (t : τ) (off : Nat) (data : List β)
    (ok : Bool) : World τ φ β δ :=
  ((s.act P (.markCopy off data ok)).unlock).moveTo t .idle

end World

/-- Where a pass of the claim loop leaves its thread. -/
def claimed (β : Type) (idx : Nat) : Option FillClaim → Pc β
  | some (.len _) => .filling idx
  | _ => .idle

/-- The sections that are no step of a fill or a copy, nor the reaper's. -/
def ofOthers : Section φ β δ → Bool
  | .markCopy .. => false
  | sec => !sec.ofFill && !sec.ofReaper

variable (P : Entry.Params β δ)

/-- One step of thread `t`. -/
inductive Core (t : τ) (s : World τ φ β δ) : World τ φ β δ → Prop where
  | other (sec : Section φ β δ) (hpc : s.pc t = .idle) (hsec : ofOthers sec = true)
      (hfree : sec.underContent = true → s.contentMu = false) : Core t s (s.act P sec)
  -- fills
  | claim (idx : Nat) (now : Int) (hpc : s.pc t = .idle) :
      Core t s ((s.act P (.beginFill idx now)).moveTo t
        (claimed β idx (s.c.beginFill P.pieceSize idx now).2))
  | abortFill {idx : Nat} (now : Int) (hpc : s.pc t = .filling idx) :
      Core t s ((s.act P (.finishPiece idx false 0 none now)).moveTo t .idle)
  | completeSkip {idx : Nat} (buf : List β) (hpc : s.pc t = .filling idx)
      (hfree : s.contentMu = false)
      (hskip : s.c.fillSkips P.pieceSize idx buf.length = true) :
      Core t s ((s.act P (.dropClaim idx)).moveTo t .idle)
  | completeStart {idx : Nat} (buf : List β) (hpc : s.pc t = .filling idx)
      (hfree : s.contentMu = false)
      (hskip : s.c.fillSkips P.pieceSize idx buf.length = false) :
      Core t s (s.lock.moveTo t (.landing idx buf false))
  | landOpen {idx : Nat} {buf : List β} (opened : Option φ)
      (hpc : s.pc t = .landing idx buf false) :
      Core t s ((s.act P (.openCache opened)).moveTo t
        (if (s.c.openCacheUnlocked opened).1.cacheFd.isSome then .landing idx buf true
        else .landed idx buf false))
  /-- `pwriteAll` of the piece stops after `k` bytes. -/
  | landWrite {idx : Nat} {buf : List β} (k : Nat) (hk : k ≤ buf.length)
      (hpc : s.pc t = .landing idx buf true) :
      Core t s ((s.pwrite (Piece.offset idx P.pieceSize) (buf.take k)).moveTo t
        (.landed idx buf (k = buf.length)))
  | finishFill {idx : Nat} {buf : List β} {ok : Bool} (hash : Option δ) (now : Int)
      (hpc : s.pc t = .landed idx buf ok) :
      Core t s (((s.act P (.finishPiece idx ok buf.length hash now)).unlock).moveTo t .idle)
  -- copyIntoCache
  | copyLock (off : Nat) (data : List β) (hpc : s.pc t = .idle) (hfree : s.contentMu = false) :
      Core t s (s.lock.moveTo t
        (if s.c.xferBusy then .copied off data false else .copying off data false))
  | copyOpen {off : Nat} {data : List β} (opened : Option φ)
      (hpc : s.pc t = .copying off data false) :
      Core t s ((s.act P (.openCache opened)).moveTo t
        (if (s.c.openCacheUnlocked opened).1.cacheFd.isSome then .copying off data true
        else .copied off data false))
  /-- `pwriteAll` of the data stops after `k` bytes. -/
  | copyWrite {off : Nat} {data : List β} (k : Nat) (hk : k ≤ data.length)
      (hpc : s.pc t = .copying off data true) :
      Core t s ((s.pwrite off (data.take k)).moveTo t (.copied off data (k = data.length)))
  | copyMark {off : Nat} {data : List β} {ok : Bool} (hpc : s.pc t = .copied off data ok) :
      Core t s (s.markCopy P t off data ok)

def Step (s s' : World τ φ β δ) : Prop := ∃ t, Core P t s s'

/-- No call is running on the entry. A dead entry has no mark: `forget` clears them all, and the
reaper takes only entries without. -/
structure Start (s : World τ φ β δ) : Prop where
  idle : ∀ t, s.pc t = .idle
  free : s.contentMu = false
  unmarked : s.c.dead = true → ∀ i, s.c.bits.get i = false

/-! ## Claims -/

/-- A thread's claim is in the map, with a generation the entry has reached, and no two threads
have one on the same piece. -/
structure Claims (s : World τ φ β δ) : Prop where
  lookup : ∀ t i, (s.pc t).fills = some i →
    ∃ gen, s.c.filling.lookup i = some gen ∧ gen ≤ s.c.writes
  one : ∀ t u i, (s.pc t).fills = some i → (s.pc u).fills = some i → t = u

/-- The map of claims is as it was, gained a claim of `t`, or lost the claim of `t`. -/
inductive Moves (t : τ) (s s' : World τ φ β δ) : Prop where
  | keep (hmap : s'.c.filling = s.c.filling) (hfills : (s'.pc t).fills = (s.pc t).fills)
  | take (i : Nat) (hnone : (s.pc t).fills = none) (hfree : i ∉ s.c.filling)
      (hmap : s'.c.filling = s.c.filling.insert i s.c.writes)
      (hfills : (s'.pc t).fills = some i)
  | drop (i : Nat) (hfills : (s.pc t).fills = some i)
      (hmap : s'.c.filling = s.c.filling.erase i) (hnone : (s'.pc t).fills = none)

/-- What a step of `t` can do to what the other threads rely on. -/
structure Effect (t : τ) (s s' : World τ φ β δ) : Prop where
  others : ∀ u, u ≠ t → s'.pc u = s.pc u
  writes : s.c.writes ≤ s'.c.writes
  dead : s.c.dead = true → s'.c.dead = true
  unmarked : (s.c.dead = true → ∀ i, s.c.bits.get i = false) →
    s'.c.dead = true → ∀ i, s'.c.bits.get i = false
  moves : Moves t s s'

variable {P} {s s' : World τ φ β δ} {t : τ}

omit [DecidableEq δ] in
theorem pc_moveTo_self (s : World τ φ β δ) (t : τ) (pc : Pc β) : (s.moveTo t pc).pc t = pc :=
  Function.update_self ..

omit [DecidableEq δ] in
theorem pc_moveTo_of_ne {u : τ} (s : World τ φ β δ) (pc : Pc β) (h : u ≠ t) :
    (s.moveTo t pc).pc u = s.pc u := Function.update_of_ne h ..

omit [DecidableEq τ] in
/-- A step that runs a section. -/
theorem Effect.of_run (P : Entry.Params β δ) (sec : Section φ β δ) (hreap : sec.ofReaper = false)
    (hc : s'.c = sec.run P s.c) (hothers : ∀ u, u ≠ t → s'.pc u = s.pc u)
    (hmoves : Moves t s s') : Effect t s s' where
  others := hothers
  writes := by
    rw [hc]
    exact Section.writes_le_run P s.c sec
  dead hdead := by
    rw [hc]
    rcases Section.keepsOpen_run P s.c sec hreap with hkeeps | rfl
    · rw [hkeeps.dead, hdead]
    · rfl
  unmarked hunmarked := by
    rw [hc]
    exact Section.unmarked_run P s.c sec hreap hunmarked
  moves := hmoves

omit [DecidableEq τ] [DecidableEq δ] in
/-- A step that leaves the entry alone. -/
theorem Effect.of_same (hc : s'.c = s.c) (hothers : ∀ u, u ≠ t → s'.pc u = s.pc u)
    (hfills : (s'.pc t).fills = (s.pc t).fills) : Effect t s s' where
  others := hothers
  writes := (congrArg Cached.writes hc).ge
  dead hdead := by rw [hc, hdead]
  unmarked hunmarked := by rwa [hc]
  moves := Moves.keep (congrArg Cached.filling hc) hfills

omit [DecidableEq τ] in
/-- Sections that are no fill's keep the claims. -/
theorem Moves.of_lets (P : Entry.Params β δ) (sec : Section φ β δ) (hfill : sec.ofFill = false)
    (hc : s'.c = sec.run P s.c) (hfills : (s'.pc t).fills = (s.pc t).fills) : Moves t s s' :=
  Moves.keep (by rw [hc, (Section.lets_run P s.c sec hfill).filling]) hfills

theorem moves_claim (idx : Nat) (now : Int) (hpc : s.pc t = .idle) :
    Moves t s ((s.act P (.beginFill idx now)).moveTo t
      (claimed β idx (s.c.beginFill P.pieceSize idx now).2)) := by
  have hnone : (s.pc t).fills = none := by rw [hpc]; rfl
  rcases s.c.beginFill_cases P.pieceSize idx now with ⟨hanswer, halike⟩ | ⟨-, -, hfree, -, h⟩
  · refine Moves.keep halike.filling ?_
    rw [pc_moveTo_self, hnone]
    rcases hans : (s.c.beginFill P.pieceSize idx now).2 with _ | _ | _ | n
    · rfl
    · rfl
    · rfl
    · exact absurd hans (hanswer n)
  · refine Moves.take idx hnone hfree ?_ ?_
    · show (s.c.beginFill P.pieceSize idx now).1.filling = _
      rw [h]
    · rw [pc_moveTo_self, h]
      rfl

/-- **Each step moves no claim but its thread's own.** -/
theorem Core.effect (h : Core P t s s') : Effect t s s' := by
  cases h with
  | other sec hpc hsec hfree =>
    have hkind : sec.ofFill = false ∧ sec.ofReaper = false := by
      cases sec <;> simp_all [ofOthers, Section.ofFill, Section.ofReaper]
    exact Effect.of_run P sec hkind.2 rfl (fun u _ => rfl) (Moves.of_lets P sec hkind.1 rfl rfl)
  | claim idx now hpc =>
    exact Effect.of_run P (.beginFill idx now) rfl rfl (fun u => pc_moveTo_of_ne _ _)
      (moves_claim idx now hpc)
  | @abortFill idx now hpc =>
    obtain ⟨-, -, -, hkeeps, -⟩ := s.c.finishPiece_keeps P.pieceSize idx false 0 none now
    exact Effect.of_run P (.finishPiece idx false 0 none now) rfl rfl (fun u => pc_moveTo_of_ne _ _)
      (Moves.drop idx (by rw [hpc]; rfl) hkeeps.filling (by rw [pc_moveTo_self]; rfl))
  | @completeSkip idx buf hpc hfree hskip =>
    exact Effect.of_run P (.dropClaim idx) rfl rfl (fun u => pc_moveTo_of_ne _ _)
      (Moves.drop idx (by rw [hpc]; rfl) rfl (by rw [pc_moveTo_self]; rfl))
  | completeStart buf hpc hfree hskip =>
    exact Effect.of_same rfl (fun u => pc_moveTo_of_ne _ _) (by rw [pc_moveTo_self, hpc]; rfl)
  | landOpen opened hpc =>
    refine Effect.of_run P (.openCache opened) rfl rfl (fun u => pc_moveTo_of_ne _ _)
      (Moves.of_lets P (.openCache opened) rfl rfl ?_)
    rw [pc_moveTo_self, hpc]
    split_ifs <;> rfl
  | landWrite k hk hpc =>
    exact Effect.of_same rfl (fun u => pc_moveTo_of_ne _ _) (by rw [pc_moveTo_self, hpc]; rfl)
  | @finishFill idx buf ok hash now hpc =>
    obtain ⟨-, -, -, hkeeps, -⟩ := s.c.finishPiece_keeps P.pieceSize idx ok buf.length hash now
    exact Effect.of_run P (.finishPiece idx ok buf.length hash now) rfl rfl
      (fun u => pc_moveTo_of_ne _ _)
      (Moves.drop idx (by rw [hpc]; rfl) hkeeps.filling (by rw [pc_moveTo_self]; rfl))
  | copyLock off data hpc hfree =>
    refine Effect.of_same rfl (fun u => pc_moveTo_of_ne _ _) ?_
    rw [pc_moveTo_self, hpc]
    split_ifs <;> rfl
  | copyOpen opened hpc =>
    refine Effect.of_run P (.openCache opened) rfl rfl (fun u => pc_moveTo_of_ne _ _)
      (Moves.of_lets P (.openCache opened) rfl rfl ?_)
    rw [pc_moveTo_self, hpc]
    split_ifs <;> rfl
  | copyWrite k hk hpc =>
    exact Effect.of_same rfl (fun u => pc_moveTo_of_ne _ _) (by rw [pc_moveTo_self, hpc]; rfl)
  | @copyMark off data ok hpc =>
    exact Effect.of_run P (.markCopy off data ok) rfl rfl (fun u => pc_moveTo_of_ne _ _)
      (Moves.of_lets P (.markCopy off data ok) rfl rfl
        (by rw [World.markCopy, pc_moveTo_self, hpc]; rfl))

omit [DecidableEq τ] [DecidableEq δ] in
theorem Claims.mem (h : Claims s) {i : Nat} (ht : (s.pc t).fills = some i) :
    i ∈ s.c.filling := by
  obtain ⟨gen, hlook, -⟩ := h.lookup t i ht
  exact AList.lookup_isSome.mp (by rw [hlook]; rfl)

omit [DecidableEq τ] [DecidableEq δ] in
theorem Effect.fills_of_ne (he : Effect t s s') {u : τ} (hu : u ≠ t) :
    (s'.pc u).fills = (s.pc u).fills := congrArg Pc.fills (he.others u hu)

omit [DecidableEq τ] [DecidableEq δ] in
/-- **Through a step**, a claim that its thread still has is as it was, and a new one has the
generation of now. -/
theorem Effect.lookup_filling (he : Effect t s s') (h : Claims s) {u : τ} {i : Nat}
    (hu : (s'.pc u).fills = some i) :
    (s.pc u).fills = some i ∧ s'.c.filling.lookup i = s.c.filling.lookup i ∨
      (s.pc u).fills = none ∧ i ∉ s.c.filling ∧ s'.c.filling.lookup i = some s.c.writes := by
  rcases he.moves with ⟨hmap, hfills⟩ | ⟨k, hnone, hfree, hmap, hfills⟩ | ⟨k, hfills, hmap, hnone⟩
  · refine Or.inl ⟨?_, by rw [hmap]⟩
    by_cases hut : u = t
    · rw [← hu, hut, hfills]
    · rw [← hu, he.fills_of_ne hut]
  · by_cases hut : u = t
    · rw [hut, hfills] at hu
      obtain rfl := Option.some.inj hu
      exact Or.inr ⟨hut ▸ hnone, hfree, by rw [hmap, AList.lookup_insert]⟩
    · rw [he.fills_of_ne hut] at hu
      have hne : i ≠ k := fun heq => hfree (heq ▸ h.mem hu)
      exact Or.inl ⟨hu, by rw [hmap, AList.lookup_insert_ne hne]⟩
  · by_cases hut : u = t
    · rw [hut, hnone] at hu
      cases hu
    · rw [he.fills_of_ne hut] at hu
      have hne : i ≠ k := fun heq => hut (h.one u t i hu (heq ▸ hfills))
      exact Or.inl ⟨hu, by rw [hmap, AList.lookup_erase_ne hne]⟩

omit [DecidableEq τ] [DecidableEq δ] in
theorem Claims.effect (h : Claims s) (he : Effect t s s') : Claims s' where
  lookup u i hu := by
    rcases he.lookup_filling h hu with ⟨hold, hsame⟩ | ⟨-, -, hnew⟩
    · obtain ⟨gen, hlook, hle⟩ := h.lookup u i hold
      exact ⟨gen, by rw [hsame, hlook], hle.trans he.writes⟩
    · exact ⟨s.c.writes, hnew, he.writes⟩
  one u v i hu hv := by
    rcases he.lookup_filling h hu with ⟨huold, -⟩ | ⟨hunone, hfree, -⟩
    · rcases he.lookup_filling h hv with ⟨hvold, -⟩ | ⟨-, hfree, -⟩
      · exact h.one u v i huold hvold
      · exact absurd (h.mem huold) hfree
    · rcases he.lookup_filling h hv with ⟨hvold, -⟩ | ⟨hvnone, -, -⟩
      · exact absurd (h.mem hvold) hfree
      -- a thread that had no claim and now has one is the thread that moved
      · have hmoved : ∀ w, (s.pc w).fills = none → (s'.pc w).fills = some i → w = t := by
          intro w hnone hw
          by_contra hne
          rw [he.fills_of_ne hne, hnone] at hw
          cases hw
        exact (hmoved u hunone hu).trans (hmoved v hvnone hv).symm

/-! ## Bytes of a copy -/

/-- The data is in the file. -/
def World.Holds (s : World τ φ β δ) (off : Nat) (data : List β) : Prop :=
  ∀ o, off ≤ o → o < off + data.length → o < s.file.len ∧ s.file.cell o = data[o - off]?

/-- What the holder of `content_mu` relies on: its descriptor, and the bytes it has written. -/
def PcOk (s : World τ φ β δ) : Pc β → Prop
  | .landing _ _ true => s.c.cacheFd.isSome = true
  | .copying _ _ true => s.c.cacheFd.isSome = true
  | .copied off data true => s.c.cacheFd.isSome = true ∧ s.Holds off data
  | _ => True

/-- What holds at every instant of a run. -/
structure Inv (s : World τ φ β δ) : Prop where
  mu : Claimed Pc.holdsMu s.contentMu s.pc
  claims : Claims s
  unmarked : s.c.dead = true → ∀ i, s.c.bits.get i = false
  pcs : ∀ t, PcOk s (s.pc t)

omit [DecidableEq τ] [DecidableEq δ] in
theorem PcOk.of_unheld {p : Pc β} (h : p.holdsMu = false) : PcOk s p := by
  cases p with
  | idle => trivial
  | filling idx => trivial
  | _ => exact absurd h (by simp [Pc.holdsMu])

omit [DecidableEq τ] [DecidableEq δ] in
/-- An open descriptor that stays, and a file that stays behind it. -/
theorem PcOk.congr {p : Pc β} (h : PcOk s p)
    (hkeep : s.c.cacheFd.isSome = true → s'.c.cacheFd.isSome = true ∧ s'.file = s.file) :
    PcOk s' p := by
  rcases p with
    _ | idx | ⟨idx, buf, _ | _⟩ | ⟨idx, buf, ok⟩ | ⟨off, data, _ | _⟩ | ⟨off, data, _ | _⟩
  · trivial
  · trivial
  · trivial
  · exact (hkeep h).1
  · trivial
  · trivial
  · exact (hkeep h).1
  · trivial
  · obtain ⟨hfd, hfile⟩ := hkeep h.1
    refine ⟨hfd, fun o hlo hhi => ?_⟩
    rw [hfile]
    exact h.2 o hlo hhi

omit [DecidableEq τ] [DecidableEq δ] in
theorem afterIo_soft (c : Cached φ δ) (file : SparseFile β) {o : Io φ} (h : o.soft = true) :
    afterIo c file o = file := by
  cases o <;> first | rfl | exact absurd h (by simp [Io.soft])

omit [DecidableEq τ] [DecidableEq δ] in
/-- Operations that leave the file one by one leave it together. -/
theorem foldl_afterIo {c : Cached φ δ} {file : SparseFile β} {io : List (Io φ)}
    (h : ∀ o ∈ io, afterIo c file o = file) : io.foldl (afterIo c) file = file := by
  induction io with
  | nil => rfl
  | cons o io ih =>
    rw [List.foldl_cons, h o List.mem_cons_self]
    exact ih fun o' ho' => h o' (List.mem_cons_of_mem o ho')

omit [DecidableEq τ] in
/-- **Behind an open descriptor** a section without `content_mu` leaves the file. -/
theorem keeps_act (s : World τ φ β δ) {sec : Section φ β δ} (hreap : sec.ofReaper = false)
    (hlight : sec.underContent = false) (hfd : s.c.cacheFd.isSome = true) :
    (s.act P sec).c.cacheFd.isSome = true ∧ (s.act P sec).file = s.file := by
  constructor
  · show (sec.run P s.c).cacheFd.isSome = true
    rcases Section.keepsOpen_run P s.c sec hreap with hkeeps | rfl
    · rw [hkeeps.cacheFd hfd, hfd]
    · exact hfd
  · refine foldl_afterIo fun o ho => ?_
    rcases (Section.light_run P s.c sec hlight).io hfd o ho with hsoft | rfl
    · exact afterIo_soft s.c s.file hsoft
    · exact if_pos hfd

omit [DecidableEq δ] in
/-- The lock, the effect on claims, and what each thread relies on. -/
theorem Inv.of_effect (h : Inv s) (he : Effect t s s')
    (hmu : Claimed Pc.holdsMu s'.contentMu s'.pc)
    (hothers : ∀ u, u ≠ t → PcOk s (s.pc u) → PcOk s' (s.pc u)) (hself : PcOk s' (s'.pc t)) :
    Inv s' where
  mu := hmu
  claims := h.claims.effect he
  unmarked := he.unmarked h.unmarked
  pcs u := by
    by_cases hu : u = t
    · rw [hu]
      exact hself
    · rw [he.others u hu]
      exact hothers u hu (h.pcs u)

omit [DecidableEq τ] [DecidableEq δ] in
/-- Nobody relies on anything while the lock is free. -/
theorem Inv.unheld (h : Inv s) (hfree : s.contentMu = false) (u : τ) :
    (s.pc u).holdsMu = false :=
  (hfree ▸ h.mu : Claimed Pc.holdsMu false s.pc).free u

omit [DecidableEq τ] [DecidableEq δ] in
/-- The holder of the lock is alone. -/
theorem Inv.alone (h : Inv s) (ht : (s.pc t).holdsMu = true) {u : τ} (hu : u ≠ t) :
    (s.pc u).holdsMu = false :=
  Bool.eq_false_iff.mpr fun hheld => hu (h.mu.one u t hheld ht)

/-- A section that does not take `content_mu`, and its thread goes on. -/
theorem inv_light (h : Inv s) {sec : Section φ β δ} {pc : Pc β} (hreap : sec.ofReaper = false)
    (hlight : sec.underContent = false)
    (he : Effect t s ((s.act P sec).moveTo t pc)) (hpc : pc.holdsMu = (s.pc t).holdsMu)
    (hself : PcOk (s.act P sec) pc) : Inv ((s.act P sec).moveTo t pc) := by
  refine h.of_effect he (h.mu.move hpc) (fun u _ hu => ?_) ?_
  · exact hu.congr fun hfd => keeps_act s hreap hlight hfd
  · rw [pc_moveTo_self]
    exact hself

/-- The last section of a fill or a copy gives `content_mu` back. -/
theorem inv_unlock (h : Inv s) {sec : Section φ β δ} (ht : (s.pc t).holdsMu = true)
    (he : Effect t s (((s.act P sec).unlock).moveTo t .idle)) :
    Inv (((s.act P sec).unlock).moveTo t .idle) := by
  refine h.of_effect he (h.mu.release ht rfl) (fun u hu _ => ?_) ?_
  · exact PcOk.of_unheld (h.alone ht hu)
  · rw [pc_moveTo_self]
    trivial

omit [DecidableEq δ] in
/-- A thread takes `content_mu`. -/
theorem inv_lock (h : Inv s) {pc : Pc β} (hfree : s.contentMu = false) (hpc : pc.holdsMu = true)
    (he : Effect t s (s.lock.moveTo t pc)) (hself : PcOk s pc) : Inv (s.lock.moveTo t pc) := by
  have hmu : Claimed Pc.holdsMu false s.pc := hfree ▸ h.mu
  refine h.of_effect he (hmu.take hpc) (fun u _ _ => ?_) ?_
  · exact PcOk.of_unheld (h.unheld hfree u)
  · rw [pc_moveTo_self]
    exact hself.congr fun hfd => ⟨hfd, rfl⟩

omit [DecidableEq δ] in
/-- The holder of `content_mu` writes. -/
theorem inv_pwrite (h : Inv s) {off : Nat} {bytes : List β} {pc : Pc β}
    (ht : (s.pc t).holdsMu = true) (hpc : pc.holdsMu = true)
    (he : Effect t s ((s.pwrite off bytes).moveTo t pc)) (hself : PcOk (s.pwrite off bytes) pc) :
    Inv ((s.pwrite off bytes).moveTo t pc) := by
  refine h.of_effect he (h.mu.move (hpc.trans ht.symm)) (fun u hu _ => ?_) ?_
  · exact PcOk.of_unheld (h.alone ht hu)
  · rw [pc_moveTo_self]
    exact hself

omit [DecidableEq τ] [DecidableEq δ] in
/-- Written bytes are in the file. -/
theorem holds_pwrite (s : World τ φ β δ) (off : Nat) (data : List β) :
    (s.pwrite off data).Holds off data := by
  intro o hlo hhi
  have hne : data ≠ [] := by
    rintro rfl
    rw [List.length_nil] at hhi
    omega
  refine ⟨?_, if_pos ⟨hlo, hhi⟩⟩
  show o < (s.file.pwrite off data).len
  simp only [SparseFile.pwrite, if_neg hne]
  exact lt_of_lt_of_le hhi (le_max_right ..)

/-- **One step.** -/
theorem inv_core (h : Inv s) (hstep : Core P t s s') : Inv s' := by
  have he := hstep.effect
  cases hstep with
  | other sec hpc hsec hfree =>
    have hreap : sec.ofReaper = false := by
      cases sec <;> simp_all [ofOthers, Section.ofReaper]
    refine h.of_effect he h.mu (fun u _ hu => ?_) ?_
    · cases hheavy : sec.underContent with
      | true => exact PcOk.of_unheld (h.unheld (hfree hheavy) u)
      | false => exact hu.congr fun hfd => keeps_act s hreap hheavy hfd
    · show PcOk _ (s.pc t)
      rw [hpc]
      trivial
  | claim idx now hpc =>
    have hunheld : (claimed β idx (s.c.beginFill P.pieceSize idx now).2).holdsMu = false := by
      rcases (s.c.beginFill P.pieceSize idx now).2 with _ | _ | _ | n <;> rfl
    exact inv_light h rfl rfl he (by rw [hunheld, hpc]; rfl) (PcOk.of_unheld hunheld)
  | abortFill now hpc => exact inv_light h rfl rfl he (by rw [hpc]; rfl) trivial
  | completeSkip buf hpc hfree hskip => exact inv_light h rfl rfl he (by rw [hpc]; rfl) trivial
  | completeStart buf hpc hfree hskip => exact inv_lock h hfree rfl he trivial
  | @landOpen idx buf opened hpc =>
    refine inv_light h rfl rfl he ?_ ?_
    · rw [hpc]
      split_ifs <;> rfl
    · split_ifs with hfd
      · exact hfd
      · trivial
  | landWrite k hk hpc => exact inv_pwrite h (by rw [hpc]; rfl) rfl he trivial
  | finishFill hash now hpc => exact inv_unlock h (by rw [hpc]; rfl) he
  | copyLock off data hpc hfree =>
    refine inv_lock h hfree ?_ he ?_
    · split_ifs <;> rfl
    · split_ifs <;> trivial
  | @copyOpen off data opened hpc =>
    refine inv_light h rfl rfl he ?_ ?_
    · rw [hpc]
      split_ifs <;> rfl
    · split_ifs with hfd
      · exact hfd
      · trivial
  | @copyWrite off data k hk hpc =>
    have hfd : s.c.cacheFd.isSome = true := by
      have hok := h.pcs t
      rwa [hpc] at hok
    refine inv_pwrite h (by rw [hpc]; rfl) rfl he ?_
    by_cases hall : k = data.length
    · rw [decide_eq_true hall, hall, List.take_length]
      exact ⟨hfd, holds_pwrite s off data⟩
    · rw [decide_eq_false hall]
      trivial
  | copyMark hpc => exact inv_unlock h (by rw [hpc]; rfl) he

theorem inv_step (h : Inv s) (hstep : Step P s s') : Inv s' := by
  obtain ⟨t, hcore⟩ := hstep
  exact inv_core h hcore

omit [DecidableEq τ] [DecidableEq δ] in
theorem inv_of_start (h : Start s) : Inv s where
  mu := by
    rw [h.free]
    exact Claimed.of_free fun t => by rw [h.idle t]; rfl
  claims := by
    have hnone : ∀ t, (s.pc t).fills = none := fun t => by rw [h.idle t]; rfl
    exact ⟨fun t i hi => absurd hi (by simp [hnone]), fun t u i hi => absurd hi (by simp [hnone])⟩
  unmarked := h.unmarked
  pcs t := by
    rw [h.idle t]
    trivial

theorem inv_of_run (hstart : Start s) (hrun : Run (Step P) Always s s') : Inv s' :=
  have hstep : ∀ a b : World τ φ β δ, Inv a → Step P a b → Always a b → Inv b :=
    fun _ _ hinv hstep _ => inv_step hinv hstep
  hrun.invariant hstep (inv_of_start hstart)

/-! ## Fills that are too late -/

/-- Thread `u` fills piece `i`, on an entry that is dead or has moved on since its claim. -/
def Late (u : τ) (i : Nat) (s : World τ φ β δ) : Prop :=
  (s.pc u).fills = some i ∧
    (s.c.dead = true ∨ ∃ gen, s.c.filling.lookup i = some gen ∧ gen < s.c.writes)

/-- The next state has thread `u` inside of the same fill. -/
def StillFills (u : τ) (i : Nat) (_ s' : World τ φ β δ) : Prop := (s'.pc u).fills = some i

/-- **Late fills stay late**, whatever the other threads do. -/
theorem late_step {u : τ} {i : Nat} (h : Inv s) (hlate : Late u i s) (hstep : Step P s s')
    (hstill : StillFills u i s s') : Late u i s' := by
  obtain ⟨t, hcore⟩ := hstep
  have he := hcore.effect
  refine ⟨hstill, ?_⟩
  rcases hlate.2 with hdead | ⟨gen, hlook, hlt⟩
  · exact Or.inl (he.dead hdead)
  · rcases he.lookup_filling h.claims hstill with ⟨-, hsame⟩ | ⟨hnone, -, -⟩
    · exact Or.inr ⟨gen, by rw [hsame, hlook], hlt.trans_le he.writes⟩
    · rw [hlate.1] at hnone
      cases hnone

/-- The last section of a fill of piece `i` would set no mark, whatever bytes it has. -/
def Spent (P : Entry.Params β δ) (c : Cached φ δ) (i : Nat) : Prop :=
  ∀ ok len hash now j, (c.finishPiece P.pieceSize i ok len hash now).1.bits.get j = true →
    c.bits.get j = true

omit [DecidableEq τ] [DecidableEq δ] in
theorem Late.spent {u : τ} {i : Nat} (h : Late u i s) : Spent P s.c i := by
  intro ok len hash now j hmark
  rcases get_finishPiece hmark with hold | ⟨-, -, hlive, hstands⟩
  · exact hold
  · rcases h.2 with hdead | ⟨gen, hlook, hlt⟩
    · rw [hdead] at hlive
      cases hlive
    · obtain ⟨hgen, -⟩ := claimStands_iff.mp hstands
      rw [hlook] at hgen
      exact absurd (Option.some.inj hgen) hlt.ne

/-- **A late fill marks nothing** for as long as it goes on. -/
theorem spent_of_run {u : τ} {i : Nat} (h : Inv s) (hlate : Late u i s)
    (hrun : Run (Step P) (StillFills u i) s s') : Spent P s'.c i := by
  have hstep : ∀ a b : World τ φ β δ, Inv a ∧ Late u i a → Step P a b → StillFills u i a b →
      Inv b ∧ Late u i b :=
    fun a b hab hstep hstill => ⟨inv_step hab.1 hstep, late_step hab.1 hab.2 hstep hstill⟩
  exact (hrun.invariant hstep ⟨h, hlate⟩).2.spent

/-! ## What a copy leaves -/

/-- What a read of the file returns at `o`: nothing past the end, a zero for a hole. -/
def World.byteAt (P : Entry.Params β δ) (s : World τ φ β δ) (o : Nat) : Option β :=
  if o < s.file.len then some ((s.file.cell o).getD P.zero) else none

/-- What a read of piece `i` returns. -/
def World.pieceBytes (P : Entry.Params β δ) (s : World τ φ β δ) (i : Nat) : List β :=
  (s.file.pread (Piece.offset i P.pieceSize) (Piece.len s.c.size i P.pieceSize)).map
    (·.getD P.zero)

/-- Piece `i` is one of those a write of `len` bytes at `off` overlaps. -/
def World.Overlaps (P : Entry.Params β δ) (s : World τ φ β δ) (off len i : Nat) : Prop :=
  (Piece.cover ⟨off, len⟩ s.c.size P.pieceSize).start ≤ i ∧
    i < (Piece.cover ⟨off, len⟩ s.c.size P.pieceSize).stop

/-- Piece `i` is one of those a write of `len` bytes at `off` covers. -/
def Covers (P : Entry.Params β δ) (off len i : Nat) : Prop :=
  (Piece.fullCover ⟨off, len⟩ P.pieceSize).start ≤ i ∧
    i < (Piece.fullCover ⟨off, len⟩ P.pieceSize).stop

/-- Piece `i` has the new bytes where the write overlaps it. -/
def World.HasNew (P : Entry.Params β δ) (s : World τ φ β δ) (off : Nat) (data : List β)
    (i : Nat) : Prop :=
  ∀ o, Piece.offset i P.pieceSize ≤ o →
    o < Piece.offset i P.pieceSize + Piece.len s.c.size i P.pieceSize →
    off ≤ o → o < off + data.length → s.byteAt P o = data[o - off]?

/-- What is left in the range after a copy that is no retry: marks of new bytes, digests of what
the pieces have, and no fill in flight that could still mark anything. -/
structure Applied (P : Entry.Params β δ) (s : World τ φ β δ) (off : Nat) (data : List β) :
    Prop where
  marks : ∀ i, s.Overlaps P off data.length i → s.c.bits.get i = true → s.HasNew P off data i
  digests : ∀ i h, s.Overlaps P off data.length i → s.c.hashes.lookup i = some h →
    h = P.digest (s.pieceBytes P i)
  fills : ∀ u i, (s.pc u).fills = some i → ∀ s', Run (Step P) (StillFills u i) s s' →
    Spent P s'.c i

/-- The copy answers true and leaves the generation. -/
def Fast (P : Entry.Params β δ) (s : World τ φ β δ) (t : τ) (off : Nat) (data : List β)
    (ok : Bool) : Prop :=
  (s.c.markCopy P.digest P.pieceSize off data ok).2.2 = true ∧
    (s.markCopy P t off data ok).c.writes = s.c.writes

/-- What `copyIntoCache` owes: on its fast path every overlapped piece has the new bytes, and
otherwise the copy is applied. -/
structure Good (P : Entry.Params β δ) (s : World τ φ β δ) (t : τ) (off : Nat) (data : List β)
    (ok : Bool) : Prop where
  fast : Fast P s t off data ok →
    ∀ i, (s.markCopy P t off data ok).Overlaps P off data.length i →
      (s.markCopy P t off data ok).HasNew P off data i
  slow : ¬ Fast P s t off data ok → Applied P (s.markCopy P t off data ok) off data

/-- The digest on record for piece `i` is of a content whose bytes the piece has, and not by
accident the digest of the write's bytes too. -/
def World.Vouched (P : Entry.Params β δ) (s : World τ φ β δ) (off : Nat) (data : List β)
    (i : Nat) : Prop :=
  ∃ content, s.c.hashes.lookup i = some (P.digest content) ∧
    (P.digest content = P.digest (pieceSlice P.pieceSize off data i) →
      content = pieceSlice P.pieceSize off data i) ∧
    ∀ o, Piece.offset i P.pieceSize ≤ o →
      o < Piece.offset i P.pieceSize + Piece.len s.c.size i P.pieceSize →
      s.byteAt P o = content[o - Piece.offset i P.pieceSize]?

/-- The whole of piece `i` is below the entry's size, or the digest of the write's bytes cannot
tell it from what is. -/
def World.Uncut (P : Entry.Params β δ) (s : World τ φ β δ) (off : Nat) (data : List β)
    (i : Nat) : Prop :=
  Piece.offset i P.pieceSize + P.pieceSize ≤ s.c.size ∨
    P.digest (pieceSlice P.pieceSize off data i) =
      P.digest ((pieceSlice P.pieceSize off data i).take (Piece.len s.c.size i P.pieceSize))

/-- The state before the last section is one from which the copy comes out well. -/
structure Safe (P : Entry.Params β δ) (s : World τ φ β δ) (off : Nat) (data : List β)
    (ok : Bool) : Prop where
  /-- A retry that was not copied goes by digests, so they have to be the pieces' own. -/
  vouched : s.c.dead = false → s.c.retries P.digest P.pieceSize off data = true → ok = false →
    ∀ i, s.Overlaps P off data.length i → Covers P off data.length i → s.Vouched P off data i
  /-- A copy records digests of whole pieces, so no piece it covers may be cut short. -/
  uncut : s.c.dead = false → s.c.retries P.digest P.pieceSize off data = false → ok = true →
    ∀ i, s.Overlaps P off data.length i → Covers P off data.length i → s.Uncut P off data i
  /-- A dead entry is left as it is, so its digests have to be right before. -/
  forgotten : s.c.dead = true → ∀ i h, s.Overlaps P off data.length i →
    s.c.hashes.lookup i = some h → h = P.digest (s.pieceBytes P i)

section Copies

variable {off : Nat} {data : List β} {ok : Bool}

omit [DecidableEq δ] in
/-- A covered piece lies in the range. -/
theorem Covers.span {i : Nat} (h : Covers P off data.length i) :
    off ≤ Piece.offset i P.pieceSize ∧
      Piece.offset i P.pieceSize + P.pieceSize ≤ off + data.length := by
  obtain ⟨hfrom, hto⟩ := Piece.span_of_mem_fullCover P.pieceSize_pos h.1 h.2
  exact ⟨hfrom, hto.trans (min_le_left ..)⟩

omit [DecidableEq τ] [DecidableEq δ] in
/-- Where the data is in the file, every piece has it. -/
theorem World.Holds.hasNew (h : s.Holds off data) (i : Nat) : s.HasNew P off data i := by
  intro o _ _ hlo hhi
  obtain ⟨hlen, hcell⟩ := h o hlo hhi
  have hidx : o - off < data.length := by omega
  unfold World.byteAt
  rw [if_pos hlen, hcell, List.getElem?_eq_getElem hidx]
  rfl

omit [DecidableEq τ] [DecidableEq δ] in
theorem getElem?_pieceBytes (s : World τ φ β δ) {i k : Nat}
    (hk : k < Piece.len s.c.size i P.pieceSize) :
    (s.pieceBytes P i)[k]? = s.byteAt P (Piece.offset i P.pieceSize + k) := by
  unfold World.pieceBytes World.byteAt SparseFile.pread
  rw [List.getElem?_map, List.getElem?_map]
  by_cases hlen : Piece.offset i P.pieceSize + k < s.file.len
  · rw [List.getElem?_range (by omega), if_pos hlen]
    rfl
  · rw [List.getElem?_eq_none (by rw [List.length_range]; omega), if_neg hlen]
    rfl

omit [DecidableEq τ] [DecidableEq δ] in
/-- **What a covered piece reads as** when the data is in the file: the write's bytes for it, as
far as the entry's size goes. -/
theorem World.Holds.pieceBytes_eq (h : s.Holds off data) {i : Nat}
    (hcov : Covers P off data.length i) :
    s.pieceBytes P i =
      (pieceSlice P.pieceSize off data i).take (Piece.len s.c.size i P.pieceSize) := by
  obtain ⟨hfrom, hend⟩ := hcov.span
  have hle := Piece.len_le s.c.size i P.pieceSize
  apply List.ext_getElem?
  intro k
  by_cases hk : k < Piece.len s.c.size i P.pieceSize
  · have hslice : (pieceSlice P.pieceSize off data i)[Piece.offset i P.pieceSize + k -
        Piece.offset i P.pieceSize]? = data[Piece.offset i P.pieceSize + k - off]? :=
      getElem?_pieceSlice hfrom (Nat.le_add_right ..) (by omega)
    rw [Nat.add_sub_cancel_left] at hslice
    rw [getElem?_pieceBytes s hk, List.getElem?_take_of_lt hk, hslice]
    exact h.hasNew i _ (Nat.le_add_right ..) (by omega) (by omega) (by omega)
  · rw [List.getElem?_eq_none, List.getElem?_eq_none]
    · rw [List.length_take]
      omega
    · unfold World.pieceBytes
      rw [List.length_map, SparseFile.length_pread]
      omega

/-! ### The last section -/

theorem copied_c (s : World τ φ β δ) (t : τ) (off : Nat) (data : List β) (ok : Bool) :
    (s.markCopy P t off data ok).c = (s.c.markCopy P.digest P.pieceSize off data ok).1 := rfl

theorem copied_size (s : World τ φ β δ) (t : τ) (off : Nat) (data : List β) (ok : Bool) :
    (s.markCopy P t off data ok).c.size = s.c.size :=
  (Section.light_run P s.c (.markCopy off data ok) rfl).size

theorem copied_file (s : World τ φ β δ) (t : τ) (off : Nat) (data : List β) (ok : Bool) :
    (s.markCopy P t off data ok).file = s.file :=
  foldl_afterIo fun _ ho => afterIo_soft s.c s.file
    ((markCopy_keepsFile P.digest P.pieceSize off data s.c ok).2 _ ho)

theorem overlaps_copied {len i : Nat} :
    (s.markCopy P t off data ok).Overlaps P off len i ↔ s.Overlaps P off len i := by
  unfold World.Overlaps
  rw [copied_size]

theorem hasNew_copied {i : Nat} :
    (s.markCopy P t off data ok).HasNew P off data i ↔ s.HasNew P off data i := by
  unfold World.HasNew World.byteAt
  rw [copied_size, copied_file]

theorem pieceBytes_copied (i : Nat) :
    (s.markCopy P t off data ok).pieceBytes P i = s.pieceBytes P i := by
  unfold World.pieceBytes
  rw [copied_size, copied_file]

/-- **The fast path** is a retry on a live entry. -/
theorem fast_iff :
    Fast P s t off data ok ↔
      s.c.dead = false ∧ s.c.retries P.digest P.pieceSize off data = true := by
  unfold Fast
  rw [copied_c]
  by_cases hdead : s.c.dead = true
  · rw [markCopy_of_dead hdead, hdead]
    simp
  rw [Bool.not_eq_true] at hdead
  by_cases hretry : s.c.retries P.digest P.pieceSize off data = true
  · rw [markCopy_of_retries hdead hretry]
    simp [hdead, hretry]
  · rw [Bool.not_eq_true] at hretry
    rw [writes_markCopy hdead hretry, hretry]
    simp

/-- **Fills of before the copy are late after it**, its fast path aside. -/
theorem late_copied (h : Inv s) (hpc : s.pc t = .copied off data ok)
    (hslow : s.c.dead = false → s.c.retries P.digest P.pieceSize off data = false) {u : τ}
    {i : Nat} (hu : ((s.markCopy P t off data ok).pc u).fills = some i) :
    Late u i (s.markCopy P t off data ok) := by
  have he : Effect t s (s.markCopy P t off data ok) := (Core.copyMark hpc).effect
  refine ⟨hu, ?_⟩
  cases hdead : s.c.dead with
  | true => exact Or.inl (he.dead hdead)
  | false =>
    right
    have hwrites := writes_markCopy hdead (hslow hdead) ok
    rcases he.lookup_filling h.claims hu with ⟨hold, hsame⟩ | ⟨-, hfree, hnew⟩
    · obtain ⟨gen, hlook, hle⟩ := h.claims.lookup u i hold
      exact ⟨gen, by rw [hsame, hlook], by rw [copied_c, hwrites]; omega⟩
    · exact ⟨s.c.writes, hnew, by rw [copied_c, hwrites]; omega⟩

/-! ### One branch after the other -/

omit [DecidableEq τ] [DecidableEq δ] in
/-- The bytes of a copy that succeeded are in the file before its last section. -/
theorem Inv.holds (h : Inv s) (hpc : s.pc t = .copied off data true) : s.Holds off data := by
  have hok := h.pcs t
  rw [hpc] at hok
  exact hok.2

omit [DecidableEq τ] in
/-- A retry finds the new bytes: it copied them, or the digests it went by are the pieces' own. -/
theorem retry_iff (h : Inv s) (hpc : s.pc t = .copied off data ok)
    (hretry : s.c.retries P.digest P.pieceSize off data = true) :
    (∀ i, s.Overlaps P off data.length i → s.HasNew P off data i) ↔
      (ok = false → ∀ i, s.Overlaps P off data.length i → Covers P off data.length i →
        s.Vouched P off data i) := by
  constructor
  · intro hnew _ i hi hcov
    obtain ⟨hfrom, hend⟩ := hcov.span
    refine ⟨_, lookup_of_retries hretry hcov.1 hcov.2, fun _ => rfl, fun o hlo hhi => ?_⟩
    have hle := Piece.len_le s.c.size i P.pieceSize
    rw [getElem?_pieceSlice hfrom hlo (by omega)]
    exact hnew i hi o hlo hhi (by omega) (by omega)
  · intro hvouched i hi
    cases ok with
    | true => exact (h.holds hpc).hasNew i
    | false =>
      intro o hlo hhi hoff hto
      have hle := Piece.len_le s.c.size i P.pieceSize
      have hcov : Covers P off data.length i :=
        covered_of_retries hretry hoff hto hlo (by omega)
      obtain ⟨hfrom, -⟩ := hcov.span
      obtain ⟨content, hlook, hsame, hbytes⟩ := hvouched rfl i hi hcov
      rw [lookup_of_retries hretry hcov.1 hcov.2] at hlook
      rw [hbytes o hlo hhi, hsame (Option.some.inj hlook).symm,
        getElem?_pieceSlice hfrom hlo (by omega)]

/-- A copied write that is no retry is applied exactly when no piece it covers is cut short. -/
theorem copied_iff (h : Inv s) (hpc : s.pc t = .copied off data true) (hlive : s.c.dead = false)
    (hretry : s.c.retries P.digest P.pieceSize off data = false) :
    Applied P (s.markCopy P t off data true) off data ↔
      ∀ i, s.Overlaps P off data.length i → Covers P off data.length i → s.Uncut P off data i := by
  have hholds := h.holds hpc
  constructor
  · intro happlied i hi hcov
    have hlook : (s.c.markCopy P.digest P.pieceSize off data true).1.hashes.lookup i =
        some (P.digest (pieceSlice P.pieceSize off data i)) := by
      rw [lookup_markCopy_copied hlive hretry hi.1 hi.2, if_pos ⟨hcov.1, hcov.2⟩]
    have hown := happlied.digests i _ (overlaps_copied.mpr hi) hlook
    rw [pieceBytes_copied, hholds.pieceBytes_eq hcov] at hown
    exact Or.inr hown
  · intro huncut
    refine ⟨fun i _ _ => hasNew_copied.mpr (hholds.hasNew i), fun i d hi hlook => ?_,
      fun u i hu s' hrun => ?_⟩
    · have hin := overlaps_copied.mp hi
      rw [copied_c, lookup_markCopy_copied hlive hretry hin.1 hin.2] at hlook
      split at hlook
      · next hcov =>
        rw [← Option.some.inj hlook, pieceBytes_copied, hholds.pieceBytes_eq hcov]
        rcases huncut i hin hcov with hbelow | hsame
        · rw [List.take_of_length_le]
          have hslice : (pieceSlice P.pieceSize off data i).length ≤ P.pieceSize :=
            List.length_take_le ..
          unfold Piece.len
          split_ifs <;> omega
        · exact hsame
      · cases hlook
    · exact spent_of_run (inv_step h ⟨t, Core.copyMark hpc⟩)
        (late_copied h hpc (fun _ => hretry) hu) hrun

/-- A write that was not copied and is no retry is always applied. -/
theorem uncopied_applied (h : Inv s) (hpc : s.pc t = .copied off data false)
    (hlive : s.c.dead = false)
    (hretry : s.c.retries P.digest P.pieceSize off data = false) :
    Applied P (s.markCopy P t off data false) off data := by
  refine ⟨fun i hi hmark => ?_, fun i d hi hlook => ?_, fun u i hu s' hrun => ?_⟩
  · have hin := overlaps_copied.mp hi
    have hgone := (markCopy_uncopied hlive hretry hin.1 hin.2).2
    rw [copied_c, hgone] at hmark
    cases hmark
  · have hin := overlaps_copied.mp hi
    rw [copied_c, (markCopy_uncopied hlive hretry hin.1 hin.2).1] at hlook
    cases hlook
  · exact spent_of_run (inv_step h ⟨t, Core.copyMark hpc⟩)
      (late_copied h hpc (fun _ => hretry) hu) hrun

/-- On a dead entry, which has no marks, it is down to the digests it had before. -/
theorem forgotten_iff (h : Inv s) (hpc : s.pc t = .copied off data ok)
    (hdead : s.c.dead = true) :
    Applied P (s.markCopy P t off data ok) off data ↔
      ∀ i d, s.Overlaps P off data.length i → s.c.hashes.lookup i = some d →
        d = P.digest (s.pieceBytes P i) := by
  have hsame : (s.markCopy P t off data ok).c = s.c := by rw [copied_c, markCopy_of_dead hdead]
  constructor
  · intro happlied i d hi hlook
    rw [← pieceBytes_copied]
    exact happlied.digests i d (overlaps_copied.mpr hi) (by rw [hsame, hlook])
  · intro hdigests
    refine ⟨fun i _ hmark => ?_, fun i d hi hlook => ?_, fun u i hu s' hrun => ?_⟩
    · rw [hsame, h.unmarked hdead i] at hmark
      cases hmark
    · rw [pieceBytes_copied]
      exact hdigests i d (overlaps_copied.mp hi) (by rw [← hsame, hlook])
    · refine spent_of_run (inv_step h ⟨t, Core.copyMark hpc⟩) (late_copied h hpc ?_ hu) hrun
      intro hlive
      rw [hdead] at hlive
      cases hlive

/-- **What `copyIntoCache` leaves, and exactly when.** -/
theorem good_iff_safe {s₀ : World τ φ β δ} (hstart : Start s₀) (hrun : Run (Step P) Always s₀ s)
    (hpc : s.pc t = .copied off data ok) : Good P s t off data ok ↔ Safe P s off data ok := by
  have h := inv_of_run hstart hrun
  have hfast := @fast_iff τ φ β δ _ _ P s t off data ok
  cases hdead : s.c.dead with
  | true =>
    have hslow : ¬ Fast P s t off data ok := by
      rw [hfast, hdead]
      exact fun hf => Bool.false_ne_true hf.1.symm
    have hiff := forgotten_iff (P := P) h hpc hdead
    constructor
    · intro hgood
      refine ⟨?_, ?_, fun _ => hiff.mp (hgood.slow hslow)⟩
      · exact fun hlive => absurd hlive (by simp [hdead])
      · exact fun hlive => absurd hlive (by simp [hdead])
    · intro hsafe
      exact ⟨fun hf => absurd hf hslow, fun _ => hiff.mpr (hsafe.forgotten hdead)⟩
  | false =>
    cases hretry : s.c.retries P.digest P.pieceSize off data with
    | true =>
      have hquick : Fast P s t off data ok := hfast.mpr ⟨hdead, hretry⟩
      have hiff := retry_iff (P := P) h hpc hretry
      constructor
      · intro hgood
        refine ⟨fun _ _ => hiff.mp fun i hi => ?_, fun _ hno => absurd hno (by simp [hretry]),
          fun hgone => absurd hgone (by simp [hdead])⟩
        exact hasNew_copied.mp (hgood.fast hquick i (overlaps_copied.mpr hi))
      · intro hsafe
        refine ⟨fun _ i hi => ?_, fun hf => absurd hquick hf⟩
        exact hasNew_copied.mpr (hiff.mpr (hsafe.vouched hdead hretry) i (overlaps_copied.mp hi))
    | false =>
      have hslow : ¬ Fast P s t off data ok := by
        rw [hfast, hretry]
        exact fun hf => Bool.false_ne_true hf.2
      cases ok with
      | true =>
        have hiff := copied_iff h hpc hdead hretry
        constructor
        · intro hgood
          refine ⟨?_, fun _ _ _ => hiff.mp (hgood.slow hslow), ?_⟩
          · exact fun _ hyes => absurd hyes (by simp [hretry])
          · exact fun hgone => absurd hgone (by simp [hdead])
        · intro hsafe
          exact ⟨fun hf => absurd hf hslow, fun _ => hiff.mpr (hsafe.uncut hdead hretry rfl)⟩
      | false =>
        have happlied := uncopied_applied h hpc hdead hretry
        constructor
        · intro _
          exact ⟨fun _ hyes => absurd hyes (by simp [hretry]), fun _ _ hno => absurd hno (by simp),
            fun hgone => absurd hgone (by simp [hdead])⟩
        · intro _
          exact ⟨fun hf => absurd hf hslow, fun _ => happlied⟩

end Copies

/-! ## A run that keeps a wrong digest -/

/-- An entry of `n` bytes of which nothing is cached. -/
def emptyEntry (n : Nat) : World Bool Nat UInt8 (List UInt8) where
  c := { size := n, bits := Bitfield.init (Piece.count n 4) }
  file := SparseFile.empty
  pc _ := .idle

theorem start_emptyEntry (n : Nat) : Start (emptyEntry n) where
  idle _ := rfl
  free := rfl
  unmarked h := absurd h (by simp [emptyEntry])

/-- A write-through that is copied comes out well, and so does its retry, which finds a transfer in
its way. -/
theorem good_of_retry :
    ∃ s s' : World Bool Nat UInt8 (List UInt8), s.pc false = .copied 0 [1, 2, 3, 4] true ∧
      Good Entry.smallPieces s false 0 [1, 2, 3, 4] true ∧
      s'.pc false = .copied 0 [1, 2, 3, 4] false ∧
      s'.c.retries Entry.smallPieces.digest 4 0 [1, 2, 3, 4] = true ∧
      Good Entry.smallPieces s' false 0 [1, 2, 3, 4] false := by
  have r₀ : Run (Step Entry.smallPieces) Always _ _ := Run.refl (emptyEntry 8)
  have r₁ := r₀.then ⟨false, Core.copyLock 0 [1, 2, 3, 4] rfl rfl⟩
  have r₂ := r₁.then ⟨false, Core.copyOpen (some 0) rfl⟩
  have r₃ := r₂.then ⟨false, Core.copyWrite 4 (by decide) rfl⟩
  have r₄ := r₃.then ⟨false, Core.copyMark rfl⟩
  have r₅ := r₄.then ⟨true, Core.other .beginXfer rfl rfl fun h => nomatch h⟩
  have r₆ := r₅.then ⟨false, Core.copyLock 0 [1, 2, 3, 4] rfl rfl⟩
  -- the write covers the first piece and no other
  have hfirst : ∀ i, Covers Entry.smallPieces 0 ([1, 2, 3, 4] : List UInt8).length i → i = 0 := by
    intro i hi
    have hspan : i * 4 + 4 ≤ 0 + 4 := hi.span.2
    omega
  refine ⟨_, _, rfl, (good_iff_safe (start_emptyEntry 8) r₃ rfl).mpr ⟨?_, ?_, ?_⟩, rfl,
    by decide, (good_iff_safe (start_emptyEntry 8) r₆ rfl).mpr ⟨?_, ?_, ?_⟩⟩
  · exact fun _ _ hno => nomatch hno
  · intro _ _ _ i _ hi
    obtain rfl := hfirst i hi
    exact Or.inl (by decide)
  · exact fun hdead => nomatch hdead
  · intro _ _ _ i _ hi
    obtain rfl := hfirst i hi
    refine ⟨[1, 2, 3, 4], by decide, fun _ => by decide, fun o _ ho => ?_⟩
    have hlt : o < 4 := ho
    obtain rfl | rfl | rfl | rfl : o = 0 ∨ o = 1 ∨ o = 2 ∨ o = 3 := by omega
    all_goals decide
  · exact fun _ _ hok => nomatch hok
  · exact fun hdead => nomatch hdead

/-- A write of two pieces passes its size step, a truncate leaves half of the second one, and the
copy then records the digest of all four bytes for it. -/
theorem good_fails_after_truncate :
    ¬ ∀ (s₀ s : World Bool Nat UInt8 (List UInt8)) (t : Bool) (off : Nat) (data : List UInt8)
      (ok : Bool), Start s₀ → Run (Step Entry.smallPieces) Always s₀ s →
        s.pc t = .copied off data ok → Good Entry.smallPieces s t off data ok := by
  intro h
  have r₀ : Run (Step Entry.smallPieces) Always _ _ := Run.refl (emptyEntry 8)
  have r₁ := r₀.then ⟨false, Core.other (.cacheFillSize 8 {} 0 true) rfl rfl fun _ => rfl⟩
  have r₂ := r₁.then ⟨true, Core.other (.truncateEntry 6 true) rfl rfl fun _ => rfl⟩
  have r₃ := r₂.then ⟨false, Core.copyLock 0 [1, 2, 3, 4, 5, 6, 7, 8] rfl rfl⟩
  have r₄ := r₃.then ⟨false, Core.copyOpen (some 0) rfl⟩
  have r₅ := r₄.then ⟨false, Core.copyWrite 8 (by decide) rfl⟩
  have hgood := h _ _ false 0 [1, 2, 3, 4, 5, 6, 7, 8] true (start_emptyEntry 8) r₅ rfl
  have happlied := hgood.slow (by unfold Fast; decide)
  have hdigest := happlied.digests 1 [5, 6, 7, 8] (by unfold World.Overlaps; decide) rfl
  exact absurd hdigest (by decide)

end WriteThrough

end ModelFs
