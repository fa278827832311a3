import ModelFs.Entry

/-!
# What a mark vouches for

`MarksSound`: every marked piece has bytes, and each of them is in the data file, put there since
the last reset or shrink, and claimed from the origin or written to it after the last truncate that
took it. The invariant behind it says, for each act a thread can be inside of, what the entry still
owes that thread.

A write-through that finds `content_mu` free after its size step takes nothing along from that
step, nor from its origin write: a truncate or a reset may have come in between. `CopyFresh` rules
out the copies this makes wrong, and is all that is needed.

* `Steady` — what most sections are to the others: marks only go, the file is kept below the size.
* `inv_core` — one step keeps the invariant.
* `marksSound_of_run` — **marks are sound along every run of fresh copies.**
* `marksSound_fails_after_reset_under_transfer`, `marksSound_fails_after_truncates` — a copy that is
  not fresh marks a piece past the end of the file, or bytes two truncates have taken.
-/

namespace ModelFs

namespace Entry

open Piece World

variable {τ β δ : Type} (P : Params β δ)

/-! ## Commits -/

section Commit

variable (s : World τ β δ)

theorem foldl_applyIo_soft (io : List (Io Nat)) (h : ∀ o ∈ io, o.soft = true) :
    io.foldl applyIo s = s := by
  induction io with
  | nil => rfl
  | cons o io ih =>
    have ho : s.applyIo o = s := by
      have := h o List.mem_cons_self
      cases o <;> first | rfl | exact absurd this (by simp [Io.soft])
    rw [List.foldl_cons, ho]
    exact ih fun o' ho' => h o' (List.mem_cons_of_mem o ho')

/-- A property no file operation changes is not changed by a list of them. -/
theorem foldl_applyIo_eq {α : Type} (f : World τ β δ → α) (hf : ∀ s o, f (s.applyIo o) = f s)
    (io : List (Io Nat)) : f (io.foldl applyIo s) = f s := by
  induction io generalizing s with
  | nil => rfl
  | cons o io ih => rw [List.foldl_cons, ih, hf]

theorem commit_eq {α : Type} (f : World τ β δ → α) (hf : ∀ s o, f (s.applyIo o) = f s)
    (hdata : ∀ s, f (ensureData s) = f s) (hc : ∀ s c, f { s with c := c } = f s)
    (c : Cached Nat δ) (io : List (Io Nat)) : f (s.commit c io) = f s := by
  unfold commit
  rw [foldl_applyIo_eq _ f hf]
  split_ifs
  · rw [hc, hdata]
  · rw [hc]

@[simp] theorem commit_c (c : Cached Nat δ) (io : List (Io Nat)) : (s.commit c io).c = c := by
  unfold commit
  rw [foldl_applyIo_eq _ World.c fun s o => by cases o <;> rfl]

@[simp] theorem commit_thread (c : Cached Nat δ) (io : List (Io Nat)) :
    (s.commit c io).thread = s.thread :=
  commit_eq s World.thread (fun s o => by cases o <;> rfl)
    (fun s => by unfold ensureData; split <;> rfl) (fun _ _ => rfl) c io

@[simp] theorem commit_contentMu (c : Cached Nat δ) (io : List (Io Nat)) :
    (s.commit c io).contentMu = s.contentMu :=
  commit_eq s World.contentMu (fun s o => by cases o <;> rfl)
    (fun s => by unfold ensureData; split <;> rfl) (fun _ _ => rfl) c io

@[simp] theorem commit_cuts (c : Cached Nat δ) (io : List (Io Nat)) :
    (s.commit c io).cuts = s.cuts :=
  commit_eq s World.cuts (fun s o => by cases o <;> rfl)
    (fun s => by unfold ensureData; split <;> rfl) (fun _ _ => rfl) c io

@[simp] theorem commit_truncs (c : Cached Nat δ) (io : List (Io Nat)) :
    (s.commit c io).truncs = s.truncs :=
  commit_eq s World.truncs (fun s o => by cases o <;> rfl)
    (fun s => by unfold ensureData; split <;> rfl) (fun _ _ => rfl) c io

@[simp] theorem commit_truncAt (c : Cached Nat δ) (io : List (Io Nat)) :
    (s.commit c io).truncAt = s.truncAt :=
  commit_eq s World.truncAt (fun s o => by cases o <;> rfl)
    (fun s => by unfold ensureData; split <;> rfl) (fun _ _ => rfl) c io

/-- Sidecar work leaves the files alone. -/
theorem commit_soft {c : Cached Nat δ} {io : List (Io Nat)} (hio : ∀ o ∈ io, o.soft = true)
    (hfd : c.cacheFd = s.c.cacheFd) : s.commit c io = { s with c := c } := by
  have hopen : (s.c.cacheFd.isNone && c.cacheFd.isSome) = false := by
    rw [hfd]
    cases s.c.cacheFd <;> rfl
  unfold commit
  rw [hopen]
  exact foldl_applyIo_soft _ io hio

theorem foldl_applyIo_withC (c : Cached Nat δ) (io : List (Io Nat)) :
    io.foldl applyIo { s with c := c } = { io.foldl applyIo s with c := c } := by
  induction io generalizing s with
  | nil => rfl
  | cons o io ih =>
    have ho : applyIo { s with c := c } o = { s.applyIo o with c := c } := by cases o <;> rfl
    rw [List.foldl_cons, List.foldl_cons, ho, ih]

/-- File operations past an open are operations on what the open left. -/
theorem commit_append (c c' : Cached Nat δ) (io io' : List (Io Nat))
    (hfd : c'.cacheFd = c.cacheFd) :
    s.commit c' (io ++ io') = (s.commit c io).commit c' io' := by
  have hopen : ((s.commit c io).c.cacheFd.isNone && c'.cacheFd.isSome) = false := by
    rw [commit_c, hfd]
    cases c.cacheFd <;> rfl
  have hsame : s.commit c' io = { s.commit c io with c := c' } := by
    unfold commit
    rw [hfd, ← foldl_applyIo_withC]
  unfold commit at hopen ⊢
  rw [hopen, List.foldl_append]
  change _ = io'.foldl applyIo { s.commit c io with c := c' }
  rw [← hsame]
  rfl

theorem dataFile_congr (s s' : World τ β δ) (hfd : s'.c.cacheFd = s.c.cacheFd)
    (hinode : s'.inode = s.inode) (hpath : s'.path = s.path) : s'.dataFile = s.dataFile := by
  unfold dataFile
  rw [hfd, hinode, hpath]

theorem dataFile_of_fd (s : World τ β δ) {fd : Nat} (h : s.c.cacheFd = some fd) :
    s.dataFile = s.inode fd := by
  unfold dataFile
  rw [h]

/-- A cut leaves the data file as it was or cuts it. -/
theorem dataFile_commit_cutsTo {c : Cached Nat δ} {io : List (Io Nat)} {n : Nat}
    (hio : Cached.CutsTo s.c io n) (hfd : c.cacheFd = s.c.cacheFd) :
    (s.commit c io).dataFile = s.dataFile ∨ (s.commit c io).dataFile = s.dataFile.ftruncate n := by
  rcases hio with hsoft | ⟨fd, before, after, hcur, -, rfl, hbefore, hafter⟩
  · rw [commit_soft s hsoft hfd]
    exact Or.inl (dataFile_congr s { s with c := c } hfd rfl rfl)
  · right
    rw [commit_append s c c before _ rfl, commit_soft s hbefore hfd]
    have hcut : ∀ s₁ : World τ β δ, s₁.c.cacheFd = some fd → (∀ o ∈ after, o.soft = true) →
        s₁.commit s₁.c (.cut fd n :: after) = s₁.applyIo (.cut fd n) := by
      intro s₁ h₁ hsoft
      unfold commit
      rw [h₁]
      exact foldl_applyIo_soft _ after hsoft
    have hfd' : ({ s with c := c } : World τ β δ).c.cacheFd = some fd := hfd.trans hcur
    rw [hcut { s with c := c } hfd' hafter, dataFile_of_fd s hcur,
      dataFile_of_fd (applyIo { s with c := c } (.cut fd n)) hfd']
    exact Function.update_self ..

theorem commit_punch {c : Cached Nat δ} {save : Io Nat} {fd off n : Nat} (hsave : save.soft = true)
    (hfd : c.cacheFd = s.c.cacheFd) :
    s.commit c [save, .punch fd off n] = applyIo { s with c := c } (.punch fd off n) := by
  have hfirst : s.commit c [save] = { s with c := c } := commit_soft s (by simpa) hfd
  have hopen : (({ s with c := c } : World τ β δ).c.cacheFd.isNone && c.cacheFd.isSome) = false := by
    cases c.cacheFd <;> rfl
  rw [← List.singleton_append, commit_append s c c _ _ rfl, hfirst]
  unfold commit
  rw [hopen]
  rfl

theorem dataFile_punch {fd off n : Nat} (hfd : s.c.cacheFd = some fd) :
    (s.applyIo (.punch fd off n)).dataFile = s.dataFile.punch off n := by
  rw [dataFile_of_fd s hfd, dataFile_of_fd (s.applyIo (.punch fd off n)) hfd]
  exact Function.update_self ..

/-- Opening the data file keeps every cell below the entry's size. -/
theorem cell_commit_open (ok : Bool) {o : Nat} (ho : o < s.c.size) :
    (s.commit (s.c.openCacheUnlocked (s.opened ok)).1
      (s.c.openCacheUnlocked (s.opened ok)).2).dataFile.cell o = s.dataFile.cell o := by
  rcases s.c.openCacheUnlocked_cases (s.opened ok) with h | ⟨hnone, fd, hopened, h⟩
  · rw [h, commit_soft s (by simp) rfl]
  · rw [h]
    have hfd : s.path.getD s.next = fd := by
      unfold opened at hopened
      split_ifs at hopened
      exact Option.some.inj hopened
    unfold commit
    rw [hnone]
    simp only [Option.isNone_none, Option.isSome_some, Bool.and_self, if_true, List.foldl_cons,
      List.foldl_nil, applyIo]
    rw [dataFile_of_fd _ rfl]
    cases hpath : s.path with
    | some ino =>
      rw [hpath, Option.getD_some] at hfd
      subst hfd
      simp only [ensureData, hpath, Function.update_self, dataFile, hnone]
      exact SparseFile.cell_ftruncate_of_lt _ ho
    | none =>
      rw [hpath, Option.getD_none] at hfd
      subst hfd
      simp only [ensureData, hpath, Function.update_self, dataFile, hnone]
      exact SparseFile.cell_ftruncate_of_lt _ ho

/-- Opening the data file puts nothing in it. -/
theorem cell_commit_open_sub (ok : Bool) (o : Nat) (a : Cell β)
    (ha : (s.commit (s.c.openCacheUnlocked (s.opened ok)).1
      (s.c.openCacheUnlocked (s.opened ok)).2).dataFile.cell o = some a) :
    s.dataFile.cell o = some a := by
  by_cases ho : o < s.c.size
  · rwa [cell_commit_open s ok ho] at ha
  · rcases s.c.openCacheUnlocked_cases (s.opened ok) with h | ⟨hnone, fd, hopened, h⟩
    · rwa [h, commit_soft s (by simp) rfl] at ha
    · rw [h] at ha
      unfold commit at ha
      rw [hnone] at ha
      simp only [Option.isNone_none, Option.isSome_some, Bool.and_self, if_true, List.foldl_cons,
        List.foldl_nil, applyIo] at ha
      rw [dataFile_of_fd _ rfl] at ha
      simp [SparseFile.ftruncate, ho] at ha

end Commit

/-! ## The invariant -/

/-- Every byte of the range is in the data file, put by an operation with that stamp. -/
def CellsBorn (s : World τ β δ) (off len : Nat) (born : Stamp) : Prop :=
  ∀ o, off ≤ o → o < off + len → ∃ a, s.dataFile.cell o = some a ∧ a.born = born

/-- No truncate that has reached the entry took a byte of the range after `truncs`. -/
def Untruncated (s : World τ β δ) (off len truncs : Nat) : Prop :=
  ∀ o, off ≤ o → o < off + len → s.truncAt o ≤ truncs

/-- Every byte of the range is in the data file, put there since the last cut, and written or
claimed after the last truncate that took it. -/
def CellsFresh (s : World τ β δ) (off len : Nat) : Prop :=
  ∀ o, off ≤ o → o < off + len → ∃ a, s.dataFile.cell o = some a ∧ a.born.cuts = s.cuts ∧
    s.truncAt o ≤ a.born.truncs

/-- **Mark soundness.** A marked piece has bytes, and all of them are in the data file, none from
before a cut or a truncate. -/
def MarksSound (s : World τ β δ) : Prop :=
  ∀ i, s.c.bits.get i = true → 0 < len s.c.size i P.pieceSize ∧
    CellsFresh s (offset i P.pieceSize) (len s.c.size i P.pieceSize)

/-- The piece an act holds a claim on. -/
def Act.claim : Act β → Option Nat
  | .claimed idx _ _ => some idx
  | .landing idx _ _ => some idx
  | .landFd idx _ _ _ => some idx
  | .landed idx _ _ _ => some idx
  | _ => none

/-- The act owns `content_mu`. -/
def Act.holdsMu : Act β → Bool
  | .landing .. => true
  | .landFd .. => true
  | .landed .. => true
  | .copying .. => true
  | .copyFd .. => true
  | .copied .. => true
  | _ => false

/-- The claim is recorded, and still has the entry's generation only if no cut came since; then
its bytes are inside the size, and no truncate has taken one. -/
def ClaimOk (s : World τ β δ) (idx len : Nat) (born : Stamp) : Prop :=
  ∃ gen, s.c.filling.lookup idx = some gen ∧ gen ≤ s.c.writes ∧
    (gen = s.c.writes → born.cuts = s.cuts ∧ offset idx P.pieceSize + len ≤ s.c.size ∧
      Untruncated s (offset idx P.pieceSize) len born.truncs)

/-- A fill past its check: its piece is unmarked and its bytes fit the piece and the file. -/
def FillOk (s : World τ β δ) (idx len : Nat) (born : Stamp) : Prop :=
  ClaimOk P s idx len born ∧ s.c.bits.get idx = false ∧ 0 < len ∧ len ≤ P.pieceSize ∧
    offset idx P.pieceSize + len ≤ s.c.size

/-- A write-through whose size step saw the current cut count still fits the file. -/
def SizeOk (s : World τ β δ) (off len : Nat) (born : Stamp) : Prop :=
  born.cuts ≤ s.cuts ∧ (born.cuts = s.cuts → off + len ≤ s.c.size)

/-- What the entry owes a thread inside of an act. -/
def ActOk (s : World τ β δ) : Act β → Prop
  | .claimed idx len born => ClaimOk P s idx len born ∧ 0 < len ∧ len ≤ P.pieceSize
  | .landing idx buf born => FillOk P s idx buf.length born
  | .landFd idx buf born fd => FillOk P s idx buf.length born ∧ s.c.cacheFd = some fd
  | .landed idx len ok born => FillOk P s idx len born ∧
      (ok = true → s.c.dead = false → CellsBorn s (offset idx P.pieceSize) len born)
  | .sized off data born => SizeOk s off data.length born
  | .copying off data born => SizeOk s off data.length born
  | .copyFd off data born fd => SizeOk s off data.length born ∧ s.c.cacheFd = some fd
  | .copied off data ok => ok = true → s.c.dead = false →
      ∀ i, (fullCover ⟨off, data.length⟩ P.pieceSize).start ≤ i →
        i < (fullCover ⟨off, data.length⟩ P.pieceSize).stop →
          offset i P.pieceSize + P.pieceSize ≤ s.c.size ∧
            CellsFresh s (offset i P.pieceSize) P.pieceSize
  | .truncated _ serial => serial ≤ s.truncs
  | _ => True

structure Inv (s : World τ β δ) : Prop where
  nbits : s.c.bits.nbits ≤ maxU32
  dead : s.c.dead = true → ∀ i, s.c.bits.get i = false
  sound : MarksSound P s
  truncAt : ∀ o, s.truncAt o ≤ s.truncs
  act : ∀ u, ActOk P s (s.act u)
  owner : ∀ u, (s.act u).holdsMu = true → s.contentMu = some u
  claims : ∀ u v idx, (s.act u).claim = some idx → (s.act v).claim = some idx → u = v

variable {P} {s s' : World τ β δ} {t : τ}

/-- The invariant after a step of thread `t`, from what the step did to the entry, to the others'
acts and to the act of `t`. -/
theorem Inv.of_step [DecidableEq τ] (h : Inv P s) (hnbits : s'.c.bits.nbits ≤ maxU32)
    (hdead : s'.c.dead = true → ∀ i, s'.c.bits.get i = false) (hsound : MarksSound P s')
    (htruncAt : ∀ o, s'.truncAt o ≤ s'.truncs) (hothers : ∀ u, u ≠ t → s'.act u = s.act u)
    (hkeep : ∀ u, u ≠ t → ActOk P s' (s.act u)) (hself : ActOk P s' (s'.act t))
    (hmu : ∀ u, u ≠ t → (s.act u).holdsMu = true → s'.contentMu = some u)
    (hmut : (s'.act t).holdsMu = true → s'.contentMu = some t)
    (hclaim : ∀ idx, (s'.act t).claim = some idx → ∀ u, u ≠ t → (s.act u).claim ≠ some idx) :
    Inv P s' where
  nbits := hnbits
  dead := hdead
  sound := hsound
  truncAt := htruncAt
  act u := by
    by_cases hu : u = t
    · exact hu ▸ hself
    · rw [hothers u hu]
      exact hkeep u hu
  owner u hu := by
    by_cases hut : u = t
    · subst hut
      exact hmut hu
    · rw [hothers u hut] at hu
      exact hmu u hut hu
  claims u v idx hu hv := by
    by_cases hut : u = t <;> by_cases hvt : v = t
    · rw [hut, hvt]
    · subst hut
      rw [hothers v hvt] at hv
      exact absurd hv (hclaim idx hu v hvt)
    · subst hvt
      rw [hothers u hut] at hu
      exact absurd hu (hclaim idx hv u hut)
    · rw [hothers u hut] at hu
      rw [hothers v hvt] at hv
      exact h.claims u v idx hu hv

/-! ## Steady sections -/

/-- Truncates have moved on, and none that reached the entry took a byte below `size`. -/
structure Onward (size : Nat) (s s' : World τ β δ) : Prop where
  truncs : s.truncs ≤ s'.truncs
  below : ∀ o < size, s'.truncAt o = s.truncAt o
  le : ∀ o, s'.truncAt o ≤ max (s.truncAt o) s'.truncs

theorem onward_of_eq {size : Nat} (htruncs : s'.truncs = s.truncs)
    (htruncAt : s'.truncAt = s.truncAt) : Onward size s s' where
  truncs := htruncs.ge
  below o _ := by rw [htruncAt]
  le o := by
    rw [htruncAt]
    exact le_max_left ..

theorem Onward.truncAt_le {size : Nat} (h : Onward size s s')
    (hle : ∀ o, s.truncAt o ≤ s.truncs) (o : Nat) : s'.truncAt o ≤ s'.truncs :=
  (h.le o).trans (max_le ((hle o).trans h.truncs) le_rfl)

theorem Onward.mono {size size' : Nat} (h : Onward size s s') (hle : size' ≤ size) :
    Onward size' s s' := ⟨h.truncs, fun o ho => h.below o (ho.trans_le hle), h.le⟩

theorem Onward.trans {size : Nat} {s'' : World τ β δ} (h : Onward size s s')
    (h' : Onward size s' s'') : Onward size s s'' where
  truncs := h.truncs.trans h'.truncs
  below o ho := (h'.below o ho).trans (h.below o ho)
  le o := by
    have hle := h.le o
    have hle' := h'.le o
    have htruncs := h'.truncs
    omega

theorem onward_commit (s : World τ β δ) {size : Nat} (c : Cached Nat δ) (io : List (Io Nat)) :
    Onward size s (s.commit c io) := onward_of_eq (commit_truncs ..) (commit_truncAt ..)

variable (P) in
/-- The section takes no mark it does not drop, changes the length of no piece it leaves marked,
and keeps the file below the old size, the descriptor and the cut count. -/
structure Steady (s s' : World τ β δ) : Prop where
  size_le : s.c.size ≤ s'.c.size
  get : ∀ i, s'.c.bits.get i = true → s.c.bits.get i = true
  len : s.c.bits.nbits ≤ maxU32 → ∀ i, s'.c.bits.get i = true → 0 < len s.c.size i P.pieceSize →
    len s'.c.size i P.pieceSize = len s.c.size i P.pieceSize
  nbits : s.c.bits.nbits ≤ maxU32 → s'.c.bits.nbits ≤ maxU32
  cells : s'.c.dead = false → ∀ o < s.c.size, s'.dataFile.cell o = s.dataFile.cell o
  cuts : s'.cuts = s.cuts
  onward : Onward s.c.size s s'
  fd : ∀ fd, s.c.cacheFd = some fd → s'.c.cacheFd = some fd
  writes : s.c.writes ≤ s'.c.writes
  dead : s'.c.dead = false → s.c.dead = false

theorem Steady.congr {s'' : World τ β δ} (h : Steady P s s') (hc : s''.c = s'.c)
    (hdata : s''.dataFile = s'.dataFile) (hcuts : s''.cuts = s'.cuts)
    (htruncs : s''.truncs = s'.truncs) (htruncAt : s''.truncAt = s'.truncAt) : Steady P s s'' :=
  ⟨hc ▸ h.size_le, hc ▸ h.get, hc ▸ h.len, hc ▸ h.nbits, hc ▸ hdata ▸ h.cells, hcuts ▸ h.cuts,
    ⟨htruncs ▸ h.onward.truncs, htruncAt ▸ h.onward.below, htruncs ▸ htruncAt ▸ h.onward.le⟩,
    hc ▸ h.fd, hc ▸ h.writes, hc ▸ h.dead⟩

theorem Steady.cellsFresh (h : Steady P s s') (hdead : s'.c.dead = false) {off len : Nat}
    (hfit : off + len ≤ s.c.size) (hcells : CellsFresh s off len) : CellsFresh s' off len := by
  intro o hlo hhi
  rw [h.cells hdead o (by omega), h.cuts, h.onward.below o (by omega)]
  exact hcells o hlo hhi

theorem Steady.sound (h : Steady P s s') (hinv : Inv P s)
    (hdead : s'.c.dead = true → ∀ i, s'.c.bits.get i = false) : MarksSound P s' := by
  intro i hi
  cases hd : s'.c.dead with
  | true =>
    rw [hdead hd] at hi
    exact Bool.noConfusion hi
  | false =>
    obtain ⟨hpos, hcells⟩ := hinv.sound i (h.get i hi)
    have hfit := offset_add_len_le ((len_pos_iff P.pieceSize_pos).mp hpos)
    rw [h.len hinv.nbits i hi hpos]
    exact ⟨hpos, h.cellsFresh hd hfit hcells⟩

theorem Steady.cellsBorn (h : Steady P s s') (hdead : s'.c.dead = false) {off len : Nat}
    {born : Stamp} (hfit : off + len ≤ s.c.size) (hcells : CellsBorn s off len born) :
    CellsBorn s' off len born := by
  intro o hlo hhi
  rw [h.cells hdead o (by omega)]
  exact hcells o hlo hhi

theorem Steady.claimOk (h : Steady P s s') {idx len : Nat} {born : Stamp}
    (hlook : s'.c.filling.lookup idx = s.c.filling.lookup idx)
    (hclaim : ClaimOk P s idx len born) : ClaimOk P s' idx len born := by
  obtain ⟨gen, hgen, hle, heq⟩ := hclaim
  have hwrites := h.writes
  refine ⟨gen, hlook ▸ hgen, by omega, fun hcur => ?_⟩
  obtain ⟨hcuts, hfit, hkept⟩ := heq (by omega)
  refine ⟨hcuts.trans h.cuts.symm, hfit.trans h.size_le, fun o hlo hhi => ?_⟩
  rw [h.onward.below o (by omega)]
  exact hkept o hlo hhi

theorem Steady.fillOk (h : Steady P s s') {idx len : Nat} {born : Stamp}
    (hlook : s'.c.filling.lookup idx = s.c.filling.lookup idx)
    (hfill : FillOk P s idx len born) : FillOk P s' idx len born := by
  obtain ⟨hclaim, hbit, hpos, hle, hfit⟩ := hfill
  refine ⟨h.claimOk hlook hclaim, ?_, hpos, hle, hfit.trans h.size_le⟩
  rw [← Bool.not_eq_true]
  intro hnew
  rw [h.get idx hnew] at hbit
  exact Bool.noConfusion hbit

theorem Steady.sizeOk (h : Steady P s s') {off len : Nat} {born : Stamp}
    (hsize : SizeOk s off len born) : SizeOk s' off len born := by
  refine ⟨h.cuts ▸ hsize.1, fun hcur => ?_⟩
  have hle := h.size_le
  have hfit := hsize.2 (h.cuts ▸ hcur)
  omega

/-- What the entry owed a thread, it owes it after a steady section that kept its claim. -/
theorem Steady.actOk (h : Steady P s s') {a : Act β}
    (hlook : ∀ idx, a.claim = some idx → s'.c.filling.lookup idx = s.c.filling.lookup idx)
    (ha : ActOk P s a) : ActOk P s' a := by
  cases a with
  | claimed idx len born => exact ⟨h.claimOk (hlook idx rfl) ha.1, ha.2⟩
  | landing idx buf born => exact h.fillOk (hlook idx rfl) ha
  | landFd idx buf born fd => exact ⟨h.fillOk (hlook idx rfl) ha.1, h.fd fd ha.2⟩
  | landed idx len ok born =>
    exact ⟨h.fillOk (hlook idx rfl) ha.1, fun hok hdead =>
      h.cellsBorn hdead ha.1.2.2.2.2 (ha.2 hok (h.dead hdead))⟩
  | sized off data born => exact h.sizeOk ha
  | copying off data born => exact h.sizeOk ha
  | copyFd off data born fd => exact ⟨h.sizeOk ha.1, h.fd fd ha.2⟩
  | copied off data ok =>
    intro hok hdead i hlo hhi
    obtain ⟨hfit, hcells⟩ := ha hok (h.dead hdead) i hlo hhi
    exact ⟨hfit.trans h.size_le, h.cellsFresh hdead hfit hcells⟩
  | truncated size serial => exact ha.trans h.onward.truncs
  | _ => trivial

/-! ## Which sections are steady -/

/-- A section that drops marks at most, whatever it does to the claims. -/
theorem steady_of_refilled (filling : AList (fun _ : Nat => Nat)) {c : Cached Nat δ}
    {io : List (Io Nat)} (h : Cached.Narrowed { s.c with filling := filling } c)
    (hio : ∀ o ∈ io, o.soft = true) : Steady P s (s.commit c io) := by
  rw [commit_soft s hio h.keeps.cacheFd]
  exact {
    size_le := h.size.ge
    get := h.get
    len := fun _ i _ _ => by rw [h.size]
    nbits := fun hn => h.nbits ▸ hn
    cells := fun _ o _ => by
      rw [dataFile_congr s { s with c := c } h.keeps.cacheFd rfl rfl]
    cuts := rfl
    onward := onward_of_eq rfl rfl
    fd := fun fd hfd => h.keeps.cacheFd ▸ hfd
    writes := h.writes.ge
    dead := fun hd => h.keeps.dead ▸ hd }

theorem steady_of_narrowed {c : Cached Nat δ} {io : List (Io Nat)} (h : Cached.Narrowed s.c c)
    (hio : ∀ o ∈ io, o.soft = true) : Steady P s (s.commit c io) :=
  steady_of_refilled s.c.filling h hio

theorem steady_of_grown {n : Nat} {c : Cached Nat δ} {io : List (Io Nat)}
    (h : Cached.Grown P.pieceSize s.c c n) (hio : ∀ o ∈ io, o.soft = true) :
    Steady P s (s.commit c io) := by
  rw [commit_soft s hio h.keeps.cacheFd]
  exact {
    size_le := h.size_le
    get := h.get
    len := h.len
    nbits := fun hn => h.nbits.trans (by omega)
    cells := fun _ o _ => by
      rw [dataFile_congr s { s with c := c } h.keeps.cacheFd rfl rfl]
    cuts := rfl
    onward := onward_of_eq rfl rfl
    fd := fun fd hfd => h.keeps.cacheFd ▸ hfd
    writes := h.writes.ge
    dead := fun hd => h.keeps.dead ▸ hd }

theorem steady_open (ok : Bool) : Steady P s (s.commit (s.c.openCacheUnlocked (s.opened ok)).1
    (s.c.openCacheUnlocked (s.opened ok)).2) := by
  have hcells := fun o (ho : o < s.c.size) => cell_commit_open s ok ho
  rcases s.c.openCacheUnlocked_cases (s.opened ok) with h | ⟨hnone, fd, -, h⟩ <;> rw [h] at hcells ⊢
  · exact steady_of_narrowed (Cached.Alike.refl s.c).narrowed (by simp)
  · exact {
      size_le := by rw [commit_c]
      get := fun i hi => by rwa [commit_c] at hi
      len := fun _ i _ _ => by rw [commit_c]
      nbits := fun hn => by rwa [commit_c]
      cells := fun _ o ho => hcells o ho
      cuts := commit_cuts ..
      onward := onward_commit ..
      fd := fun fd' hfd' => absurd (hnone.symm.trans hfd') (by simp)
      writes := by rw [commit_c]
      dead := fun hd => by rwa [commit_c] at hd }

/-- A wipe that leaves the size where it is. -/
theorem steady_of_wiped {c : Cached Nat δ} {io : List (Io Nat)} (h : Cached.Wiped s.c c s.c.size)
    (hio : ∀ o ∈ io, o.soft = true) : Steady P s (s.commit c io) := by
  rw [commit_soft s hio h.keeps.cacheFd]
  exact {
    size_le := h.size.ge
    get := fun i hi => by
      have hclear : c.bits.get i = true := hi
      rw [h.get] at hclear
      exact Bool.noConfusion hclear
    len := fun _ i _ _ => by rw [h.size]
    nbits := fun hn => h.nbits.trans (by omega)
    cells := fun _ o _ => by
      rw [dataFile_congr s { s with c := c } h.keeps.cacheFd rfl rfl]
    cuts := rfl
    onward := onward_of_eq rfl rfl
    fd := fun fd hfd => h.keeps.cacheFd ▸ hfd
    writes := by rw [h.writes]; omega
    dead := fun hd => h.keeps.dead ▸ hd }

theorem steady_forget : Steady P s (s.commit s.c.forget.1 s.c.forget.2) where
  size_le := by rw [commit_c]; exact le_rfl
  get i hi := by
    rw [commit_c] at hi
    have hclear : s.c.bits.wipe.get i = true := hi
    rw [Bitfield.get_wipe] at hclear
    exact Bool.noConfusion hclear
  len _ i _ _ := by rw [commit_c]; rfl
  nbits hn := by rw [commit_c]; exact hn
  cells hd := by
    rw [commit_c] at hd
    exact Bool.noConfusion hd
  cuts := commit_cuts ..
  onward := onward_commit ..
  fd fd hfd := by rw [commit_c]; exact hfd
  writes := by rw [commit_c]; exact le_rfl
  dead hd := by
    rw [commit_c] at hd
    exact Bool.noConfusion hd

theorem Steady.dead_of_keeps (h : Steady P s s') (hinv : Inv P s)
    (hkeep : s'.c.dead = s.c.dead) : s'.c.dead = true → ∀ i, s'.c.bits.get i = false := by
  intro hd i
  rw [← Bool.not_eq_true]
  intro hi
  have hold := h.get i hi
  rw [hinv.dead (hkeep ▸ hd)] at hold
  exact Bool.noConfusion hold

theorem Steady.refl (s : World τ β δ) : Steady P s s :=
  ⟨le_rfl, fun _ hi => hi, fun _ _ _ _ => rfl, id, fun _ _ _ => rfl, rfl, onward_of_eq rfl rfl,
    fun _ hfd => hfd, le_rfl, id⟩

theorem Steady.trans {s'' : World τ β δ} (h : Steady P s s') (h' : Steady P s' s'') :
    Steady P s s'' where
  size_le := h.size_le.trans h'.size_le
  get i hi := h.get i (h'.get i hi)
  len hn i hi hpos := by
    have hmid := h.len hn i (h'.get i hi) hpos
    rw [h'.len (h.nbits hn) i hi (hmid ▸ hpos), hmid]
  nbits hn := h'.nbits (h.nbits hn)
  cells hd o ho := by rw [h'.cells hd o (ho.trans_le h.size_le), h.cells (h'.dead hd) o ho]
  cuts := h'.cuts.trans h.cuts
  onward := h.onward.trans (h'.onward.mono h.size_le)
  fd fd hfd := h'.fd fd (h.fd fd hfd)
  writes := h.writes.trans h'.writes
  dead hd := h.dead (h'.dead hd)

/-- Cutting the data file to the size the entry has. -/
theorem steady_of_cutsTo {io : List (Io Nat)} (hio : Cached.CutsTo s.c io s.c.size) :
    Steady P s (s.commit s.c io) where
  size_le := by rw [commit_c]
  get i hi := by rwa [commit_c] at hi
  len _ i _ _ := by rw [commit_c]
  nbits hn := by rwa [commit_c]
  cells _ o ho := by
    rcases dataFile_commit_cutsTo s (c := s.c) hio rfl with h | h
    · rw [h]
    · rw [h, SparseFile.cell_ftruncate_of_lt _ ho]
  cuts := commit_cuts ..
  onward := onward_commit ..
  fd fd hfd := by rwa [commit_c]
  writes := by rw [commit_c]
  dead hd := by rwa [commit_c] at hd

/-! ## Moving one thread -/

@[simp] theorem act_setAct_self [DecidableEq τ] (s : World τ β δ) (t : τ) (a : Act β) :
    (s.setAct t a).act t = a := by
  simp [World.act, setAct]

theorem act_setAct_of_ne [DecidableEq τ] (s : World τ β δ) {t u : τ} (a : Act β) (h : u ≠ t) :
    (s.setAct t a).act u = s.act u := by
  simp [World.act, setAct, h]

@[simp] theorem act_setRole [DecidableEq τ] (s : World τ β δ) (t u : τ) (r : Role) :
    (s.setRole t r).act u = s.act u := by
  by_cases h : u = t
  · subst h
    simp [World.act, setRole]
  · simp [World.act, setRole, h]

@[simp] theorem act_commit (s : World τ β δ) (c : Cached Nat δ) (io : List (Io Nat)) (u : τ) :
    (s.commit c io).act u = s.act u := by
  unfold World.act
  rw [commit_thread]

/-- The owner of `content_mu` is the only one. -/
theorem Inv.alone (h : Inv P s) (ht : (s.act t).holdsMu = true) {u : τ} (hu : u ≠ t) :
    (s.act u).holdsMu = false := by
  rw [← Bool.not_eq_true]
  intro hheld
  exact hu (Option.some.inj ((h.owner u hheld).symm.trans (h.owner t ht)))

theorem Inv.unheld (h : Inv P s) (hfree : s.contentMu = none) (u : τ) :
    (s.act u).holdsMu = false := by
  rw [← Bool.not_eq_true]
  intro hheld
  exact absurd ((h.owner u hheld).symm.trans hfree) (by simp)

/-- A steady section that moves `t` within the lock and the claim it has. -/
theorem Inv.of_steady [DecidableEq τ] (h : Inv P s) (hs : Steady P s s')
    (hdead : s'.c.dead = true → ∀ i, s'.c.bits.get i = false)
    (hfilling : s'.c.filling = s.c.filling) (hmu : s'.contentMu = s.contentMu)
    (hothers : ∀ u, u ≠ t → s'.act u = s.act u) (hself : ActOk P s' (s'.act t))
    (hheld : (s'.act t).holdsMu = true → (s.act t).holdsMu = true)
    (hclaim : ∀ idx, (s'.act t).claim = some idx → (s.act t).claim = some idx) : Inv P s' :=
  h.of_step (hs.nbits h.nbits) hdead (hs.sound h hdead) (hs.onward.truncAt_le h.truncAt) hothers
    (fun u _ => hs.actOk (fun _ _ => by rw [hfilling]) (h.act u)) hself
    (fun u _ hu => hmu ▸ h.owner u hu) (fun ht => hmu ▸ h.owner t (hheld ht))
    (fun idx ht u hu hclaimed => hu (h.claims u t idx hclaimed (hclaim idx ht)))

/-- A steady section that moves no act. -/
theorem Inv.of_still (h : Inv P s) (hs : Steady P s s')
    (hdead : s'.c.dead = true → ∀ i, s'.c.bits.get i = false)
    (hfilling : s'.c.filling = s.c.filling) (hmu : s'.contentMu = s.contentMu)
    (hact : ∀ u, s'.act u = s.act u) : Inv P s' where
  nbits := hs.nbits h.nbits
  dead := hdead
  sound := hs.sound h hdead
  truncAt := hs.onward.truncAt_le h.truncAt
  act u := by
    rw [hact]
    exact hs.actOk (fun _ _ => by rw [hfilling]) (h.act u)
  owner u hu := hmu ▸ h.owner u (hact u ▸ hu)
  claims u v idx hu hv := h.claims u v idx (hact u ▸ hu) (hact v ▸ hv)

/-- An act outside of `content_mu` asks for its claim, its size and its truncate alone. -/
theorem ActOk.of_unheld {a : Act β} (ha : ActOk P s a) (hheld : a.holdsMu = false)
    (hclaim : ∀ idx len born, a.claim = some idx → ClaimOk P s idx len born →
      ClaimOk P s' idx len born)
    (hsize : ∀ off len born, SizeOk s off len born → SizeOk s' off len born)
    (htruncs : s.truncs ≤ s'.truncs) : ActOk P s' a := by
  cases a with
  | claimed idx len born => exact ⟨hclaim idx len born rfl ha.1, ha.2⟩
  | truncated size serial => exact ha.trans htruncs
  | sized off data born => exact hsize off data.length born ha
  | landing => exact absurd hheld (by simp [Act.holdsMu])
  | landFd => exact absurd hheld (by simp [Act.holdsMu])
  | landed => exact absurd hheld (by simp [Act.holdsMu])
  | copying => exact absurd hheld (by simp [Act.holdsMu])
  | copyFd => exact absurd hheld (by simp [Act.holdsMu])
  | copied => exact absurd hheld (by simp [Act.holdsMu])
  | _ => trivial

/-- The claim of an act is recorded. -/
theorem ActOk.recorded {a : Act β} {idx : Nat} (ha : ActOk P s a) (hclaim : a.claim = some idx) :
    ∃ gen, s.c.filling.lookup idx = some gen := by
  cases a with
  | claimed _ _ _ => cases hclaim; exact ⟨_, ha.1.choose_spec.1⟩
  | landing _ _ _ => cases hclaim; exact ⟨_, ha.1.choose_spec.1⟩
  | landFd _ _ _ _ => cases hclaim; exact ⟨_, ha.1.1.choose_spec.1⟩
  | landed _ _ _ _ => cases hclaim; exact ⟨_, ha.1.1.choose_spec.1⟩
  | _ => exact absurd hclaim (by simp [Act.claim])

/-- A cut with `content_mu` free: no mark is left, and every claim and every size step from
before it is stale. -/
theorem Inv.of_cut [DecidableEq τ] (h : Inv P s) (hfree : s.contentMu = none) {n : Nat}
    (hwiped : Cached.Wiped s.c s'.c n) (hcuts : s'.cuts = s.cuts + 1) (honward : Onward 0 s s')
    (hothers : ∀ u, u ≠ t → s'.act u = s.act u) (hself : ActOk P s' (s'.act t))
    (hheld : (s'.act t).holdsMu = false) (hclaim : (s'.act t).claim = none) : Inv P s' := by
  have hclaimOk : ∀ idx len born, ClaimOk P s idx len born → ClaimOk P s' idx len born := by
    rintro idx len born ⟨gen, hlook, hle, -⟩
    have hwrites := hwiped.writes
    exact ⟨gen, hwiped.keeps.filling ▸ hlook, by omega, fun hcur => by omega⟩
  have hsizeOk : ∀ off len born, SizeOk s off len born → SizeOk s' off len born := by
    rintro off len born ⟨hle, -⟩
    exact ⟨by omega, fun hcur => by omega⟩
  refine h.of_step (hwiped.nbits.trans (max_le h.nbits le_rfl)) (fun _ => hwiped.get)
    (fun i hi => ?_) (honward.truncAt_le h.truncAt) hothers
    (fun u _ => (h.act u).of_unheld (h.unheld hfree u) (fun idx len born _ => hclaimOk idx len born)
      hsizeOk honward.truncs)
    hself (fun u _ hu => ?_) (fun ht => ?_) (fun idx ht => ?_)
  · rw [hwiped.get] at hi
    exact Bool.noConfusion hi
  · rw [h.unheld hfree u] at hu
    exact Bool.noConfusion hu
  · rw [hheld] at ht
    exact Bool.noConfusion ht
  · exact absurd (hclaim.symm.trans ht) (by simp)

/-- A step of a request: no field the invariant reads changes. -/
theorem Inv.of_alike (h : Inv P s) (x : Nat) (hc : Cached.Alike { s.c with xfer := x } s'.c)
    (hinode : s'.inode = s.inode) (hpath : s'.path = s.path) (hcuts : s'.cuts = s.cuts)
    (honward : Onward s.c.size s s') (hmu : s'.contentMu = s.contentMu)
    (hact : ∀ u, s'.act u = s.act u) : Inv P s' := by
  have hs : Steady P s s' := {
    size_le := hc.size.ge
    get := fun i hi => hc.bits ▸ hi
    len := fun _ i _ _ => by rw [hc.size]
    nbits := fun hn => by rw [hc.bits]; exact hn
    cells := fun _ o _ => by rw [dataFile_congr s s' hc.cacheFd hinode hpath]
    cuts := hcuts
    onward := honward
    fd := fun fd hfd => hc.cacheFd.trans hfd
    writes := hc.writes.ge
    dead := fun hd => hc.dead.symm.trans hd }
  exact h.of_still hs (hs.dead_of_keeps h hc.dead) hc.filling hmu hact

theorem inv_open (h : Inv P s) (ok : Bool) :
    Inv P (s.commit (s.c.openCacheUnlocked (s.opened ok)).1
      (s.c.openCacheUnlocked (s.opened ok)).2) := by
  have halike := s.c.openCacheUnlocked_alike (s.opened ok)
  have hs := steady_open (P := P) (s := s) ok
  refine h.of_still hs (hs.dead_of_keeps h ?_) ?_ (commit_contentMu ..) fun u => act_commit ..
  · rw [commit_c]
    exact halike.dead
  · rw [commit_c]
    exact halike.filling

theorem commit_open_filling (s : World τ β δ) (ok : Bool) (idx : Nat) :
    (s.commit (s.c.openCacheUnlocked (s.opened ok)).1
      (s.c.openCacheUnlocked (s.opened ok)).2).c.filling.lookup idx = s.c.filling.lookup idx := by
  rw [commit_c, (s.c.openCacheUnlocked_alike (s.opened ok)).filling]

variable [DecidableEq τ]

/-- The owner of a claim or of `content_mu` opens the data file. -/
theorem inv_openAct (h : Inv P s) (ok : Bool) {a : Act β}
    (ha : ActOk P (s.commit (s.c.openCacheUnlocked (s.opened ok)).1
      (s.c.openCacheUnlocked (s.opened ok)).2) a)
    (hheld : a.holdsMu = true → (s.act t).holdsMu = true)
    (hclaim : ∀ idx, a.claim = some idx → (s.act t).claim = some idx) :
    Inv P ((s.commit (s.c.openCacheUnlocked (s.opened ok)).1
      (s.c.openCacheUnlocked (s.opened ok)).2).setAct t a) := by
  have halike := s.c.openCacheUnlocked_alike (s.opened ok)
  have hs := steady_open (P := P) (s := s) ok
  generalize s.c.openCacheUnlocked (s.opened ok) = o at halike hs ha ⊢
  have hself : ((s.commit o.1 o.2).setAct t a).act t = a := act_setAct_self ..
  have hs' : Steady P s ((s.commit o.1 o.2).setAct t a) := hs.congr rfl rfl rfl rfl rfl
  refine h.of_steady (t := t) hs' (hs'.dead_of_keeps h ?_) ?_ (commit_contentMu ..)
    (fun u hu => (act_setAct_of_ne _ _ hu).trans (act_commit ..)) ?_ (hself.symm ▸ hheld)
    (hself.symm ▸ hclaim)
  · exact (congrArg Cached.dead (commit_c ..)).trans halike.dead
  · exact (congrArg Cached.filling (commit_c ..)).trans halike.filling
  · rw [hself]
    cases a <;> exact ha

theorem Inv.setRole (h : Inv P s) (r : Role) : Inv P (s.setRole t r) :=
  h.of_alike s.c.xfer (Cached.Alike.refl s.c) rfl rfl rfl (onward_of_eq rfl rfl) rfl
    fun _ => act_setRole ..

/-! ## Fills -/

/-- A pass of the claim loop. -/
theorem inv_beginFill (h : Inv P s) (hact : s.act t = .resting) (idx : Nat) (now : Int) :
    Inv P ((s.commit (s.c.beginFill P.pieceSize idx now).1 []).setAct t
      (claimAct β idx s.epoch (s.c.beginFill P.pieceSize idx now).2)) := by
  rcases s.c.beginFill_cases P.pieceSize idx now with ⟨hnone, halike⟩ | ⟨-, -, hfree, hpos, heq⟩
  · have hrest : claimAct β idx s.epoch (s.c.beginFill P.pieceSize idx now).2 = .resting := by
      cases hres : (s.c.beginFill P.pieceSize idx now).2 with
      | none => rfl
      | some r =>
        cases r with
        | len n => exact absurd hres (hnone n)
        | _ => rfl
    rw [hrest]
    have hs : Steady P s (s.commit (s.c.beginFill P.pieceSize idx now).1 []) :=
      steady_of_narrowed halike.narrowed (by simp)
    refine h.of_still (hs.congr rfl rfl rfl rfl rfl) (hs.dead_of_keeps h ?_) ?_
      (commit_contentMu ..)
      fun u => ?_
    · rw [commit_c]
      exact halike.dead
    · exact (congrArg Cached.filling (commit_c ..)).trans halike.filling
    · by_cases hu : u = t
      · rw [hu, act_setAct_self, hact]
      · rw [act_setAct_of_ne _ _ hu, act_commit]
  · rw [heq]
    -- nobody has a claim on `idx`: a claim of another thread is recorded
    have hnobody : ∀ u, (s.act u).claim ≠ some idx := by
      intro u hu
      obtain ⟨gen, hgen⟩ := (h.act u).recorded hu
      rw [AList.lookup_eq_none.mpr hfree] at hgen
      exact absurd hgen (by simp)
    let c₁ : Cached Nat δ :=
      { s.c with filling := s.c.filling.insert idx s.c.writes, lastAccess := now }
    let s₁ : World τ β δ := { s with c := c₁ }.setAct t
      (.claimed idx (len s.c.size idx P.pieceSize) s.epoch)
    have hcommit : s.commit c₁ [] = { s with c := c₁ } := commit_soft s (by simp) rfl
    have hs₁ : Steady P s s₁ := by
      have hs : Steady P s (s.commit c₁ []) := steady_of_refilled c₁.filling
        (Cached.Alike.narrowed ⟨rfl, rfl, rfl, rfl, rfl, rfl, rfl⟩) (by simp)
      rw [hcommit] at hs
      exact hs.congr rfl rfl rfl rfl rfl
    have hself : s₁.act t = .claimed idx (len s.c.size idx P.pieceSize) s.epoch :=
      act_setAct_self ..
    have hdead := hs₁.dead_of_keeps h rfl
    show Inv P ((s.commit c₁ []).setAct t (.claimed idx (len s.c.size idx P.pieceSize) s.epoch))
    rw [hcommit]
    refine h.of_step (t := t) (hs₁.nbits h.nbits) hdead (hs₁.sound h hdead)
      (hs₁.onward.truncAt_le h.truncAt) (fun u hu => act_setAct_of_ne _ _ hu) (fun u _ => ?_) ?_
      (fun u _ hu => h.owner u hu) (fun ht => ?_) (fun idx' ht u _ => ?_)
    · refine hs₁.actOk (fun idx' hclaim => ?_) (h.act u)
      have hne : idx' ≠ idx := fun heq' => hnobody u (heq' ▸ hclaim)
      exact AList.lookup_insert_ne hne
    · show ActOk P s₁ (s₁.act t)
      rw [hself]
      refine ⟨⟨s.c.writes, AList.lookup_insert _, le_rfl, fun _ => ⟨rfl, ?_, fun o _ _ => ?_⟩⟩,
        hpos,
        len_le ..⟩
      · exact offset_add_len_le ((len_pos_iff P.pieceSize_pos).mp hpos)
      · exact h.truncAt o
    · have hheld : (s₁.act t).holdsMu = true := ht
      rw [hself] at hheld
      exact Bool.noConfusion hheld
    · have hclaim : (s₁.act t).claim = some idx' := ht
      rw [hself] at hclaim
      cases hclaim
      exact hnobody u

/-- A claim is dropped with no mark set. -/
theorem inv_dropped (h : Inv P s) (idx : Nat) (hclaim : (s.act t).claim = some idx)
    {c : Cached Nat δ} {io : List (Io Nat)}
    (hc : Cached.Narrowed (s.c.dropClaim idx) c) (hio : ∀ o ∈ io, o.soft = true) {a : Act β}
    (ha : ActOk P ((s.commit c io).setAct t a) a) (hnone : a.claim = none)
    (hplain : a.holdsMu = false) : Inv P ((s.commit c io).setAct t a) := by
  have hs : Steady P s (s.commit c io) := steady_of_refilled (s.c.filling.erase idx) hc hio
  have hs' : Steady P s ((s.commit c io).setAct t a) := hs.congr rfl rfl rfl rfl rfl
  have hdead := hs'.dead_of_keeps h ((congrArg Cached.dead (commit_c ..)).trans hc.keeps.dead)
  refine h.of_step (t := t) (hs'.nbits h.nbits) hdead (hs'.sound h hdead)
    (hs'.onward.truncAt_le h.truncAt)
    (fun u hu => (act_setAct_of_ne _ _ hu).trans (act_commit ..)) (fun u hu => ?_)
    ((act_setAct_self (s.commit c io) t a).symm ▸ ha)
    (fun u _ hu => (commit_contentMu ..).trans (h.owner u hu)) (fun ht => ?_) (fun idx' ht => ?_)
  · refine hs'.actOk (fun idx' hclaim' => ?_) (h.act u)
    have hne : idx' ≠ idx := fun heq => hu (h.claims u t idx (heq ▸ hclaim') hclaim)
    have hfilling : ((s.commit c io).setAct t a).c.filling = s.c.filling.erase idx :=
      (congrArg Cached.filling (commit_c ..)).trans hc.keeps.filling
    rw [hfilling, AList.lookup_erase_ne hne]
  · rw [act_setAct_self, hplain] at ht
    exact Bool.noConfusion ht
  · rw [act_setAct_self, hnone] at ht
    exact absurd ht (by simp)

theorem inv_abortFill (h : Inv P s) {idx len : Nat} {born : Stamp}
    (hact : s.act t = .claimed idx len born)
    (now : Int) : Inv P ((s.commit (s.c.abortFill P.pieceSize idx now).1
      (s.c.abortFill P.pieceSize idx now).2).setAct t .refused) := by
  obtain ⟨hsize, hwrites, hnbits, hkeeps, hsoft⟩ :=
    s.c.finishPiece_keeps P.pieceSize idx false 0 none now
  refine inv_dropped h idx (by rw [hact]; rfl)
    ⟨hsize, hwrites, hkeeps, hnbits, fun i hi => ?_⟩ hsoft trivial rfl rfl
  rcases Cached.get_finishPiece hi with hold | ⟨-, hok, -⟩
  · exact hold
  · exact Bool.noConfusion hok

/-- `completeFill` past its check. -/
theorem inv_completeStart (h : Inv P s) {idx len : Nat} {born : Stamp} {buf : List β}
    (hact : s.act t = .claimed idx len born) (hlen : buf.length = len)
    (hfree : s.contentMu = none) (hskip : s.c.fillSkips P.pieceSize idx len = false) :
    Inv P ((s.lock t).setAct t (.landing idx buf born)) := by
  have hclaimed := h.act t
  rw [hact] at hclaimed
  obtain ⟨-, hbit, -, hfit⟩ := Cached.fillSkips_eq_false hskip
  have hs : Steady P s ((s.lock t).setAct t (.landing idx buf born)) :=
    (Steady.refl s).congr rfl rfl rfl rfl rfl
  have hself : ((s.lock t).setAct t (.landing idx buf born)).act t = .landing idx buf born :=
    act_setAct_self ..
  refine h.of_step (t := t) (hs.nbits h.nbits) (hs.dead_of_keeps h rfl)
    (hs.sound h (hs.dead_of_keeps h rfl)) h.truncAt (fun u hu => act_setAct_of_ne _ _ hu)
    (fun u _ => hs.actOk (fun _ _ => rfl) (h.act u)) ?_ (fun u _ hu => ?_) (fun _ => rfl)
    (fun idx' ht u hu hclaim => ?_)
  · rw [hself]
    have hpos : 0 < Piece.len s.c.size idx P.pieceSize := hfit ▸ hclaimed.2.1
    refine ⟨hlen.symm ▸ hclaimed.1, hbit, hlen ▸ hclaimed.2.1, hlen ▸ hclaimed.2.2, ?_⟩
    have hend := offset_add_len_le ((len_pos_iff P.pieceSize_pos).mp hpos)
    rw [hlen, ← hfit]
    exact hend
  · rw [h.unheld hfree u] at hu
    exact Bool.noConfusion hu
  · rw [hself] at ht
    refine hu (h.claims u t idx' hclaim ?_)
    rw [hact]
    exact ht

/-! ## Bytes and marks -/

section Land

variable {fd off : Nat} {born : Stamp} {bytes : List β}

omit [DecidableEq τ] in
theorem dataFile_land (hfd : s.c.cacheFd = some fd) :
    (s.land fd off bytes born).dataFile = s.dataFile.pwrite off (bytes.map (⟨·, born⟩)) := by
  rw [dataFile_of_fd s hfd, dataFile_of_fd (s.land fd off bytes born) hfd]
  exact Function.update_self ..

omit [DecidableEq τ] in
theorem cell_land_of_out (hfd : s.c.cacheFd = some fd) {o : Nat}
    (ho : o < off ∨ off + bytes.length ≤ o) :
    (s.land fd off bytes born).dataFile.cell o = s.dataFile.cell o := by
  rw [dataFile_land hfd]
  rcases ho with hlo | hhi
  · exact SparseFile.cell_pwrite_of_lt _ _ hlo
  · exact SparseFile.cell_pwrite_of_ge _ _ (by rwa [List.length_map])

omit [DecidableEq τ] in
theorem cellsBorn_land (hfd : s.c.cacheFd = some fd) :
    CellsBorn (s.land fd off bytes born) off bytes.length born := by
  intro o hlo hhi
  rw [dataFile_land hfd]
  obtain ⟨a, ha, hcell⟩ :=
    s.dataFile.cell_pwrite_of_mem (bytes.map fun b => (⟨b, born⟩ : Cell β)) hlo
    (by rwa [List.length_map])
  obtain ⟨b, -, rfl⟩ := List.mem_map.mp ha
  exact ⟨_, hcell, rfl⟩

/-- Two pieces share no byte. -/
theorem offset_add_le_of_lt (ps : Nat) {i j : Nat} (h : i < j) :
    offset i ps + ps ≤ offset j ps := by
  unfold offset
  have hle := Nat.mul_le_mul_right ps h
  rw [Nat.succ_mul] at hle
  exact hle

omit [DecidableEq τ] in
/-- Bytes landed in an unmarked piece are in no marked one. -/
theorem marksSound_land_fill (h : MarksSound P s) (hfd : s.c.cacheFd = some fd) {idx : Nat}
    (hbit : s.c.bits.get idx = false) (hle : bytes.length ≤ P.pieceSize) :
    MarksSound P (s.land fd (offset idx P.pieceSize) bytes born) := by
  intro i hi
  obtain ⟨hpos, hcells⟩ := h i hi
  refine ⟨hpos, fun o hlo hhi => ?_⟩
  have hlen := len_le s.c.size i P.pieceSize
  have hhi' : o < offset i P.pieceSize + len s.c.size i P.pieceSize := hhi
  have hout : o < offset idx P.pieceSize ∨ offset idx P.pieceSize + bytes.length ≤ o := by
    rcases Nat.lt_trichotomy i idx with hlt | heq | hgt
    · have := offset_add_le_of_lt P.pieceSize hlt
      exact Or.inl (by omega)
    · rw [← heq, show s.c.bits.get i = true from hi] at hbit
      exact Bool.noConfusion hbit
    · have := offset_add_le_of_lt P.pieceSize hgt
      exact Or.inr (by omega)
  rw [cell_land_of_out hfd hout]
  exact hcells o hlo hhi

omit [DecidableEq τ] in
/-- Bytes landed since the last cut, and after the truncates that took them, do for every
piece. -/
theorem marksSound_land_copy (h : MarksSound P s) (hfd : s.c.cacheFd = some fd)
    (hborn : born.cuts = s.cuts) {len : Nat} (hlen : bytes.length ≤ len)
    (hkept : Untruncated s off len born.truncs) : MarksSound P (s.land fd off bytes born) := by
  intro i hi
  obtain ⟨hpos, hcells⟩ := h i hi
  refine ⟨hpos, fun o hlo hhi => ?_⟩
  by_cases ho : o < off ∨ off + bytes.length ≤ o
  · rw [cell_land_of_out hfd ho]
    exact hcells o hlo hhi
  · have hnew : CellsBorn (s.land fd off bytes born) off bytes.length born := cellsBorn_land hfd
    obtain ⟨a, hcell, ha⟩ := hnew o (by omega) (by omega)
    rw [← ha] at hborn hkept
    exact ⟨a, hcell, hborn, hkept o (by omega) (by omega)⟩

end Land

/-- A write to the data file by the owner of `content_mu` keeps the invariant, given the marks
and the owner's next act. -/
theorem inv_land (h : Inv P s) (hheld : (s.act t).holdsMu = true) {fd off : Nat} {born : Stamp}
    {bytes : List β} (hsound : MarksSound P (s.land fd off bytes born)) {a : Act β}
    (ha : ActOk P ((s.land fd off bytes born).setAct t a) a) (hclaim : a.claim = (s.act t).claim) :
    Inv P ((s.land fd off bytes born).setAct t a) := by
  have hself : ((s.land fd off bytes born).setAct t a).act t = a := act_setAct_self ..
  refine h.of_step (t := t) h.nbits h.dead hsound h.truncAt (fun u hu => act_setAct_of_ne _ _ hu)
    (fun u hu => (h.act u).of_unheld (h.alone hheld hu) (fun _ _ _ _ hok => hok)
      (fun _ _ _ hok => hok) le_rfl)
    (hself.symm ▸ ha) (fun u _ hu => h.owner u hu) (fun _ => h.owner t hheld)
    (fun idx ht u hu hu' => hu (h.claims u t idx hu' ?_))
  rwa [hself, hclaim] at ht

theorem inv_landWrite (h : Inv P s) {idx fd : Nat} {born : Stamp} {buf : List β} {k : Nat}
    (hact : s.act t = .landFd idx buf born fd) :
    Inv P ((s.land fd (offset idx P.pieceSize) (buf.take k) born).setAct t
      (.landed idx buf.length (k = buf.length) born)) := by
  have hok := h.act t
  rw [hact] at hok
  obtain ⟨hfill, hfd⟩ := hok
  have hlen : (buf.take k).length ≤ P.pieceSize := by
    rw [List.length_take]
    exact (min_le_right ..).trans hfill.2.2.2.1
  refine inv_land h (by rw [hact]; rfl)
    (marksSound_land_fill h.sound hfd hfill.2.1 hlen) ⟨hfill, fun hfull _ => ?_⟩ (by rw [hact]; rfl)
  have hborn : CellsBorn (s.land fd (offset idx P.pieceSize) (buf.take k) born) _ _ born :=
    cellsBorn_land hfd
  rw [of_decide_eq_true hfull, List.take_length] at hborn ⊢
  exact hborn

/-- What a write-through's bytes may do to the marks: no cut came since its size step, and no
truncate of the origin after its origin write has taken them; or they touch no marked piece and
fill none. -/
def CopyFits (P : Params β δ) (s : World τ β δ) (off len : Nat) (born : Stamp) : Prop :=
  born.cuts = s.cuts ∧ Untruncated s off len born.truncs ∨
    (∀ i, (fullCover ⟨off, len⟩ P.pieceSize).start ≤ i →
      (fullCover ⟨off, len⟩ P.pieceSize).stop ≤ i) ∧
    ∀ i, s.c.bits.get i = true →
      offset i P.pieceSize + Piece.len s.c.size i P.pieceSize ≤ off ∨
        off + len ≤ offset i P.pieceSize

omit [DecidableEq τ] in
theorem marksSound_copyWrite (h : MarksSound P s) {off len fd : Nat} {born : Stamp} {bytes : List β}
    (hfd : s.c.cacheFd = some fd) (hfits : CopyFits P s off len born) (hlen : bytes.length ≤ len) :
    MarksSound P (s.land fd off bytes born) := by
  rcases hfits with ⟨hborn, hkept⟩ | ⟨-, hapart⟩
  · exact marksSound_land_copy h hfd hborn hlen hkept
  · intro i hi
    obtain ⟨hpos, hcells⟩ := h i hi
    refine ⟨hpos, fun o hlo hhi => ?_⟩
    have hhi' : o < offset i P.pieceSize + Piece.len s.c.size i P.pieceSize := hhi
    rw [cell_land_of_out hfd (by rcases hapart i hi with h | h <;> omega)]
    exact hcells o hlo hhi

theorem inv_copyWrite (h : Inv P s) {off fd : Nat} {born : Stamp} {data : List β} {k : Nat}
    (hact : s.act t = .copyFd off data born fd)
    (hfits : s.c.dead = false → CopyFits P s off data.length born) :
    Inv P ((s.land fd off (data.take k) born).setAct t (.copied off data (k = data.length))) := by
  have hok := h.act t
  rw [hact] at hok
  obtain ⟨hsize, hfd⟩ := hok
  refine inv_land h (by rw [hact]; rfl) ?_ (fun hfull hlive i hlo hhi => ?_) (by rw [hact]; rfl)
  · cases hd : s.c.dead with
    | false => exact marksSound_copyWrite h.sound hfd (hfits hd) (by simp)
    | true =>
      intro i hi
      have hold : s.c.bits.get i = true := hi
      rw [h.dead hd] at hold
      exact Bool.noConfusion hold
  · rcases hfits hlive with ⟨hborn, hkept⟩ | ⟨hnone, -⟩
    · have hcells : CellsBorn (s.land fd off (data.take k) born) _ _ born := cellsBorn_land hfd
      rw [of_decide_eq_true hfull, List.take_length] at hcells ⊢
      obtain ⟨hstart, hstop⟩ := span_of_mem_fullCover P.pieceSize_pos hlo hhi
      have hsat : satAdd off data.length ≤ off + data.length := min_le_left ..
      have hfit := hsize.2 hborn
      simp only at hstart hstop
      have hfit' : offset i P.pieceSize + P.pieceSize ≤ s.c.size := by omega
      refine ⟨hfit', fun o hlo' hhi' => ?_⟩
      obtain ⟨a, hcell, ha⟩ := hcells o (by omega) (by omega)
      rw [← ha] at hborn hkept
      exact ⟨a, hcell, hborn, hkept o (by omega) (by omega)⟩
    · have hle := hnone i hlo
      omega

/-- The owner of `content_mu` lets it go after a section that kept the file. -/
theorem inv_unlock (h : Inv P s) (hheld : (s.act t).holdsMu = true)
    (s₁ : World τ β δ) (hact : ∀ u, s₁.act u = s.act u)
    (honward : Onward 0 s s₁) (hnbits : s₁.c.bits.nbits ≤ maxU32)
    (hdead : s₁.c.dead = true → ∀ i, s₁.c.bits.get i = false)
    (hsound : MarksSound P s₁)
    (hclaim : ∀ u, u ≠ t → ∀ idx len born, (s.act u).claim = some idx → ClaimOk P s idx len born →
      ClaimOk P s₁ idx len born)
    (hsize : ∀ off len born, SizeOk s off len born → SizeOk s₁ off len born) {a : Act β}
    (ha : ActOk P (s₁.setAct t a) a) (hplain : a.holdsMu = false) (hnone : a.claim = none) :
    Inv P (s₁.setAct t a) := by
  have hself : (s₁.setAct t a).act t = a := act_setAct_self ..
  refine h.of_step (t := t) hnbits hdead hsound (honward.truncAt_le h.truncAt)
    (fun u hu => (act_setAct_of_ne _ _ hu).trans (hact u))
    (fun u hu => (h.act u).of_unheld (h.alone hheld hu) (hclaim u hu) hsize honward.truncs)
    (hself.symm ▸ ha)
    (fun u hu hu' => ?_) (fun ht => ?_) (fun idx ht => ?_)
  · rw [h.alone hheld hu] at hu'
    exact Bool.noConfusion hu'
  · rw [hself, hplain] at ht
    exact Bool.noConfusion ht
  · rw [hself, hnone] at ht
    exact absurd ht (by simp)

/-- The last section of a fill sets a mark its bytes carry. -/
theorem inv_finishFill (h : Inv P s) {idx len : Nat} {born : Stamp} {ok : Bool}
    (hash : Option δ) (now : Int) (hact : s.act t = .landed idx len ok born) :
    Inv P ((s.commit (s.c.finishPiece P.pieceSize idx ok len hash now).1
      (s.c.finishPiece P.pieceSize idx ok len hash now).2).unlock.setAct t
        (if ok then .resting else .refused)) := by
  have hown := h.act t
  rw [hact] at hown
  obtain ⟨⟨⟨gen, hgen, -, hcur⟩, -, hpos, -⟩, hcells⟩ := hown
  obtain ⟨hsize, hwrites, hnbits, hkeeps, hsoft⟩ :=
    s.c.finishPiece_keeps P.pieceSize idx ok len hash now
  have hget : ∀ i, (s.c.finishPiece P.pieceSize idx ok len hash now).1.bits.get i = true → _ :=
    fun i => Cached.get_finishPiece
  generalize s.c.finishPiece P.pieceSize idx ok len hash now = r
    at hsize hwrites hnbits hkeeps hsoft hget ⊢
  have hcommit : s.commit r.1 r.2 = { s with c := r.1 } := commit_soft s hsoft hkeeps.cacheFd
  have hfile : ({ s with c := r.1 } : World τ β δ).dataFile = s.dataFile :=
    dataFile_congr s { s with c := r.1 } hkeeps.cacheFd rfl rfl
  rw [hcommit]
  refine inv_unlock h (by rw [hact]; rfl) (World.unlock { s with c := r.1 }) (fun _ => rfl)
    (onward_of_eq rfl rfl) (hnbits.trans_le h.nbits) (fun hd i => ?_) (fun i hi => ?_)
    (fun u hu idx' len' born' hclaim hok => ?_) (fun _ _ _ hok => ?_)
    (by cases ok <;> trivial) (by cases ok <;> rfl) (by cases ok <;> rfl)
  · have hdead : s.c.dead = true := hkeeps.dead ▸ hd
    rw [← Bool.not_eq_true]
    intro hi
    rcases hget i hi with hold | ⟨-, -, hlive, -⟩
    · rw [h.dead hdead] at hold
      exact Bool.noConfusion hold
    · rw [hdead] at hlive
      exact Bool.noConfusion hlive
  · show 0 < Piece.len r.1.size i P.pieceSize ∧
      CellsFresh ({ s with c := r.1 } : World τ β δ) _ (Piece.len r.1.size i P.pieceSize)
    rw [hsize]
    unfold CellsFresh
    rw [hfile]
    rcases hget i hi with hold | ⟨rfl, hok, hlive, hstands⟩
    · exact h.sound i hold
    · obtain ⟨hlook, hlen⟩ := Cached.claimStands_iff.mp hstands
      obtain ⟨hborn, -, hkept⟩ := hcur (Option.some.inj (hgen.symm.trans hlook))
      refine ⟨hlen ▸ hpos, fun o hlo hhi => ?_⟩
      rw [hlen] at hhi
      obtain ⟨a, hcell, ha⟩ := hcells hok hlive o hlo hhi
      rw [← ha] at hborn hkept
      exact ⟨a, hcell, hborn, hkept o hlo hhi⟩
  · obtain ⟨gen', hgen', hle, hcur'⟩ := hok
    have hne : idx' ≠ idx := fun heq => hu (h.claims u t idx (heq ▸ hclaim) (by rw [hact]; rfl))
    refine ⟨gen', ?_, hwrites.symm ▸ hle, fun hnow => ?_⟩
    swap
    · obtain ⟨hborn, hfit, hkept⟩ := hcur' (hnow.trans hwrites)
      exact ⟨hborn, hsize.symm ▸ hfit, hkept⟩
    show r.1.filling.lookup idx' = some gen'
    rw [hkeeps.filling]
    exact (AList.lookup_erase_ne hne).trans hgen'
  · exact ⟨hok.1, fun hnow => hsize.symm ▸ hok.2 hnow⟩

/-! ## Write-throughs, resets and truncates -/

theorem inv_copyLock (h : Inv P s) {off : Nat} {born : Stamp} {data : List β}
    (hact : s.act t = .sized off data born) (hfree : s.contentMu = none) :
    Inv P ((s.lock t).setAct t
      (if s.c.xferBusy then .copied off data false else .copying off data born)) := by
  have hsized := h.act t
  rw [hact] at hsized
  set a : Act β := if s.c.xferBusy then .copied off data false else .copying off data born with ha
  have hs : Steady P s ((s.lock t).setAct t a) := (Steady.refl s).congr rfl rfl rfl rfl rfl
  have hself : ((s.lock t).setAct t a).act t = a := act_setAct_self ..
  refine h.of_step (t := t) (hs.nbits h.nbits) (hs.dead_of_keeps h rfl)
    (hs.sound h (hs.dead_of_keeps h rfl)) h.truncAt (fun u hu => act_setAct_of_ne _ _ hu)
    (fun u _ => hs.actOk (fun _ _ => rfl) (h.act u)) ?_ (fun u _ hu => ?_) (fun _ => rfl)
    (fun idx ht => ?_)
  · rw [hself, ha]
    split_ifs
    · exact fun hok => Bool.noConfusion hok
    · exact hsized
  · rw [h.unheld hfree u] at hu
    exact Bool.noConfusion hu
  · rw [hself, ha] at ht
    split_ifs at ht <;> exact absurd ht (by simp [Act.claim])

/-- The last section of a write-through marks pieces its bytes fill. -/
theorem inv_copyMark [DecidableEq δ] (h : Inv P s) {off : Nat} {data : List β} {ok : Bool}
    (hact : s.act t = .copied off data ok) (p : Nat → Bool) :
    Inv P (((s.commit (s.c.markCopy P.digest P.pieceSize off data ok).1
      (s.c.markCopy P.digest P.pieceSize off data ok).2.1).unlock.invalidate p).setAct t
        .resting) := by
  have hown := h.act t
  rw [hact] at hown
  have hcases := Cached.markCopy_cases P.digest P.pieceSize off data s.c ok
  generalize s.c.markCopy P.digest P.pieceSize off data ok = r at hcases ⊢
  rcases hcases with ⟨hc, hio⟩ | ⟨hlive, hsoft, hmarked⟩
  · rw [hc, hio, commit_soft s (by simp) rfl]
    exact inv_unlock h (by rw [hact]; rfl) ((World.unlock { s with c := s.c }).invalidate p)
      (fun _ => rfl) (onward_of_eq rfl rfl) h.nbits h.dead h.sound (fun _ _ _ _ _ _ hok => hok)
      (fun _ _ _ hok => hok) trivial rfl rfl
  · have hfile : ({ s with c := r.1 } : World τ β δ).dataFile = s.dataFile :=
      dataFile_congr s { s with c := r.1 } hmarked.keeps.cacheFd rfl rfl
    rw [commit_soft s hsoft hmarked.keeps.cacheFd]
    refine inv_unlock h (by rw [hact]; rfl) ((World.unlock { s with c := r.1 }).invalidate p)
      (fun _ => rfl) (onward_of_eq rfl rfl) (hmarked.nbits.trans_le h.nbits) (fun hd => ?_)
      (fun i hi => ?_) (fun u _ idx len born _ hok => ?_) (fun _ _ _ hok => ?_) trivial rfl rfl
    · have hdead : r.1.dead = true := hd
      rw [hmarked.keeps.dead, hlive] at hdead
      exact Bool.noConfusion hdead
    · show 0 < len r.1.size i P.pieceSize ∧
        CellsFresh ({ s with c := r.1 } : World τ β δ) _ (len r.1.size i P.pieceSize)
      rw [show r.1.size = s.c.size from hmarked.size]
      unfold CellsFresh
      rw [hfile]
      rcases hmarked.get i hi with ⟨hold, -⟩ | ⟨hok, hcov⟩
      · exact h.sound i hold
      · obtain ⟨hfit, hcells⟩ := hown hok hlive i hcov.1 hcov.2
        have hpos := P.pieceSize_pos
        have hle := len_le s.c.size i P.pieceSize
        exact ⟨(len_pos_iff hpos).mpr (by omega), fun o hlo hhi => hcells o hlo (by omega)⟩
    · obtain ⟨gen, hgen, hle, -⟩ := hok
      have hwrites : r.1.writes = s.c.writes + 1 := hmarked.writes
      refine ⟨gen, ?_, ?_, fun hnow => ?_⟩
      · show r.1.filling.lookup idx = some gen
        rw [hmarked.keeps.filling]
        exact hgen
      · show gen ≤ r.1.writes
        omega
      · have hnow' : gen = r.1.writes := hnow
        omega
    · exact ⟨hok.1, fun hnow => hmarked.size.symm ▸ hok.2 hnow⟩

/-- A section that keeps the claims and moves `t` from one act without lock and claim to
another. -/
theorem Inv.of_plain (h : Inv P s) (s₁ : World τ β δ) (hs : Steady P s s₁)
    (hdead : s₁.c.dead = true → ∀ i, s₁.c.bits.get i = false)
    (hfilling : s₁.c.filling = s.c.filling) (hmu : s₁.contentMu = s.contentMu)
    (hact : ∀ u, s₁.act u = s.act u) {a : Act β} (ha : ActOk P s₁ a) (hheld : a.holdsMu = false)
    (hclaim : a.claim = none) : Inv P (s₁.setAct t a) := by
  have hself : (s₁.setAct t a).act t = a := act_setAct_self ..
  have hs' : Steady P s (s₁.setAct t a) := hs.congr rfl rfl rfl rfl rfl
  refine h.of_steady (t := t) hs' hdead hfilling hmu
    (fun u hu => (act_setAct_of_ne _ _ hu).trans (hact u)) ?_ (fun ht => ?_) (fun idx ht => ?_)
  · rw [hself]
    cases a <;> exact ha
  · rw [hself, hheld] at ht
    exact Bool.noConfusion ht
  · rw [hself, hclaim] at ht
    exact absurd ht (by simp)

theorem inv_grown (h : Inv P s) {off : Nat} {data : List β} {c : Cached Nat δ} {io : List (Io Nat)}
    (hc : Cached.Grown P.pieceSize s.c c (off + data.length)) (hio : ∀ o ∈ io, o.soft = true)
    (truncs : Nat) : Inv P ((s.commit c io).setAct t (.sized off data ⟨s.cuts, truncs⟩)) := by
  have hs : Steady P s (s.commit c io) := steady_of_grown hc hio
  refine h.of_plain _ hs
    (hs.dead_of_keeps h ((congrArg Cached.dead (commit_c ..)).trans hc.keeps.dead))
    ((congrArg Cached.filling (commit_c ..)).trans hc.keeps.filling) (commit_contentMu ..)
    (fun u => act_commit ..) ?_ rfl rfl
  refine ⟨(commit_cuts ..).ge, fun _ => ?_⟩
  rw [commit_c]
  exact hc.end_le

theorem inv_cacheFillSize (h : Inv P s) {off truncs : Nat} {data : List β}
    (hfree : s.contentMu = none) (id : OriginId) (now : Int) (alloc : Bool) :
    Inv P (((s.commit (s.c.cacheFillSize P.pieceSize (off + data.length) id now alloc).1
      (s.c.cacheFillSize P.pieceSize (off + data.length) id now alloc).2.1).cut
        (off + data.length < s.c.size)).setAct t
        (if (s.c.cacheFillSize P.pieceSize (off + data.length) id now alloc).2.2 then
          .sized off data ⟨s.cuts + if off + data.length < s.c.size then 1 else 0, truncs⟩
        else .resting)) := by
  have hcases := Cached.cacheFillSize_cases P.pieceSize_pos s.c (off + data.length) id now alloc
  have hcopy : s.c.size ≤ off + data.length →
      (s.c.cacheFillSize P.pieceSize (off + data.length) id now alloc).2.2 = true := by
    intro hle
    unfold Cached.cacheFillSize
    split_ifs <;> first | rfl | omega
  generalize s.c.cacheFillSize P.pieceSize (off + data.length) id now alloc = r at hcases hcopy ⊢
  rcases hcases with ⟨hshrink, ⟨m, hwiped, hm⟩, -⟩ | ⟨hle, hgrown, hsoft⟩
  · have hcut : (decide (off + data.length < s.c.size)) = true := decide_eq_true hshrink
    rw [hcut, if_pos hshrink]
    set a : Act β := if r.2.2 then .sized off data ⟨s.cuts + 1, truncs⟩ else .resting with ha
    have hself : (((s.commit r.1 r.2.1).cut true).setAct t a).act t = a := act_setAct_self ..
    have hc : (((s.commit r.1 r.2.1).cut true).setAct t a).c = r.1 := commit_c ..
    have hcuts : (((s.commit r.1 r.2.1).cut true).setAct t a).cuts = s.cuts + 1 :=
      congrArg (· + 1) (commit_cuts ..)
    refine h.of_cut (t := t) (n := m) hfree (hc.symm ▸ hwiped) hcuts
      (onward_of_eq (commit_truncs ..) (commit_truncAt ..))
      (fun u hu => (act_setAct_of_ne _ _ hu).trans (act_commit ..)) ?_ ?_ ?_
    · rw [hself, ha]
      split_ifs with hcopied
      · refine ⟨hcuts.ge, fun _ => ?_⟩
        show off + data.length ≤ (s.commit r.1 r.2.1).c.size
        rw [commit_c, hwiped.size, hm hcopied]
      · trivial
    · rw [hself, ha]
      split_ifs <;> rfl
    · rw [hself, ha]
      split_ifs <;> rfl
  · have hcut : (decide (off + data.length < s.c.size)) = false := decide_eq_false (by omega)
    rw [hcut, if_pos (hcopy hle), if_neg (by omega)]
    exact inv_grown h hgrown hsoft truncs

theorem inv_reconcileReset (h : Inv P s) {size : Nat} {id : OriginId}
    (hfree : s.contentMu = none) :
    Inv P (((s.commit (s.c.reconcileReset P.pieceSize size id).1
      (s.c.reconcileReset P.pieceSize size id).2).cut (s.c.differs size id)).setAct t .resting) := by
  have hcases := s.c.reconcileReset_cases P.pieceSize size id
  generalize s.c.reconcileReset P.pieceSize size id = r at hcases ⊢
  rcases hcases with ⟨hdiff, halike, hsoft⟩ | ⟨hdiff, hwiped, -⟩ <;> rw [hdiff]
  · have hs : Steady P s (s.commit r.1 r.2) := steady_of_narrowed halike.narrowed hsoft
    exact h.of_plain ((s.commit r.1 r.2).cut false) hs
      (hs.dead_of_keeps h ((congrArg Cached.dead (commit_c ..)).trans halike.dead))
      ((congrArg Cached.filling (commit_c ..)).trans halike.filling) (commit_contentMu ..)
      (fun u => act_commit ..) trivial rfl rfl
  · have hself : (((s.commit r.1 r.2).cut true).setAct t .resting).act t = .resting :=
      act_setAct_self ..
    have hc : (((s.commit r.1 r.2).cut true).setAct t .resting).c = r.1 := commit_c ..
    exact h.of_cut (t := t) (n := size) hfree (hc.symm ▸ hwiped)
      (congrArg (· + 1) (commit_cuts ..)) (onward_of_eq (commit_truncs ..) (commit_truncAt ..))
      (fun u hu => (act_setAct_of_ne _ _ hu).trans (act_commit ..)) (by rw [hself]; trivial)
      (by rw [hself]; rfl) (by rw [hself]; rfl)

omit [DecidableEq τ] in
theorem onward_truncate {serial start size : Nat} (hserial : serial ≤ s.truncs)
    (hstart : size ≤ start) : Onward size s (s.truncate serial start) where
  truncs := le_rfl
  below o ho := if_neg (by omega)
  le o := by
    show (if start ≤ o then max (s.truncAt o) serial else s.truncAt o) ≤ max (s.truncAt o) s.truncs
    split_ifs <;> omega

theorem inv_truncateEntry (h : Inv P s) {size serial : Nat}
    (hact : s.act t = .truncated size serial) (hfree : s.contentMu = none) (alloc : Bool) :
    Inv P ((((s.commit (s.c.truncateEntry P.pieceSize size alloc).1
      (s.c.truncateEntry P.pieceSize size alloc).2.1).cut (s.c.size ≠ size)).truncate serial
        (if s.c.size = size then size else 0)).setAct t .resting) := by
  have hserial : serial ≤ s.truncs := by
    have hown := h.act t
    rwa [hact] at hown
  have hcases := s.c.truncateEntry_cases P.pieceSize size alloc
  generalize s.c.truncateEntry P.pieceSize size alloc = r at hcases ⊢
  rcases hcases with ⟨hsame, hc, hcuts⟩ | ⟨hne, hwiped, -⟩
  · rw [hc, decide_eq_false (fun hne => hne hsame), if_pos hsame]
    subst hsame
    have hs : Steady P s (s.commit s.c r.2.1) := steady_of_cutsTo hcuts
    have hserial' : serial ≤ (s.commit s.c r.2.1).truncs :=
      hserial.trans (commit_truncs s s.c r.2.1).ge
    have honward : Onward s.c.size (s.commit s.c r.2.1)
      ((s.commit s.c r.2.1).truncate serial s.c.size) := onward_truncate hserial' le_rfl
    have hs' : Steady P s ((s.commit s.c r.2.1).truncate serial s.c.size) :=
      ⟨hs.size_le, hs.get, hs.len, hs.nbits, hs.cells, hs.cuts, hs.onward.trans honward, hs.fd,
        hs.writes, hs.dead⟩
    exact h.of_plain (((s.commit s.c r.2.1).cut false).truncate serial s.c.size) hs'
      (hs.dead_of_keeps h (congrArg Cached.dead (commit_c ..)))
      (congrArg Cached.filling (commit_c ..)) (commit_contentMu ..) (fun u => act_commit ..)
      trivial rfl rfl
  · rw [decide_eq_true hne, if_neg hne]
    set s₁ := ((s.commit r.1 r.2.1).cut true).truncate serial 0 with hs₁
    have hself : (s₁.setAct t .resting).act t = .resting := act_setAct_self ..
    have hc : (s₁.setAct t .resting).c = r.1 := commit_c ..
    have hserial' : serial ≤ ((s.commit r.1 r.2.1).cut true).truncs :=
      hserial.trans (commit_truncs s r.1 r.2.1).ge
    have hcommit : Onward 0 s ((s.commit r.1 r.2.1).cut true) :=
      onward_of_eq (commit_truncs ..) (commit_truncAt ..)
    have honward : Onward 0 s s₁ := hcommit.trans (onward_truncate hserial' le_rfl)
    exact h.of_cut (t := t) (n := size) hfree (hc.symm ▸ hwiped)
      (congrArg (· + 1) (commit_cuts ..)) ⟨honward.truncs, honward.below, honward.le⟩
      (fun u hu => (act_setAct_of_ne _ _ hu).trans (act_commit ..)) (by rw [hself]; trivial)
      (by rw [hself]; rfl) (by rw [hself]; rfl)

omit [DecidableEq τ] in
/-- A hole in a piece whose mark was just cleared is in no marked piece. -/
theorem inv_hole (h : Inv P s) (hfree : s.contentMu = none) {idx fd : Nat}
    (hfd : s.c.cacheFd = some fd) {save : Io Nat} (hsoft : save.soft = true) :
    Inv P (s.commit { s.c with bits := s.c.bits.clear idx }
      [save, .punch fd (offset idx P.pieceSize) (len s.c.size idx P.pieceSize)]) := by
  set c₁ : Cached Nat δ := { s.c with bits := s.c.bits.clear idx } with hc₁
  set s₁ : World τ β δ := applyIo { s with c := c₁ }
    (.punch fd (offset idx P.pieceSize) (len s.c.size idx P.pieceSize)) with hs₁
  have hfile : s₁.dataFile =
      s.dataFile.punch (offset idx P.pieceSize) (len s.c.size idx P.pieceSize) := by
    rw [hs₁, dataFile_punch { s with c := c₁ } hfd, dataFile_congr s { s with c := c₁ } rfl rfl rfl]
  have hget : ∀ i, s₁.c.bits.get i = true → s.c.bits.get i = true ∧ i ≠ idx := fun i hi => by
    have hclear : (s.c.bits.clear idx).get i = true := hi
    rw [Bitfield.get_clear, Bool.and_eq_true, decide_eq_true_iff] at hclear
    exact ⟨hclear.1, fun heq => hclear.2 heq.symm⟩
  rw [commit_punch s (c := c₁) hsoft rfl]
  refine {
    nbits := (Bitfield.nbits_clear ..).trans_le h.nbits
    dead := fun hd i => ?_
    sound := fun i hi => ?_
    truncAt := h.truncAt
    act := fun u => (h.act u).of_unheld (h.unheld hfree u) (fun _ _ _ _ hok => hok)
      (fun _ _ _ hok => hok) le_rfl
    owner := h.owner
    claims := h.claims }
  · rw [← Bool.not_eq_true]
    intro hi
    have hold := (hget i hi).1
    rw [h.dead hd] at hold
    exact Bool.noConfusion hold
  · obtain ⟨hold, hne⟩ := hget i hi
    obtain ⟨hpos, hcells⟩ := h.sound i hold
    refine ⟨hpos, fun o hlo hhi => ?_⟩
    have hhi' : o < offset i P.pieceSize + len s.c.size i P.pieceSize := hhi
    have hlen := len_le s.c.size i P.pieceSize
    have hlen' := len_le s.c.size idx P.pieceSize
    rw [hfile]
    rcases Nat.lt_or_gt_of_ne hne with hlt | hgt
    · have := offset_add_le_of_lt P.pieceSize hlt
      rw [SparseFile.cell_punch_of_lt _ _ (by omega)]
      exact hcells o hlo hhi
    · have := offset_add_le_of_lt P.pieceSize hgt
      rw [SparseFile.cell_punch_of_ge _ (by omega)]
      exact hcells o hlo hhi

omit [DecidableEq τ] in
/-- A punch changes no mark, or holes the piece whose mark it cleared. -/
theorem inv_punch (h : Inv P s) (hfree : s.contentMu = none) (idx : Nat) (ok : Bool)
    {env : Cached.PunchEnv Nat} (hopen : env.opened = s.opened ok) :
    Inv P (s.commit (s.c.punchPiece P.pieceSize idx env).1
      (s.c.punchPiece P.pieceSize idx env).2.1) := by
  have halike := s.c.openCacheUnlocked_alike (s.opened ok)
  have hinv := inv_open h ok
  have hcases := s.c.punchPiece_cases P.pieceSize idx env
  rw [hopen] at hcases
  generalize s.c.openCacheUnlocked (s.opened ok) = o at halike hinv hcases
  have hc : (s.commit o.1 o.2).c = o.1 := commit_c ..
  have hmu : (s.commit o.1 o.2).contentMu = none := (commit_contentMu ..).trans hfree
  rcases hcases with heq | ⟨-, -, -, ⟨c', io, heq, hnarrow, -, hsoft⟩ |
      ⟨fd, save, hfd, hsoft, heq⟩⟩ <;>
    rw [heq]
  · rw [commit_soft s (by simp) rfl]
    exact h
  · rw [commit_append s o.1 c' o.2 io hnarrow.keeps.cacheFd]
    generalize s.commit o.1 o.2 = s₁ at hinv hc
    rw [← hc] at hnarrow
    have hs : Steady P s₁ (s₁.commit c' io) := steady_of_narrowed hnarrow hsoft
    refine hinv.of_still hs (hs.dead_of_keeps hinv ?_) ?_ (commit_contentMu ..)
      fun u => act_commit ..
    · rw [commit_c]
      exact hnarrow.keeps.dead
    · rw [commit_c]
      exact hnarrow.keeps.filling
  · rw [commit_append s o.1 { o.1 with bits := s.c.bits.clear idx } o.2 _ rfl]
    have hsize : o.1.size = s.c.size := halike.size
    have hbits : o.1.bits = s.c.bits := halike.bits
    generalize s.commit o.1 o.2 = s₁ at hinv hc hmu
    rw [← hsize, ← hbits, ← hc]
    exact inv_hole hinv hmu (hc ▸ hfd) hsoft

/-! ## Every step -/

omit [DecidableEq τ] in
theorem Inv.invalidate (h : Inv P s) (p : Nat → Bool) : Inv P (s.invalidate p) :=
  h.of_alike s.c.xfer (Cached.Alike.refl s.c) rfl rfl rfl (onward_of_eq rfl rfl) rfl fun _ => rfl

omit [DecidableEq τ] in
theorem inv_narrowed (h : Inv P s) {c : Cached Nat δ} {io : List (Io Nat)}
    (hc : Cached.Narrowed s.c c) (hio : ∀ o ∈ io, o.soft = true) : Inv P (s.commit c io) := by
  have hs : Steady P s (s.commit c io) := steady_of_narrowed hc hio
  refine h.of_still hs (hs.dead_of_keeps h ?_) ?_ (commit_contentMu ..) fun u => act_commit ..
  · rw [commit_c]
    exact hc.keeps.dead
  · rw [commit_c]
    exact hc.keeps.filling

omit [DecidableEq τ] in
theorem inv_distrust (h : Inv P s) : Inv P (s.commit s.c.distrust.1 s.c.distrust.2) := by
  have hwiped := s.c.distrust_wiped
  have hs : Steady P s (s.commit s.c.distrust.1 s.c.distrust.2) :=
    steady_of_wiped hwiped s.c.distrust_soft
  refine h.of_still hs (hs.dead_of_keeps h ?_) ?_ (commit_contentMu ..) fun u => act_commit ..
  · rw [commit_c]
    exact hwiped.keeps.dead
  · rw [commit_c]
    exact hwiped.keeps.filling

/-- `t` moves from an act outside of lock and claim to another the entry owes nothing. -/
theorem Inv.setAct (h : Inv P s) {a : Act β} (ha : ActOk P s a) (hheld : a.holdsMu = false)
    (hclaim : a.claim = none) : Inv P (s.setAct t a) :=
  h.of_plain s (Steady.refl s) h.dead rfl rfl (fun _ => rfl) ha hheld hclaim

variable (P) in
/-- The condition of a run: no write-through is about to land bytes stale since a cut or a truncate
where a mark would vouch for them. -/
def CopyFresh (s : World τ β δ) : Prop :=
  s.c.dead = false → ∀ t off data born fd, s.act t = .copyFd off data born fd →
    CopyFits P s off data.length born

variable [DecidableEq δ]

/-- **One step keeps the invariant.** -/
theorem inv_core (h : Inv P s) (hfresh : CopyFresh P s) (hstep : Core P t s s') : Inv P s' := by
  cases hstep with
  | beginFill idx now hact _ => exact inv_beginFill h hact idx now
  | abortFill now hact => exact inv_abortFill h hact now
  | completeSkip hact _ _ =>
    exact inv_dropped h _ (by rw [hact]; rfl) (Cached.Alike.refl _).narrowed
      (by simp) trivial rfl rfl
  | completeStart buf hact hlen hfree hskip => exact inv_completeStart h hact hlen hfree hskip
  | landOpen ok hact =>
    have hown := h.act t
    rw [hact] at hown
    refine inv_openAct h ok ?_ ?_ ?_
    · split
      case h_1 fd hfd =>
        refine ⟨(steady_open ok).fillOk (commit_open_filling s ok _) hown, ?_⟩
        rw [commit_c]
        exact hfd
      case h_2 =>
        exact ⟨(steady_open ok).fillOk (commit_open_filling s ok _) hown,
          fun hok => Bool.noConfusion hok⟩
    · rw [hact]
      split <;> exact fun _ => rfl
    · rw [hact]
      split <;> exact fun _ hclaim => hclaim
  | landWrite k _ hact => exact inv_landWrite h hact
  | finishFill hash now hact => exact inv_finishFill h hash now hact
  | refusedDone hact _ => exact h.setAct trivial rfl rfl
  | originWrite off data hact _ =>
    have hinv : Inv P { s with origin := s.origin.pwrite off data } :=
      h.of_alike s.c.xfer (Cached.Alike.refl s.c) rfl rfl rfl (onward_of_eq rfl rfl) rfl
        fun _ => rfl
    exact hinv.setAct trivial rfl rfl
  | cacheFillSize id now alloc hact hfree => exact inv_cacheFillSize h hfree id now alloc
  | growForWrite now resized hact hfree =>
    obtain ⟨hgrown, hsoft⟩ := Cached.growToLocked_spec P.pieceSize_pos s.c _ resized
    exact inv_grown h (hgrown.alike (Cached.stamp_alike _ now)) hsoft _
  | distrustWrite hact => exact ((inv_distrust h).invalidate _).setAct trivial rfl rfl
  | copyLock hact hfree => exact inv_copyLock h hact hfree
  | copyOpen ok hact =>
    have hown := h.act t
    rw [hact] at hown
    refine inv_openAct h ok ?_ ?_ ?_
    · split
      case h_1 fd hfd =>
        refine ⟨(steady_open (P := P) ok).sizeOk hown, ?_⟩
        rw [commit_c]
        exact hfd
      case h_2 => exact fun hok : false = true => Bool.noConfusion hok
    · rw [hact]
      split <;> exact fun _ => rfl
    · rw [hact]
      split <;> exact fun _ hclaim => hclaim
  | copyWrite k _ hact => exact inv_copyWrite h hact fun hlive => hfresh hlive _ _ _ _ _ hact
  | copyMark hact => exact inv_copyMark h hact _
  | noteOriginId id hact _ =>
    exact inv_narrowed h (s.c.noteOriginId_spec id).1.narrowed (s.c.noteOriginId_spec id).2
  | reconcileProbe size id hact _ =>
    obtain ⟨halike, hsoft⟩ := s.c.reconcileProbe_spec size id
    have hinv := inv_narrowed h halike.narrowed hsoft
    refine hinv.setAct ?_ ?_ ?_ <;> split_ifs <;> trivial
  | reconcileReset hact hfree => exact inv_reconcileReset h hfree
  | originTruncate size hact _ =>
    have hinv : Inv P { s with origin := s.origin.ftruncate size, truncs := s.truncs + 1 } :=
      h.of_alike s.c.xfer (Cached.Alike.refl s.c) rfl rfl rfl
        ⟨Nat.le_succ _, fun _ _ => rfl, fun _ => le_max_left ..⟩ rfl fun _ => rfl
    exact hinv.setAct (a := .truncated size (s.truncs + 1)) le_rfl rfl rfl
  | truncateEntry alloc hact hfree => exact inv_truncateEntry h hact hfree alloc
  | distrust hact _ => exact (inv_distrust h).invalidate _
  | forget hact _ hlive =>
    have hs : Steady P s (s.commit s.c.forget.1 s.c.forget.2) := steady_forget
    have hinv : Inv P (s.commit s.c.forget.1 s.c.forget.2) :=
      h.of_still hs (fun _ i => by rw [commit_c]; exact Bitfield.get_wipe ..)
        (by rw [commit_c]; rfl) (commit_contentMu ..) fun u => act_commit ..
    exact hinv.invalidate _
  | punch idx ok env hact _ hfree hopen => exact (inv_punch h hfree idx ok hopen).invalidate _
  | heal idx hact hfree =>
    obtain ⟨hnarrow, hsoft⟩ := s.c.healPiece_spec idx
    exact (inv_narrowed h hnarrow hsoft).invalidate _
  | hydrateClaim now hact hrole _ => exact (inv_beginFill h hact _ now).setRole _
  | streamOpen ok hact _ _ => exact (inv_open h ok).setRole _
  | fetchOpen ok hact _ => exact (inv_open h ok).setRole _
  | settleFailed hact _ =>
    have hinv : Inv P (s.setAct t .resting) := h.setAct trivial rfl rfl
    exact hinv.setRole _
  | _ =>
    exact h.of_alike _ ⟨rfl, rfl, rfl, rfl, rfl, rfl, rfl⟩ rfl rfl rfl (onward_of_eq rfl rfl) rfl
      fun u => act_setRole ..

theorem inv_step (h : Inv P s) (hfresh : CopyFresh P s) (hstep : Step P s s') : Inv P s' := by
  obtain ⟨t, s₁, hcore, rfl⟩ := hstep
  exact (inv_core h hfresh hcore).of_alike s₁.c.xfer (Cached.Alike.refl s₁.c) rfl rfl rfl
    (onward_of_eq rfl rfl) rfl fun _ => rfl

variable (P) in
/-- An entry nobody uses yet, with the marks it was loaded with. -/
structure Start (s : World τ β δ) : Prop where
  thread : ∀ t, s.thread t = ⟨.resting, .free⟩
  contentMu : s.contentMu = none
  filling : s.c.filling = ∅
  xfer : s.c.xfer = 0
  dead : s.c.dead = false
  nbits : s.c.bits.nbits ≤ maxU32
  truncAt : ∀ o, s.truncAt o ≤ s.truncs
  sound : MarksSound P s

omit [DecidableEq τ] [DecidableEq δ] in
theorem inv_of_start (h : Start P s) : Inv P s := by
  have hact : ∀ u, s.act u = .resting := fun u => congrArg Thread.act (h.thread u)
  refine ⟨h.nbits, fun hd => ?_, h.sound, h.truncAt, fun u => ?_, fun u hu => ?_,
    fun u v idx hu => ?_⟩
  · rw [h.dead] at hd
    exact Bool.noConfusion hd
  · rw [hact]
    trivial
  · rw [hact] at hu
    exact Bool.noConfusion hu
  · rw [hact] at hu
    exact absurd hu (by simp [Act.claim])

theorem run_core {Cond : World τ β δ → World τ β δ → Prop} {s₀ s₁ : World τ β δ}
    (h : Run (Step P) Cond s₀ s) (hcore : Core P t s s₁) (hcond : Cond s (s₁.tick P)) :
    Run (Step P) Cond s₀ (s₁.tick P) := h.tail ⟨t, s₁, hcore, rfl⟩ hcond

/-- Four-byte pieces, and digests that are the bytes themselves. -/
def smallPieces : Params UInt8 (List UInt8) where
  pieceSize := 4
  pieceSize_pos := by decide
  pieceSize_le := by decide
  zero := 0
  digest := id

/-- The entry of a file of `n` sevens before anything is cached. -/
def freshEntry (τ : Type) (n : Nat) : World τ UInt8 (List UInt8) where
  c := { size := n, bits := Bitfield.init (count n 4) }
  inode := fun _ => SparseFile.empty
  next := 0
  path := none
  thread := fun _ => ⟨.resting, .free⟩
  origin := ⟨n, fun o => if o < n then some 7 else none⟩
  landed := fun _ => none

theorem start_freshEntry (τ : Type) (n : Nat) : Start smallPieces (freshEntry τ n) where
  thread _ := rfl
  contentMu := rfl
  filling := rfl
  xfer := rfl
  dead := rfl
  nbits := count_le_maxU32 n 4
  truncAt _ := le_rfl
  sound i hi := by
    have hinit : (Bitfield.init (count n 4)).get i = true := hi
    rw [Bitfield.get_init] at hinit
    exact Bool.noConfusion hinit

/-- Thread 1 truncates to nothing and back to the old size between the origin write and the size
step of thread 0: the copy marks bytes the origin no longer has. -/
theorem marksSound_fails_after_truncates :
    ¬ ∀ s₀ s : World (Fin 2) UInt8 (List UInt8), Start smallPieces s₀ →
      Run (Step smallPieces) Always s₀ s → MarksSound smallPieces s := by
  intro h
  have r₀ : Run (Step smallPieces) Always _ _ := Run.refl (freshEntry (Fin 2) 4)
  have r₁ := run_core r₀ (Core.originWrite (t := 0) 0 [1, 2, 3, 4] rfl rfl) trivial
  have r₂ := run_core r₁ (Core.originTruncate (t := 1) 0 rfl rfl) trivial
  have r₃ := run_core r₂ (Core.truncateEntry (t := 1) true rfl rfl) trivial
  have r₄ := run_core r₃ (Core.originTruncate (t := 1) 4 rfl rfl) trivial
  have r₅ := run_core r₄ (Core.truncateEntry (t := 1) true rfl rfl) trivial
  have r₆ := run_core r₅ (Core.cacheFillSize (t := 0) {} 0 true rfl rfl) trivial
  have r₇ := run_core r₆ (Core.copyLock (t := 0) rfl rfl) trivial
  have r₈ := run_core r₇ (Core.copyOpen (t := 0) true rfl) trivial
  have r₉ := run_core r₈ (Core.copyWrite (t := 0) 4 (by decide) rfl) trivial
  have r₁₀ := run_core r₉ (Core.copyMark (t := 0) rfl) trivial
  have hcells := (h _ _ (start_freshEntry (Fin 2) 4) r₁₀ 0 (by decide)).2
  obtain ⟨a, ha, -, hkept⟩ := hcells 0 (by decide) (by decide)
  cases ha
  exact absurd hkept (by decide)

end Entry

end ModelFs
