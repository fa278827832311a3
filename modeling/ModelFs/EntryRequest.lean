import ModelFs.EntryMarks

/-!
# What a request can count on

A request holds a transfer reference from before its first look at the marks until its last byte.
While it does, no step takes a byte out of the data file below the entry's size, and none at
all once the entry has its descriptor. The history grows by one instant a step, the newest of them
the state the step left.

* `fileFrame_core` — what one step does to the file behind the marks.
* `roleFrame_core` — a step moves one request, and the references with it.
* `refs_step` — the transfer count is the sum of the references, and the newest instant of the
  history is the present.
-/

namespace ModelFs

namespace Entry

open Piece World

variable {τ β δ : Type} {P : Params β δ}
variable {s s' : World τ β δ} {t : τ}

/-! ## Roles -/

@[simp] theorem role_setAct [DecidableEq τ] (s : World τ β δ) (t u : τ) (a : Act β) :
    (s.setAct t a).role u = s.role u := by
  by_cases h : u = t
  · subst h
    simp [World.role, setAct]
  · simp [World.role, setAct, h]

@[simp] theorem role_setRole_self [DecidableEq τ] (s : World τ β δ) (t : τ) (r : Role) :
    (s.setRole t r).role t = r := by
  simp [World.role, setRole]

theorem role_setRole_of_ne [DecidableEq τ] (s : World τ β δ) {t u : τ} (r : Role) (h : u ≠ t) :
    (s.setRole t r).role u = s.role u := by
  simp [World.role, setRole, h]

@[simp] theorem role_commit (s : World τ β δ) (c : Cached Nat δ) (io : List (Io Nat)) (u : τ) :
    (s.commit c io).role u = s.role u := by
  unfold World.role
  rw [commit_thread]

@[simp] theorem role_leave_self [DecidableEq τ] (s : World τ β δ) (t : τ) :
    (s.leave t).role t = .free :=
  role_setRole_self ..

@[simp] theorem role_unlock (s : World τ β δ) (u : τ) : s.unlock.role u = s.role u := rfl

@[simp] theorem role_lock (s : World τ β δ) (t u : τ) : (s.lock t).role u = s.role u := rfl

@[simp] theorem role_invalidate (s : World τ β δ) (p : Nat → Bool) (u : τ) :
    (s.invalidate p).role u = s.role u := rfl

@[simp] theorem commit_landed (s : World τ β δ) (c : Cached Nat δ) (io : List (Io Nat)) :
    (s.commit c io).landed = s.landed :=
  commit_eq s World.landed (fun s o => by cases o <;> rfl)
    (fun s => by unfold ensureData; split <;> rfl) (fun _ _ => rfl) c io

@[simp] theorem commit_inval (s : World τ β δ) (c : Cached Nat δ) (io : List (Io Nat)) :
    (s.commit c io).inval = s.inval :=
  commit_eq s World.inval (fun s o => by cases o <;> rfl)
    (fun s => by unfold ensureData; split <;> rfl) (fun _ _ => rfl) c io

@[simp] theorem commit_hist (s : World τ β δ) (c : Cached Nat δ) (io : List (Io Nat)) :
    (s.commit c io).hist = s.hist :=
  commit_eq s World.hist (fun s o => by cases o <;> rfl)
    (fun s => by unfold ensureData; split <;> rfl) (fun _ _ => rfl) c io

@[simp] theorem commit_answers (s : World τ β δ) (c : Cached Nat δ) (io : List (Io Nat)) :
    (s.commit c io).answers = s.answers :=
  commit_eq s World.answers (fun s o => by cases o <;> rfl)
    (fun s => by unfold ensureData; split <;> rfl) (fun _ _ => rfl) c io

@[simp] theorem commit_sent (s : World τ β δ) (c : Cached Nat δ) (io : List (Io Nat)) :
    (s.commit c io).sent = s.sent :=
  commit_eq s World.sent (fun s o => by cases o <;> rfl)
    (fun s => by unfold ensureData; split <;> rfl) (fun _ _ => rfl) c io

section Cut

variable (s : World τ β δ) (really : Bool)

@[simp] theorem cut_c : (s.cut really).c = s.c := by cases really <;> rfl

@[simp] theorem cut_dataFile : (s.cut really).dataFile = s.dataFile := by cases really <;> rfl

@[simp] theorem cut_landed : (s.cut really).landed = s.landed := by cases really <;> rfl

@[simp] theorem cut_role (u : τ) : (s.cut really).role u = s.role u := by cases really <;> rfl

@[simp] theorem cut_hist : (s.cut really).hist = s.hist := by cases really <;> rfl

@[simp] theorem cut_answers : (s.cut really).answers = s.answers := by cases really <;> rfl

@[simp] theorem cut_sent : (s.cut really).sent = s.sent := by cases really <;> rfl

@[simp] theorem truncate_role (serial start : Nat) (u : τ) :
    (s.truncate serial start).role u = s.role u := rfl

end Cut

/-! ## The file behind the marks -/

/-- The byte at `o` is in the data file. -/
def HasCell (s : World τ β δ) (o : Nat) : Prop := ∃ a, s.dataFile.cell o = some a

/-- Every byte in the data file is the one a fill or write-through last put there. -/
def CellsLanded (s : World τ β δ) : Prop :=
  ∀ o a, s.dataFile.cell o = some a → s.landed o = some a.byte

/-- What a step does to the file: the entry does not come back to life, keeps its descriptor and
gets none by dying; under a transfer, bytes stay below the size of a live entry and everywhere once
it has a descriptor. -/
structure FileFrame (s s' : World τ β δ) : Prop where
  dead : s.c.dead = true → s'.c.dead = true
  fd : ∀ fd, s.c.cacheFd = some fd → s'.c.cacheFd = some fd
  died : s.c.dead = false → s'.c.dead = true → s'.c.cacheFd = s.c.cacheFd
  cells : 0 < s.c.xfer → ∀ o, s.c.cacheFd ≠ none ∨ s'.c.dead = false ∧ o < s.c.size →
    HasCell s o → HasCell s' o
  landed : CellsLanded s → CellsLanded s'

theorem FileFrame.congr {s'' : World τ β δ} (h : FileFrame s s') (hc : s''.c = s'.c)
    (hdata : s''.dataFile = s'.dataFile) (hlanded : s''.landed = s'.landed) : FileFrame s s'' := by
  obtain ⟨hdead, hfd, hdied, hcells, hland⟩ := h
  refine ⟨hc ▸ hdead, hc ▸ hfd, hc ▸ hdied, fun hx o ho hcell => ?_, fun hl o a ha => ?_⟩
  · rw [HasCell, hdata]
    exact hcells hx o (hc ▸ ho) hcell
  · rw [hdata] at ha
    rw [hlanded]
    exact hland hl o a ha

/-- Past an open no transfer is waiting for. -/
theorem FileFrame.trans_idle {s'' : World τ β δ} (h : FileFrame s s') (hidle : s.c.xfer = 0)
    (hdead : s''.c.dead = s.c.dead) (h' : FileFrame s' s'') : FileFrame s s'' :=
  ⟨fun hd => h'.dead (h.dead hd), fun fd hfd => h'.fd fd (h.fd fd hfd),
    fun hlive hd => absurd (hdead.symm.trans hd) (by simp [hlive]),
    fun hx => absurd hidle hx.ne', fun hl => h'.landed (h.landed hl)⟩

/-- The file stays as it is. -/
theorem fileFrame_of_same (hdead : s'.c.dead = s.c.dead) (hfd : s'.c.cacheFd = s.c.cacheFd)
    (hinode : s'.inode = s.inode) (hpath : s'.path = s.path) (hlanded : s'.landed = s.landed) :
    FileFrame s s' := by
  have hdata := dataFile_congr s s' hfd hinode hpath
  refine ⟨fun hd => hdead.trans hd, fun fd h => hfd.trans h, fun _ _ => hfd, fun _ o _ hcell => ?_,
    fun hl o a ha => ?_⟩
  · rw [HasCell, hdata]
    exact hcell
  · rw [hdata] at ha
    rw [hlanded]
    exact hl o a ha

theorem fileFrame_of_soft {c : Cached Nat δ} {io : List (Io Nat)} (hc : Cached.KeepsFile s.c c)
    (hio : ∀ o ∈ io, o.soft = true) : FileFrame s (s.commit c io) := by
  rw [commit_soft s hio hc.cacheFd]
  exact fileFrame_of_same hc.dead hc.cacheFd rfl rfl rfl

/-- A section that may cut the live descriptor does not under a transfer. -/
theorem fileFrame_of_cutsTo {c : Cached Nat δ} {io : List (Io Nat)} {n : Nat}
    (hc : Cached.KeepsFile s.c c) (hio : Cached.CutsTo s.c io n) : FileFrame s (s.commit c io) := by
  have hdata := dataFile_commit_cutsTo s hio hc.cacheFd
  rcases hio with hsoft | ⟨fd, before, after, hcur, hidle, -⟩
  · exact fileFrame_of_soft hc hsoft
  · refine ⟨fun hd => ?_, fun fd h => ?_, fun _ _ => ?_, fun hx => absurd hidle hx.ne',
      fun hl o a ha => ?_⟩
    · rw [commit_c, hc.dead, hd]
    · rw [commit_c, hc.cacheFd, h]
    · rw [commit_c, hc.cacheFd]
    · rw [commit_landed]
      rcases hdata with h | h <;> rw [h] at ha
      · exact hl o a ha
      · unfold SparseFile.ftruncate at ha
        dsimp only at ha
        split_ifs at ha
        exact hl o a ha

theorem fileFrame_of_open (ok : Bool) : FileFrame s (s.commit (s.c.openCacheUnlocked (s.opened ok)).1
    (s.c.openCacheUnlocked (s.opened ok)).2) := by
  have hcell := fun o (ho : o < s.c.size) => cell_commit_open s ok ho
  have hnew := cell_commit_open_sub s ok
  rcases s.c.openCacheUnlocked_cases (s.opened ok) with h | ⟨hnone, fd, -, h⟩ <;>
    rw [h] at hcell hnew ⊢
  · exact fileFrame_of_soft ⟨rfl, rfl, rfl⟩ (by simp)
  · refine ⟨fun hd => ?_, fun fd h => ?_, fun hlive hd => ?_, fun _ o ho hhas => ?_,
      fun hl o a ha => ?_⟩
    · rw [commit_c]
      exact hd
    · rw [hnone] at h
      exact absurd h (by simp)
    · rw [commit_c] at hd
      exact absurd (hlive.symm.trans hd) (by simp)
    · rcases ho with hfd | ⟨-, hlt⟩
      · exact absurd hnone hfd
      · rw [HasCell, hcell o hlt]
        exact hhas
    · rw [commit_landed]
      exact hl o a (hnew o a ha)

theorem fileFrame_land {fd off : Nat} {born : Stamp} {bytes : List β}
    (hfd : s.c.cacheFd = some fd) :
    FileFrame s (s.land fd off bytes born) := by
  refine ⟨fun h => h, fun _ h => h, fun _ _ => rfl, fun _ o _ hhas => ?_, fun hl o a ha => ?_⟩
  · rw [HasCell, dataFile_land hfd]
    by_cases ho : o < off ∨ off + bytes.length ≤ o
    · rw [← dataFile_land hfd, cell_land_of_out hfd ho]
      exact hhas
    · obtain ⟨a, -, ha⟩ := s.dataFile.cell_pwrite_of_mem (bytes.map fun b => (⟨b, born⟩ : Cell β))
        (by omega : off ≤ o) (by rw [List.length_map]; omega)
      exact ⟨a, ha⟩
  · rw [dataFile_land hfd] at ha
    simp only [SparseFile.pwrite, List.length_map, List.getElem?_map] at ha
    show (if off ≤ o ∧ o < off + bytes.length then bytes[o - off]? else s.landed o) = some a.byte
    split_ifs at ha ⊢ with ho
    · cases hb : bytes[o - off]? with
      | none => rw [hb] at ha; exact absurd ha (by simp)
      | some b => rw [hb] at ha; cases ha; rfl
    · exact hl o a ha

/-- A punch waits for the transfers to end, so it takes no byte from one. -/
theorem fileFrame_punch (idx : Nat) (ok : Bool) {env : Cached.PunchEnv Nat}
    (hopen : env.opened = s.opened ok) :
    FileFrame s (s.commit (s.c.punchPiece P.pieceSize idx env).1
      (s.c.punchPiece P.pieceSize idx env).2.1) := by
  have hframe := fileFrame_of_open (s := s) ok
  have halike := s.c.openCacheUnlocked_alike (s.opened ok)
  have hcases := s.c.punchPiece_cases P.pieceSize idx env
  rw [hopen] at hcases
  generalize s.c.openCacheUnlocked (s.opened ok) = o at hframe halike hcases
  have hc : (s.commit o.1 o.2).c = o.1 := commit_c ..
  rcases hcases with heq | ⟨-, hidle, -,
      ⟨c', io, heq, hnarrow, -, hsoft⟩ | ⟨fd, save, hfd, hsoft, heq⟩⟩ <;>
    rw [heq]
  · exact fileFrame_of_soft ⟨rfl, rfl, rfl⟩ (by simp)
  · rw [commit_append s o.1 c' o.2 io hnarrow.keeps.cacheFd]
    rw [← hc] at hnarrow
    refine hframe.trans_idle hidle ?_ (fileFrame_of_soft hnarrow.keeps.keepsFile hsoft)
    rw [commit_c, hnarrow.keeps.dead, hc, halike.dead]
  · set c₁ : Cached Nat δ := { o.1 with bits := s.c.bits.clear idx } with hc₁
    have hopened : c₁.cacheFd = (s.commit o.1 o.2).c.cacheFd := by rw [hc]
    rw [commit_append s o.1 c₁ o.2 _ rfl, commit_punch _ hsoft hopened]
    generalize s.commit o.1 o.2 = s₁ at hframe hc
    have hsame : FileFrame s₁ { s₁ with c := c₁ } :=
      fileFrame_of_same (show o.1.dead = s₁.c.dead by rw [hc])
        (show o.1.cacheFd = s₁.c.cacheFd by rw [hc]) rfl rfl rfl
    have hdead : c₁.dead = s.c.dead := halike.dead
    refine ⟨fun hd => hdead.trans hd, fun fd' h => hsame.fd fd' (hframe.fd fd' h),
      fun hlive hd => absurd (hdead.symm.trans hd) (by simp [hlive]),
      fun hx => absurd hidle hx.ne', fun hl o a ha => ?_⟩
    rw [dataFile_punch { s₁ with c := c₁ } hfd] at ha
    unfold SparseFile.punch at ha
    dsimp only at ha
    split_ifs at ha
    exact hsame.landed (hframe.landed hl) o a ha

theorem fileFrame_forget :
    FileFrame s (s.commit s.c.forget.1 s.c.forget.2) := by
  have hpath : ∀ c : Cached Nat δ, c.cacheFd = s.c.cacheFd →
      s.commit c [.unlinkData, .unlinkMeta, .unlinkPin] = { s with c := c, path := none } := by
    intro c hfd
    have hopen : (s.c.cacheFd.isNone && c.cacheFd.isSome) = false := by
      rw [hfd]
      cases s.c.cacheFd <;> rfl
    unfold commit
    rw [hopen]
    rfl
  have hcommit := hpath s.c.forget.1 rfl
  rw [show s.c.forget.2 = [.unlinkData, .unlinkMeta, .unlinkPin] from rfl, hcommit]
  have hdata : ∀ fd, s.c.cacheFd = some fd →
      ({ s with c := s.c.forget.1, path := none } : World τ β δ).dataFile = s.dataFile := by
    intro fd hfd
    rw [dataFile_of_fd s hfd]
    exact dataFile_of_fd _ hfd
  refine ⟨fun _ => rfl, fun _ h => h, fun _ _ => rfl, fun _ o ho hhas => ?_, fun hl o a ha => ?_⟩
  · rcases ho with hfd | ⟨hd, -⟩
    · obtain ⟨fd, hfd⟩ := Option.ne_none_iff_exists'.mp hfd
      rw [HasCell, hdata fd hfd]
      exact hhas
    · exact Bool.noConfusion hd
  · cases hfd : s.c.cacheFd with
    | some fd =>
      rw [hdata fd hfd] at ha
      exact hl o a ha
    | none =>
      unfold dataFile at ha
      rw [show s.c.forget.1.cacheFd = none from hfd] at ha
      exact absurd ha (by simp [SparseFile.empty])

/-- **What one step does to the file.** -/
theorem fileFrame_core [DecidableEq τ] [DecidableEq δ] (h : Inv P s) (hstep : Core P t s s') :
    FileFrame s s' := by
  cases hstep with
  | beginFill idx now _ _ =>
    exact (fileFrame_of_soft (s.c.beginFill_keepsFile ..) (by simp)).congr rfl rfl rfl
  | hydrateClaim now _ _ _ =>
    exact (fileFrame_of_soft (s.c.beginFill_keepsFile ..) (by simp)).congr rfl rfl rfl
  | abortFill now _ =>
    exact (fileFrame_of_soft (s.c.finishPiece_keepsFile ..)
      (s.c.finishPiece_keeps ..).2.2.2.2).congr rfl rfl rfl
  | finishFill hash now _ =>
    exact (fileFrame_of_soft (s.c.finishPiece_keepsFile ..)
      (s.c.finishPiece_keeps ..).2.2.2.2).congr rfl rfl rfl
  | @completeSkip idx _ _ _ _ _ =>
    have hkeeps : Cached.KeepsFile s.c (s.c.dropClaim idx) := ⟨rfl, rfl, rfl⟩
    exact (fileFrame_of_soft hkeeps (by simp)).congr rfl rfl rfl
  | landOpen ok _ => exact (fileFrame_of_open ok).congr rfl rfl rfl
  | copyOpen ok _ => exact (fileFrame_of_open ok).congr rfl rfl rfl
  | streamOpen ok _ _ _ => exact (fileFrame_of_open ok).congr rfl rfl rfl
  | fetchOpen ok _ _ => exact (fileFrame_of_open ok).congr rfl rfl rfl
  | landWrite k _ hact =>
    have hown := h.act t
    rw [hact] at hown
    exact (fileFrame_land hown.2).congr rfl rfl rfl
  | copyWrite k _ hact =>
    have hown := h.act t
    rw [hact] at hown
    exact (fileFrame_land hown.2).congr rfl rfl rfl
  | cacheFillSize id now alloc _ _ =>
    obtain ⟨hkeeps, hcuts⟩ := Cached.cacheFillSize_keepsFile P.pieceSize_pos s.c _ id now alloc
    exact (fileFrame_of_cutsTo hkeeps hcuts).congr (cut_c ..) (cut_dataFile ..) (cut_landed ..)
  | @growForWrite off _ data now resized _ _ =>
    obtain ⟨hgrown, hsoft⟩ :=
      Cached.growToLocked_spec P.pieceSize_pos s.c (off + data.length) resized
    have hkeeps := (hgrown.alike (Cached.stamp_alike _ now)).keeps.keepsFile
    exact (fileFrame_of_soft hkeeps hsoft).congr rfl rfl rfl
  | distrustWrite _ =>
    exact (fileFrame_of_soft s.c.distrust_wiped.keeps.keepsFile s.c.distrust_soft).congr rfl rfl rfl
  | distrust _ _ =>
    exact (fileFrame_of_soft s.c.distrust_wiped.keeps.keepsFile s.c.distrust_soft).congr rfl rfl rfl
  | copyMark _ =>
    obtain ⟨hkeeps, hsoft⟩ := Cached.markCopy_keepsFile P.digest P.pieceSize _ _ s.c _
    exact (fileFrame_of_soft hkeeps hsoft).congr rfl rfl rfl
  | noteOriginId id _ _ =>
    obtain ⟨halike, hsoft⟩ := s.c.noteOriginId_spec id
    exact fileFrame_of_soft halike.keepsHolders.keepsFile hsoft
  | reconcileProbe size id _ _ =>
    obtain ⟨halike, hsoft⟩ := s.c.reconcileProbe_spec size id
    exact (fileFrame_of_soft halike.keepsHolders.keepsFile hsoft).congr rfl rfl rfl
  | reconcileReset _ _ =>
    obtain ⟨hkeeps, hcuts⟩ := s.c.reconcileReset_keepsFile P.pieceSize _ _
    exact (fileFrame_of_cutsTo hkeeps hcuts).congr (cut_c ..) (cut_dataFile ..) (cut_landed ..)
  | truncateEntry alloc _ _ =>
    obtain ⟨hkeeps, hcuts⟩ := s.c.truncateEntry_keepsFile P.pieceSize _ alloc
    exact (fileFrame_of_cutsTo hkeeps hcuts).congr (cut_c ..) (cut_dataFile ..) (cut_landed ..)
  | forget _ _ _ => exact fileFrame_forget.congr rfl rfl rfl
  | punch idx ok env _ _ _ hopen => exact (fileFrame_punch idx ok hopen).congr rfl rfl rfl
  | heal idx _ _ =>
    obtain ⟨hnarrow, hsoft⟩ := s.c.healPiece_spec idx
    exact (fileFrame_of_soft hnarrow.keeps.keepsFile hsoft).congr rfl rfl rfl
  | _ => exact fileFrame_of_same rfl rfl rfl rfl rfl

/-! ## References and history -/

/-- The range a request is about. -/
def Role.job : Role → Option Job
  | .free => none
  | .entered .. => none
  | .probing job => some job
  | .hydrating job _ _ => some job
  | .settling job _ _ => some job
  | .checking job _ => some job
  | .starting job => some job
  | .streaming job _ _ => some job
  | .serving job _ => some job
  | .fetching job _ _ => some job
  | .fetchFd job _ _ _ => some job
  | .fallback job => some job

/-- The length of the history when a request took its reference. -/
def Role.start : Role → Option Nat
  | .entered _ _ n => some n
  | r => r.job.map Job.start

/-- A step of `t` moves no other request, keeps the transfer count the sum of what the requests
hold, and adds nothing to the history itself. -/
structure RoleFrame (t : τ) (s s' : World τ β δ) : Prop where
  others : ∀ u, u ≠ t → s'.role u = s.role u
  xfer : s'.c.xfer + (s.role t).holds = s.c.xfer + (s'.role t).holds
  hist : s'.hist = s.hist
  start : ∀ n, (s'.role t).start = some n → (s.role t).start = some n ∨ n = s.hist.length

theorem RoleFrame.congr {s'' : World τ β δ} (h : RoleFrame t s s') (hc : s''.c = s'.c)
    (hrole : ∀ u, s''.role u = s'.role u) (hhist : s''.hist = s'.hist) : RoleFrame t s s'' :=
  ⟨fun u hu => (hrole u).trans (h.others u hu), by rw [hc, hrole]; exact h.xfer,
    hhist.trans h.hist, by rw [hrole]; exact h.start⟩

/-- Neither references nor requests are touched. -/
theorem roleFrame_of_same (hx : s'.c.xfer = s.c.xfer) (hrole : ∀ u, s'.role u = s.role u)
    (hhist : s'.hist = s.hist) : RoleFrame t s s' :=
  ⟨fun u _ => hrole u, by rw [hx, hrole], hhist, by rw [hrole]; exact fun _ => Or.inl⟩

theorem roleFrame_commit {c : Cached Nat δ} {io : List (Io Nat)} (hx : c.xfer = s.c.xfer) :
    RoleFrame t s (s.commit c io) :=
  roleFrame_of_same ((congrArg Cached.xfer (commit_c s c io)).trans hx) (role_commit s c io)
    (commit_hist ..)

variable [DecidableEq τ]

/-- A request of `t` goes on as `r`. -/
theorem roleFrame_of_setRole {s₁ : World τ β δ} {r : Role}
    (hx : s₁.c.xfer + (s.role t).holds = s.c.xfer + r.holds)
    (hrole : ∀ u, s₁.role u = s.role u) (hhist : s₁.hist = s.hist)
    (hstart : ∀ n, r.start = some n → (s.role t).start = some n ∨ n = s.hist.length) :
    RoleFrame t s (s₁.setRole t r) := by
  refine ⟨fun u hu => (role_setRole_of_ne _ _ hu).trans (hrole u), ?_, hhist, ?_⟩
  · rw [role_setRole_self]
    exact hx
  · rw [role_setRole_self]
    exact hstart

theorem roleFrame_leave {s₁ : World τ β δ} (hx : s₁.c.xfer = s.c.xfer)
    (hrole : ∀ u, s₁.role u = s.role u) (hhist : s₁.hist = s.hist)
    (hle : (s.role t).holds ≤ s.c.xfer) : RoleFrame t s (s₁.leave t) := by
  refine roleFrame_of_setRole ?_ hrole hhist fun n hn => absurd hn (by simp [Role.start, Role.job])
  show s₁.c.xfer - (s₁.role t).holds + _ = _
  rw [hx, hrole]
  exact Nat.sub_add_cancel hle

theorem holds_claimRole (job : Job) (idx retries : Nat) (r : Option Cached.FillClaim) :
    (claimRole job idx retries r).holds = 1 := by
  rcases r with - | (- | - | n)
  · rfl
  · unfold claimRole
    split_ifs <;> rfl
  · rfl
  · rfl

theorem job_claimRole (job : Job) (idx retries : Nat) (r : Option Cached.FillClaim) :
    (claimRole job idx retries r).start = some job.start := by
  rcases r with - | (- | - | n)
  · rfl
  · unfold claimRole
    split_ifs <;> rfl
  · rfl
  · rfl

variable [DecidableEq δ]

/-- **A step moves one request, and the references with it.** -/
theorem roleFrame_core (hle : (s.role t).holds ≤ s.c.xfer) (hstep : Core P t s s') :
    RoleFrame t s s' := by
  have hone : ∀ {s₁ : World τ β δ} {r : Role}, s₁.c.xfer = s.c.xfer →
      (∀ u, s₁.role u = s.role u) → s₁.hist = s.hist →
      r.holds = (s.role t).holds ∧ r.start = (s.role t).start → RoleFrame t s (s₁.setRole t r) := by
    intro s₁ r hx hrole hhist hr
    exact roleFrame_of_setRole (by rw [hx, hr.1]) hrole hhist fun n hn => Or.inl (hr.2 ▸ hn)
  cases hstep with
  | beginFill idx now _ _ =>
    exact (roleFrame_commit (s.c.beginFill_keepsFile P.pieceSize idx now).xfer).congr rfl
      (role_setAct _ t · _) rfl
  | abortFill now _ =>
    exact (roleFrame_commit (s.c.finishPiece_keepsFile ..).xfer).congr rfl (role_setAct _ t · _) rfl
  | @completeSkip idx _ _ _ _ _ =>
    have hx : (s.c.dropClaim idx).xfer = s.c.xfer := rfl
    exact (roleFrame_commit hx).congr rfl (role_setAct _ t · _) rfl
  | landOpen ok _ =>
    exact (roleFrame_commit (s.c.openCacheUnlocked_alike (s.opened ok)).xfer).congr rfl
      (role_setAct _ t · _) rfl
  | copyOpen ok _ =>
    exact (roleFrame_commit (s.c.openCacheUnlocked_alike (s.opened ok)).xfer).congr rfl
      (role_setAct _ t · _) rfl
  | finishFill hash now _ =>
    exact (roleFrame_commit (s.c.finishPiece_keepsFile ..).xfer).congr rfl (role_setAct _ t · _) rfl
  | @cacheFillSize off _ data id now alloc _ _ =>
    have hx := (s.c.cacheFillSize_keepsFile P.pieceSize_pos (off + data.length) id now alloc).1.xfer
    exact (roleFrame_commit hx).congr (cut_c ..)
      (fun u => (role_setAct _ t u _).trans (cut_role ..)) (cut_hist ..)
  | @growForWrite off _ data now resized _ _ =>
    have hx : ((s.c.growToLocked P.pieceSize (off + data.length) resized).1.stamp now).xfer =
        s.c.xfer := (Cached.growToLocked_spec P.pieceSize_pos s.c _ resized).1.keeps.xfer
    exact (roleFrame_commit hx).congr rfl (role_setAct _ t · _) rfl
  | distrustWrite _ =>
    exact (roleFrame_commit s.c.distrust_wiped.keeps.xfer).congr rfl (role_setAct _ t · _) rfl
  | @copyMark off data ok _ =>
    have hx := (s.c.markCopy_keepsFile P.digest P.pieceSize off data ok).1.xfer
    exact (roleFrame_commit hx).congr rfl (role_setAct _ t · _) rfl
  | noteOriginId id _ _ => exact roleFrame_commit (s.c.noteOriginId_spec id).1.xfer
  | reconcileProbe size id _ _ =>
    exact (roleFrame_commit (s.c.reconcileProbe_spec size id).1.xfer).congr rfl
      (role_setAct _ t · _) rfl
  | @reconcileReset size id _ _ =>
    have hx := (s.c.reconcileReset_keepsFile P.pieceSize size id).1.xfer
    exact (roleFrame_commit hx).congr (cut_c ..)
      (fun u => (role_setAct _ t u _).trans (cut_role ..)) (cut_hist ..)
  | @truncateEntry size _ alloc _ _ =>
    have hx := (s.c.truncateEntry_keepsFile P.pieceSize size alloc).1.xfer
    exact (roleFrame_commit hx).congr (cut_c ..)
      (fun u => (role_setAct _ t u _).trans (cut_role ..)) (cut_hist ..)
  | distrust _ _ =>
    exact (roleFrame_commit s.c.distrust_wiped.keeps.xfer).congr rfl (fun _ => rfl) rfl
  | forget _ _ _ =>
    have hx : s.c.forget.1.xfer = s.c.xfer := rfl
    exact (roleFrame_commit hx).congr rfl (fun _ => rfl) rfl
  | punch idx ok env _ _ _ _ =>
    exact (roleFrame_commit (s.c.punchPiece_xfer P.pieceSize idx env)).congr rfl (fun _ => rfl) rfl
  | heal idx _ _ =>
    exact (roleFrame_commit (s.c.healPiece_spec idx).1.keeps.xfer).congr rfl (fun _ => rfl) rfl
  | completeStart | landWrite | refusedDone | originWrite | copyLock | copyWrite | originTruncate =>
    exact roleFrame_of_same rfl (role_setAct _ t · _) rfl
  | @hydrateClaim job idx retries now _ hrole _ =>
    refine hone ?_ (fun u => (role_setAct _ t u _).trans (role_commit ..)) (commit_hist ..) ?_
    · show (s.commit _ _).c.xfer = _
      rw [commit_c, (s.c.beginFill_keepsFile P.pieceSize idx now).xfer]
    · rw [hrole, holds_claimRole, job_claimRole]
      exact ⟨rfl, rfl⟩
  | streamOpen ok _ hrole _ =>
    refine hone ?_ (role_commit _ _ _) (commit_hist ..) ?_
    · rw [commit_c, (s.c.openCacheUnlocked_alike (s.opened ok)).xfer]
    · rw [hrole]
      split <;> exact ⟨rfl, rfl⟩
  | fetchOpen ok _ hrole =>
    refine hone ?_ (role_commit _ _ _) (commit_hist ..) ?_
    · rw [commit_c, (s.c.openCacheUnlocked_alike (s.opened ok)).xfer]
    · rw [hrole]
      split <;> exact ⟨rfl, rfl⟩
  | readEnter off want _ hrole _ =>
    exact roleFrame_of_setRole (by rw [hrole]; rfl) (fun _ => rfl) rfl fun n hn =>
      Or.inr (by cases hn; rfl)
  | serveEnter off len fsize _ hrole _ _ _ =>
    exact roleFrame_of_setRole (by rw [hrole]; rfl) (fun _ => rfl) rfl fun n hn =>
      Or.inr (by cases hn; rfl)
  | servedFromCache take _ hrole _ _ _ _ =>
    exact roleFrame_of_setRole (by rw [hrole]; rfl) (fun _ => rfl) rfl
      fun n hn => Or.inl (by rw [hrole]; exact hn)
  | fetchRead | streamShort | fallbackRead | leave =>
    exact roleFrame_leave rfl (fun _ => rfl) rfl hle
  | fetchSend now _ hrole _ _ =>
    refine roleFrame_of_setRole ?_ (fun _ => rfl) rfl fun n hn => Or.inl (by rw [hrole]; exact hn)
    rw [hrole] at hle ⊢
    have hle' : 2 ≤ s.c.xfer := hle
    show s.c.xfer - 1 + 2 = s.c.xfer + 1
    omega
  | @fetchFailed job done take _ hrole =>
    have hholds : (s.role t).holds = 2 ∧ (s.role t).start = some job.start := by
      rcases hrole with h | ⟨fd, h⟩ <;> rw [h] <;> exact ⟨rfl, rfl⟩
    refine roleFrame_of_setRole ?_ (fun _ => rfl) rfl fun n hn => Or.inl ?_
    · rw [hholds.1] at hle ⊢
      split_ifs <;> show s.c.xfer - 1 + 2 = s.c.xfer + 1 <;> omega
    · rw [hholds.2]
      split_ifs at hn <;> exact hn
  | settleFailed _ hrole =>
    exact hone rfl (role_setAct s t · _) rfl (by rw [hrole]; exact ⟨rfl, rfl⟩)
  | readSample now _ hrole _ =>
    refine hone rfl (fun _ => rfl) rfl ?_
    rw [hrole]
    split_ifs <;> exact ⟨rfl, rfl⟩
  | probeEmpty _ hrole _ =>
    refine hone rfl (fun _ => rfl) rfl ?_
    rw [hrole]
    unfold hydrated
    split_ifs <;> exact ⟨rfl, rfl⟩
  | probeRange now _ hrole _ =>
    refine hone rfl (fun _ => rfl) rfl ?_
    rw [hrole]
    unfold hydrated
    split_ifs <;> exact ⟨rfl, rfl⟩
  | hydrateDone _ hrole _ =>
    refine hone rfl (fun _ => rfl) rfl ?_
    rw [hrole]
    unfold hydrated
    split_ifs <;> exact ⟨rfl, rfl⟩
  | unsettled _ hrole _ _ =>
    refine hone rfl (fun _ => rfl) rfl ?_
    rw [hrole]
    split_ifs <;> exact ⟨rfl, rfl⟩
  | servedFromOrigin take _ hrole _ _ _ =>
    refine hone rfl (fun _ => rfl) rfl ?_
    rw [hrole]
    split_ifs <;> exact ⟨rfl, rfl⟩
  | hydrateMarked _ hrole _ => exact hone rfl (fun _ => rfl) rfl (by rw [hrole]; exact ⟨rfl, rfl⟩)
  | hydrateDead _ hrole _ _ => exact hone rfl (fun _ => rfl) rfl (by rw [hrole]; exact ⟨rfl, rfl⟩)
  | settled _ hrole _ => exact hone rfl (fun _ => rfl) rfl (by rw [hrole]; exact ⟨rfl, rfl⟩)
  | checked _ hrole _ => exact hone rfl (fun _ => rfl) rfl (by rw [hrole]; exact ⟨rfl, rfl⟩)
  | streamUntracked _ hrole _ => exact hone rfl (fun _ => rfl) rfl (by rw [hrole]; exact ⟨rfl, rfl⟩)
  | streamSend now _ hrole _ _ =>
    exact hone rfl (fun _ => rfl) rfl (by rw [hrole]; exact ⟨rfl, rfl⟩)
  | streamFirstFailed now _ hrole =>
    exact hone rfl (fun _ => rfl) rfl (by rw [hrole]; exact ⟨rfl, rfl⟩)

variable (P) in
/-- The transfer count is the sum of what the requests hold, the newest instant of the history is
the present, and every request began inside of the history. -/
structure Refs [Fintype τ] (s : World τ β δ) : Prop where
  xfer : s.c.xfer = total Role.holds s.role
  hist : s.hist = [] ∨ s.hist.head? = some (s.snap P)
  start : ∀ u n, (s.role u).start = some n → n < s.hist.length

variable [Fintype τ]

omit [DecidableEq τ] [DecidableEq δ] in
theorem Refs.le (h : Refs P s) (u : τ) : (s.role u).holds ≤ s.c.xfer :=
  h.xfer ▸ le_total Role.holds s.role u

omit [DecidableEq τ] [DecidableEq δ] in
/-- A request that is under way holds a reference. -/
theorem Refs.pos (h : Refs P s) {u : τ} (hu : s.role u ≠ .free) : 0 < s.c.xfer := by
  have hle := h.le u
  have hone : 0 < (s.role u).holds := by
    cases hr : s.role u <;> first | exact absurd hr hu | exact Nat.one_pos | exact Nat.two_pos
  omega

omit [DecidableEq τ] [DecidableEq δ] in
theorem refs_of_start (h : Start P s) (hhist : s.hist = []) : Refs P s := by
  have hrole : ∀ u, s.role u = .free := fun u => congrArg Thread.role (h.thread u)
  refine ⟨?_, Or.inl hhist, fun u n hn => ?_⟩
  · rw [h.xfer, show s.role = fun _ => Role.free from funext hrole]
    exact (Finset.sum_eq_zero fun _ _ => rfl).symm
  · rw [hrole] at hn
    exact absurd hn (by simp [Role.start, Role.job])

theorem refs_step (h : Refs P s) (hstep : Step P s s') : Refs P s' := by
  obtain ⟨t, s₁, hcore, rfl⟩ := hstep
  have hframe := roleFrame_core (h.le t) hcore
  have hlen : (s₁.tick P).hist.length = s.hist.length + 1 := by
    rw [← hframe.hist]
    rfl
  refine ⟨?_, Or.inr rfl, fun u n hn => ?_⟩
  · have hrole : s₁.role = Function.update s.role t (s₁.role t) := by
      funext u
      by_cases hu : u = t
      · rw [hu, Function.update_self]
      · rw [Function.update_of_ne hu, hframe.others u hu]
    have hmove := total_update Role.holds s.role t (s₁.role t)
    have hx := hframe.xfer
    have hsum := h.xfer
    show s₁.c.xfer = total Role.holds s₁.role
    rw [hrole]
    omega
  · rw [hlen]
    have hn' : (s₁.role u).start = some n := hn
    by_cases hu : u = t
    · rw [hu] at hn'
      rcases hframe.start n hn' with hold | rfl
      · exact (h.start t n hold).trans (Nat.lt_succ_self _)
      · exact Nat.lt_succ_self _
    · rw [hframe.others u hu] at hn'
      exact (h.start u n hn').trans (Nat.lt_succ_self _)

omit [DecidableEq τ] [DecidableEq δ] in
/-- The present is one of the instants a request has seen. -/
theorem snap_mem_since (h : Refs P s) {u : τ} {n : Nat} (hn : (s.role u).start = some n) :
    s.snap P ∈ s.since n := by
  have hlt := h.start u n hn
  rcases h.hist with hnil | hhead
  · rw [hnil] at hlt
    exact absurd hlt (by simp)
  · cases hl : s.hist with
    | nil => rw [hl] at hlt; exact absurd hlt (by simp)
    | cons i l =>
      rw [hl] at hhead hlt
      cases hhead
      obtain ⟨k, hk⟩ : ∃ k, (s.snap P :: l).length - n = k + 1 := ⟨_, (by omega :
        (s.snap P :: l).length - n = ((s.snap P :: l).length - n - 1) + 1)⟩
      unfold since
      rw [hl, hk]
      exact List.mem_cons_self

end Entry

end ModelFs
