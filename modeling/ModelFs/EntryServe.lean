import ModelFs.EntryRead

/-!
# Bytes served to a peer

`serveData` hydrates its range, letting raced pieces through, and then sends the range from the
cache descriptor without looking at a mark again. A truncate or a forget meanwhile drops the marks
but leaves the bytes where they are: the transfer reference holds the cut off. So what is sent was
marked during the request and is never a hole, as long as the entry is live and reaches to the
end of the range until the request has its descriptor.

* `SentVouched`, `SentFilled` — each byte is of a piece marked during the request, not invalidated
  since; none is of a hole of an unmarked piece.
* `SentMarked` — each byte is of a piece marked during the request, and not a hole.
* `server_core` — a piece a request has behind it stays in the data file until it is sent.
* `sent_of_run` — **peers are sent bytes of marked pieces along every such run.**
* `sent_fails` — a truncate under a transfer leaves unmarked bytes to send, and a shrink under the
  hydration leaves a hole.
-/

namespace ModelFs

namespace Entry

open Piece World

variable {τ β δ : Type} {P : Params β δ}
variable {s s' : World τ β δ} {t : τ}

variable (P) in
/-- Each byte of a chunk is of a piece that was marked at an instant of the request and not
invalidated since. -/
def SentVouched (x : Sent β) : Prop :=
  ∀ o, x.off ≤ o → o < x.off + x.len → ∃ i ∈ x.window, i.marked (o / P.pieceSize) = true ∧
    i.inval (o / P.pieceSize) = x.inval (o / P.pieceSize)

variable (P) in
/-- No byte of a chunk is of a hole of an unmarked piece. -/
def SentFilled (x : Sent β) : Prop :=
  ∀ o, x.off ≤ o → o < x.off + x.len → x.hole o = true → x.marked (o / P.pieceSize) = true

variable (P) in
/-- Each byte of a chunk is of a piece that was marked at an instant of the request, and it is not
a hole. -/
def SentMarked (x : Sent β) : Prop :=
  ∀ o, x.off ≤ o → o < x.off + x.len →
    (∃ i ∈ x.window, i.marked (o / P.pieceSize) = true) ∧ x.hole o = false

/-! ## What a request has behind it -/

/-- The bytes of the range below `stop` are kept, and the request has seen the mark of each. -/
structure Behind (P : Params β δ) (s : World τ β δ) (job : Job) (stop : Nat) : Prop where
  kept : Covered s job stop
  seen : ∀ o, job.off ≤ o → o < job.off + job.len → o < stop →
    ∃ i ∈ s.since job.start, i.marked (o / P.pieceSize) = true

/-- The field can name every byte of a chunk of the range. -/
def Named (P : Params β δ) (job : Job) (done take : Nat) : Prop :=
  done + take ≤ job.len ∧
    ∀ o, job.off + done ≤ o → o < job.off + done + take → o < offset maxU32 P.pieceSize

variable (P) in
/-- What the entry owes a request for a peer, by how far it has come. -/
def ServeOk (s : World τ β δ) (r : Role) : Prop :=
  match r with
  | .probing job => job.kind = .serve → job.off + job.len ≤ job.fsize
  | .hydrating job idx _ => job.kind = .serve →
      job.off + job.len ≤ job.fsize ∧ Behind P s job (offset idx P.pieceSize)
  | .settling job idx _ => job.kind = .serve →
      job.off + job.len ≤ job.fsize ∧ Behind P s job (offset idx P.pieceSize)
  | .checking job idx => job.kind = .serve →
      job.off + job.len ≤ job.fsize ∧ Behind P s job (offset idx P.pieceSize)
  | .starting job => job.kind = .serve ∧ Behind P s job (offset maxU32 P.pieceSize) ∧
      (rangeTracked job.span job.fsize P.pieceSize = true →
        Named P job 0 job.len ∧ Fetchable s job 0 job.len)
  | .streaming job _ fd => job.kind = .serve ∧ s.c.cacheFd = some fd ∧
      Behind P s job (offset maxU32 P.pieceSize) ∧ Named P job 0 job.len ∧
      ∀ o, job.off ≤ o → o < job.off + job.len → HasCell s o
  | .serving job _ => job.kind = .serve → Behind P s job (offset maxU32 P.pieceSize)
  | .fetching job done take => job.kind = .serve →
      Behind P s job (offset maxU32 P.pieceSize) ∧ Named P job done take ∧ Fetchable s job done take
  | .fetchFd job done take fd => job.kind = .serve → s.c.cacheFd = some fd ∧
      Behind P s job (offset maxU32 P.pieceSize) ∧ Named P job done take ∧
      ∀ o, job.off + done ≤ o → o < job.off + done + take → HasCell s o
  | _ => True

/-- The range of a request that is still hydrating. -/
def Role.hydrates : Role → Option Job
  | .probing job => some job
  | .hydrating job _ _ => some job
  | .settling job _ _ => some job
  | .checking job _ => some job
  | _ => none

/-- The range of a request whose next step opens the data file. -/
def Role.opens : Role → Option Job
  | .starting job => some job
  | .fetching job _ _ => some job
  | _ => none

/-- The condition: while a request for a peer hydrates, and while it is about to open a data file
the entry has no descriptor of, the entry is live and reaches to the end of the range; while the
request falls back to reads, a live entry does. -/
structure ServeFits (s : World τ β δ) : Prop where
  hydrates : ∀ u job, (s.role u).hydrates = some job → job.kind = .serve →
    s.c.dead = false ∧ job.off + job.len ≤ s.c.size
  opens : s.c.cacheFd = none → ∀ u job, (s.role u).opens = some job → job.kind = .serve →
    s.c.dead = false ∧ job.off + job.len ≤ s.c.size
  serves : s.c.dead = false → ∀ u job done, s.role u = .serving job done → job.kind = .serve →
    job.off + job.len ≤ s.c.size

/-- The range a request works on, until it ends or goes to the origin. -/
def Role.works : Role → Option Job
  | .fallback _ => none
  | r => r.job

/-- An entry without a descriptor has the bytes of every such request below its size. -/
theorem ServeFits.fits (h : ServeFits s) {u : τ} (hok : ServeOk P s (s.role u)) {job : Job}
    (hjob : (s.role u).works = some job) (hk : job.kind = .serve) (hnone : s.c.cacheFd = none)
    (hlive : s.c.dead = false) : job.off + job.len ≤ s.c.size := by
  have hhydrates := fun h' => (h.hydrates u job h' hk).2
  have hopens := fun h' => (h.opens hnone u job h' hk).2
  cases hr : s.role u with
  | free | entered | fallback => rw [hr] at hjob; exact absurd hjob (by simp [Role.works, Role.job])
  | probing | hydrating | settling | checking => exact hhydrates (by rw [hr] at hjob ⊢; exact hjob)
  | starting | fetching => exact hopens (by rw [hr] at hjob ⊢; exact hjob)
  | serving job' done =>
    rw [hr] at hjob
    cases hjob
    exact h.serves hlive u job done hr hk
  | streaming job' done fd =>
    rw [hr] at hok
    exact absurd (hnone.symm.trans hok.2.1) (by simp)
  | fetchFd job' done take fd =>
    rw [hr] at hok hjob
    cases hjob
    exact absurd (hnone.symm.trans (hok hk).1) (by simp)

/-! ## What a step leaves of it -/

theorem Behind.step (hframe : FileFrame s s') (hx : 0 < s.c.xfer) (hhist : s'.hist = s.hist)
    {job : Job} {stop : Nat}
    (hfits : s.c.cacheFd = none → s.c.dead = false → job.off + job.len ≤ s.c.size)
    (h : Behind P s job stop) : Behind P s' job stop := by
  refine ⟨h.kept.step hframe hx hfits, ?_⟩
  have hsince : s'.since job.start = s.since job.start := by
    unfold since
    rw [hhist]
  rw [hsince]
  exact h.seen

/-- What a request has seen it has still seen an instant later. -/
theorem Behind.tick {job : Job} {stop : Nat} (h : Behind P s job stop) :
    Behind P (s.tick P) job stop := by
  refine ⟨h.kept, fun o hlo hhi hstop => ?_⟩
  obtain ⟨i, hi, hmark⟩ := h.seen o hlo hhi hstop
  refine ⟨i, ?_, hmark⟩
  show i ∈ (s.snap P :: s.hist).take ((s.hist.length + 1) - job.start)
  by_cases hle : job.start ≤ s.hist.length
  · rw [Nat.succ_sub hle, List.take_succ_cons]
    exact List.mem_cons_of_mem _ hi
  · have hnil : s.since job.start = [] := by
      unfold since
      rw [Nat.sub_eq_zero_of_le (by omega), List.take_zero]
    rw [hnil] at hi
    exact absurd hi (by simp)

/-- What the entry owes a role it still owes it after a step. -/
theorem ServeOk.step (hframe : FileFrame s s') (hx : 0 < s.c.xfer) (hhist : s'.hist = s.hist)
    {r : Role}
    (hfits : ∀ job, r.works = some job → job.kind = .serve → s.c.cacheFd = none →
      s.c.dead = false → job.off + job.len ≤ s.c.size)
    (hopens : ∀ job, r.opens = some job → job.kind = .serve → s.c.cacheFd = none →
      s.c.dead = false)
    (h : ServeOk P s r) : ServeOk P s' r := by
  have hfd : ∀ fd, s.c.cacheFd = some fd → ∀ o, HasCell s o → HasCell s' o := fun fd hfd o hhas =>
    hframe.cells hx o (Or.inl (by rw [hfd]; simp)) hhas
  have hstays : ∀ job, r.opens = some job → job.kind = .serve → s.c.dead = true →
      s.c.cacheFd = none → s'.c.cacheFd = none := fun job hj hk hdead hnone =>
    absurd ((hopens job hj hk hnone).symm.trans hdead) (by simp)
  cases r with
  | free | entered | fallback => trivial
  | probing job => exact h
  | hydrating job idx retries =>
    exact fun hk => ⟨(h hk).1, (h hk).2.step hframe hx hhist (hfits job rfl hk)⟩
  | settling job idx retries =>
    exact fun hk => ⟨(h hk).1, (h hk).2.step hframe hx hhist (hfits job rfl hk)⟩
  | checking job idx =>
    exact fun hk => ⟨(h hk).1, (h hk).2.step hframe hx hhist (hfits job rfl hk)⟩
  | starting job =>
    obtain ⟨hk, hbehind, hfetch⟩ := h
    refine ⟨hk, hbehind.step hframe hx hhist (hfits job rfl hk), fun htracked => ?_⟩
    exact ⟨(hfetch htracked).1, (hfetch htracked).2.step hframe hx (hstays job rfl hk)
      (hfits job rfl hk)⟩
  | streaming job done fd =>
    obtain ⟨hk, hcur, hbehind, hnamed, hcells⟩ := h
    exact ⟨hk, hframe.fd fd hcur, hbehind.step hframe hx hhist (hfits job rfl hk), hnamed,
      fun o hlo hhi => hfd fd hcur o (hcells o hlo hhi)⟩
  | serving job done => exact fun hk => (h hk).step hframe hx hhist (hfits job rfl hk)
  | fetching job done take =>
    intro hk
    obtain ⟨hbehind, hnamed, hfetch⟩ := h hk
    refine ⟨hbehind.step hframe hx hhist (hfits job rfl hk), hnamed,
      hfetch.step hframe hx (hstays job rfl hk) fun hnone hlive => ?_⟩
    have hfit := hfits job rfl hk hnone hlive
    have hbound := hnamed.1
    omega
  | fetchFd job done take fd =>
    intro hk
    obtain ⟨hcur, hbehind, hnamed, hcells⟩ := h hk
    exact ⟨hframe.fd fd hcur, hbehind.step hframe hx hhist (hfits job rfl hk), hnamed,
      fun o hlo hhi => hfd fd hcur o (hcells o hlo hhi)⟩

theorem ServeOk.tick {r : Role} (h : ServeOk P s r) : ServeOk P (s.tick P) r := by
  cases r with
  | free | entered | fallback => trivial
  | probing job => exact h
  | hydrating | settling | checking => exact fun hk => ⟨(h hk).1, (h hk).2.tick⟩
  | starting job => exact ⟨h.1, h.2.1.tick, h.2.2⟩
  | streaming job done fd => exact ⟨h.1, h.2.1, h.2.2.1.tick, h.2.2.2⟩
  | serving job done => exact fun hk => (h hk).tick
  | fetching job done take => exact fun hk => ⟨(h hk).1.tick, (h hk).2⟩
  | fetchFd job done take fd => exact fun hk => ⟨(h hk).1, (h hk).2.1.tick, (h hk).2.2⟩

/-! ## The steps of a request -/

/-- A marked piece of the range is behind the request. -/
theorem Behind.next_marked (hinv : Inv P s) {job : Job} {idx : Nat}
    (hnow : s.snap P ∈ s.since job.start) (hbit : s.c.bits.get idx = true)
    (hfit : s.c.dead = false → job.off + job.len ≤ s.c.size)
    (h : Behind P s job (offset idx P.pieceSize)) :
    Behind P s job (offset (idx + 1) P.pieceSize) := by
  refine ⟨h.kept.next_marked hinv hbit hfit, fun o hlo hhi hstop => ?_⟩
  by_cases ho : o < offset idx P.pieceSize
  · exact h.seen o hlo hhi ho
  · have hnext : offset (idx + 1) P.pieceSize = offset idx P.pieceSize + P.pieceSize := by
      unfold offset
      ring
    have hdiv : o / P.pieceSize = idx := (mem_piece_iff P.pieceSize_pos).mp ⟨by omega, by omega⟩
    exact ⟨s.snap P, hnow, by rw [hdiv]; exact hbit⟩

/-- The condition leaves no raced piece in the range. -/
theorem Behind.next_raced {job : Job} {idx : Nat} {now : Int}
    (hraced : (s.c.beginFill P.pieceSize idx now).2 = some .raced)
    (hfit : s.c.dead = false ∧ job.off + job.len ≤ s.c.size)
    (h : Behind P s job (offset idx P.pieceSize)) :
    Behind P s job (offset (idx + 1) P.pieceSize) := by
  refine ⟨h.kept.next_raced hraced fun _ => hfit.2, fun o hlo hhi hstop => ?_⟩
  rcases Cached.beginFill_answer.2 hraced with hdead | hlen
  · exact absurd (hfit.1.symm.trans hdead) (by simp)
  · by_cases ho : o < offset idx P.pieceSize
    · exact h.seen o hlo hhi ho
    · have hsize : offset idx P.pieceSize < s.c.size := by omega
      have hpos := (len_pos_iff P.pieceSize_pos).mpr hsize
      omega

/-- Nothing of the range lies before its first piece. -/
theorem behind_start (s : World τ β δ) (job : Job) :
    Behind P s job (offset (cover job.span job.fsize P.pieceSize).start P.pieceSize) := by
  refine ⟨covered_start s job, fun o hlo hhi hstop => ?_⟩
  exact absurd hlo (Nat.not_le.mpr (lt_of_lt_of_le hstop (offset_start_le job)))

/-- When the whole cover is marked the range is behind the request. -/
theorem behind_of_rangeFilled (hinv : Inv P s) {job : Job} (hnow : s.snap P ∈ s.since job.start)
    (hsize : job.off + job.len ≤ job.fsize)
    (hfit : s.c.dead = false → job.off + job.len ≤ s.c.size)
    (hfilled : s.c.rangeFilled job.span job.fsize P.pieceSize = true) :
    Behind P s job (offset maxU32 P.pieceSize) := by
  refine ⟨covered_of_rangeFilled hinv hsize hfit hfilled, fun o hlo hhi hnamed => ?_⟩
  obtain ⟨hstart, hstop⟩ := mem_cover_of_named hlo hhi hsize hnamed
  exact ⟨s.snap P, hnow, bit_of_rangeFilled hfilled hstart hstop⟩

/-- Past the last piece of the cover the whole range is. -/
theorem behind_of_done {job : Job} {idx : Nat} (hsize : job.off + job.len ≤ job.fsize)
    (hend : (cover job.span job.fsize P.pieceSize).stop ≤ idx)
    (h : Behind P s job (offset idx P.pieceSize)) : Behind P s job (offset maxU32 P.pieceSize) := by
  refine ⟨covered_of_done hsize hend h.kept, fun o hlo hhi hnamed => h.seen o hlo hhi ?_⟩
  have hstop := (mem_cover_of_named hlo hhi hsize hnamed).2
  exact (Nat.div_lt_iff_lt_mul P.pieceSize_pos).mp (hstop.trans_le hend)

/-- A tracked range that ends inside of its file is named. -/
theorem named_of_rangeTracked {job : Job} {done take n : Nat} (hbound : done + take ≤ job.len)
    (hsize : job.off + job.len ≤ n)
    (htracked : rangeTracked ⟨job.off + done, take⟩ n P.pieceSize = true) :
    Named P job done take := by
  refine ⟨hbound, fun o hlo hhi => ?_⟩
  exact lt_offset_of_rangeTracked P.pieceSize_le htracked hlo hhi (by omega)

/-- The chunk of a live entry can be fetched. -/
theorem fetchable_of_behind {job : Job} {done take : Nat} (hlive : s.c.dead = false)
    (hnamed : Named P job done take) (h : Behind P s job (offset maxU32 P.pieceSize)) :
    Fetchable s job done take := by
  refine Or.inr fun o hlo hhi => ?_
  have hbound := hnamed.1
  rcases h.kept o (by omega) (by omega) (hnamed.2 o hlo hhi) with hdead | hhas
  · exact absurd (hlive.symm.trans hdead) (by simp)
  · exact hhas

/-- A hydrated range of a live entry can be sent. -/
theorem serveOk_hydrated {job : Job} (hlive : job.kind = .serve → s.c.dead = false)
    (hsize : job.kind = .serve → job.off + job.len ≤ job.fsize)
    (h : job.kind = .serve → Behind P s job (offset maxU32 P.pieceSize)) :
    ServeOk P s (hydrated job) := by
  unfold hydrated
  split_ifs with hkind
  · exact h
  · have hk : job.kind = .serve := by
      cases hj : job.kind with
      | read => exact absurd hj hkind
      | serve => rfl
    refine ⟨hk, h hk, fun htracked => ?_⟩
    have hnamed : Named P job 0 job.len :=
      named_of_rangeTracked (by simp) (hsize hk) htracked
    exact ⟨hnamed, fetchable_of_behind (hlive hk) hnamed (h hk)⟩

/-- What the claim of a piece leaves to do. -/
theorem serveOk_claimRole {job : Job} {idx retries : Nat} {now : Int}
    (hfit : job.kind = .serve → s.c.dead = false ∧ job.off + job.len ≤ s.c.size)
    (h : ServeOk P s (.hydrating job idx retries)) :
    ServeOk P s (claimRole job idx retries (s.c.beginFill P.pieceSize idx now).2) := by
  cases hres : (s.c.beginFill P.pieceSize idx now).2 with
  | none => exact h
  | some r =>
    cases r with
    | len n => exact h
    | raced => exact fun hk => ⟨(h hk).1, (h hk).2.next_raced hres (hfit hk)⟩
    | filled =>
      unfold claimRole
      split_ifs with hk
      · exact fun hk' => absurd (hk.symm.trans hk') (by simp)
      · exact h

theorem works_claimRole (job : Job) (idx retries : Nat) (r : Option Cached.FillClaim) :
    (claimRole job idx retries r).works = some job := by
  rcases r with - | (- | - | n)
  · rfl
  · unfold claimRole
    split_ifs <;> rfl
  · rfl
  · rfl

theorem opens_claimRole (job : Job) (idx retries : Nat) (r : Option Cached.FillClaim) :
    (claimRole job idx retries r).opens = none := by
  rcases r with - | (- | - | n)
  · rfl
  · unfold claimRole
    split_ifs <;> rfl
  · rfl
  · rfl

theorem works_hydrated (job : Job) : (hydrated job).works = some job := by
  unfold hydrated
  split_ifs <;> rfl

theorem job_of_opens_hydrated {job job' : Job} (h : (hydrated job).opens = some job') :
    job = job' := by
  unfold hydrated at h
  split_ifs at h
  · exact absurd h (by simp [Role.opens])
  · cases h
    rfl

variable [DecidableEq τ]

/-- What the entry owes a role does not depend on the roles there are. -/
theorem serveOk_setRole {r q : Role} : ServeOk P (s.setRole t r) q ↔ ServeOk P s q := by
  have hbehind : ∀ job stop, Behind P (s.setRole t r) job stop ↔ Behind P s job stop :=
    fun job stop => ⟨fun h => ⟨h.kept, h.seen⟩, fun h => ⟨h.kept, h.seen⟩⟩
  cases q <;> simp only [ServeOk, hbehind] <;> exact Iff.rfl

variable [Fintype τ]

omit [DecidableEq τ] in
/-- A request keeps what it has over a step that does not move it. -/
theorem ServeOk.still (hframe : FileFrame s s') (hhist : s'.hist = s.hist) (hrefs : Refs P s)
    (hfits : ServeFits s) {u : τ} (h : ServeOk P s (s.role u)) : ServeOk P s' (s.role u) := by
  by_cases hfree : s.role u = .free
  · rw [hfree]
    trivial
  · exact h.step hframe (hrefs.pos hfree) hhist
      (fun job hj hk hnone hlive => hfits.fits h hj hk hnone hlive)
      fun job hj hk hnone => (hfits.opens hnone u job hj hk).1

variable [DecidableEq δ]

/-- **A request keeps what it needs**, through its own steps. -/
theorem server_core (hinv : Inv P s) (hrefs : Refs P s) (hfits : ServeFits s)
    (hok : ServeOk P s (s.role t)) (hstep : Core P t s s') : ServeOk P s' (s'.role t) := by
  have hframe := fileFrame_core hinv hstep
  have hhist := (roleFrame_core (hrefs.le t) hstep).hist
  have hstill := ServeOk.still hframe hhist hrefs hfits hok
  have hnow := fun n (hn : (s.role t).start = some n) => snap_mem_since hrefs hn
  -- a role about the range the request already has
  have hgo : ∀ (job : Job) (r : Role), (s.role t).works = some job → r.works = some job →
      (∀ job', r.opens = some job' → job'.kind = .serve → s.c.cacheFd = none → s.c.dead = false) →
      ServeOk P s r → ServeOk P s' r := by
    intro job r hj hr hopens h
    have hbusy : s.role t ≠ .free := fun hfree => by
      rw [hfree] at hj
      exact absurd hj (by simp [Role.works, Role.job])
    refine h.step hframe (hrefs.pos hbusy) hhist (fun job' hj' hk hnone hlive => ?_) hopens
    cases hr.symm.trans hj'
    exact hfits.fits hok hj hk hnone hlive
  cases hstep with
  | beginFill | abortFill | completeSkip | landOpen | copyOpen | finishFill | cacheFillSize
  | growForWrite | distrustWrite | copyMark | noteOriginId | reconcileProbe | reconcileReset
  | truncateEntry | distrust | forget | punch | heal | completeStart | landWrite | refusedDone
  | originWrite | copyLock | copyWrite | originTruncate =>
    simp only [role_setAct, role_commit, cut_role, truncate_role, role_unlock, role_invalidate,
      role_lock]
    exact hstill
  | readEnter =>
    rw [role_setRole_self]
    trivial
  | fetchRead | streamShort | fallbackRead | leave =>
    rw [role_leave_self]
    trivial
  | serveEnter off len fsize _ _ _ _ hrange =>
    rw [role_setRole_self]
    exact fun _ => hrange
  | readSample =>
    rw [role_setRole_self]
    split_ifs <;> exact fun hk => Kind.noConfusion hk
  | @probeEmpty job hact hrole hcov =>
    rw [role_setRole_self]
    have hlive := hfits.hydrates t job (by rw [hrole]; rfl)
    rw [hrole] at hok hgo
    refine hgo job _ rfl (works_hydrated job) ?_ ?_
    · exact fun job' hj hk _ => (hlive (by cases job_of_opens_hydrated hj; exact hk)).1
    · refine serveOk_hydrated (fun hk => (hlive hk).1) hok fun hk => ?_
      have hnone : ∀ o, job.off ≤ o → o < job.off + job.len → ¬ o < offset maxU32 P.pieceSize := by
        intro o hlo hhi hnamed
        have hmem := mem_cover_of_named hlo hhi (hok hk) hnamed
        omega
      exact ⟨fun o hlo hhi h => absurd h (hnone o hlo hhi),
        fun o hlo hhi h => absurd h (hnone o hlo hhi)⟩
  | @probeRange job now hact hrole hcov =>
    rw [role_setRole_self]
    have hlive := hfits.hydrates t job (by rw [hrole]; rfl)
    have hmem := hnow job.start (by rw [hrole]; rfl)
    rw [hrole] at hok hgo
    rw [serveOk_setRole]
    split_ifs with hready
    · refine serveOk_setRole.mp (hgo job _ rfl (works_hydrated job) ?_ ?_)
      · exact fun job' hj hk _ => (hlive (by cases job_of_opens_hydrated hj; exact hk)).1
      · exact serveOk_hydrated (fun hk => (hlive hk).1) hok fun hk =>
          behind_of_rangeFilled hinv hmem (hok hk) (fun _ => (hlive hk).2) hready
    · exact serveOk_setRole.mp
        (hgo job (.hydrating job _ 0) rfl rfl (fun _ h => by cases h) fun hk =>
          ⟨hok hk, behind_start s job⟩)
  | @hydrateDone job idx retries hact hrole hend =>
    rw [role_setRole_self]
    have hlive := hfits.hydrates t job (by rw [hrole]; rfl)
    rw [hrole] at hok hgo
    refine hgo job _ rfl (works_hydrated job) ?_ ?_
    · exact fun job' hj hk _ => (hlive (by cases job_of_opens_hydrated hj; exact hk)).1
    · exact serveOk_hydrated (fun hk => (hlive hk).1) (fun hk => (hok hk).1) fun hk =>
        behind_of_done (hok hk).1 hend (hok hk).2
  | @hydrateMarked job idx retries hact hrole hbit =>
    rw [role_setRole_self]
    have hlive := hfits.hydrates t job (by rw [hrole]; rfl)
    have hmem := hnow job.start (by rw [hrole]; rfl)
    rw [hrole] at hok hgo
    exact hgo job (.hydrating job (idx + 1) 0) rfl rfl (fun _ h => by cases h) fun hk =>
      ⟨(hok hk).1, (hok hk).2.next_marked hinv hmem hbit fun _ => (hlive hk).2⟩
  | @hydrateDead job idx retries hact hrole hkind hdead =>
    rw [role_setRole_self]
    exact fun hk => absurd (hkind.symm.trans hk) (by simp)
  | @hydrateClaim job idx retries now hact hrole hmore =>
    rw [role_setRole_self]
    have hlive := hfits.hydrates t job (by rw [hrole]; rfl)
    rw [hrole] at hok hgo
    refine hgo job _ rfl (works_claimRole ..) (fun job' hj => ?_) (serveOk_claimRole hlive hok)
    rw [opens_claimRole] at hj
    exact absurd hj (by simp)
  | @settled job idx retries hact hrole hbit =>
    rw [role_setRole_self]
    have hlive := hfits.hydrates t job (by rw [hrole]; rfl)
    have hmem := hnow job.start (by rw [hrole]; rfl)
    rw [hrole] at hok hgo
    exact hgo job (.hydrating job (idx + 1) 0) rfl rfl (fun _ h => by cases h) fun hk =>
      ⟨(hok hk).1, (hok hk).2.next_marked hinv hmem hbit fun _ => (hlive hk).2⟩
  | @unsettled job idx retries hact hrole hkind hbit =>
    rw [role_setRole_self]
    split_ifs
    · exact fun hk => absurd (hkind.symm.trans hk) (by simp)
    · trivial
  | settleFailed =>
    rw [role_setRole_self]
    trivial
  | @checked job idx hact hrole hbit =>
    rw [role_setRole_self]
    have hlive := hfits.hydrates t job (by rw [hrole]; rfl)
    have hmem := hnow job.start (by rw [hrole]; rfl)
    rw [hrole] at hok hgo
    exact hgo job (.hydrating job (idx + 1) 0) rfl rfl (fun _ h => by cases h) fun hk =>
      ⟨(hok hk).1, (hok hk).2.next_marked hinv hmem hbit fun _ => (hlive hk).2⟩
  | @streamOpen job ok hact hrole htracked =>
    rw [role_setRole_self]
    rw [hrole] at hstill
    rw [serveOk_setRole] at hstill ⊢
    obtain ⟨hk, hbehind, hfetch⟩ := hstill
    obtain ⟨hnamed, hfetchable⟩ := hfetch htracked
    have hc := commit_c s (s.c.openCacheUnlocked (s.opened ok)).1
      (s.c.openCacheUnlocked (s.opened ok)).2
    cases hfd : (s.c.openCacheUnlocked (s.opened ok)).1.cacheFd with
    | none => exact fun _ => hbehind
    | some fd =>
      rw [← hc] at hfd
      rcases hfetchable with ⟨-, hnone⟩ | hcells
      · exact absurd (hfd.symm.trans hnone) (by simp)
      · exact ⟨hk, hfd, hbehind, hnamed, hcells⟩
  | @streamUntracked job hact hrole htracked =>
    rw [role_setRole_self]
    rw [hrole] at hstill
    exact fun _ => hstill.2.1
  | @streamSend job done fd now hact hrole hmore hfull =>
    rw [role_setRole_self]
    rw [hrole] at hstill
    exact hstill
  | @streamFirstFailed job fd now hact hrole =>
    rw [role_setRole_self]
    rw [hrole] at hstill
    exact fun _ => hstill.2.2.1
  | @servedFromOrigin job done take hact hrole hmore hwhole hcache =>
    rw [role_setRole_self]
    rw [hrole] at hstill
    rw [serveOk_setRole] at hstill ⊢
    split_ifs
    · trivial
    · exact hstill
  | @servedFromCache job done take hact hrole hmore hwhole hlive htracked =>
    rw [role_setRole_self]
    have hfit := hfits.serves hlive t job done hrole
    rw [hrole] at hok hgo
    refine hgo job (.fetching job done take) rfl rfl (fun _ _ _ _ => hlive) fun hk => ?_
    have hnamed := named_of_rangeTracked hmore (hfit hk) htracked
    exact ⟨hok hk, hnamed, fetchable_of_behind hlive hnamed (hok hk)⟩
  | @fetchOpen job done take ok hact hrole =>
    rw [role_setRole_self]
    rw [hrole] at hstill
    rw [serveOk_setRole] at hstill ⊢
    have hc := commit_c s (s.c.openCacheUnlocked (s.opened ok)).1
      (s.c.openCacheUnlocked (s.opened ok)).2
    cases hfd : (s.c.openCacheUnlocked (s.opened ok)).1.cacheFd with
    | none => exact hstill
    | some fd =>
      rw [← hc] at hfd
      intro hk
      obtain ⟨hbehind, hnamed, hfetchable⟩ := hstill hk
      rcases hfetchable with ⟨-, hnone⟩ | hcells
      · exact absurd (hfd.symm.trans hnone) (by simp)
      · exact ⟨hfd, hbehind, hnamed, hcells⟩
  | @fetchSend job done take fd now hact hrole hkind hfull =>
    rw [role_setRole_self]
    rw [hrole] at hstill
    exact fun hk => (hstill hk).2.1
  | @fetchFailed job done take hact hrole =>
    rw [role_setRole_self]
    rw [serveOk_setRole] at hstill ⊢
    split_ifs
    · trivial
    · rcases hrole with hr | ⟨fd, hr⟩ <;> rw [hr] at hstill
      · exact fun hk => (hstill hk).1
      · exact fun hk => (hstill hk).2.1

/-! ## Every run -/

variable (P) in
/-- The invariant of the requests for peers. -/
structure Serves (s : World τ β δ) : Prop where
  inv : Inv P s
  refs : Refs P s
  role : ∀ u, ServeOk P s (s.role u)
  sent : ∀ x ∈ s.sent, SentMarked P x

variable (P) in
/-- The condition of a run: copies are fresh, and the file does not shrink into a request without
a descriptor. -/
def ServeCond (s _s' : World τ β δ) : Prop := CopyFresh P s ∧ ServeFits s

omit [Fintype τ] [DecidableEq τ] [DecidableEq δ] in
/-- A chunk of a range that is behind its request goes out marked and in the file. -/
theorem sentMarked_of_behind {job : Job} {done take fd : Nat} (hfd : s.c.cacheFd = some fd)
    (hbehind : Behind P s job (offset maxU32 P.pieceSize)) (hnamed : Named P job done take)
    (hcells : ∀ o, job.off + done ≤ o → o < job.off + done + take → HasCell s o) :
    SentMarked P ⟨job.off + done, take, s.since job.start, s.c.bits.get, s.inval,
      fun o => ((s.inode fd).cell o).isNone⟩ := by
  intro o hlo hhi
  have hbound := hnamed.1
  have hlo' : job.off + done ≤ o := hlo
  have hhi' : o < job.off + done + take := hhi
  refine ⟨hbehind.seen o (by omega) (by omega) (hnamed.2 o hlo hhi), ?_⟩
  obtain ⟨a, ha⟩ := hcells o hlo hhi
  rw [dataFile_of_fd s hfd] at ha
  show ((s.inode fd).cell o).isNone = false
  rw [ha]
  rfl

theorem sent_core (h : Serves P s) (hstep : Core P t s s') : ∀ x ∈ s'.sent, SentMarked P x := by
  have hsame : s'.sent = s.sent → ∀ x ∈ s'.sent, SentMarked P x := fun heq x hx =>
    h.sent x (heq ▸ hx)
  have hmore : ∀ y : Sent β, SentMarked P y → ∀ x ∈ y :: s.sent, SentMarked P x := by
    intro y hy x hx
    rcases List.mem_cons.mp hx with rfl | hold
    · exact hy
    · exact h.sent x hold
  have hok := h.role t
  cases hstep with
  | @streamSend job done fd now hact hrole hlt hfull =>
    rw [hrole] at hok
    obtain ⟨hk, hfd, hbehind, hnamed, hcells⟩ := hok
    refine hmore _ (sentMarked_of_behind (s := s) hfd hbehind
      ⟨by omega, fun o hlo hhi => ?_⟩ fun o hlo hhi => ?_)
    · exact hnamed.2 o (by omega) (by omega)
    · exact hcells o (by omega) (by omega)
  | @streamShort job done fd k now hact hrole hk hlen hsome =>
    rw [hrole] at hok
    obtain ⟨-, hfd, hbehind, hnamed, hcells⟩ := hok
    refine hmore _ (sentMarked_of_behind (s := s) hfd hbehind
      ⟨by omega, fun o hlo hhi => ?_⟩ fun o hlo hhi => ?_)
    · exact hnamed.2 o (by omega) (by omega)
    · exact hcells o (by omega) (by omega)
  | @fetchSend job done take fd now hact hrole hkind hfull =>
    rw [hrole] at hok
    obtain ⟨hfd, hbehind, hnamed, hcells⟩ := hok hkind
    exact hmore _ (sentMarked_of_behind (s := s) hfd hbehind hnamed hcells)
  | cacheFillSize | reconcileReset | truncateEntry =>
    exact hsame ((cut_sent ..).trans (commit_sent ..))
  | beginFill | abortFill | completeSkip | landOpen | copyOpen | finishFill
  | growForWrite | distrustWrite | copyMark | noteOriginId | reconcileProbe
  | distrust | forget | punch | heal | hydrateClaim | streamOpen | fetchOpen =>
    exact hsame (commit_sent ..)
  | _ => exact hsame rfl

theorem serves_step (h : Serves P s) (hstep : Step P s s') (hcond : ServeCond P s s') :
    Serves P s' := by
  have hrefs := refs_step h.refs hstep
  have hinv := inv_step h.inv hcond.1 hstep
  obtain ⟨t, s₁, hcore, rfl⟩ := hstep
  have hroles := roleFrame_core (h.refs.le t) hcore
  refine ⟨hinv, hrefs, fun u => ?_, fun x hx => sent_core h hcore x hx⟩
  have hrole : ServeOk P s₁ (s₁.role u) := by
    by_cases hu : u = t
    · rw [hu]
      exact server_core h.inv h.refs hcond.2 (h.role t) hcore
    · rw [hroles.others u hu]
      exact (h.role u).still (fileFrame_core h.inv hcore) hroles.hist h.refs hcond.2
  exact hrole.tick

omit [Fintype τ] in
variable (P) in
/-- An entry nobody uses yet. -/
structure ServeStart (s : World τ β δ) : Prop extends Start P s where
  hist : s.hist = []
  sent : s.sent = []

omit [DecidableEq τ] [DecidableEq δ] in
theorem serves_of_start (h : ServeStart P s) : Serves P s := by
  have hrole : ∀ u, s.role u = .free := fun u => congrArg Thread.role (h.thread u)
  refine ⟨inv_of_start h.toStart, refs_of_start h.toStart h.hist, fun u => ?_, fun x hx => ?_⟩
  · rw [hrole]
    trivial
  · rw [h.sent] at hx
    exact absurd hx (by simp)

/-- **Peers are sent bytes of marked pieces**, none of them a hole, along every run in which no
file shrinks into a request that hydrates. -/
theorem sent_of_run {s₀ s : World τ β δ} (hstart : ServeStart P s₀)
    (hrun : Run (Step P) (ServeCond P) s₀ s) : ∀ x ∈ s.sent, SentMarked P x := by
  have hstep : ∀ s s' : World τ β δ, Serves P s → Step P s s' → ServeCond P s s' → Serves P s' :=
    fun _ _ h hstep hcond => serves_step h hstep hcond
  exact (Run.invariant hstep (serves_of_start hstart) hrun).sent

/-! ## Runs that send what is not marked -/

omit [Fintype τ] [DecidableEq τ] in
theorem serveStart_freshEntry (n : Nat) : ServeStart smallPieces (freshEntry τ n) where
  toStart := start_freshEntry τ n
  hist := rfl
  sent := rfl

omit [Fintype τ] [DecidableEq τ] [DecidableEq δ] in
/-- The condition for a request alone with a live entry. -/
theorem serveCond_alone {s s' : World Unit β δ}
    (hact : ∀ off data born fd, s.act () ≠ .copyFd off data born fd)
    (hfit : ((s.role ()).job.all fun job => job.off + job.len ≤ s.c.size) = true)
    (hlive : s.c.dead = false) : ServeCond P s s' := by
  have hjob : ∀ job, (s.role ()).job = some job → job.off + job.len ≤ s.c.size := fun job h => by
    rw [h] at hfit
    exact of_decide_eq_true hfit
  refine ⟨fun _ _ _ _ _ _ h => absurd h (hact _ _ _ _), ⟨fun u job h _ => ⟨hlive, hjob job ?_⟩,
    fun _ u job h _ => ⟨hlive, hjob job ?_⟩, fun _ u job done h _ => hjob job ?_⟩⟩
  · cases hr : s.role () <;> rw [hr] at h <;>
      first | exact h | exact absurd h (by simp [Role.hydrates])
  · cases hr : s.role () <;> rw [hr] at h <;>
      first | exact h | exact absurd h (by simp [Role.opens])
  · rw [h]
    rfl

/-- A request for one piece that misses, fills it and sends it. -/
theorem sent_of_run_miss :
    ∃ s : World Unit UInt8 (List UInt8), s.sent ≠ [] ∧ ∀ x ∈ s.sent, SentMarked smallPieces x := by
  have r₀ : Run (Step smallPieces) (ServeCond smallPieces) _ _ := Run.refl (freshEntry Unit 4)
  have r₁ := run_core r₀ (Core.serveEnter (t := ()) 0 4 4 rfl rfl rfl (by decide) (by decide))
    (serveCond_alone nofun rfl rfl)
  have r₂ := run_core r₁
    (Core.probeRange (t := ()) 0 rfl rfl (by decide)) (serveCond_alone nofun rfl rfl)
  have r₃ := run_core r₂
    (Core.hydrateClaim (t := ()) 0 rfl rfl (by decide)) (serveCond_alone nofun rfl rfl)
  have r₄ := run_core r₃
    (Core.completeStart (t := ()) [7, 7, 7, 7] rfl rfl rfl rfl) (serveCond_alone nofun rfl rfl)
  have r₅ := run_core r₄ (Core.landOpen (t := ()) true rfl) (serveCond_alone nofun rfl rfl)
  have r₆ := run_core r₅ (Core.landWrite (t := ()) 4 (by decide) rfl)
    (serveCond_alone nofun rfl rfl)
  have r₇ := run_core r₆ (Core.finishFill (t := ()) none 0 rfl) (serveCond_alone nofun rfl rfl)
  have r₈ := run_core r₇ (Core.settled (t := ()) rfl rfl (by decide))
    (serveCond_alone nofun rfl rfl)
  have r₉ := run_core r₈
    (Core.hydrateDone (t := ()) rfl rfl (by decide)) (serveCond_alone nofun rfl rfl)
  have r₁₀ := run_core r₉
    (Core.streamOpen (t := ()) true rfl rfl (by decide)) (serveCond_alone nofun rfl rfl)
  have r₁₁ := run_core r₁₀
    (Core.streamSend (t := ()) 0 rfl rfl (by decide) (by decide)) (serveCond_alone nofun rfl rfl)
  exact ⟨_, List.cons_ne_nil _ _, sent_of_run (serveStart_freshEntry 4) r₁₁⟩

/-- A request has its piece filled when a truncate drops the mark: the cut of the file waits for
the transfer, and the request sends the piece. -/
theorem unvouched_after_truncate :
    ∃ s₀ s : World Bool UInt8 (List UInt8), ServeStart smallPieces s₀ ∧
      Run (Step smallPieces) Always s₀ s ∧ ∃ x ∈ s.sent, ¬ SentVouched smallPieces x := by
  have r₀ : Run (Step smallPieces) Always _ _ := Run.refl (freshEntry Bool 8)
  have r₁ := run_core r₀
    (Core.serveEnter (t := false) 0 4 8 rfl rfl rfl (by decide) (by decide)) trivial
  have r₂ := run_core r₁ (Core.probeRange (t := false) 0 rfl rfl (by decide)) trivial
  have r₃ := run_core r₂ (Core.hydrateClaim (t := false) 0 rfl rfl (by decide)) trivial
  have r₄ := run_core r₃ (Core.completeStart (t := false) [7, 7, 7, 7] rfl rfl rfl rfl) trivial
  have r₅ := run_core r₄ (Core.landOpen (t := false) true rfl) trivial
  have r₆ := run_core r₅ (Core.landWrite (t := false) 4 (by decide) rfl) trivial
  have r₇ := run_core r₆ (Core.finishFill (t := false) none 0 rfl) trivial
  have r₈ := run_core r₇ (Core.settled (t := false) rfl rfl (by decide)) trivial
  have r₉ := run_core r₈ (Core.hydrateDone (t := false) rfl rfl (by decide)) trivial
  have r₁₀ := run_core r₉ (Core.streamOpen (t := false) true rfl rfl (by decide)) trivial
  have r₁₁ := run_core r₁₀ (Core.originTruncate (t := true) 4 rfl rfl) trivial
  have r₁₂ := run_core r₁₁ (Core.truncateEntry (t := true) true rfl rfl) trivial
  have r₁₃ := run_core r₁₂ (Core.streamSend (t := false) 0 rfl rfl (by decide) (by decide)) trivial
  refine ⟨_, _, serveStart_freshEntry 8, r₁₃, _, List.mem_cons_self, fun h => ?_⟩
  exact absurd (h 0 (by decide) (by decide)) (by decide)

/-- A request for the second of two pieces is about to claim it when a truncate cuts it off and
another grows the file back: the claim in between is raced, and the request sends the hole. -/
theorem hole_after_shrink :
    ∃ s₀ s : World Bool UInt8 (List UInt8), ServeStart smallPieces s₀ ∧
      Run (Step smallPieces) Always s₀ s ∧ ∃ x ∈ s.sent, ¬ SentFilled smallPieces x := by
  have r₀ : Run (Step smallPieces) Always _ _ := Run.refl (freshEntry Bool 8)
  have r₁ := run_core r₀
    (Core.serveEnter (t := false) 4 4 8 rfl rfl rfl (by decide) (by decide)) trivial
  have r₂ := run_core r₁ (Core.probeRange (t := false) 0 rfl rfl (by decide)) trivial
  have r₃ := run_core r₂ (Core.originTruncate (t := true) 4 rfl rfl) trivial
  have r₄ := run_core r₃ (Core.truncateEntry (t := true) true rfl rfl) trivial
  have r₅ := run_core r₄ (Core.hydrateClaim (t := false) 0 rfl rfl (by decide)) trivial
  have r₆ := run_core r₅ (Core.hydrateDone (t := false) rfl rfl (by decide)) trivial
  have r₇ := run_core r₆ (Core.originTruncate (t := true) 8 rfl rfl) trivial
  have r₈ := run_core r₇ (Core.truncateEntry (t := true) true rfl rfl) trivial
  have r₉ := run_core r₈ (Core.streamOpen (t := false) true rfl rfl (by decide)) trivial
  have r₁₀ := run_core r₉ (Core.streamSend (t := false) 0 rfl rfl (by decide) (by decide)) trivial
  refine ⟨_, _, serveStart_freshEntry 8, r₁₀, _, List.mem_cons_self, fun h => ?_⟩
  exact absurd (h 4 (by decide) (by decide)) (by decide)

/-- What a peer is sent is not vouched for by a mark, nor free of holes. -/
theorem sent_fails :
    ¬ (∀ s₀ s : World Bool UInt8 (List UInt8), ServeStart smallPieces s₀ →
      Run (Step smallPieces) Always s₀ s → ∀ x ∈ s.sent, SentVouched smallPieces x) ∧
    ¬ (∀ s₀ s : World Bool UInt8 (List UInt8), ServeStart smallPieces s₀ →
      Run (Step smallPieces) Always s₀ s → ∀ x ∈ s.sent, SentFilled smallPieces x) := by
  obtain ⟨s₀, s, hstart, hrun, x, hx, hno⟩ := unvouched_after_truncate
  obtain ⟨s₀', s', hstart', hrun', x', hx', hno'⟩ := hole_after_shrink
  exact ⟨fun h => hno (h s₀ s hstart hrun x hx), fun h => hno' (h s₀' s' hstart' hrun' x' hx')⟩

end Entry

end ModelFs
