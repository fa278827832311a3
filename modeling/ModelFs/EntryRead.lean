import ModelFs.EntryRequest

/-!
# Bytes a read returns

`mf_read` hydrates its range piece by piece, lets a raced piece through, and then reads the
range from the cache descriptor. What it returns is right as long as the file does not shrink
into its range before it has the descriptor, and as long as the descriptor is not made for an
entry that was forgotten in between.

* `Told` — every byte is one the origin or the cache held during the read.
* `reader_core` — a hydrated piece stays in the data file to the end of the read.
* `answers_of_run` — **reads are told the truth along every such run.**
* `answers_fail_after_shrink` — a shrink under a read makes it return a hole.
-/

namespace ModelFs

namespace Entry

open Piece World

variable {τ β δ : Type} {P : Params β δ}
variable {s s' : World τ β δ} {t : τ}

/-- Every byte of an answer is one the origin held, or the one a fill or write-through had last
put there, at some instant of the read. -/
def Told (a : Answer β) : Prop :=
  ∀ k b, a.bytes[k]? = some b →
    ∃ i ∈ a.window, i.origin (a.off + k) = some b ∨ i.landed (a.off + k) = some b

/-! ## What a read has behind it -/

/-- The byte at `o` is there for a read, or the read will not come for it: the entry is dead. -/
def Kept (s : World τ β δ) (o : Nat) : Prop := s.c.dead = true ∨ HasCell s o

/-- The bytes of the range below `stop` are kept. -/
def Covered (s : World τ β δ) (job : Job) (stop : Nat) : Prop :=
  ∀ o, job.off ≤ o → o < job.off + job.len → o < stop → Kept s o

/-- The bytes a cache read is about to return are there, or it has no descriptor to read them
from. -/
def Fetchable (s : World τ β δ) (job : Job) (done take : Nat) : Prop :=
  s.c.dead = true ∧ s.c.cacheFd = none ∨
    ∀ o, job.off + done ≤ o → o < job.off + done + take → HasCell s o

variable (P) in
/-- What the entry owes a read, by how far it has come. -/
def RoleOk (s : World τ β δ) (r : Role) : Prop :=
  match r with
  | .probing job => job.kind = .read → job.off + job.len ≤ job.fsize
  | .hydrating job idx _ => job.kind = .read →
      job.off + job.len ≤ job.fsize ∧ Covered s job (offset idx P.pieceSize)
  | .settling job idx _ => job.kind = .read →
      job.off + job.len ≤ job.fsize ∧ Covered s job (offset idx P.pieceSize)
  | .checking job _ => job.kind ≠ .read
  | .starting job => job.kind ≠ .read
  | .streaming job _ _ => job.kind ≠ .read
  | .serving job _ => job.kind = .read → Covered s job (offset maxU32 P.pieceSize)
  | .fetching job done take => job.kind = .read →
      done + take ≤ job.len ∧ Fetchable s job done take
  | .fetchFd job done take fd => job.kind = .read → s.c.cacheFd = some fd ∧
      ∀ o, job.off + done ≤ o → o < job.off + done + take → HasCell s o
  | _ => True

/-- The range of a read that does not have its descriptor yet. -/
def Role.pending : Role → Option Job
  | .probing job => some job
  | .hydrating job _ _ => some job
  | .settling job _ _ => some job
  | .serving job _ => some job
  | .fetching job _ _ => some job
  | _ => none

/-- The condition on sizes: no live entry is shorter than a read that is under way and does not
have its descriptor yet. -/
def ReadFits (s : World τ β δ) : Prop :=
  s.c.dead = false → ∀ u job, (s.role u).pending = some job → job.kind = .read →
    job.off + job.len ≤ s.c.size

/-- The condition on opens: while a read is about to open the data file, no open makes a
descriptor for a dead entry that has none. -/
def ReadOpens (s s' : World τ β δ) : Prop :=
  s.c.dead = true → s.c.cacheFd = none →
    (∃ u job done take, s.role u = .fetching job done take ∧ job.kind = .read) →
      s'.c.cacheFd = none

/-! ## What a step leaves of it -/

theorem Kept.step (hframe : FileFrame s s') (hx : 0 < s.c.xfer) {o : Nat}
    (ho : s.c.cacheFd = none → s.c.dead = false → o < s.c.size) (h : Kept s o) : Kept s' o := by
  cases hd : s'.c.dead with
  | true => exact Or.inl hd
  | false =>
    have hlive : s.c.dead = false := by
      rw [← Bool.not_eq_true]
      intro hdead
      rw [hframe.dead hdead] at hd
      exact Bool.noConfusion hd
    rcases h with hdead | hhas
    · rw [hdead] at hlive
      exact Bool.noConfusion hlive
    · by_cases hnone : s.c.cacheFd = none
      · exact Or.inr (hframe.cells hx o (Or.inr ⟨hd, ho hnone hlive⟩) hhas)
      · exact Or.inr (hframe.cells hx o (Or.inl hnone) hhas)

theorem Covered.step (hframe : FileFrame s s') (hx : 0 < s.c.xfer) {job : Job} {stop : Nat}
    (hfits : s.c.cacheFd = none → s.c.dead = false → job.off + job.len ≤ s.c.size)
    (h : Covered s job stop) : Covered s' job stop := fun o hlo hhi hstop =>
  (h o hlo hhi hstop).step hframe hx fun hnone hlive => hhi.trans_le (hfits hnone hlive)

theorem Fetchable.step (hframe : FileFrame s s') (hx : 0 < s.c.xfer) {job : Job} {done take : Nat}
    (hopens : s.c.dead = true → s.c.cacheFd = none → s'.c.cacheFd = none)
    (hfit : s.c.cacheFd = none → s.c.dead = false → job.off + done + take ≤ s.c.size)
    (h : Fetchable s job done take) : Fetchable s' job done take := by
  rcases h with ⟨hd, hnone⟩ | hcells
  · exact Or.inl ⟨hframe.dead hd, hopens hd hnone⟩
  · by_cases hnone : s.c.cacheFd = none
    · cases hd' : s'.c.dead with
      | false =>
        cases hd : s.c.dead with
        | true => exact absurd ((hframe.dead hd).symm.trans hd') (by simp)
        | false =>
          exact Or.inr fun o hlo hhi =>
            hframe.cells hx o (Or.inr ⟨hd', hhi.trans_le (hfit hnone hd)⟩) (hcells o hlo hhi)
      | true =>
        refine Or.inl ⟨hd', ?_⟩
        cases hd : s.c.dead with
        | true => exact hopens hd hnone
        | false => exact (hframe.died hd hd').trans hnone
    · exact Or.inr fun o hlo hhi => hframe.cells hx o (Or.inl hnone) (hcells o hlo hhi)

/-- What the entry owes a role it still owes it after a step. -/
theorem RoleOk.step (hframe : FileFrame s s') (hx : 0 < s.c.xfer) {r : Role}
    (hfits : ∀ job, r.pending = some job → job.kind = .read → s.c.dead = false →
      job.off + job.len ≤ s.c.size)
    (hopens : ∀ job done take, r = .fetching job done take → job.kind = .read →
      s.c.dead = true → s.c.cacheFd = none → s'.c.cacheFd = none)
    (h : RoleOk P s r) : RoleOk P s' r := by
  cases r with
  | probing job => exact h
  | hydrating job idx retries =>
    exact fun hk => ⟨(h hk).1, (h hk).2.step hframe hx fun _ => hfits job rfl hk⟩
  | settling job idx retries =>
    exact fun hk => ⟨(h hk).1, (h hk).2.step hframe hx fun _ => hfits job rfl hk⟩
  | checking job idx => exact h
  | starting job => exact h
  | streaming job done fd => exact h
  | serving job done => exact fun hk => (h hk).step hframe hx fun _ => hfits job rfl hk
  | fetching job done take =>
    intro hk
    obtain ⟨hle, hfetch⟩ := h hk
    refine ⟨hle, hfetch.step hframe hx (hopens job done take rfl hk) fun _ hlive => ?_⟩
    have hfit := hfits job rfl hk hlive
    omega
  | fetchFd job done take fd =>
    intro hk
    obtain ⟨hfd, hcells⟩ := h hk
    refine ⟨hframe.fd fd hfd, fun o hlo hhi => hframe.cells hx o (Or.inl ?_) (hcells o hlo hhi)⟩
    rw [hfd]
    simp
  | _ => trivial

/-! ## The steps of a read -/

/-- A marked piece of a live entry is all there, below the size. -/
theorem kept_of_marked (h : Inv P s) {i o : Nat} (hbit : s.c.bits.get i = true)
    (hlo : offset i P.pieceSize ≤ o) (hhi : o < offset i P.pieceSize + P.pieceSize)
    (hsize : s.c.dead = false → o < s.c.size) : Kept s o := by
  cases hd : s.c.dead with
  | true => exact Or.inl hd
  | false =>
    obtain ⟨a, ha, -⟩ := (h.sound i hbit).2 o hlo
      (lt_offset_add_len_iff.mpr ⟨hsize hd, hlo, hhi⟩).1
    exact Or.inr ⟨a, ha⟩

/-- One more piece of the range is kept. -/
theorem Covered.next {job : Job} {idx : Nat} (h : Covered s job (offset idx P.pieceSize))
    (hpiece : ∀ o, job.off ≤ o → o < job.off + job.len → offset idx P.pieceSize ≤ o →
      o < offset idx P.pieceSize + P.pieceSize → Kept s o) :
    Covered s job (offset (idx + 1) P.pieceSize) := by
  intro o hlo hhi hstop
  by_cases ho : o < offset idx P.pieceSize
  · exact h o hlo hhi ho
  · have hnext : offset (idx + 1) P.pieceSize = offset idx P.pieceSize + P.pieceSize := by
      unfold offset
      ring
    exact hpiece o hlo hhi (by omega) (by omega)

theorem Covered.next_marked (hinv : Inv P s) {job : Job} {idx : Nat}
    (hbit : s.c.bits.get idx = true) (hfit : s.c.dead = false → job.off + job.len ≤ s.c.size)
    (h : Covered s job (offset idx P.pieceSize)) :
    Covered s job (offset (idx + 1) P.pieceSize) :=
  h.next fun _ _ hhi hlo' hhi' =>
    kept_of_marked hinv hbit hlo' hhi' fun hlive => hhi.trans_le (hfit hlive)

/-- A byte the bitfield can name. -/
theorem div_lt_of_lt_offset {o : Nat} (h : o < offset maxU32 P.pieceSize) :
    o / P.pieceSize < maxU32 := (Nat.div_lt_iff_lt_mul P.pieceSize_pos).mpr h

/-- A byte of a range that ends inside of its file is in a piece of the range's cover. -/
theorem mem_cover_of_named {job : Job} {o : Nat} (hlo : job.off ≤ o) (hhi : o < job.off + job.len)
    (hsize : job.off + job.len ≤ job.fsize) (hnamed : o < offset maxU32 P.pieceSize) :
    (cover job.span job.fsize P.pieceSize).start ≤ o / P.pieceSize ∧
      o / P.pieceSize < (cover job.span job.fsize P.pieceSize).stop := by
  have hdiv := div_lt_of_lt_offset hnamed
  refine mem_cover P.pieceSize_pos hlo ?_ (hhi.trans_le hsize) hdiv
  have hmax : offset maxU32 P.pieceSize ≤ maxU32 * maxU32 :=
    Nat.mul_le_mul_left _ P.pieceSize_le
  have hbig : maxU32 * maxU32 < maxU64 := by decide
  exact lt_min hhi (by omega)

theorem bit_of_rangeFilled {job : Job} {i : Nat}
    (hfilled : s.c.rangeFilled job.span job.fsize P.pieceSize = true)
    (hlo : (cover job.span job.fsize P.pieceSize).start ≤ i)
    (hhi : i < (cover job.span job.fsize P.pieceSize).stop) : s.c.bits.get i = true := by
  unfold Cached.rangeFilled at hfilled
  split_ifs at hfilled
  exact (Bitfield.allSet_iff ..).mp hfilled i hlo hhi

/-- When the whole cover is marked the range is kept. -/
theorem covered_of_rangeFilled (h : Inv P s) {job : Job} (hsize : job.off + job.len ≤ job.fsize)
    (hfit : s.c.dead = false → job.off + job.len ≤ s.c.size)
    (hfilled : s.c.rangeFilled job.span job.fsize P.pieceSize = true) :
    Covered s job (offset maxU32 P.pieceSize) := by
  intro o hlo hhi hnamed
  obtain ⟨hstart, hstop⟩ := mem_cover_of_named hlo hhi hsize hnamed
  have hbit := bit_of_rangeFilled hfilled hstart hstop
  obtain ⟨hlo', hhi'⟩ := (mem_piece_iff P.pieceSize_pos).mpr (rfl : o / P.pieceSize = _)
  exact kept_of_marked h hbit hlo' hhi' fun hlive => hhi.trans_le (hfit hlive)

/-- Past the last piece of the cover the whole range is kept. -/
theorem covered_of_done {job : Job} {idx : Nat} (hsize : job.off + job.len ≤ job.fsize)
    (hend : (cover job.span job.fsize P.pieceSize).stop ≤ idx)
    (h : Covered s job (offset idx P.pieceSize)) : Covered s job (offset maxU32 P.pieceSize) := by
  intro o hlo hhi hnamed
  have hstop := (mem_cover_of_named hlo hhi hsize hnamed).2
  exact h o hlo hhi ((Nat.div_lt_iff_lt_mul P.pieceSize_pos).mp (hstop.trans_le hend))

theorem offset_start_le (job : Job) :
    offset (cover job.span job.fsize P.pieceSize).start P.pieceSize ≤ job.off := by
  refine (offset_le_iff P.pieceSize_pos).mpr ?_
  unfold cover
  split_ifs
  · exact Nat.zero_le _
  · rw [indexAt_eq]
    exact min_le_left ..

/-- Nothing of the range lies before its first piece. -/
theorem covered_start (s : World τ β δ) (job : Job) :
    Covered s job (offset (cover job.span job.fsize P.pieceSize).start P.pieceSize) := by
  intro o hlo _ hstop
  have hoff := offset_start_le (P := P) job
  omega

/-- The piece a read let through without a mark is past the size, or the entry is dead. -/
theorem Covered.next_raced {job : Job} {idx : Nat} {now : Int}
    (hraced : (s.c.beginFill P.pieceSize idx now).2 = some .raced)
    (hfit : s.c.dead = false → job.off + job.len ≤ s.c.size)
    (h : Covered s job (offset idx P.pieceSize)) :
    Covered s job (offset (idx + 1) P.pieceSize) := by
  refine h.next fun o _ hhi hlo' _ => ?_
  rcases Cached.beginFill_answer.2 hraced with hd | hlen
  · exact Or.inl hd
  · cases hd : s.c.dead with
    | true => exact Or.inl hd
    | false =>
      have hpos := (len_pos_iff P.pieceSize_pos).mpr (lt_of_le_of_lt hlo' (hhi.trans_le (hfit hd)))
      omega

variable [Fintype τ]

/-- A request keeps what it has over a step that does not move it. -/
theorem RoleOk.still (hframe : FileFrame s s') (hrefs : Refs P s) (hfits : ReadFits s)
    (hopens : ReadOpens s s') {u : τ} (h : RoleOk P s (s.role u)) : RoleOk P s' (s.role u) := by
  by_cases hfree : s.role u = .free
  · rw [hfree]
    trivial
  · exact h.step hframe (hrefs.pos hfree) (fun job hp hk hlive => hfits hlive u job hp hk)
      fun job done take hr hk hd hnone => hopens hd hnone ⟨u, job, done, take, hr, hk⟩

omit [Fintype τ] in
theorem roleOk_claimRole (hinv : Inv P s) {job : Job} {idx retries : Nat} {now : Int}
    (hfit : job.kind = .read → s.c.dead = false → job.off + job.len ≤ s.c.size)
    (h : RoleOk P s (.hydrating job idx retries)) :
    RoleOk P s (claimRole job idx retries (s.c.beginFill P.pieceSize idx now).2) := by
  cases hres : (s.c.beginFill P.pieceSize idx now).2 with
  | none => exact h
  | some r =>
    cases r with
    | len n => exact h
    | raced => exact fun hk => ⟨(h hk).1, (h hk).2.next_raced hres (hfit hk)⟩
    | filled =>
      unfold claimRole
      split_ifs with hk
      · exact fun _ =>
          ⟨(h hk).1, (h hk).2.next_marked hinv (Cached.beginFill_answer.1 hres) (hfit hk)⟩
      · exact hk

theorem pending_claimRole {job job' : Job} {idx retries : Nat} {r : Option Cached.FillClaim}
    (h : (claimRole job idx retries r).pending = some job') : some job = some job' := by
  rcases r with - | (- | - | n)
  · exact h
  · unfold claimRole at h
    split_ifs at h
    · exact h
    · exact absurd h (by simp [Role.pending])
  · exact h
  · exact h

theorem claimRole_ne_fetching {job job' : Job} {idx retries done take : Nat}
    {r : Option Cached.FillClaim} : claimRole job idx retries r ≠ .fetching job' done take := by
  rcases r with - | (- | - | n) <;> unfold claimRole
  · simp
  · split_ifs <;> simp
  · simp
  · simp

variable [DecidableEq τ] [DecidableEq δ]

/-- **A read keeps what it needs**, through its own steps. -/
theorem reader_core (hinv : Inv P s) (hrefs : Refs P s) (hfits : ReadFits s)
    (hopens : ReadOpens s s') (hok : RoleOk P s (s.role t)) (hstep : Core P t s s') :
    RoleOk P s' (s'.role t) := by
  have hframe := fileFrame_core hinv hstep
  have hstill := RoleOk.still hframe hrefs hfits hopens hok
  -- a role whose range is the one the read already has
  have hgo : ∀ r : Role, s.role t ≠ .free → RoleOk P s r →
      (∀ job, r.pending = some job → (s.role t).pending = some job) →
      (∀ job done take, r ≠ .fetching job done take) → RoleOk P s' r :=
    fun r hbusy hr hp hnot => hr.step hframe (hrefs.pos hbusy)
      (fun job hpend hk hlive => hfits hlive t job (hp job hpend) hk)
      fun job done take heq => absurd heq (hnot job done take)
  cases hstep with
  | beginFill | abortFill | completeSkip | landOpen | copyOpen | finishFill | cacheFillSize
  | growForWrite | distrustWrite | copyMark | noteOriginId | reconcileProbe | reconcileReset
  | truncateEntry | distrust | forget | punch | heal | completeStart | landWrite | refusedDone
  | originWrite | copyLock | copyWrite | originTruncate =>
    simp only [role_setAct, role_commit, cut_role, truncate_role, role_unlock, role_invalidate,
      role_lock]
    exact hstill
  | readEnter =>
    rw [role_setRole_self]
    trivial
  | fetchRead | streamShort | fallbackRead | leave =>
    rw [role_leave_self]
    trivial
  | serveEnter =>
    rw [role_setRole_self]
    exact fun hk => Kind.noConfusion hk
  | @readSample off want start now hact hrole hoff =>
    rw [role_setRole_self]
    have hpos := hrefs.pos (u := t) (by rw [hrole]; simp)
    have hsize : off + min want (s.c.size - off) ≤ s.c.size := by omega
    split_ifs with hready
    · have hserving :
          RoleOk P s (.serving ⟨.read, off, min want (s.c.size - off), s.c.size, start⟩ 0) :=
        fun _ => covered_of_rangeFilled hinv hsize (fun _ => hsize) hready
      exact hserving.step hframe hpos (fun job hj _ _ => by cases hj; exact hsize)
        fun _ _ _ h => absurd h (by simp)
    · exact fun _ => hsize
  | @probeEmpty job hact hrole hcov =>
    rw [role_setRole_self]
    rw [hrole] at hok hgo
    unfold hydrated
    split_ifs with hk
    · refine hgo (.serving job 0) (by simp) (fun _ o hlo hhi hnamed => ?_) (fun _ h => h) (by simp)
      have hmem := mem_cover_of_named hlo hhi (hok hk) hnamed
      omega
    · exact hk
  | @probeRange job now hact hrole hcov =>
    rw [role_setRole_self]
    have hfit := fun hk hlive => hfits hlive t job (by rw [hrole]; rfl) hk
    rw [hrole] at hok hgo
    split_ifs with hready
    · unfold hydrated
      split_ifs with hk
      · exact hgo (.serving job 0) (by simp)
          (fun _ => covered_of_rangeFilled hinv (hok hk) (hfit hk) hready) (fun _ h => h) (by simp)
      · exact hk
    · exact hgo (.hydrating job _ 0) (by simp) (fun hk => ⟨hok hk, covered_start s job⟩)
        (fun _ h => h) (by simp)
  | @hydrateDone job idx retries hact hrole hend =>
    rw [role_setRole_self]
    rw [hrole] at hok hgo
    unfold hydrated
    split_ifs with hk
    · exact hgo (.serving job 0) (by simp)
        (fun _ => covered_of_done (hok hk).1 hend (hok hk).2) (fun _ h => h) (by simp)
    · exact hk
  | @hydrateMarked job idx retries hact hrole hbit =>
    rw [role_setRole_self]
    have hfit := fun hk hlive => hfits hlive t job (by rw [hrole]; rfl) hk
    rw [hrole] at hok hgo
    exact hgo (.hydrating job (idx + 1) 0) (by simp)
      (fun hk => ⟨(hok hk).1, (hok hk).2.next_marked hinv hbit (hfit hk)⟩) (fun _ h => h) (by simp)
  | @hydrateDead job idx retries hact hrole hkind hdead =>
    rw [role_setRole_self]
    rw [hrole] at hok hgo
    exact hgo (.hydrating job (idx + 1) 0) (by simp)
      (fun hk => ⟨(hok hk).1, (hok hk).2.next fun _ _ _ _ _ => Or.inl hdead⟩) (fun _ h => h)
      (by simp)
  | @hydrateClaim job idx retries now hact hrole hmore =>
    rw [role_setRole_self]
    have hfit := fun hk hlive => hfits hlive t job (by rw [hrole]; rfl) hk
    rw [hrole] at hok hgo
    exact hgo _ (by simp) (roleOk_claimRole hinv hfit hok) (fun job' h => pending_claimRole h)
      fun _ _ _ => claimRole_ne_fetching
  | @settled job idx retries hact hrole hbit =>
    rw [role_setRole_self]
    have hfit := fun hk hlive => hfits hlive t job (by rw [hrole]; rfl) hk
    rw [hrole] at hok hgo
    exact hgo (.hydrating job (idx + 1) 0) (by simp)
      (fun hk => ⟨(hok hk).1, (hok hk).2.next_marked hinv hbit (hfit hk)⟩) (fun _ h => h) (by simp)
  | @unsettled job idx retries hact hrole hkind hbit =>
    rw [role_setRole_self]
    rw [hrole] at hok hgo
    split_ifs
    · exact hgo (.hydrating job idx (retries + 1)) (by simp) hok (fun _ h => h) (by simp)
    · trivial
  | settleFailed =>
    rw [role_setRole_self]
    trivial
  | checked _ hrole _ =>
    rw [role_setRole_self]
    rw [hrole] at hok
    exact fun hk => absurd hk hok
  | streamOpen ok _ hrole _ =>
    rw [role_setRole_self]
    rw [hrole] at hok
    split
    · exact hok
    · exact fun hk => absurd hk hok
  | streamUntracked _ hrole _ =>
    rw [role_setRole_self]
    rw [hrole] at hok
    exact fun hk => absurd hk hok
  | streamSend now _ hrole _ _ =>
    rw [role_setRole_self]
    rw [hrole] at hok
    exact hok
  | streamFirstFailed now _ hrole =>
    rw [role_setRole_self]
    rw [hrole] at hok
    exact fun hk => absurd hk hok
  | servedFromOrigin take _ hrole _ _ _ =>
    rw [role_setRole_self]
    split_ifs with hk
    · trivial
    · exact fun hk' => absurd hk' hk
  | @servedFromCache job done take hact hrole hmore hwhole hlive htracked =>
    rw [role_setRole_self]
    have hpos := hrefs.pos (u := t) (by rw [hrole]; simp)
    have hfit := fun hk => hfits hlive t job (by rw [hrole]; rfl) hk
    rw [hrole] at hok
    have hfetching : RoleOk P s (.fetching job done take) := by
      refine fun hk => ⟨hmore, Or.inr fun o hlo hhi => ?_⟩
      have hsize := hfit hk
      have hnamed := lt_offset_of_rangeTracked P.pieceSize_le htracked hlo hhi (by omega)
      rcases hok hk o (by omega) (by omega) hnamed with hdead | hhas
      · exact absurd (hlive.symm.trans hdead) (by simp)
      · exact hhas
    refine hfetching.step hframe hpos (fun job' hj hk _ => ?_) fun _ _ _ _ _ hdead => ?_
    · cases hj
      exact hfit hk
    · exact absurd (hlive.symm.trans hdead) (by simp)
  | @fetchOpen job done take ok hact hrole =>
    rw [role_setRole_self]
    rw [hrole] at hstill
    have hc := commit_c s (s.c.openCacheUnlocked (s.opened ok)).1
      (s.c.openCacheUnlocked (s.opened ok)).2
    cases hfd : (s.c.openCacheUnlocked (s.opened ok)).1.cacheFd with
    | none => exact hstill
    | some fd =>
      intro hk
      rw [← hc] at hfd
      rcases (hstill hk).2 with ⟨-, hnone⟩ | hcells
      · exact absurd (hfd.symm.trans hnone) (by simp)
      · exact ⟨hfd, hcells⟩
  | fetchSend now _ hrole hkind _ =>
    rw [role_setRole_self]
    exact fun hk => absurd (hkind.symm.trans hk) (by simp)
  | fetchFailed _ hrole =>
    rw [role_setRole_self]
    split_ifs with hk
    · trivial
    · exact fun hk' => absurd hk' hk

/-! ## Every run -/

variable (P) in
/-- The invariant of the reads. -/
structure Reads (s : World τ β δ) : Prop where
  inv : Inv P s
  refs : Refs P s
  landed : CellsLanded s
  role : ∀ u, RoleOk P s (s.role u)
  told : ∀ a ∈ s.answers, Told a

variable (P) in
/-- The condition of a run: copies are fresh, the file does not shrink into a read without a
descriptor, and no such read has one made for a dead entry. -/
def ReadCond (s s' : World τ β δ) : Prop := CopyFresh P s ∧ ReadFits s ∧ ReadOpens s s'

omit [DecidableEq τ] [DecidableEq δ] [Fintype τ] in
/-- A read of the data file returns what was last put there. -/
theorem told_fetch (hlanded : CellsLanded s) {off n start : Nat}
    (hcells : ∀ o, off ≤ o → o < off + n → HasCell s o) {f : SparseFile (Cell β)}
    (hf : s.dataFile = f) (hmem : s.snap P ∈ s.since start) :
    Told ⟨off, resolve P (f.pread off n), s.since start⟩ := by
  subst hf
  intro k b hb
  have hk : k < (s.dataFile.pread off n).length := by
    have hlt := (List.getElem?_eq_some_iff.mp hb).1
    unfold resolve at hlt
    rwa [List.length_map] at hlt
  have hn : k < n := by
    rw [SparseFile.length_pread] at hk
    omega
  obtain ⟨a, ha⟩ := hcells (off + k) (by omega) (by omega)
  unfold resolve at hb
  rw [List.getElem?_map, SparseFile.getElem?_pread _ hk, ha] at hb
  refine ⟨s.snap P, hmem, Or.inr ?_⟩
  show s.landed (off + k) = some b
  rw [hlanded _ _ ha]
  exact hb

omit [DecidableEq τ] [DecidableEq δ] [Fintype τ] in
/-- A read of the origin returns what it holds. -/
theorem told_fallback {off n start : Nat} (hmem : s.snap P ∈ s.since start) :
    Told ⟨off, (List.range (min n (s.origin.len - off))).map
      fun k => (s.origin.cell (off + k)).getD P.zero, s.since start⟩ := by
  intro k b hb
  rw [List.getElem?_map] at hb
  have hk : k < min n (s.origin.len - off) := by
    rcases Nat.lt_or_ge k (min n (s.origin.len - off)) with hlt | hge
    · exact hlt
    · rw [List.getElem?_eq_none (by rwa [List.length_range])] at hb
      exact absurd hb (by simp)
  rw [List.getElem?_range hk] at hb
  refine ⟨s.snap P, hmem, Or.inl ?_⟩
  show (if off + k < s.origin.len then _ else _) = some b
  rw [if_pos (by omega)]
  exact hb

theorem answers_core (h : Reads P s) (hstep : Core P t s s') : ∀ a ∈ s'.answers, Told a := by
  have hsame : s'.answers = s.answers → ∀ a ∈ s'.answers, Told a := fun heq a ha =>
    h.told a (heq ▸ ha)
  cases hstep with
  | @fetchRead job done take fd now hact hrole hkind =>
    have hmem := snap_mem_since h.refs (u := t) (n := job.start) (by rw [hrole]; rfl)
    have hok := h.role t
    rw [hrole] at hok
    obtain ⟨hfd, hcells⟩ := hok hkind
    intro a ha
    rcases List.mem_cons.mp (show a ∈ (_ : List (Answer β)) from ha) with rfl | hold
    · exact told_fetch h.landed hcells (dataFile_of_fd s hfd) hmem
    · exact h.told a hold
  | @fallbackRead job hact hrole hkind =>
    have hmem := snap_mem_since h.refs (u := t) (n := job.start) (by rw [hrole]; rfl)
    intro a ha
    rcases List.mem_cons.mp (show a ∈ (_ : List (Answer β)) from ha) with rfl | hold
    · exact told_fallback hmem
    · exact h.told a hold
  | cacheFillSize | reconcileReset | truncateEntry =>
    exact hsame ((cut_answers ..).trans (commit_answers ..))
  | beginFill | abortFill | completeSkip | landOpen | copyOpen | finishFill
  | growForWrite | distrustWrite | copyMark | noteOriginId | reconcileProbe
  | distrust | forget | punch | heal | hydrateClaim | streamOpen | fetchOpen =>
    exact hsame (commit_answers ..)
  | _ => exact hsame rfl

theorem reads_step (h : Reads P s) (hstep : Step P s s') (hcond : ReadCond P s s') :
    Reads P s' := by
  have hrefs := refs_step h.refs hstep
  have hinv := inv_step h.inv hcond.1 hstep
  obtain ⟨t, s₁, hcore, rfl⟩ := hstep
  have hframe := fileFrame_core h.inv hcore
  refine ⟨hinv, hrefs, hframe.landed h.landed, fun u => ?_, fun a ha => answers_core h hcore a ha⟩
  have hopens : ReadOpens s s₁ := hcond.2.2
  show RoleOk P s₁ (s₁.role u)
  by_cases hu : u = t
  · rw [hu]
    exact reader_core h.inv h.refs hcond.2.1 hopens (h.role t) hcore
  · rw [(roleFrame_core (h.refs.le t) hcore).others u hu]
    exact (h.role u).still hframe h.refs hcond.2.1 hopens

omit [Fintype τ] in
variable (P) in
/-- An entry nobody uses yet; what its file holds counts as put there by this node. -/
structure ReadStart (s : World τ β δ) : Prop extends Start P s where
  landed : CellsLanded s
  hist : s.hist = []
  answers : s.answers = []

omit [DecidableEq τ] [DecidableEq δ] in
theorem reads_of_start (h : ReadStart P s) : Reads P s := by
  have hrole : ∀ u, s.role u = .free := fun u => congrArg Thread.role (h.thread u)
  refine ⟨inv_of_start h.toStart, refs_of_start h.toStart h.hist, h.landed, fun u => ?_,
    fun a ha => ?_⟩
  · rw [hrole]
    trivial
  · rw [h.answers] at ha
    exact absurd ha (by simp)

/-- **Reads are told the truth** along every run in which no file shrinks into a read. -/
theorem answers_of_run {s₀ s : World τ β δ} (hstart : ReadStart P s₀)
    (hrun : Run (Step P) (ReadCond P) s₀ s) : ∀ a ∈ s.answers, Told a := by
  have hstep : ∀ s s' : World τ β δ, Reads P s → Step P s s' → ReadCond P s s' → Reads P s' :=
    fun _ _ h hstep hcond => reads_step h hstep hcond
  exact (Run.invariant hstep (reads_of_start hstart) hrun).told

/-! ## A run that returns a hole -/

omit [Fintype τ] [DecidableEq τ] in
theorem readStart_freshEntry (n : Nat) : ReadStart smallPieces (freshEntry τ n) where
  toStart := start_freshEntry τ n
  landed o a ha := by
    have hnone : (SparseFile.empty : SparseFile (Cell UInt8)).cell o = some a := ha
    exact absurd hnone (by simp [SparseFile.empty])
  hist := rfl
  answers := rfl

omit [Fintype τ] [DecidableEq τ] [DecidableEq δ] in
/-- The condition for a reader alone with a live entry. -/
theorem readCond_alone {s s' : World Unit β δ}
    (hact : ∀ off data born fd, s.act () ≠ .copyFd off data born fd)
    (hfit : ((s.role ()).pending.all fun job => job.off + job.len ≤ s.c.size) = true)
    (hlive : s.c.dead = false) : ReadCond P s s' := by
  refine ⟨fun _ _ _ _ _ _ h => absurd h (hact _ _ _ _), fun _ _ job h _ => ?_,
    fun hdead => absurd (hlive.symm.trans hdead) (by simp)⟩
  rw [h] at hfit
  exact of_decide_eq_true hfit

/-- A read that misses, fills its piece and returns it. -/
theorem answers_of_run_miss :
    ∃ s : World Unit UInt8 (List UInt8), s.answers ≠ [] ∧ ∀ a ∈ s.answers, Told a := by
  have r₀ : Run (Step smallPieces) (ReadCond smallPieces) _ _ := Run.refl (freshEntry Unit 4)
  have r₁ := run_core r₀ (Core.readEnter (t := ()) 0 4 rfl rfl rfl) (readCond_alone nofun rfl rfl)
  have r₂ := run_core r₁
    (Core.readSample (t := ()) 0 rfl rfl (by decide)) (readCond_alone nofun rfl rfl)
  have r₃ := run_core r₂
    (Core.probeRange (t := ()) 0 rfl rfl (by decide)) (readCond_alone nofun rfl rfl)
  have r₄ := run_core r₃
    (Core.hydrateClaim (t := ()) 0 rfl rfl (by decide)) (readCond_alone nofun rfl rfl)
  have r₅ := run_core r₄
    (Core.completeStart (t := ()) [7, 7, 7, 7] rfl rfl rfl rfl) (readCond_alone nofun rfl rfl)
  have r₆ := run_core r₅ (Core.landOpen (t := ()) true rfl) (readCond_alone nofun rfl rfl)
  have r₇ := run_core r₆ (Core.landWrite (t := ()) 4 (by decide) rfl) (readCond_alone nofun rfl rfl)
  have r₈ := run_core r₇ (Core.finishFill (t := ()) none 0 rfl) (readCond_alone nofun rfl rfl)
  have r₉ := run_core r₈ (Core.settled (t := ()) rfl rfl (by decide)) (readCond_alone nofun rfl rfl)
  have r₁₀ := run_core r₉
    (Core.hydrateDone (t := ()) rfl rfl (by decide)) (readCond_alone nofun rfl rfl)
  have r₁₁ := run_core r₁₀
    (Core.servedFromCache (t := ()) 4 rfl rfl (by decide) (by decide) rfl (by decide))
    (readCond_alone nofun rfl rfl)
  have r₁₂ := run_core r₁₁ (Core.fetchOpen (t := ()) true rfl rfl) (readCond_alone nofun rfl rfl)
  have r₁₃ := run_core r₁₂ (Core.fetchRead (t := ()) 0 rfl rfl rfl) (readCond_alone nofun rfl rfl)
  exact ⟨_, List.cons_ne_nil _ _, answers_of_run (readStart_freshEntry 4) r₁₃⟩

/-- A read of two pieces has filled the first when a truncate cuts the second off: its claim is
raced, the cut of the file waits for the transfer, and the read returns four zeros no version of
the file held. -/
theorem answers_fail_after_shrink :
    ¬ ∀ s₀ s : World Bool UInt8 (List UInt8), ReadStart smallPieces s₀ →
      Run (Step smallPieces) Always s₀ s → ∀ a ∈ s.answers, Told a := by
  intro h
  have r₀ : Run (Step smallPieces) Always _ _ := Run.refl (freshEntry Bool 8)
  have r₁ := run_core r₀ (Core.readEnter (t := false) 0 8 rfl rfl rfl) trivial
  have r₂ := run_core r₁ (Core.readSample (t := false) 0 rfl rfl (by decide)) trivial
  have r₃ := run_core r₂ (Core.probeRange (t := false) 0 rfl rfl (by decide)) trivial
  have r₄ := run_core r₃ (Core.hydrateClaim (t := false) 0 rfl rfl (by decide)) trivial
  have r₅ := run_core r₄ (Core.completeStart (t := false) [7, 7, 7, 7] rfl rfl rfl rfl) trivial
  have r₆ := run_core r₅ (Core.landOpen (t := false) true rfl) trivial
  have r₇ := run_core r₆ (Core.landWrite (t := false) 4 (by decide) rfl) trivial
  have r₈ := run_core r₇ (Core.finishFill (t := false) none 0 rfl) trivial
  have r₉ := run_core r₈ (Core.settled (t := false) rfl rfl (by decide)) trivial
  have r₁₀ := run_core r₉ (Core.originTruncate (t := true) 4 rfl rfl) trivial
  have r₁₁ := run_core r₁₀ (Core.truncateEntry (t := true) true rfl rfl) trivial
  have r₁₂ := run_core r₁₁ (Core.hydrateClaim (t := false) 0 rfl rfl (by decide)) trivial
  have r₁₃ := run_core r₁₂ (Core.hydrateDone (t := false) rfl rfl (by decide)) trivial
  have r₁₄ := run_core r₁₃
    (Core.servedFromCache (t := false) 8 rfl rfl (by decide) (by decide) rfl (by decide)) trivial
  have r₁₅ := run_core r₁₄ (Core.fetchOpen (t := false) true rfl rfl) trivial
  have r₁₆ := run_core r₁₅ (Core.fetchRead (t := false) 0 rfl rfl rfl) trivial
  have htold := h _ _ (readStart_freshEntry 8) r₁₆ _ List.mem_cons_self 4 0 (by decide)
  exact absurd htold (by decide)

end Entry

end ModelFs
