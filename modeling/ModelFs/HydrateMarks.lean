import ModelFs.HydrateClaims

/-!
# Marks of fills

What a fill has in hand on its way from the claim to the mark: a digest that was in the entry's
map after the claim, a buffer of the claimed length with that digest, or one the origin gave. The
generation of the claim is the entry's when the mark is set, and generations only rise, so it was
the entry's when the digest was looked up.

* `claims_of_run` — **one claim a piece, each dropped once and by its thread, and no mark over a
  claim whose generation or length has passed.**
* `admitted_of_run` — **verify before admit: a peer's bytes are marked under a digest that was
  trusted in the generation of the mark; all other marks are of origin reads and own writes.**
* `release_of_run` — no fill is stuck with its claim.
-/

namespace ModelFs

namespace Hydrate

open Cached

variable {τ φ β δ : Type} [DecidableEq τ] [DecidableEq δ] (P : Entry.Params β δ)

/-! ## What a fill has in hand -/

/-- The digest was in the entry's map for the claimed piece, at or after the claim. -/
def Trusted (s : World τ φ β δ) (k : Claim) (expect : δ) : Prop :=
  ∃ c ∈ s.past, k.gen ≤ c.writes ∧ c.writes ≤ s.c.writes ∧ c.hashes.lookup k.idx = some expect

/-- A buffer of the claimed length, verified if a peer sent it. -/
def BufOk (s : World τ φ β δ) (k : Claim) (buf : List β) (src : Source β) : Prop :=
  buf.length = k.len ∧
    match src with
    | .peer => Trusted s k (P.digest buf)
    | .origin => (k.idx, buf) ∈ s.reads
    | .own _ _ => False

def StageOk (s : World τ φ β δ) (k : Claim) : Stage β δ → Prop
  | .asking expect => Trusted s k expect
  | .filled buf src => BufOk P s k buf src
  | .writing buf src => BufOk P s k buf src
  | .written buf src _ => BufOk P s k buf src
  | _ => True

/-- A mark says what it is made of: a peer's bytes have the length of their piece and a digest
that was trusted in the generation of the mark; the others were read from the origin or written
here. -/
def Mark.Admitted (s : World τ φ β δ) (m : Mark β) : Prop :=
  match m.src with
  | .peer => m.bytes.length = Piece.len m.size m.idx P.pieceSize ∧
      ∃ c ∈ s.past, c.writes = m.gen ∧ c.hashes.lookup m.idx = some (P.digest m.bytes)
  | .origin => (m.idx, m.bytes) ∈ s.reads
  | .own off data => m.bytes = pieceSlice P.pieceSize off data m.idx ∧
      (Piece.fullCover ⟨off, data.length⟩ P.pieceSize).start ≤ m.idx ∧
      m.idx < (Piece.fullCover ⟨off, data.length⟩ P.pieceSize).stop

/-- The claim a mark was set under is of its piece, and generation and length at the mark are
those of the claim. -/
def Mark.Timely (m : Mark β) : Prop :=
  ∀ k, m.claim = some k →
    k.idx = m.idx ∧ k.gen = m.gen ∧ k.len = Piece.len m.size m.idx P.pieceSize

/-- The fills and the marks of a state, for an entry that began as `c₀`. -/
structure Marks (c₀ : Cached φ δ) (s : World τ φ β δ) : Prop where
  claims : Claims s
  now : s.c ∈ s.past
  stage : ∀ t who k st, s.pc t = .filling who k st → StageOk P s k st
  timely : ∀ m ∈ s.marks, m.Timely P
  admitted : ∀ m ∈ s.marks, m.Admitted P s
  marked : ∀ i, s.c.bits.get i = true → c₀.bits.get i = true ∨ ∃ m ∈ s.marks, m.idx = i

/-! ## Later states -/

/-- The histories of `s'` go on from those of `s`. -/
structure Later (s s' : World τ φ β δ) : Prop where
  past : ∀ c ∈ s.past, c ∈ s'.past
  reads : ∀ r ∈ s.reads, r ∈ s'.reads
  writes : s.c.writes ≤ s'.c.writes

variable {P}

omit [DecidableEq τ] [DecidableEq δ] in
theorem Trusted.later {s s' : World τ φ β δ} {k : Claim} {expect : δ} (h : Trusted s k expect)
    (hl : Later s s') : Trusted s' k expect := by
  obtain ⟨c, hc, hlo, hhi, hlook⟩ := h
  exact ⟨c, hl.past c hc, hlo, hhi.trans hl.writes, hlook⟩

omit [DecidableEq τ] [DecidableEq δ] in
theorem BufOk.later {s s' : World τ φ β δ} {k : Claim} {buf : List β} {src : Source β}
    (h : BufOk P s k buf src) (hl : Later s s') : BufOk P s' k buf src := by
  refine ⟨h.1, ?_⟩
  have hsrc := h.2
  cases src with
  | peer => exact hsrc.later hl
  | origin => exact hl.reads _ hsrc
  | own off data => exact hsrc

omit [DecidableEq τ] [DecidableEq δ] in
theorem StageOk.later {s s' : World τ φ β δ} {k : Claim} {st : Stage β δ}
    (h : StageOk P s k st) (hl : Later s s') : StageOk P s' k st := by
  cases st with
  | asking expect => exact Trusted.later h hl
  | filled buf src => exact BufOk.later h hl
  | writing buf src => exact BufOk.later h hl
  | written buf src ok => exact BufOk.later h hl
  | _ => trivial

omit [DecidableEq τ] [DecidableEq δ] in
theorem Mark.Admitted.later {s s' : World τ φ β δ} {m : Mark β} (h : m.Admitted P s)
    (hl : Later s s') : m.Admitted P s' := by
  unfold Mark.Admitted at h ⊢
  cases hsrc : m.src with
  | peer =>
    rw [hsrc] at h
    obtain ⟨hlen, c, hc, hgen, hlook⟩ := h
    exact ⟨hlen, c, hl.past c hc, hgen, hlook⟩
  | origin =>
    rw [hsrc] at h
    exact hl.reads _ h
  | own off data =>
    rw [hsrc] at h
    exact h

/-- Histories only grow. -/
theorem Core.later {t : τ} {s s' : World τ φ β δ} (h : Core P t s s') : Later s s' := by
  have hwrites := h.effect.writes
  refine ⟨?_, ?_, hwrites⟩
  · intro c hc
    cases h <;> first | exact hc | exact List.mem_cons_of_mem _ hc
  · intro r hr
    cases h <;> first | exact hr | exact List.mem_cons_of_mem _ hr

theorem Core.now {t : τ} {s s' : World τ φ β δ} (h : Core P t s s') (hnow : s.c ∈ s.past) :
    s'.c ∈ s'.past := by
  cases h <;> first | exact hnow | exact List.mem_cons_self

/-! ## The stages -/

omit [DecidableEq τ] [DecidableEq δ] in
/-- A digest found in the map is trusted from here on. -/
theorem stageOk_trustOr {s s' : World τ φ β δ} {k : Claim} (hnow : s.c ∈ s.past)
    (hgen : k.gen ≤ s.c.writes) (hl : Later s s') {h : Option δ}
    (hlook : h = s.c.hashes.lookup k.idx) : StageOk P s' k (trustOr h) := by
  cases h with
  | none => trivial
  | some expect => exact Trusted.later ⟨s.c, hnow, hgen, le_rfl, hlook.symm⟩ hl

omit [DecidableEq τ] [DecidableEq δ] in
theorem stageOk_lookStage {s s' : World τ φ β δ} {k : Claim} {nowMs : Int}
    (hnow : s.c ∈ s.past) (hgen : k.gen ≤ s.c.writes) (hl : Later s s') :
    StageOk P s' k (lookStage (s.c.expectedHashLook k.idx nowMs).2) := by
  unfold expectedHashLook
  split_ifs
  · exact stageOk_trustOr hnow hgen hl rfl
  · trivial
  · trivial

/-- The stage a step leaves its own fill in. -/
theorem Core.stage {t : τ} {s s' : World τ φ β δ} {c₀ : Cached φ δ} (h : Core P t s s')
    (hs : Marks P c₀ s) {who : Caller} {k : Claim} {st : Stage β δ}
    (hst : s'.pc t = .filling who k st) : StageOk P s' k st := by
  have hl := h.later
  have hnext : ∀ {w : World τ φ β δ} {pc : Pc β δ}, (w.moveTo t pc).pc t = .filling who k st →
      pc = .filling who k st := by
    intro w pc hpc
    rwa [pc_moveTo_self] at hpc
  cases h with
  | other sec hpc hsec =>
    have hidle : s.pc t = .filling who k st := hst
    rw [hpc] at hidle
    cases hidle
  | startPiece idx hpc => cases hnext hst
  | quitPiece hpc => cases hnext hst
  | claimPiece now hpc =>
    have hclaim := hnext hst
    unfold pieceClaim at hclaim
    split at hclaim
    · cases hclaim
    · cases hclaim
      trivial
    · cases hclaim
    · cases hclaim
  | startRange idx stop hpc => cases hnext hst
  | quitRange hpc => cases hnext hst
  | rangeMarked hpc hbit => cases hnext hst
  | claimRange now hpc hlt =>
    have hclaim := hnext hst
    unfold rangeClaim at hclaim
    split at hclaim
    · cases hclaim
    · cases hclaim
      trivial
    · cases hclaim
    · cases hclaim
  | toOrigin hpc hwho =>
    cases hnext hst
    trivial
  | look nowMs hpc hwho =>
    cases hnext hst
    exact stageOk_lookStage hs.now (hs.claims.gen_le t k (by rw [hpc]; rfl)) hl
  | sampleGen hpc =>
    cases hnext hst
    trivial
  | land read retryAt hpc =>
    cases hnext hst
    trivial
  | loadDone hpc =>
    cases hnext hst
    trivial
  | lookup hpc =>
    cases hnext hst
    exact stageOk_trustOr hs.now (hs.claims.gen_le t k (by rw [hpc]; rfl)) hl rfl
  | peerFails hpc =>
    cases hnext hst
    trivial
  | @peerAnswers _ _ expect buf hlen hpc =>
    have hfilled := hnext hst
    split_ifs at hfilled with hdigest
    · cases hfilled
      have htrust : Trusted s k expect := hs.stage t _ _ _ hpc
      refine ⟨hlen, ?_⟩
      have hlater := htrust.later hl
      rwa [← hdigest] at hlater
    · cases hfilled
      trivial
  | originRead buf hlen hpc =>
    cases hnext hst
    exact ⟨hlen, List.mem_cons_self⟩
  | originFails now hpc => cases hnext hst
  | completeSkip hpc hfree hskip => cases hnext hst
  | @completeStart _ _ buf src hpc hfree hskip =>
    cases hnext hst
    have hbuf : BufOk P s k buf src := hs.stage t _ _ _ hpc
    exact hbuf.later hl
  | @writePiece _ _ buf src opened ok hpc =>
    cases hnext hst
    have hbuf : BufOk P s k buf src := hs.stage t _ _ _ hpc
    exact hbuf.later hl
  | finish now hpc =>
    have hdone := hnext hst
    split_ifs at hdone
  | @marked who' idx hpc hbit =>
    have hdone := hnext hst
    cases who' <;> cases hdone
  | @unmarked who' idx hpc hbit =>
    have hdone := hnext hst
    cases who' with
    | fuse prefer retries =>
      unfold unmarkedNext at hdone
      dsimp only at hdone
      split_ifs at hdone
    | range stop => cases hdone

/-! ## The marks -/

omit [DecidableEq δ] in
/-- The mark of a fill whose claim stands. -/
theorem mem_fillMarks {c : Cached φ δ} {k : Claim} {buf : List β} {src : Source β} {ok : Bool}
    {m : Mark β} (h : m ∈ fillMarks P c k buf src ok) :
    m = ⟨k.idx, buf, c.writes, c.size, src, some k⟩ ∧
      c.filling.lookup k.idx = some c.writes ∧
      Piece.len c.size k.idx P.pieceSize = buf.length := by
  unfold fillMarks at h
  split_ifs at h with hmark
  · rw [List.mem_singleton] at h
    simp only [Bool.and_eq_true] at hmark
    have hstands := hmark.2.2
    unfold claimStands at hstands
    cases hlook : c.filling.lookup k.idx with
    | none => simp [hlook] at hstands
    | some gen =>
      simp only [hlook, Bool.and_eq_true, beq_iff_eq] at hstands
      exact ⟨h, by rw [hstands.1], hstands.2⟩
  · exact absurd h List.not_mem_nil

omit [DecidableEq δ] in
theorem mem_ownMarks {c : Cached φ δ} {sec : Section φ β δ} {m : Mark β}
    (h : m ∈ ownMarks P c sec) : ∃ off data, m.src = .own off data ∧ m.claim = none ∧
      m.bytes = pieceSlice P.pieceSize off data m.idx ∧
      (Piece.fullCover ⟨off, data.length⟩ P.pieceSize).start ≤ m.idx ∧
      m.idx < (Piece.fullCover ⟨off, data.length⟩ P.pieceSize).stop := by
  unfold ownMarks at h
  split at h
  · rename_i off data
    obtain ⟨i, hi, rfl⟩ := List.mem_map.mp h
    rw [List.mem_filter, List.mem_range'_1] at hi
    refine ⟨off, data, rfl, rfl, rfl, hi.1.1, ?_⟩
    have := hi.1.2
    dsimp only
    omega
  · exact absurd h List.not_mem_nil

/-- The marks a step adds are timely and admitted. -/
theorem Core.marks {t : τ} {s s' : World τ φ β δ} {c₀ : Cached φ δ} (h : Core P t s s')
    (hs : Marks P c₀ s) {m : Mark β} (hm : m ∈ s'.marks) :
    m ∈ s.marks ∨ m.Timely P ∧ m.Admitted P s' := by
  have hl := h.later
  cases h with
  | other sec hpc hsec =>
    rcases List.mem_append.mp hm with hnew | hold
    · obtain ⟨off, data, hsrc, hclaim, hbytes, hlo, hhi⟩ := mem_ownMarks hnew
      refine Or.inr ⟨fun k hk => ?_, ?_⟩
      · rw [hclaim] at hk
        cases hk
      · unfold Mark.Admitted
        rw [hsrc]
        exact ⟨hbytes, hlo, hhi⟩
    · exact Or.inl hold
  | @finish who k buf src ok now hpc =>
    rcases List.mem_append.mp hm with hnew | hold
    · obtain ⟨rfl, hlook, hlen⟩ := mem_fillMarks hnew
      have hbuf : BufOk P s k buf src := hs.stage t _ _ _ hpc
      have hgen : k.gen = s.c.writes := by
        have hown := hs.claims.lookup t k (by rw [hpc]; rfl)
        rw [hlook] at hown
        exact (Option.some.inj hown).symm
      refine Or.inr ⟨fun k' hk' => ?_, ?_⟩
      · cases hk'
        exact ⟨rfl, hgen, hbuf.1.symm.trans hlen.symm⟩
      · have hsrc := hbuf.2
        cases src with
        | peer =>
          -- the digest was looked up after the claim, and the claim's generation is still on
          obtain ⟨c, hc, hlo, hhi, hdigest⟩ := hsrc
          exact ⟨hlen.symm, c, hl.past c hc, by dsimp only; omega, hdigest⟩
        | origin => exact hl.reads _ hsrc
        | own off data => exact hsrc.elim
    · exact Or.inl hold
  | _ => exact Or.inl hm

/-- A mark on the entry is an old one, or one the step has put into the history. -/
theorem Core.bits {t : τ} {s s' : World τ φ β δ} (h : Core P t s s') {i : Nat}
    (hi : s'.c.bits.get i = true) :
    s.c.bits.get i = true ∨ ∃ m ∈ s'.marks, m.idx = i := by
  have hsame : ∀ {c : Cached φ δ}, c.bits = s.c.bits → c.bits.get i = true →
      s.c.bits.get i = true := by
    intro c hc hget
    rwa [hc] at hget
  cases h with
  | other sec hpc hsec =>
    rcases (Section.lets_run P s.c sec hsec).get i hi with hold | ⟨off, data, rfl, hlo, hhi⟩
    · exact Or.inl hold
    · refine Or.inr ⟨_, List.mem_append_left _ (List.mem_map.mpr ⟨i, ?_, rfl⟩), rfl⟩
      rw [List.mem_filter, List.mem_range'_1]
      exact ⟨by omega, hi⟩
  | @claimPiece idx _ _ now hpc =>
    exact Or.inl (hsame (bits_beginFill P.pieceSize s.c idx now) hi)
  | @claimRange idx _ now hpc hlt =>
    exact Or.inl (hsame (bits_beginFill P.pieceSize s.c idx now) hi)
  | @look who k nowMs hpc hwho =>
    exact Or.inl (hsame (s.c.expectedHashLook_alike k.idx nowMs).bits hi)
  | @land who k gen0 read retryAt hpc =>
    exact Or.inl (hsame (s.c.landManifest_alike P.pieceSize gen0 read retryAt).bits hi)
  | writePiece opened ok hpc => exact Or.inl (hsame (s.c.openCacheUnlocked_alike opened).bits hi)
  | @originFails who k now hpc =>
    rcases get_finishPiece hi with hold | ⟨-, hok, -⟩
    · exact Or.inl hold
    · exact absurd hok (by simp)
  | @finish who k buf src ok now hpc =>
    rcases get_finishPiece hi with hold | ⟨rfl, hok, hdead, hstands⟩
    · exact Or.inl hold
    · refine Or.inr ⟨⟨k.idx, buf, s.c.writes, s.c.size, src, some k⟩,
        List.mem_append_left _ ?_, rfl⟩
      unfold fillMarks
      rw [if_pos (by simp [hdead, hok, hstands])]
      exact List.mem_singleton_self _
  | _ => exact Or.inl hi

theorem Marks.step {c₀ : Cached φ δ} {s s' : World τ φ β δ} (h : Marks P c₀ s)
    (hstep : Step P s s') : Marks P c₀ s' := by
  obtain ⟨t, hcore⟩ := hstep
  have hl := hcore.later
  refine ⟨h.claims.effect hcore.effect, hcore.now h.now, fun u who k st hu => ?_, fun m hm => ?_,
    fun m hm => ?_, fun i hi => ?_⟩
  · by_cases hut : u = t
    · rw [hut] at hu
      exact hcore.stage h hu
    · rw [hcore.effect.others u hut] at hu
      exact (h.stage u who k st hu).later hl
  · rcases hcore.marks h hm with hold | hnew
    · exact h.timely m hold
    · exact hnew.1
  · rcases hcore.marks h hm with hold | hnew
    · exact (h.admitted m hold).later hl
    · exact hnew.2
  · rcases hcore.bits hi with hold | hnew
    · rcases h.marked i hold with hfirst | ⟨m, hm, hidx⟩
      · exact Or.inl hfirst
      · refine Or.inr ⟨m, ?_, hidx⟩
        cases hcore <;> first | exact hm | exact List.mem_append_right _ hm
    · exact Or.inr hnew

omit [DecidableEq τ] [DecidableEq δ] in
theorem marks_start (c : Cached φ δ) (hempty : c.filling = ∅) :
    Marks P c (start τ β c : World τ φ β δ) where
  claims := claims_start c hempty
  now := List.mem_cons_self
  stage t who k st h := by cases h
  timely m hm := absurd hm List.not_mem_nil
  admitted m hm := absurd hm List.not_mem_nil
  marked i hi := Or.inl hi

theorem marks_of_run {c : Cached φ δ} (hempty : c.filling = ∅) {s : World τ φ β δ}
    (h : Run (Step P) Always (start τ β c) s) : Marks P c s :=
  h.invariant (fun _ _ hm hstep _ => hm.step hstep) (marks_start c hempty)

/-! ## Runs -/

/-- **Verify before admit.** In every run from an entry without claims, of any number of threads,
every mark that was set is admitted, and every piece with a mark was marked from the start or has
such a mark. -/
theorem admitted_of_run (P : Entry.Params β δ) {c : Cached φ δ} (hempty : c.filling = ∅)
    {s : World τ φ β δ} (h : Run (Step P) Always (start τ β c) s) :
    (∀ m ∈ s.marks, m.Admitted P s) ∧
      ∀ i, s.c.bits.get i = true → c.bits.get i = true ∨ ∃ m ∈ s.marks, m.idx = i :=
  have hm := marks_of_run hempty h
  ⟨hm.admitted, hm.marked⟩

/-! ## No fill is stuck -/

section Release

variable {P : Entry.Params β δ} {t : τ} {s : World τ φ β δ} {who : Caller} {k : Claim}

variable (P t) in
/-- Thread `t` alone can come to hold no claim. -/
def Releases (s : World τ φ β δ) : Prop :=
  ∃ s', Run (Core P t) Always s s' ∧ (s'.pc t).claim = none

theorem releases_of_step {s' : World τ φ β δ} (h : Core P t s s') (h' : Releases P t s') :
    Releases P t s := by
  obtain ⟨s'', hrun, hnone⟩ := h'
  exact ⟨s'', Relation.ReflTransGen.head ⟨h, trivial⟩ hrun, hnone⟩

theorem releases_of_none (h : (s.pc t).claim = none) : Releases P t s := ⟨s, Run.refl s, h⟩

theorem releases_written {buf : List β} {src : Source β} {ok : Bool}
    (hpc : s.pc t = .filling who k (.written buf src ok)) : Releases P t s := by
  apply releases_of_step (Core.finish 0 hpc)
  apply releases_of_none
  rw [pc_moveTo_self]
  split_ifs <;> rfl

theorem releases_writing {buf : List β} {src : Source β}
    (hpc : s.pc t = .filling who k (.writing buf src)) : Releases P t s := by
  apply releases_of_step (Core.writePiece none false hpc)
  apply releases_written
  rw [pc_moveTo_self]

theorem releases_filled {buf : List β} {src : Source β}
    (hpc : s.pc t = .filling who k (.filled buf src)) (hfree : s.contentMu = none) :
    Releases P t s := by
  cases hskip : s.c.fillSkips P.pieceSize k.idx buf.length with
  | true =>
    apply releases_of_step (Core.completeSkip hpc hfree hskip)
    apply releases_of_none
    rw [pc_moveTo_self]
    rfl
  | false =>
    apply releases_of_step (Core.completeStart hpc hfree hskip)
    apply releases_writing
    rw [pc_moveTo_self]

theorem releases_atOrigin (hpc : s.pc t = .filling who k .atOrigin) : Releases P t s := by
  apply releases_of_step (Core.originFails 0 hpc)
  apply releases_of_none
  rw [pc_moveTo_self]
  rfl

theorem releases_trustOr {h : Option δ} (hpc : s.pc t = .filling who k (trustOr h)) :
    Releases P t s := by
  cases h with
  | none => exact releases_atOrigin hpc
  | some expect =>
    apply releases_of_step (Core.peerFails hpc)
    apply releases_atOrigin
    rw [pc_moveTo_self]

theorem releases_looking (hpc : s.pc t = .filling who k .looking) : Releases P t s := by
  apply releases_of_step (Core.lookup hpc)
  apply releases_trustOr
  rw [pc_moveTo_self]

theorem releases_merged (hpc : s.pc t = .filling who k .merged) : Releases P t s := by
  apply releases_of_step (Core.loadDone hpc)
  apply releases_looking
  rw [pc_moveTo_self]

theorem releases_reading {gen0 : Nat} (hpc : s.pc t = .filling who k (.reading gen0)) :
    Releases P t s := by
  apply releases_of_step (Core.land .missed 0 hpc)
  apply releases_merged
  rw [pc_moveTo_self]

theorem releases_loading (hpc : s.pc t = .filling who k .loading) : Releases P t s := by
  apply releases_of_step (Core.sampleGen hpc)
  apply releases_reading
  rw [pc_moveTo_self]

theorem releases_lookStage {h : HashLook δ} (hpc : s.pc t = .filling who k (lookStage h)) :
    Releases P t s := by
  cases h with
  | known h => exact releases_trustOr hpc
  | load => exact releases_loading hpc
  | again => exact releases_looking hpc

theorem releases_claimed (hpc : s.pc t = .filling who k .claimed) : Releases P t s := by
  cases hwho : who.atOnce with
  | true =>
    apply releases_of_step (Core.toOrigin hpc hwho)
    apply releases_atOrigin
    rw [pc_moveTo_self]
  | false =>
    apply releases_of_step (Core.look 0 hpc hwho)
    apply releases_lookStage
    rw [pc_moveTo_self]

/-- Wherever a fill is, its thread can give the claim back without any other thread, once
`content_mu` is free for it. -/
theorem release_of_run (P : Entry.Params β δ) (t : τ) (s : World τ φ β δ)
    (hfree : s.contentMu = none) : Releases P t s := by
  cases hpc : s.pc t with
  | filling who k st =>
    cases st with
    | claimed => exact releases_claimed hpc
    | loading => exact releases_loading hpc
    | reading gen0 => exact releases_reading hpc
    | merged => exact releases_merged hpc
    | looking => exact releases_looking hpc
    | asking expect => exact releases_trustOr (h := some expect) hpc
    | atOrigin => exact releases_atOrigin hpc
    | filled buf src => exact releases_filled hpc hfree
    | writing buf src => exact releases_writing hpc
    | written buf src ok => exact releases_written hpc
  | _ => exact releases_of_none (by rw [hpc]; rfl)

end Release

/-! ## A fill from a peer -/

open Entry (smallPieces)

/-- An entry of a 4-byte file whose manifest is loaded. -/
def oneTrusted : Cached Nat (List UInt8) where
  size := 4
  bits := Bitfield.init 1
  hashes := (∅ : AList fun _ : Nat => List UInt8).insert 0 [1, 2, 3, 4]
  manifestSize := some 4

/-- One thread fills the piece with what a peer sent and marks it. -/
theorem run_peerFill : ∃ s : World Unit Nat UInt8 (List UInt8),
    Run (Step smallPieces) Always (start Unit UInt8 oneTrusted) s ∧
      s.marks = [⟨0, [1, 2, 3, 4], 0, 4, .peer, some ⟨0, 4, 0⟩⟩] := by
  have hrefl : Run (Step smallPieces) Always (start Unit UInt8 oneTrusted)
    (start Unit UInt8 oneTrusted) := Run.refl _
  have hclaimed := (hrefl.then ⟨(), Core.startPiece 0 rfl⟩).then ⟨(), Core.claimPiece 0 rfl⟩
  have hfilled := (hclaimed.then ⟨(), Core.look 0 rfl rfl⟩).then
    ⟨(), Core.peerAnswers [1, 2, 3, 4] rfl rfl⟩
  have hdone := ((hfilled.then ⟨(), Core.completeStart rfl rfl (by decide)⟩).then
    ⟨(), Core.writePiece (some 3) true rfl⟩).then ⟨(), Core.finish 0 rfl⟩
  exact ⟨_, hdone, by decide⟩

theorem admitted_of_run_peerFill : ∃ s : World Unit Nat UInt8 (List UInt8),
    Run (Step smallPieces) Always (start Unit UInt8 oneTrusted) s ∧ s.marks ≠ [] ∧
      (∀ m ∈ s.marks, m.Admitted smallPieces s) ∧
      ∀ i, s.c.bits.get i = true → oneTrusted.bits.get i = true ∨ ∃ m ∈ s.marks, m.idx = i := by
  obtain ⟨s, hrun, hmarks⟩ := run_peerFill
  exact ⟨s, hrun, by simp [hmarks], admitted_of_run smallPieces (c := oneTrusted) rfl hrun⟩

end Hydrate

end ModelFs
