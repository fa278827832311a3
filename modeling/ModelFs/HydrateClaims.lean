import ModelFs.Hydrate

/-!
# Claims of fills

The map of claims and the threads' program counters say the same: a piece is in the map exactly
when one thread is between its grant and its drop, with the generation the grant recorded. What a
step does to the map is one of three things (`Moves`), and the invariant follows from that alone.

* `Core.effect` — a step keeps the claims, takes one for its thread, or drops its thread's own.
* `Claims.effect` — **the invariant, through any such step.**
-/

namespace ModelFs

namespace Hydrate

open Cached

variable {τ φ β δ : Type} [DecidableEq τ]

/-! ## What a step does to the claims -/

/-- The map of claims is as it was, gained a claim of `t`, or lost the claim of `t`. -/
inductive Moves (t : τ) (s s' : World τ φ β δ) : Prop where
  | keep (hmap : s'.c.filling = s.c.filling) (hclaim : (s'.pc t).claim = (s.pc t).claim)
  | take (i n : Nat) (hnone : (s.pc t).claim = none) (hfree : i ∉ s.c.filling)
      (hmap : s'.c.filling = s.c.filling.insert i s.c.writes)
      (hclaim : (s'.pc t).claim = some ⟨i, n, s.c.writes⟩)
  | drop (k : Claim) (hclaim : (s.pc t).claim = some k)
      (hmap : s'.c.filling = s.c.filling.erase k.idx) (hnone : (s'.pc t).claim = none)

/-- A step of `t`: the other threads are where they were, and the counts follow the map. -/
structure Effect (t : τ) (s s' : World τ φ β δ) : Prop where
  others : ∀ u, u ≠ t → s'.pc u = s.pc u
  writes : s.c.writes ≤ s'.c.writes
  granted : s'.granted = (s.act t s'.c).granted
  dropped : s'.dropped = (s.act t s'.c).dropped
  moves : Moves t s s'

theorem granted_act_self (s : World τ φ β δ) (t : τ) : (s.act t s.c).granted = s.granted := by
  funext u i
  simp [World.act]

theorem dropped_act_self (s : World τ φ β δ) (t : τ) : (s.act t s.c).dropped = s.dropped := by
  funext u i
  simp [World.act]

theorem pc_moveTo_self (s : World τ φ β δ) (t : τ) (pc : Pc β δ) : (s.moveTo t pc).pc t = pc :=
  Function.update_self ..

theorem pc_moveTo_of_ne {s : World τ φ β δ} {t u : τ} (pc : Pc β δ) (h : u ≠ t) :
    (s.moveTo t pc).pc u = s.pc u := Function.update_of_ne h ..

/-- A thread moves on and leaves the entry alone. -/
theorem effect_moveTo {s s₁ : World τ φ β δ} {t : τ} {pc : Pc β δ} (hc : s₁.c = s.c)
    (hpc : s₁.pc = s.pc) (hg : s₁.granted = s.granted) (hd : s₁.dropped = s.dropped)
    (hclaim : pc.claim = (s.pc t).claim) : Effect t s (s₁.moveTo t pc) where
  others u hu := (pc_moveTo_of_ne pc hu).trans (congrFun hpc u)
  writes := (congrArg Cached.writes hc).ge
  granted := by
    show s₁.granted = (s.act t s₁.c).granted
    rw [hc, granted_act_self, hg]
  dropped := by
    show s₁.dropped = (s.act t s₁.c).dropped
    rw [hc, dropped_act_self, hd]
  moves := by
    refine Moves.keep (congrArg Cached.filling hc) ?_
    rw [pc_moveTo_self, hclaim]

/-- A thread runs a section and moves on. -/
theorem effect_act {s s₁ : World τ φ β δ} {t : τ} {pc : Pc β δ} (hpc : s₁.pc = s.pc)
    (hg : s₁.granted = (s.act t s₁.c).granted) (hd : s₁.dropped = (s.act t s₁.c).dropped)
    (hwrites : s.c.writes ≤ s₁.c.writes) (hmoves : Moves t s (s₁.moveTo t pc)) :
    Effect t s (s₁.moveTo t pc) where
  others u hu := (pc_moveTo_of_ne pc hu).trans (congrFun hpc u)
  writes := hwrites
  granted := hg
  dropped := hd
  moves := hmoves

/-- A section that keeps claims and generation, between two points with the same claim. -/
theorem effect_alike {s : World τ φ β δ} {t : τ} {c : Cached φ δ} {pc : Pc β δ}
    (hfilling : c.filling = s.c.filling) (hwrites : c.writes = s.c.writes)
    (hclaim : pc.claim = (s.pc t).claim) : Effect t s ((s.act t c).moveTo t pc) := by
  refine effect_act rfl rfl rfl hwrites.ge (Moves.keep hfilling ?_)
  rw [pc_moveTo_self, hclaim]

theorem claim_pieceClaim {idx retries gen : Nat} {prefer : Bool} {a : Option FillClaim}
    (h : ∀ n, a ≠ some (.len n)) :
    (pieceClaim idx prefer retries gen a : Pc β δ).claim = none := by
  rcases a with _ | _ | _ | n
  · rfl
  · rfl
  · rfl
  · exact absurd rfl (h n)

theorem claim_rangeClaim {idx stop gen : Nat} {a : Option FillClaim}
    (h : ∀ n, a ≠ some (.len n)) : (rangeClaim idx stop gen a : Pc β δ).claim = none := by
  rcases a with _ | _ | _ | n
  · rfl
  · rfl
  · rfl
  · exact absurd rfl (h n)

/-- A pass of the claim loop, whichever call runs it. -/
theorem effect_beginFill {s : World τ φ β δ} {t : τ} {pieceSize idx : Nat} {now : Int}
    {next : Option FillClaim → Pc β δ} (hnone : (s.pc t).claim = none)
    (hmiss : ∀ a, (∀ n, a ≠ some (.len n)) → (next a).claim = none)
    (hlen : ∀ n, (next (some (.len n))).claim = some ⟨idx, n, s.c.writes⟩) :
    Effect t s ((s.act t (s.c.beginFill pieceSize idx now).1).moveTo t
      (next (s.c.beginFill pieceSize idx now).2)) := by
  rcases s.c.beginFill_cases pieceSize idx now with ⟨hanswer, halike⟩ | ⟨-, -, hfree, -, h⟩
  · exact effect_alike halike.filling halike.writes ((hmiss _ hanswer).trans hnone.symm)
  · rw [h]
    refine effect_act rfl rfl rfl le_rfl (Moves.take idx (Piece.len s.c.size idx pieceSize)
      hnone hfree rfl ?_)
    rw [pc_moveTo_self, hlen]

theorem effect_drop {s s₁ : World τ φ β δ} {t : τ} {pc : Pc β δ} {k : Claim}
    (hpc : s₁.pc = s.pc) (hg : s₁.granted = (s.act t s₁.c).granted)
    (hd : s₁.dropped = (s.act t s₁.c).dropped) (hclaim : (s.pc t).claim = some k)
    (hfilling : s₁.c.filling = s.c.filling.erase k.idx) (hwrites : s₁.c.writes = s.c.writes)
    (hnone : pc.claim = none) : Effect t s (s₁.moveTo t pc) := by
  refine effect_act hpc hg hd hwrites.ge (Moves.drop k hclaim hfilling ?_)
  rw [pc_moveTo_self, hnone]

/-- **Each step of a fill moves no claim but its own.** -/
theorem Core.effect [DecidableEq δ] {P : Entry.Params β δ} {t : τ} {s s' : World τ φ β δ}
    (h : Core P t s s') : Effect t s s' := by
  cases h with
  | other sec hpc hsec =>
    have hlets := Section.lets_run P s.c sec hsec
    exact ⟨fun u _ => rfl, hlets.writes, rfl, rfl, Moves.keep hlets.filling rfl⟩
  | startPiece idx hpc => exact effect_moveTo rfl rfl rfl rfl (by rw [hpc]; rfl)
  | quitPiece hpc => exact effect_moveTo rfl rfl rfl rfl (by rw [hpc]; rfl)
  | claimPiece now hpc =>
    exact effect_beginFill (by rw [hpc]; rfl) (fun a => claim_pieceClaim) fun n => rfl
  | startRange idx stop hpc => exact effect_moveTo rfl rfl rfl rfl (by rw [hpc]; rfl)
  | quitRange hpc => exact effect_moveTo rfl rfl rfl rfl (by rw [hpc]; rfl)
  | rangeMarked hpc hbit => exact effect_moveTo rfl rfl rfl rfl (by rw [hpc]; rfl)
  | claimRange now hpc hlt =>
    exact effect_beginFill (by rw [hpc]; rfl) (fun a => claim_rangeClaim) fun n => rfl
  | toOrigin hpc hwho => exact effect_moveTo rfl rfl rfl rfl (by rw [hpc]; rfl)
  | @look who k nowMs hpc hwho =>
    have halike := s.c.expectedHashLook_alike k.idx nowMs
    exact effect_alike halike.filling halike.writes (by rw [hpc]; rfl)
  | sampleGen hpc => exact effect_moveTo rfl rfl rfl rfl (by rw [hpc]; rfl)
  | @land who k gen0 read retryAt hpc =>
    have halike := s.c.landManifest_alike P.pieceSize gen0 read retryAt
    exact effect_alike halike.filling halike.writes (by rw [hpc]; rfl)
  | loadDone hpc => exact effect_alike rfl rfl (by rw [hpc]; rfl)
  | lookup hpc => exact effect_moveTo rfl rfl rfl rfl (by rw [hpc]; rfl)
  | peerFails hpc => exact effect_moveTo rfl rfl rfl rfl (by rw [hpc]; rfl)
  | peerAnswers buf hlen hpc => exact effect_moveTo rfl rfl rfl rfl (by rw [hpc]; rfl)
  | originRead buf hlen hpc => exact effect_moveTo rfl rfl rfl rfl (by rw [hpc]; rfl)
  | @originFails who k now hpc =>
    obtain ⟨-, hwrites, -, hkeeps, -⟩ := s.c.finishPiece_keeps P.pieceSize k.idx false 0 none now
    exact effect_drop rfl rfl rfl (by rw [hpc]; rfl) hkeeps.filling hwrites rfl
  | completeSkip hpc hfree hskip =>
    exact effect_drop rfl rfl rfl (by rw [hpc]; rfl) rfl rfl rfl
  | completeStart hpc hfree hskip => exact effect_moveTo rfl rfl rfl rfl (by rw [hpc]; rfl)
  | writePiece opened ok hpc =>
    have halike := s.c.openCacheUnlocked_alike opened
    exact effect_alike halike.filling halike.writes (by rw [hpc]; rfl)
  | @finish who k buf src ok now hpc =>
    obtain ⟨-, hwrites, -, hkeeps, -⟩ := s.c.finishPiece_keeps P.pieceSize k.idx ok buf.length
      (some (P.digest buf)) now
    refine effect_drop rfl rfl rfl (by rw [hpc]; rfl) hkeeps.filling hwrites ?_
    split_ifs <;> rfl
  | @marked who idx hpc hbit =>
    refine effect_moveTo rfl rfl rfl rfl ?_
    rw [hpc]
    cases who <;> rfl
  | @unmarked who idx hpc hbit =>
    refine effect_moveTo rfl rfl rfl rfl ?_
    rw [hpc]
    cases who with
    | fuse prefer retries =>
      unfold unmarkedNext
      dsimp only
      split_ifs <;> rfl
    | range stop => rfl

/-! ## The invariant -/

/-- Thread `t` is between the grant and the drop of a claim on piece `i`. -/
def World.Holds (s : World τ φ β δ) (t : τ) (i : Nat) : Prop :=
  ∃ k, (s.pc t).claim = some k ∧ k.idx = i

instance (s : World τ φ β δ) (t : τ) (i : Nat) : Decidable (s.Holds t i) :=
  match h : (s.pc t).claim with
  | none => isFalse fun ⟨k, hk, _⟩ => by rw [h] at hk; cases hk
  | some k => decidable_of_iff (k.idx = i) (by simp [World.Holds, h])

/-- The map of claims and the threads agree. -/
structure Claims (s : World τ φ β δ) : Prop where
  lookup : ∀ t k, (s.pc t).claim = some k → s.c.filling.lookup k.idx = some k.gen
  gen_le : ∀ t k, (s.pc t).claim = some k → k.gen ≤ s.c.writes
  one : ∀ t u i, s.Holds t i → s.Holds u i → t = u
  held : ∀ i ∈ s.c.filling, ∃ t, s.Holds t i
  count : ∀ t i, s.granted t i = s.dropped t i + if s.Holds t i then 1 else 0

omit [DecidableEq τ] in
theorem Claims.mem {s : World τ φ β δ} (h : Claims s) {t : τ} {i : Nat} (hi : s.Holds t i) :
    i ∈ s.c.filling := by
  obtain ⟨k, hk, rfl⟩ := hi
  exact AList.lookup_isSome.mp (by rw [h.lookup t k hk]; rfl)

omit [DecidableEq τ] in
theorem holds_congr {s s' : World τ φ β δ} {t : τ} (h : (s'.pc t).claim = (s.pc t).claim)
    (i : Nat) : s'.Holds t i ↔ s.Holds t i := by
  unfold World.Holds
  rw [h]

theorem Effect.claim_of_ne {s s' : World τ φ β δ} {t u : τ} (h : Effect t s s') (hu : u ≠ t) :
    (s'.pc u).claim = (s.pc u).claim := congrArg Pc.claim (h.others u hu)

theorem Claims.keep {s s' : World τ φ β δ} {t : τ} (h : Claims s) (he : Effect t s s')
    (hmap : s'.c.filling = s.c.filling) (hclaim : (s'.pc t).claim = (s.pc t).claim) :
    Claims s' := by
  have hsame : ∀ u, (s'.pc u).claim = (s.pc u).claim := by
    intro u
    by_cases hu : u = t
    · rw [hu, hclaim]
    · exact he.claim_of_ne hu
  refine ⟨fun u k hk => ?_, fun u k hk => ?_, fun u v i hu hv => ?_, fun i hi => ?_, fun u i => ?_⟩
  · rw [hmap]
    exact h.lookup u k (by rwa [hsame u] at hk)
  · exact (h.gen_le u k (by rwa [hsame u] at hk)).trans he.writes
  · exact h.one u v i ((holds_congr (hsame u) i).mp hu) ((holds_congr (hsame v) i).mp hv)
  · obtain ⟨u, hu⟩ := h.held i (by rwa [hmap] at hi)
    exact ⟨u, (holds_congr (hsame u) i).mpr hu⟩
  · rw [he.granted, he.dropped]
    have hcount := h.count u i
    have hiff := holds_congr (hsame u) i
    simp only [World.act, hmap, hiff]
    simpa using hcount

theorem Claims.take {s s' : World τ φ β δ} {t : τ} {i n : Nat} (h : Claims s)
    (he : Effect t s s') (hnone : (s.pc t).claim = none) (hfree : i ∉ s.c.filling)
    (hmap : s'.c.filling = s.c.filling.insert i s.c.writes)
    (hclaim : (s'.pc t).claim = some ⟨i, n, s.c.writes⟩) : Claims s' := by
  have hnot : ∀ j, ¬ s.Holds t j := by
    rintro j ⟨k, hk, -⟩
    rw [hnone] at hk
    cases hk
  have hown : ∀ j, s'.Holds t j ↔ j = i := by
    intro j
    unfold World.Holds
    rw [hclaim]
    constructor
    · rintro ⟨k, hk, rfl⟩
      cases hk
      rfl
    · rintro rfl
      exact ⟨_, rfl, rfl⟩
  have hother : ∀ u, u ≠ t → ∀ j, s'.Holds u j ↔ s.Holds u j := fun u hu j =>
    holds_congr (he.claim_of_ne hu) j
  -- nobody held the piece the new claim is on
  have hnobody : ∀ u, ¬ s.Holds u i := fun u hu => hfree (h.mem hu)
  refine ⟨fun u k hk => ?_, fun u k hk => ?_, fun u v j hu hv => ?_, fun j hj => ?_, fun u j => ?_⟩
  · by_cases hu : u = t
    · rw [hu, hclaim] at hk
      cases hk
      rw [hmap, AList.lookup_insert]
    · rw [he.claim_of_ne hu] at hk
      have hne : k.idx ≠ i := fun heq => hnobody u ⟨k, hk, heq⟩
      rw [hmap, AList.lookup_insert_ne hne, h.lookup u k hk]
  · by_cases hu : u = t
    · rw [hu, hclaim] at hk
      cases hk
      exact he.writes
    · rw [he.claim_of_ne hu] at hk
      exact (h.gen_le u k hk).trans he.writes
  · by_cases hut : u = t <;> by_cases hvt : v = t
    · rw [hut, hvt]
    · rw [hut, hown] at hu
      rw [hother v hvt, hu] at hv
      exact absurd hv (hnobody v)
    · rw [hvt, hown] at hv
      rw [hother u hut, hv] at hu
      exact absurd hu (hnobody u)
    · exact h.one u v j ((hother u hut j).mp hu) ((hother v hvt j).mp hv)
  · rw [hmap, AList.mem_insert] at hj
    rcases hj with rfl | hold
    · exact ⟨t, (hown j).mpr rfl⟩
    · obtain ⟨u, hu⟩ := h.held j hold
      by_cases hut : u = t
      · exact absurd (hut ▸ hu) (hnot j)
      · exact ⟨u, (hother u hut j).mpr hu⟩
  · have hcount := h.count u j
    rw [he.granted, he.dropped]
    simp only [World.act, hmap, AList.mem_insert]
    by_cases hut : u = t
    · subst hut
      rw [if_neg (hnot j)] at hcount
      by_cases hj : j = i
      · subst hj
        simp [hown, hfree, hcount]
      · simp [hown, hj, hcount]
    · simp [hut, hother u hut, hcount]

theorem Claims.drop {s s' : World τ φ β δ} {t : τ} {k : Claim} (h : Claims s)
    (he : Effect t s s') (hclaim : (s.pc t).claim = some k)
    (hmap : s'.c.filling = s.c.filling.erase k.idx) (hnone : (s'.pc t).claim = none) :
    Claims s' := by
  have hnot : ∀ j, ¬ s'.Holds t j := by
    rintro j ⟨k', hk', -⟩
    rw [hnone] at hk'
    cases hk'
  have hown : ∀ j, s.Holds t j ↔ j = k.idx := by
    intro j
    unfold World.Holds
    rw [hclaim]
    constructor
    · rintro ⟨k', hk', rfl⟩
      cases hk'
      rfl
    · rintro rfl
      exact ⟨_, rfl, rfl⟩
  have hother : ∀ u, u ≠ t → ∀ j, s'.Holds u j ↔ s.Holds u j := fun u hu j =>
    holds_congr (he.claim_of_ne hu) j
  have hmine : ∀ u, s.Holds u k.idx → u = t := fun u hu =>
    h.one u t k.idx hu ((hown _).mpr rfl)
  have hne : ∀ u, s'.Holds u k.idx → False := by
    intro u hu
    by_cases hut : u = t
    · exact hnot _ (hut ▸ hu)
    · exact hut (hmine u ((hother u hut _).mp hu))
  refine ⟨fun u k' hk' => ?_, fun u k' hk' => ?_, fun u v j hu hv => ?_, fun j hj => ?_,
    fun u j => ?_⟩
  · have hidx : k'.idx ≠ k.idx := fun heq => hne u ⟨k', hk', heq⟩
    by_cases hu : u = t
    · rw [hu, hnone] at hk'
      cases hk'
    · rw [he.claim_of_ne hu] at hk'
      rw [hmap, AList.lookup_erase_ne hidx, h.lookup u k' hk']
  · by_cases hu : u = t
    · rw [hu, hnone] at hk'
      cases hk'
    · rw [he.claim_of_ne hu] at hk'
      exact (h.gen_le u k' hk').trans he.writes
  · by_cases hut : u = t
    · exact absurd (hut ▸ hu) (hnot j)
    by_cases hvt : v = t
    · exact absurd (hvt ▸ hv) (hnot j)
    exact h.one u v j ((hother u hut j).mp hu) ((hother v hvt j).mp hv)
  · rw [hmap, AList.mem_erase] at hj
    obtain ⟨u, hu⟩ := h.held j hj.2
    by_cases hut : u = t
    · rw [hut, hown] at hu
      exact absurd hu hj.1
    · exact ⟨u, (hother u hut j).mpr hu⟩
  · have hcount := h.count u j
    rw [he.granted, he.dropped]
    simp only [World.act, hmap, AList.mem_erase]
    by_cases hut : u = t
    · subst hut
      by_cases hj : j = k.idx
      · subst hj
        have hmem := h.mem ((hown k.idx).mpr rfl)
        simp [hown, hnot] at hcount ⊢
        simp [hmem, hcount]
      · simp [hown, hnot, hj] at hcount ⊢
        exact hcount
    · simp [hut, hother u hut, hcount]

theorem Claims.effect {s s' : World τ φ β δ} {t : τ} (h : Claims s) (he : Effect t s s') :
    Claims s' := by
  cases he.moves with
  | keep hmap hclaim => exact h.keep he hmap hclaim
  | take i n hnone hfree hmap hclaim => exact h.take he hnone hfree hmap hclaim
  | drop k hclaim hmap hnone => exact h.drop he hclaim hmap hnone

omit [DecidableEq τ] in
theorem claims_start (c : Cached φ δ) (hempty : c.filling = ∅) :
    Claims (start τ β c : World τ φ β δ) where
  lookup t k hk := by cases hk
  gen_le t k hk := by cases hk
  one t u i := by
    rintro ⟨k, hk, -⟩
    cases hk
  held i hi := by
    change i ∈ c.filling at hi
    rw [hempty] at hi
    exact absurd hi (AList.notMem_empty i)
  count t i := by
    rw [if_neg]
    · rfl
    · rintro ⟨k, hk, -⟩
      cases hk

end Hydrate

end ModelFs
