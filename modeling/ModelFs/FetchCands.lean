import ModelFs.Catalog
import ModelFs.Lib.Select

/-!
# Trying the candidates

`fetchFromCands` asks the candidate that `pickBest` ranks first for the piece. When the fetch fails
it clears that candidate's `have` and ranks the rest again, until one answers or none is left. What
a fetch comes to is the wire's, and the score a candidate has may be another in every round; a score
is a value of a linear order here.

* `pickBest_spec` — the pick is the first of those no other beats, by score and address.
* `fetchLoop_tried` — a candidate is tried at most once, and only one that has the piece.
* `fetchFromCands_spec` — **the run of the loop**: whom it tries, how it ends, and that every
  increment it made is taken back.
-/

namespace ModelFs

namespace Catalog

open Select (scanBest FirstBest)
open StableSort (StrictTotal)

variable {F S : Type} [LinearOrder S]

/-! ## The pick -/

/-- `a` is put before `b`: a higher score, or the lower address at the same score. -/
def ranksBefore (pathScore : F → Nat → Nat → S) (a b : PathCand F) : Bool :=
  b.score pathScore < a.score pathScore ∨
    a.score pathScore = b.score pathScore ∧ candTieLess a b

/-- What candidates are ranked by. -/
def PathCand.rank (pathScore : F → Nat → Nat → S) (c : PathCand F) : S × Discover.Addr :=
  (c.score pathScore, c.ip, c.port)

theorem ranksBefore_iff (pathScore : F → Nat → Nat → S) (a b : PathCand F) :
    ranksBefore pathScore a b = true ↔
      (b.rank pathScore).1 < (a.rank pathScore).1 ∨
        (a.rank pathScore).1 = (b.rank pathScore).1 ∧
          Discover.addrTieLess (a.rank pathScore).2 (b.rank pathScore).2 = true :=
  decide_eq_true_iff

theorem pickFrom_eq (pathScore : F → Nat → Nat → S) (cands : List (PathCand F)) (i : Nat)
    (best : Option (Nat × PathCand F)) :
    pickFrom pathScore cands i best =
      scanBest PathCand.have_ (ranksBefore pathScore) cands i best := by
  induction cands generalizing i best with
  | nil => cases best <;> rfl
  | cons cand cands ih =>
    rw [scanBest, pickFrom.eq_def]
    dsimp only
    cases hhave : cand.have_ with
    | false =>
      rw [if_pos (by simp), ih]
      cases best <;> simp [Select.scanStep, hhave]
    | true =>
      rw [if_neg (by simp)]
      cases best with
      | none => rw [ih, Select.scanStep, hhave, if_pos rfl]
      | some jb =>
        dsimp only
        rw [Select.scanStep, hhave, Bool.true_and, ranksBefore]
        by_cases hless : jb.2.score pathScore < cand.score pathScore ∨
            cand.score pathScore = jb.2.score pathScore ∧ candTieLess cand jb.2 = true
        · rw [if_pos hless, if_pos (decide_eq_true hless), ih]
        · rw [if_neg hless, if_neg (by simpa using hless), ih]

/-- **The pick is the first that no candidate is ranked before**, and none is picked exactly when no
candidate has the piece. -/
theorem pickBest_spec (pathScore : F → Nat → Nat → S) (cands : List (PathCand F)) :
    (pickBest pathScore cands = none ↔ ∀ c ∈ cands, c.have_ = false) ∧
    ∀ bi, pickBest pathScore cands = some bi →
      ∃ win, FirstBest PathCand.have_ (ranksBefore pathScore) cands bi win := by
  have hholds := @Select.scanBest_spec _ _ _ (PathCand.rank pathScore) PathCand.have_
    (ranksBefore pathScore) strictTotal_score (ranksBefore_iff pathScore) cands
  unfold pickBest
  rw [pickFrom_eq]
  cases hscan : scanBest PathCand.have_ (ranksBefore pathScore) cands 0 none with
  | none =>
    rw [hscan] at hholds
    exact ⟨iff_of_true rfl hholds, fun bi h => nomatch h⟩
  | some jb =>
    obtain ⟨j, b⟩ := jb
    rw [hscan] at hholds
    refine ⟨iff_of_false (fun h => nomatch h) fun hnone => ?_, ?_⟩
    · have hno := hnone b (List.mem_of_getElem? hholds.at_place)
      rw [hholds.holds] at hno
      cases hno
    · intro bi hbi
      obtain rfl := Option.some.inj hbi
      exact ⟨b, hholds⟩

/-! ## The loop -/

/-- What the loop does to the catalog and the counters. -/
inductive CatCall where
  | inflight (a : Discover.Addr) (delta : Int)
  | noteFetchDown (a : Discover.Addr)
  | fillErrPeer
  | updateGoodput (a : Discover.Addr) (nanos : Nat)
  | clearFetchDown (a : Discover.Addr)
  deriving DecidableEq

def PathCand.addr (c : PathCand F) : Discover.Addr := (c.ip, c.port)

/-- A run of the loop: the places tried, the calls made, and the place that served; without one the
run ends in `NoPeer`. -/
structure FetchRun where
  tried : List Nat := []
  calls : List CatCall := []
  served : Option Nat := none
  deriving DecidableEq

/-- `remaining[bi].have = false`. -/
def giveUp (cands : List (PathCand F)) (bi : Nat) : List (PathCand F) :=
  cands.modify bi fun c => { c with have_ := false }

/-- A candidate that had the piece is one fewer. -/
theorem countP_giveUp {cands : List (PathCand F)} {bi : Nat} {win : PathCand F}
    (hwin : cands[bi]? = some win) (hhave : win.have_ = true) :
    (giveUp cands bi).countP PathCand.have_ < cands.countP PathCand.have_ := by
  obtain ⟨hlt, hat⟩ := List.getElem?_eq_some_iff.mp hwin
  obtain ⟨l₁, c, l₂, hsplit, hplace, hmodify⟩ :=
    List.exists_of_modify (fun c : PathCand F => { c with have_ := false }) hlt
  have hc : c = win := by
    rw [hsplit, ← hplace] at hwin
    simpa using hwin
  rw [giveUp, hmodify, hsplit, hc]
  simp [List.countP_append, hhave]

section Loop

variable (pathScore : Nat → F → Nat → Nat → S) (fetch : Nat → PathCand F → Option Nat)

/-- The rounds from `round` on. A fetch that fails comes to `none`, one that does not to the time it
took. -/
def fetchLoop (round : Nat) (cands : List (PathCand F)) : FetchRun :=
  match _hpick : pickBest (pathScore round) cands with
  | none => {}
  | some bi =>
    match _hwin : cands[bi]? with
    | none => {}
    | some win =>
      match fetch round win with
      | none =>
        let rest := fetchLoop (round + 1) (giveUp cands bi)
        { tried := bi :: rest.tried
          calls := [.inflight win.addr 1, .noteFetchDown win.addr, .fillErrPeer,
            .inflight win.addr (-1)] ++ rest.calls
          served := rest.served }
      | some nanos =>
        { tried := [bi]
          calls := [.inflight win.addr 1, .inflight win.addr (-1), .updateGoodput win.addr nanos,
            .clearFetchDown win.addr]
          served := some bi }
termination_by cands.countP PathCand.have_
decreasing_by
  obtain ⟨win', hfirst⟩ := (pickBest_spec (pathScore round) cands).2 bi _hpick
  obtain rfl : win' = win := Option.some.inj (hfirst.at_place.symm.trans _hwin)
  exact countP_giveUp _hwin hfirst.holds

/-- `fetchFromCands`. -/
def fetchFromCands (cands : List (PathCand F)) : FetchRun := fetchLoop pathScore fetch 0 cands

variable {pathScore fetch}

/-! ## One round -/

/-- A run whose first fetch failed. -/
def FetchRun.afterFailure (bi : Nat) (a : Discover.Addr) (rest : FetchRun) : FetchRun where
  tried := bi :: rest.tried
  calls := [.inflight a 1, .noteFetchDown a, .fillErrPeer, .inflight a (-1)] ++ rest.calls
  served := rest.served

/-- A run whose first fetch did not. -/
def FetchRun.afterSuccess (bi : Nat) (a : Discover.Addr) (nanos : Nat) : FetchRun where
  tried := [bi]
  calls := [.inflight a 1, .inflight a (-1), .updateGoodput a nanos, .clearFetchDown a]
  served := some bi

/-- **What a round does**: nothing is left, or the pick is tried. -/
theorem fetchLoop_cases (round : Nat) (cands : List (PathCand F)) :
    ((∀ c ∈ cands, c.have_ = false) ∧ fetchLoop pathScore fetch round cands = {}) ∨
    ∃ bi win, pickBest (pathScore round) cands = some bi ∧
      FirstBest PathCand.have_ (ranksBefore (pathScore round)) cands bi win ∧
      ((fetch round win = none ∧ fetchLoop pathScore fetch round cands =
          .afterFailure bi win.addr (fetchLoop pathScore fetch (round + 1) (giveUp cands bi))) ∨
        ∃ nanos, fetch round win = some nanos ∧
          fetchLoop pathScore fetch round cands = .afterSuccess bi win.addr nanos) := by
  obtain ⟨hnone, hsome⟩ := pickBest_spec (pathScore round) cands
  rw [fetchLoop]
  split
  · next hpick => exact Or.inl ⟨hnone.mp hpick, rfl⟩
  · next bi hpick =>
    right
    obtain ⟨win, hfirst⟩ := hsome bi hpick
    refine ⟨bi, win, hpick, hfirst, ?_⟩
    split
    · next hno =>
      rw [hfirst.at_place] at hno
      cases hno
    · next win' hwin =>
      obtain rfl : win' = win := Option.some.inj (hwin.symm.trans hfirst.at_place)
      cases hfetch : fetch round win' with
      | none => exact Or.inl ⟨rfl, rfl⟩
      | some nanos => exact Or.inr ⟨nanos, rfl, rfl⟩

/-- The rounds of a run, one after another. -/
theorem fetchLoop_induction {motive : Nat → List (PathCand F) → FetchRun → Prop}
    (none_left : ∀ round cands, (∀ c ∈ cands, c.have_ = false) → motive round cands {})
    (failed : ∀ round cands bi win, pickBest (pathScore round) cands = some bi →
      FirstBest PathCand.have_ (ranksBefore (pathScore round)) cands bi win →
      fetch round win = none →
      motive (round + 1) (giveUp cands bi)
        (fetchLoop pathScore fetch (round + 1) (giveUp cands bi)) →
      motive round cands
        (.afterFailure bi win.addr (fetchLoop pathScore fetch (round + 1) (giveUp cands bi))))
    (served : ∀ round cands bi win nanos, pickBest (pathScore round) cands = some bi →
      FirstBest PathCand.have_ (ranksBefore (pathScore round)) cands bi win →
      fetch round win = some nanos → motive round cands (.afterSuccess bi win.addr nanos))
    (round : Nat) (cands : List (PathCand F)) :
    motive round cands (fetchLoop pathScore fetch round cands) := by
  induction hleft : cands.countP PathCand.have_ using Nat.strong_induction_on
    generalizing round cands with
  | h left ih =>
    rcases @fetchLoop_cases F S _ pathScore fetch round cands with
      ⟨hnone, hrun⟩ | ⟨bi, win, hpick, hfirst, ⟨hfetch, hrun⟩ | ⟨nanos, hfetch, hrun⟩⟩
    · rw [hrun]
      exact none_left round cands hnone
    · rw [hrun]
      have hfewer := countP_giveUp hfirst.at_place hfirst.holds
      exact failed round cands bi win hpick hfirst hfetch
        (ih _ (hleft ▸ hfewer) (round + 1) (giveUp cands bi) rfl)
    · rw [hrun]
      exact served round cands bi win nanos hpick hfirst hfetch

/-! ## Whom a run tries -/

theorem giveUp_other {cands : List (PathCand F)} {bi i : Nat} (h : i ≠ bi) :
    (giveUp cands bi)[i]? = cands[i]? := List.getElem?_modify_ne _ _ h.symm

/-- Who still has the piece was not given up. -/
theorem ne_of_have {cands : List (PathCand F)} {bi i : Nat} {c : PathCand F}
    (hat : (giveUp cands bi)[i]? = some c) (hhave : c.have_ = true) : i ≠ bi := by
  rintro rfl
  rw [giveUp, List.getElem?_modify_eq] at hat
  obtain ⟨c', -, rfl⟩ := Option.map_eq_some_iff.mp hat
  cases hhave

/-- **A candidate is tried at most once**, and only one that has the piece. -/
theorem fetchLoop_tried (round : Nat) (cands : List (PathCand F)) :
    (fetchLoop pathScore fetch round cands).tried.Nodup ∧
      ∀ i ∈ (fetchLoop pathScore fetch round cands).tried,
        ∃ c, cands[i]? = some c ∧ c.have_ = true := by
  refine @fetchLoop_induction F S _ pathScore fetch (fun _ cands run =>
    run.tried.Nodup ∧ ∀ i ∈ run.tried, ∃ c, cands[i]? = some c ∧ c.have_ = true)
    ?_ ?_ ?_ round cands
  · intro round cands _
    exact ⟨List.nodup_nil, fun i hi => absurd hi List.not_mem_nil⟩
  · intro round cands bi win _ hfirst _ ⟨hnodup, hhave⟩
    have hlater : ∀ i ∈ (fetchLoop pathScore fetch (round + 1) (giveUp cands bi)).tried,
        i ≠ bi ∧ ∃ c, cands[i]? = some c ∧ c.have_ = true := by
      intro i hi
      obtain ⟨c, hat, hc⟩ := hhave i hi
      have hne := ne_of_have hat hc
      exact ⟨hne, c, giveUp_other hne ▸ hat, hc⟩
    refine ⟨List.nodup_cons.mpr ⟨fun hbi => (hlater bi hbi).1 rfl, hnodup⟩, ?_⟩
    intro i hi
    rcases List.mem_cons.mp hi with rfl | hi
    · exact ⟨win, hfirst.at_place, hfirst.holds⟩
    · exact (hlater i hi).2
  · intro round cands bi win nanos _ hfirst _
    refine ⟨List.nodup_singleton bi, fun i hi => ?_⟩
    rw [List.mem_singleton.mp hi]
    exact ⟨win, hfirst.at_place, hfirst.holds⟩

/-- **Each try is the pick among those not tried before.** -/
theorem fetchLoop_picks (round : Nat) (cands : List (PathCand F)) (k i : Nat)
    (h : (fetchLoop pathScore fetch round cands).tried[k]? = some i) :
    let left := ((fetchLoop pathScore fetch round cands).tried.take k).foldl giveUp cands
    pickBest (pathScore (round + k)) left = some i ∧
      ∃ win, FirstBest PathCand.have_ (ranksBefore (pathScore (round + k))) left i win := by
  revert k i
  refine @fetchLoop_induction F S _ pathScore fetch
    (fun round cands run => ∀ k i, run.tried[k]? = some i →
    let left := (run.tried.take k).foldl giveUp cands
    pickBest (pathScore (round + k)) left = some i ∧
      ∃ win, FirstBest PathCand.have_ (ranksBefore (pathScore (round + k))) left i win)
    ?_ ?_ ?_ round cands
  · intro round cands _ k i h
    cases h
  · intro round cands bi win hpick hfirst _ hrest k i h
    cases k with
    | zero =>
      obtain rfl := Option.some.inj h
      exact ⟨hpick, win, hfirst⟩
    | succ k =>
      have hlater := hrest k i h
      rwa [Nat.add_assoc, Nat.add_comm 1 k] at hlater
  · intro round cands bi win nanos hpick hfirst _ k i h
    cases k with
    | zero =>
      obtain rfl := Option.some.inj h
      exact ⟨hpick, win, hfirst⟩
    | succ k => cases h

/-! ## How a run ends -/

/-- The `k`-th fetch of a run, when it fails. -/
def FailsAt (fetch : Nat → PathCand F → Option Nat) (round : Nat) (cands : List (PathCand F))
    (tried : List Nat) (k : Nat) : Prop :=
  ∀ i c, tried[k]? = some i → cands[i]? = some c → fetch (round + k) c = none

theorem failsAt_succ {round k : Nat} {cands : List (PathCand F)} {bi : Nat} {tried : List Nat}
    (hne : ∀ i ∈ tried, i ≠ bi) :
    FailsAt fetch round cands (bi :: tried) (k + 1) ↔
      FailsAt fetch (round + 1) (giveUp cands bi) tried k := by
  have hround : round + (k + 1) = round + 1 + k := by omega
  unfold FailsAt
  rw [List.getElem?_cons_succ, hround]
  refine forall_congr' fun i => forall_congr' fun c => forall_congr' fun hi => ?_
  rw [giveUp_other (hne i (List.mem_of_getElem? hi))]

/-- **A run ends in `NoPeer` iff every fetch failed and no candidate is left**; otherwise the last
one tried served, and all before it failed. -/
theorem fetchLoop_ends (round : Nat) (cands : List (PathCand F)) :
    ((fetchLoop pathScore fetch round cands).served = none ↔
      (∀ k, FailsAt fetch round cands (fetchLoop pathScore fetch round cands).tried k) ∧
        ∀ i c, cands[i]? = some c → c.have_ = true →
          i ∈ (fetchLoop pathScore fetch round cands).tried) ∧
    ∀ i, (fetchLoop pathScore fetch round cands).served = some i →
      (fetchLoop pathScore fetch round cands).tried.getLast? = some i ∧
      ∀ k, k + 1 < (fetchLoop pathScore fetch round cands).tried.length →
        FailsAt fetch round cands (fetchLoop pathScore fetch round cands).tried k := by
  refine @fetchLoop_induction F S _ pathScore fetch (fun round cands run =>
    (run.served = none ↔ (∀ k, FailsAt fetch round cands run.tried k) ∧
      ∀ i c, cands[i]? = some c → c.have_ = true → i ∈ run.tried) ∧
    ∀ i, run.served = some i → run.tried.getLast? = some i ∧
      ∀ k, k + 1 < run.tried.length → FailsAt fetch round cands run.tried k)
    ?_ ?_ ?_ round cands
  · intro round cands hnone
    refine ⟨iff_of_true rfl ⟨fun k i c hi => (nomatch hi), fun i c hat hhave => ?_⟩,
      fun i h => nomatch h⟩
    have hno := hnone c (List.mem_of_getElem? hat)
    rw [hhave] at hno
    cases hno
  · intro round cands bi win _ hfirst hfetch ⟨hends, hserved⟩
    have htried := (@fetchLoop_tried F S _ pathScore fetch (round + 1)
      (giveUp cands bi)).2
    generalize fetchLoop pathScore fetch (round + 1) (giveUp cands bi) = rest at *
    have hne : ∀ i ∈ rest.tried, i ≠ bi := by
      intro i hi
      obtain ⟨c, hat, hhave⟩ := htried i hi
      exact ne_of_have hat hhave
    have hzero : FailsAt fetch round cands (bi :: rest.tried) 0 := by
      intro i c hi hc
      obtain rfl := Option.some.inj hi
      obtain rfl : win = c := Option.some.inj (hfirst.at_place.symm.trans hc)
      exact hfetch
    have hsucc : ∀ k, FailsAt fetch round cands (bi :: rest.tried) (k + 1) ↔
        FailsAt fetch (round + 1) (giveUp cands bi) rest.tried k := fun k => failsAt_succ hne
    constructor
    · refine hends.trans (and_congr ⟨fun h k => ?_, fun h k => (hsucc k).mp (h (k + 1))⟩ ?_)
      · cases k with
        | zero => exact hzero
        | succ k => exact (hsucc k).mpr (h k)
      · constructor
        · intro h i c hat hhave
          by_cases hi : i = bi
          · rw [hi]
            exact List.mem_cons_self
          · exact List.mem_cons_of_mem _ (h i c (by rw [giveUp_other hi, hat]) hhave)
        · intro h i c hat hhave
          have hi := ne_of_have hat hhave
          rw [giveUp_other hi] at hat
          exact (List.mem_cons.mp (h i c hat hhave)).resolve_left hi
    · intro i h
      obtain ⟨hlast, hbefore⟩ := hserved i h
      refine ⟨?_, fun k hk => ?_⟩
      · change (bi :: rest.tried).getLast? = some i
        rw [List.getLast?_cons, hlast]
        rfl
      · cases k with
        | zero => exact hzero
        | succ k => exact (hsucc k).mpr (hbefore k (Nat.lt_of_succ_lt_succ hk))
  · intro round cands bi win nanos _ hfirst hfetch
    constructor
    · refine iff_of_false (fun h => nomatch h) fun ⟨hfails, _⟩ => ?_
      have hno := hfails 0 bi win rfl hfirst.at_place
      rw [Nat.add_zero, hfetch] at hno
      cases hno
    · intro i h
      refine ⟨h, fun k hk => absurd hk ?_⟩
      simp [FetchRun.afterSuccess]

/-! ## What a run leaves of the counters -/

/-- The changes of the counters among the calls. -/
def moves (calls : List CatCall) : List (Discover.Addr × Int) :=
  calls.filterMap fun
    | .inflight a delta => some (a, delta)
    | _ => none

/-- The counters after some changes. -/
def replay (moved : List (Discover.Addr × Int)) (paths : List Discover.Path) :
    List Discover.Path :=
  moved.foldl (fun paths m => (Discover.inflight m.1 m.2 paths).2) paths

/-- **Each fetch adds one at its candidate's address and takes one back there.** -/
theorem fetchLoop_moves (round : Nat) (cands : List (PathCand F)) :
    moves (fetchLoop pathScore fetch round cands).calls =
      (fetchLoop pathScore fetch round cands).tried.flatMap fun i =>
        (cands[i]?.map PathCand.addr).elim [] fun a => [(a, 1), (a, -1)] := by
  refine @fetchLoop_induction F S _ pathScore fetch (fun _ cands run => moves run.calls =
    run.tried.flatMap fun i =>
      (cands[i]?.map PathCand.addr).elim [] fun a => [(a, 1), (a, -1)]) ?_ ?_ ?_ round cands
  · intro round cands _
    rfl
  · intro round cands bi win _ hfirst _ hrest
    have htried := (@fetchLoop_tried F S _ pathScore fetch (round + 1)
      (giveUp cands bi)).2
    generalize fetchLoop pathScore fetch (round + 1) (giveUp cands bi) = rest at *
    have hsame : (rest.tried.flatMap fun i =>
          ((giveUp cands bi)[i]?.map PathCand.addr).elim [] fun a => [(a, (1 : Int)), (a, -1)]) =
        rest.tried.flatMap fun i =>
          (cands[i]?.map PathCand.addr).elim [] fun a => [(a, 1), (a, -1)] := by
      refine List.flatMap_congr fun i hi => ?_
      obtain ⟨c, hat, hhave⟩ := htried i hi
      rw [giveUp_other (ne_of_have hat hhave)]
    rw [hsame] at hrest
    simp only [FetchRun.afterFailure, moves, List.filterMap_append, List.flatMap_cons,
      hfirst.at_place, Option.map_some, Option.elim_some] at hrest ⊢
    rw [hrest]
    rfl
  · intro round cands bi win nanos _ hfirst _
    simp [FetchRun.afterSuccess, moves, hfirst.at_place]

/-- One more and one fewer leaves the counters as they were. -/
theorem inflight_back {a : Discover.Addr} {paths : List Discover.Path}
    (hroom : ∀ p ∈ paths, p.inflight + 1 < 2 ^ 32) :
    (Discover.inflight a (-1) (Discover.inflight a 1 paths).2).2 = paths := by
  induction paths with
  | nil => rfl
  | cons p paths ih =>
    by_cases hp : p.port = a.2 ∧ p.ip = a.1
    · have hback : Discover.moved (Discover.moved p.inflight 1) (-1) = p.inflight := by
        rw [Discover.moved_up, Nat.mod_eq_of_lt (hroom p List.mem_cons_self), Discover.moved_down]
      rw [Discover.inflight, if_pos hp]
      dsimp only
      rw [Discover.inflight, if_pos hp, hback]
    · rw [Discover.inflight, if_neg hp]
      dsimp only
      rw [Discover.inflight, if_neg hp]
      dsimp only
      rw [ih fun q hq => hroom q (List.mem_cons_of_mem _ hq)]

theorem replay_pairs {ι : Type} (addrOf : ι → Option Discover.Addr) (tried : List ι)
    {paths : List Discover.Path} (hroom : ∀ p ∈ paths, p.inflight + 1 < 2 ^ 32) :
    replay (tried.flatMap fun i => (addrOf i).elim [] fun a => [(a, 1), (a, -1)]) paths =
      paths := by
  induction tried with
  | nil => rfl
  | cons i tried ih =>
    cases haddr : addrOf i with
    | none => simpa only [List.flatMap_cons, haddr, Option.elim_none, List.nil_append] using ih
    | some a =>
      have hback := @inflight_back a paths hroom
      unfold replay at ih ⊢
      rw [List.flatMap_cons, haddr, Option.elim_some, List.foldl_append, List.foldl_cons,
        List.foldl_cons, List.foldl_nil, hback]
      exact ih

/-- **The run of the loop**, for any candidates, scores and outcomes. It tries candidates that have
the piece, each at most once; each try is the one that `pickBest` ranks first among those not given
up; it ends in `NoPeer` exactly when every fetch it made failed and no candidate is left; and each
fetch takes back the increment it made, at the same address, so the counters are as they were. -/
theorem fetchFromCands_spec (pathScore : Nat → F → Nat → Nat → S)
    (fetch : Nat → PathCand F → Option Nat) (cands : List (PathCand F)) :
    ∃ run, fetchFromCands pathScore fetch cands = run ∧
      (run.tried.Nodup ∧ ∀ i ∈ run.tried, ∃ c, cands[i]? = some c ∧ c.have_ = true) ∧
      (∀ k i, run.tried[k]? = some i →
        pickBest (pathScore k) ((run.tried.take k).foldl giveUp cands) = some i ∧
        ∃ win, FirstBest PathCand.have_ (ranksBefore (pathScore k))
          ((run.tried.take k).foldl giveUp cands) i win) ∧
      (run.served = none ↔ (∀ k, FailsAt fetch 0 cands run.tried k) ∧
        ∀ i c, cands[i]? = some c → c.have_ = true → i ∈ run.tried) ∧
      (∀ i, run.served = some i → run.tried.getLast? = some i ∧
        ∀ k, k + 1 < run.tried.length → FailsAt fetch 0 cands run.tried k) ∧
      (moves run.calls = run.tried.flatMap fun i =>
        (cands[i]?.map PathCand.addr).elim [] fun a => [(a, 1), (a, -1)]) ∧
      ∀ paths : List Discover.Path, (∀ p ∈ paths, p.inflight + 1 < 2 ^ 32) →
        replay (moves run.calls) paths = paths := by
  obtain ⟨hends, hserved⟩ := @fetchLoop_ends F S _ pathScore fetch 0 cands
  refine ⟨_, rfl, fetchLoop_tried 0 cands, fun k i h => ?_, hends, hserved, fetchLoop_moves 0 cands,
    fun paths hroom => ?_⟩
  · have hpick := @fetchLoop_picks F S _ pathScore fetch 0 cands k i h
    rwa [Nat.zero_add] at hpick
  · unfold fetchFromCands
    rw [fetchLoop_moves]
    exact replay_pairs (fun i => cands[i]?.map PathCand.addr) _ hroom

end Loop

end Catalog

end ModelFs
