import ModelFs.Cached
import ModelFs.Handover

/-!
# Culling, driven by free space

`cullLoop` samples the cache filesystem once a round. `cull.freePercent` turns the sample into a
percentage, `cull.phase` the percentage and the phase before into a phase: below `bcull` pieces are
punched until `brun` is reached, and at or below `bstop` at the faster pace. A round whose `statfs`
fails decides nothing.

The store is a parameter here, with the two calls the loop makes on it.

* `freePercent_spec` — a percentage is a number up to 100, and nothing on the way overflows.
* `phase_spec` — the phase, from the three marks alone when they are in order.
* `culling_run_iff` — **culling is on after a run of rounds iff a sampled percentage was at or below
  `bcull` and no later one at or above `brun`.**
-/

namespace ModelFs

namespace Cull

open Handover (Water)

/-! ## Policy -/

/-- `cull.Phase`. -/
inductive Phase where
  | run
  | cull
  | stop
  deriving DecidableEq, Repr

/-- `cull.phase`; marks out of order fail its assertion. -/
def phase (freePct : Nat) (w : Water) (culling : Bool) : Option Phase :=
  if ¬ w.ordered then none
  else if freePct ≤ w.bstop then some .stop
  else if culling then
    if w.brun ≤ freePct then some .run else some .cull
  else if freePct ≤ w.bcull then some .cull
  else some .run

/-- A multiplication of two `u128`, which traps when the product does not fit. -/
def mul128 (a b : Nat) : Option Nat := if a * b < 2 ^ 128 then some (a * b) else none

/-- `@intCast` to `u32`, which traps on a value that does not fit. -/
def castU32 (n : Nat) : Option Nat := if n < 2 ^ 32 then some n else none

/-- `cull.freePercent`. -/
def freePercent (bavail blocks : UInt64) : Option Nat :=
  if blocks = 0 then some 100
  else do
    let scaled ← mul128 bavail.toNat 100
    castU32 (min (scaled / blocks.toNat) 100)

/-- The percentage of a sample, as a number. -/
def percent (sample : UInt64 × UInt64) : Nat :=
  if sample.2 = 0 then 100 else min (sample.1.toNat * 100 / sample.2.toNat) 100

/-- **The percentage fits** at every step, whatever the filesystem says. -/
theorem freePercent_spec (bavail blocks : UInt64) :
    freePercent bavail blocks = some (percent (bavail, blocks)) ∧
      percent (bavail, blocks) ≤ 100 := by
  unfold freePercent percent
  by_cases hempty : blocks = 0
  · simp [hempty]
  · have hfits : bavail.toNat * 100 < 2 ^ 128 := by
      have := bavail.toNat_lt
      omega
    have hle : min (bavail.toNat * 100 / blocks.toNat) 100 ≤ 100 := min_le_right ..
    have hcast : min (bavail.toNat * 100 / blocks.toNat) 100 < 2 ^ 32 := by omega
    simp only [hempty, if_false, mul128, if_pos hfits, castU32, Option.bind_eq_bind,
      Option.bind_some, if_pos hcast]
    exact ⟨trivial, hle⟩

theorem Water.ordered_iff {w : Water} :
    w.ordered = true ↔ w.brun ≤ 100 ∧ w.bcull < w.brun ∧ w.bstop < w.bcull := by
  simp [Water.ordered, and_assoc]

/-- **The phase**, when the marks are in order. -/
theorem phase_spec {w : Water} (h : w.ordered = true) (freePct : Nat) (culling : Bool) :
    ∃ ph, phase freePct w culling = some ph ∧ (ph = .stop ↔ freePct ≤ w.bstop) ∧
      (ph ≠ .run ↔ latchStep (· ≤ w.bcull) (w.brun ≤ ·) culling freePct = true) := by
  obtain ⟨-, hrun, hstop⟩ := Water.ordered_iff.mp h
  simp only [phase, h, not_true_eq_false, if_false, latchStep]
  by_cases hs : freePct ≤ w.bstop
  · have hc : freePct ≤ w.bcull := by omega
    exact ⟨.stop, by simp [hs, hc]⟩
  · by_cases hc : freePct ≤ w.bcull
    · have hr : ¬ w.brun ≤ freePct := by omega
      refine ⟨.cull, ?_⟩
      cases culling <;> simp [hs, hc, hr]
    · by_cases hr : w.brun ≤ freePct
      · refine ⟨.run, ?_⟩
        cases culling <;> simp [hs, hc, hr]
      · cases culling with
        | true => exact ⟨.cull, by simp [hs, hc, hr]⟩
        | false => exact ⟨.run, by simp [hs, hc, hr]⟩

/-! ## The loop -/

/-- What a round says in the journal. -/
inductive Line where
  | statfsFailed
  | statfsRecovered
  | edge (ph : Phase) (freePct : Nat)
  deriving DecidableEq, Repr

variable {σ : Type}

/-- The locals of `cullLoop`, beside the store. -/
structure Driver (σ : Type) where
  store : σ
  culling : Bool := false
  statfsFailing : Bool := false
  loggedPhase : Phase := .run
  lastReap : Int

/-- What a round reads: its instant, and the sample unless `statfs` fails. -/
structure Tick where
  now : Int
  sample : Option (UInt64 × UInt64)

/-- What a round leaves beside the locals. -/
structure Round where
  phase : Option Phase
  lines : List Line
  napMs : Nat
  deriving DecidableEq, Repr

def reapEverySecs : Int := 30
def reapIdleSecs : Int := 300

section Loop

variable (reapIdle : Int → Int → σ → σ) (cullOne : Int → σ → Bool × σ)

/-- The calls of `cullOne` in one round, up to the first that finds nothing. -/
def cullSome (now : Int) : Nat → σ → σ
  | 0, store => store
  | tries + 1, store =>
    match cullOne now store with
    | (true, store') => cullSome now tries store'
    | (false, store') => store'

/-- What has been idle is reaped at most once in `reapEverySecs`. -/
def reap (d : Driver σ) (now : Int) : Driver σ :=
  if reapEverySecs ≤ satSubI64 now d.lastReap then
    { d with store := reapIdle now reapIdleSecs d.store, lastReap := now }
  else d

/-- A round once its sample is a percentage. -/
def decided (w : Water) (d : Driver σ) (now : Int) (freePct : Nat) : Option (Driver σ × Round) := do
  let recovered := if d.statfsFailing then [Line.statfsRecovered] else []
  let ph ← phase freePct w d.culling
  let edge := if ph ≠ d.loggedPhase then [Line.edge ph freePct] else []
  let d := { d with statfsFailing := false, loggedPhase := ph, culling := decide (ph ≠ Phase.run) }
  if d.culling then
    some ({ d with store := cullSome cullOne now 16 d.store },
      ⟨some ph, recovered ++ edge, if ph = .stop then 500 else 1000⟩)
  else
    some (d, ⟨some ph, recovered ++ edge, 2000⟩)

/-- One round of `cullLoop`. -/
def round (w : Water) (d : Driver σ) (tick : Tick) : Option (Driver σ × Round) :=
  let d := reap reapIdle d tick.now
  match tick.sample with
  | none =>
    some ({ d with statfsFailing := true },
      ⟨none, if d.statfsFailing then [] else [.statfsFailed], 2000⟩)
  | some (bavail, blocks) =>
    (freePercent bavail blocks).bind fun freePct => decided cullOne w d tick.now freePct

/-- The rounds of a run of the loop, in order, and the locals after the last. -/
def rounds (w : Water) (d : Driver σ) : List Tick → Option (Driver σ × List Round)
  | [] => some (d, [])
  | tick :: ticks => do
    let (d, r) ← round reapIdle cullOne w d tick
    let (d, rs) ← rounds w d ticks
    some (d, r :: rs)

variable {reapIdle cullOne} {w : Water}

@[simp] theorem reap_culling (d : Driver σ) (now : Int) :
    (reap reapIdle d now).culling = d.culling := by
  unfold reap
  split <;> rfl

@[simp] theorem reap_loggedPhase (d : Driver σ) (now : Int) :
    (reap reapIdle d now).loggedPhase = d.loggedPhase := by
  unfold reap
  split <;> rfl

/-- A failed sample leaves the flag and the phase that was named, and culls nothing. -/
theorem round_failed (w : Water) (d : Driver σ) {tick : Tick} (h : tick.sample = none) :
    ∃ d' r, round reapIdle cullOne w d tick = some (d', r) ∧ r.phase = none ∧
      d'.culling = d.culling ∧ d'.loggedPhase = d.loggedPhase ∧
      d'.store = (reap reapIdle d tick.now).store := by
  simp only [round, h]
  exact ⟨_, _, rfl, rfl, reap_culling d tick.now, reap_loggedPhase d tick.now, rfl⟩

/-- The flag moves as a latch, and the phase is `stop` exactly at or below `bstop`. -/
theorem decided_spec (hw : w.ordered = true) (d : Driver σ) (now : Int) (freePct : Nat) :
    ∃ d' r ph, decided cullOne w d now freePct = some (d', r) ∧ r.phase = some ph ∧
      (ph = .stop ↔ freePct ≤ w.bstop) ∧
      d'.culling = latchStep (· ≤ w.bcull) (w.brun ≤ ·) d.culling freePct := by
  obtain ⟨ph, hph, hstop, hflag⟩ := phase_spec hw freePct d.culling
  have hflag' : decide (ph ≠ .run) =
      latchStep (· ≤ w.bcull) (w.brun ≤ ·) d.culling freePct := by
    rw [Bool.eq_iff_iff, decide_eq_true_iff, hflag]
  simp only [decided, hph, Option.bind_eq_bind, Option.bind_some]
  split
  · exact ⟨_, _, ph, rfl, rfl, hstop, hflag'⟩
  · exact ⟨_, _, ph, rfl, rfl, hstop, hflag'⟩

/-- A sampled round is its percentage's. -/
theorem round_sampled (hw : w.ordered = true) (d : Driver σ) {tick : Tick}
    {sample : UInt64 × UInt64} (h : tick.sample = some sample) :
    ∃ d' r ph, round reapIdle cullOne w d tick = some (d', r) ∧ r.phase = some ph ∧
      (ph = .stop ↔ percent sample ≤ w.bstop) ∧
      d'.culling = latchStep (· ≤ w.bcull) (w.brun ≤ ·) d.culling (percent sample) := by
  obtain ⟨bavail, blocks⟩ := sample
  obtain ⟨hpct, -⟩ := freePercent_spec bavail blocks
  simp only [round, h, hpct, Option.bind_some]
  simpa only [reap_culling] using
    decided_spec hw (reap reapIdle d tick.now) tick.now (percent (bavail, blocks))

/-- The round sampled the filesystem, at a percentage that is `p`. -/
def Tick.At (tick : Tick) (p : Nat → Prop) : Prop := ∃ sample ∈ tick.sample, p (percent sample)

instance (tick : Tick) (p : Nat → Prop) [DecidablePred p] : Decidable (tick.At p) :=
  inferInstanceAs (Decidable (∃ sample ∈ tick.sample, p (percent sample)))

/-- The phase of a round says whether its sample was at or below `bstop`. -/
def StopAtFloor (w : Water) (tick : Tick) (r : Round) : Prop :=
  (r.phase = none ↔ tick.sample = none) ∧ (r.phase = some .stop ↔ tick.At (· ≤ w.bstop))

/-- The flag as a latch over the rounds of a run. -/
def flagOver (w : Water) (on : Bool) (ticks : List Tick) : Bool :=
  latch (fun tick : Tick => tick.At (· ≤ w.bcull)) (fun tick => tick.At (w.brun ≤ ·)) on ticks

theorem round_spec (hw : w.ordered = true) (d : Driver σ) (tick : Tick) :
    ∃ d' r, round reapIdle cullOne w d tick = some (d', r) ∧ StopAtFloor w tick r ∧
      d'.culling = flagOver w d.culling [tick] := by
  cases hsample : tick.sample with
  | none =>
    obtain ⟨d', r, hround, hphase, hflag, -, -⟩ :=
      @round_failed σ reapIdle cullOne w d tick hsample
    refine ⟨d', r, hround, ?_, ?_⟩
    · simp [StopAtFloor, Tick.At, hsample, hphase]
    · simp [hflag, flagOver, latch, latchStep, Tick.At, hsample]
  | some sample =>
    obtain ⟨d', r, ph, hround, hphase, hstop, hflag⟩ :=
      @round_sampled σ reapIdle cullOne w hw d tick sample hsample
    refine ⟨d', r, hround, ?_, ?_⟩
    · simp [StopAtFloor, Tick.At, hsample, hphase, hstop]
    · simp [hflag, flagOver, latch, latchStep, Tick.At, hsample]

/-- Every round of a run finds a phase, and the flag is the latch's. -/
theorem rounds_spec (hw : w.ordered = true) (d : Driver σ) (ticks : List Tick) :
    ∃ d' rs, rounds reapIdle cullOne w d ticks = some (d', rs) ∧
      List.Forall₂ (StopAtFloor w) ticks rs ∧ d'.culling = flagOver w d.culling ticks := by
  induction ticks generalizing d with
  | nil => exact ⟨d, [], rfl, .nil, rfl⟩
  | cons tick ticks ih =>
    obtain ⟨d₁, r, hround, hstop, hmoved⟩ :=
      @round_spec σ reapIdle cullOne w hw d tick
    obtain ⟨d', rs, hrest, hstops, hflag⟩ := ih d₁
    refine ⟨d', r :: rs, ?_, .cons hstop hstops, ?_⟩
    · simp [rounds, hround, hrest]
    · rw [hflag, hmoved]
      rfl

/-- **Culling is on after a run of rounds** iff some sampled percentage was at or below `bcull` and
no later one at or above `brun`. A failed round changes nothing, a round is in the phase `stop`
exactly at or below `bstop`, and the percentage of any sample is computed and at most 100. -/
theorem culling_run_iff (hw : w.ordered = true) (store : σ) (lastReap : Int) (ticks : List Tick) :
    (∃ d rs, rounds reapIdle cullOne w { store, lastReap } ticks = some (d, rs) ∧
      (d.culling = true ↔ ∃ before k after, ticks = before ++ k :: after ∧
        k.At (· ≤ w.bcull) ∧ ∀ later ∈ after, ¬ later.At (w.brun ≤ ·)) ∧
      List.Forall₂ (StopAtFloor w) ticks rs) ∧
    (∀ (d : Driver σ) (tick : Tick), tick.sample = none →
      ∃ d' r, round reapIdle cullOne w d tick = some (d', r) ∧ r.phase = none ∧
        d'.culling = d.culling ∧ d'.loggedPhase = d.loggedPhase ∧
        d'.store = (reap reapIdle d tick.now).store) ∧
    ∀ bavail blocks : UInt64,
      freePercent bavail blocks = some (percent (bavail, blocks)) ∧
        percent (bavail, blocks) ≤ 100 := by
  obtain ⟨d, rs, hrun, hstops, hflag⟩ :=
    @rounds_spec σ reapIdle cullOne w hw { store, lastReap } ticks
  refine ⟨⟨d, rs, hrun, ?_, hstops⟩, fun d tick h => round_failed w d h, freePercent_spec⟩
  rw [hflag]
  exact latch_iff _ _ ticks

/-- A run with every kind of round: at 8 of 100 nothing starts, a failed round keeps culling on. -/
theorem culling_run_default :
    ({} : Water).ordered = true ∧
    (∃ d rs, rounds (fun _ _ s => s) (fun _ s => (false, s)) {} ({ store := (), lastReap := 0 })
        [⟨2, some (8, 100)⟩, ⟨4, some (7, 100)⟩, ⟨6, none⟩, ⟨8, some (3, 100)⟩] = some (d, rs) ∧
      d.culling = true) := by
  refine ⟨by decide, ?_⟩
  obtain ⟨⟨d, rs, hrun, hflag, -⟩, -, -⟩ :=
    @culling_run_iff Unit (fun _ _ s => s) (fun _ s => (false, s)) {} (by decide) () 0
      [⟨2, some (8, 100)⟩, ⟨4, some (7, 100)⟩, ⟨6, none⟩, ⟨8, some (3, 100)⟩]
  exact ⟨d, rs, hrun, hflag.mpr ⟨[⟨2, some (8, 100)⟩, ⟨4, some (7, 100)⟩, ⟨6, none⟩],
    ⟨8, some (3, 100)⟩, [], rfl, by decide, by simp⟩⟩

end Loop

end Cull

end ModelFs
