import ModelFs.Lib.Machine

/-!
# One walk for many fills

Before `fillFromPeers` walks over the peers it claims the file in `probe_inflight`. A call that
finds the file claimed sleeps and looks again, for two seconds in all; then it walks without a
claim. A claim is given back by the name of the file.

Any number of calls run on any files. A critical section of `have_mu` is one step. What the cache
answers, how a walk and a fetch end and whether an allocation fails is left open. `Entry.taker` and
`removals` are history: who made an entry, and who took out whose.

* `table_step` — an entry is there just while the call that made it has its claim.
* `probe_singleflight` — **what holds in every run**.
-/

namespace ModelFs.ProbeClaims

/-! ## The claims -/

inductive ProbeClaim where
  | claimed
  | busy
  | overflow
deriving DecidableEq, Repr

def probeInflightCap : Nat := 32

structure Entry (ι : Type*) where
  rel : List UInt8
  taker : ι
deriving DecidableEq

section Claims

variable {ι : Type*}

/-- `probe_inflight` after the call of `taker`; `mem` says that memory can be had. -/
def probeTryClaim (inflight : List (Entry ι)) (rel : List UInt8) (taker : ι) (mem : Bool) :
    ProbeClaim × List (Entry ι) :=
  if inflight.any fun e => e.rel == rel then (.busy, inflight)
  else if probeInflightCap ≤ inflight.length then (.overflow, inflight)
  else if mem = false then (.overflow, inflight)
  else (.claimed, inflight ++ [⟨rel, taker⟩])

/-- What is left, and whose entry was taken out. -/
def probeRelease (rel : List UInt8) : List (Entry ι) → List (Entry ι) × Option ι
  | [] => ([], none)
  | e :: es =>
    if e.rel ≠ rel then (e :: (probeRelease rel es).1, (probeRelease rel es).2)
    else (es, some e.taker)

/-- **What a try does.** -/
theorem probeTryClaim_cases (inflight : List (Entry ι)) (rel : List UInt8) (taker : ι)
    (mem : Bool) :
    (∃ claim, claim ≠ .claimed ∧ probeTryClaim inflight rel taker mem = (claim, inflight)) ∨
    ((∀ e ∈ inflight, e.rel ≠ rel) ∧ inflight.length < probeInflightCap ∧
      probeTryClaim inflight rel taker mem = (.claimed, inflight ++ [⟨rel, taker⟩])) := by
  unfold probeTryClaim
  split_ifs with hany hfull hmem
  · exact .inl ⟨.busy, by decide, rfl⟩
  · exact .inl ⟨.overflow, by decide, rfl⟩
  · exact .inl ⟨.overflow, by decide, rfl⟩
  · refine .inr ⟨fun e he heq => hany ?_, Nat.not_le.mp hfull, rfl⟩
    exact List.any_eq_true.mpr ⟨e, he, by simpa using heq⟩

/-- **What is taken out** is the entry of the name, and there is one. -/
theorem probeRelease_of_mem {inflight : List (Entry ι)} {e : Entry ι} (h : e ∈ inflight)
    (hnodup : (inflight.map Entry.rel).Nodup) :
    ∃ before after, inflight = before ++ e :: after ∧
      probeRelease e.rel inflight = (before ++ after, some e.taker) := by
  induction inflight with
  | nil => cases h
  | cons x es ih =>
    rw [List.map_cons, List.nodup_cons] at hnodup
    obtain rfl | h := List.mem_cons.mp h
    · exact ⟨[], es, rfl, by rw [probeRelease, if_neg (not_not.mpr rfl)]; rfl⟩
    · obtain ⟨before, after, hsplit, hrelease⟩ := ih h hnodup.2
      have hne : x.rel ≠ e.rel := fun heq => hnodup.1 (heq ▸ List.mem_map_of_mem h)
      refine ⟨x :: before, after, by rw [hsplit]; rfl, ?_⟩
      rw [probeRelease, if_pos hne, hrelease]
      rfl

end Claims

/-! ## Calls -/

def probeWaitPollMs : Nat := 2

def probeWaitPollMaxMs : Nat := 32

def probeWaitMaxMs : Nat := 2000

def maxU32 : Nat := 2 ^ 32 - 1

/-- Where a call of `fillFromPeers` is. -/
inductive Phase where
  | outside
  /-- At the head of the loop. -/
  | head
  /-- The cache did not answer. -/
  | claiming
  | sleeping
  /-- Past the wait, with a claim or without. -/
  | rechecking
  | probing
  | fetching
  /-- What was deferred is next. -/
  | leaving
  | done
deriving DecidableEq, Repr

structure Call where
  rel : List UInt8 := []
  phase : Phase := .outside
  /-- The last answer of `probeTryClaim`. -/
  claim : Option ProbeClaim := none
  waited : Nat := 0
  poll : Nat := probeWaitPollMs
  /-- Sleeps so far. -/
  rounds : Nat := 0
  /-- Walks over the peers so far. -/
  walks : Nat := 0

structure State (ι : Type*) where
  inflight : List (Entry ι)
  call : ι → Call
  removals : List (ι × ι)

variable {ι : Type*}

def initial : State ι where
  inflight := []
  call _ := {}
  removals := []

variable [DecidableEq ι]

def State.set (s : State ι) (t : ι) (c : Call) : State ι :=
  { s with call := Function.update s.call t c }

/-- The call after an answer. -/
def Call.answered (c : Call) (claim : ProbeClaim) : Call :=
  { c with
    claim := some claim
    phase := if claim ≠ .busy ∨ probeWaitMaxMs ≤ c.waited then .rechecking else .sleeping }

/-- The call after a sleep. The doubling saturates. -/
def Call.slept (c : Call) : Call :=
  { c with
    phase := .head
    waited := c.waited + c.poll
    poll := min (min (c.poll * 2) maxU32) probeWaitPollMaxMs
    rounds := c.rounds + 1 }

inductive Step (s : State ι) : State ι → Prop where
  | start {t : ι} (rel : List UInt8) : (s.call t).phase = .outside →
      Step s (s.set t { rel := rel, phase := .head })
  | hit {t : ι} : (s.call t).phase = .head → Step s (s.set t { s.call t with phase := .fetching })
  | miss {t : ι} : (s.call t).phase = .head → Step s (s.set t { s.call t with phase := .claiming })
  | tryClaim {t : ι} (mem : Bool) : (s.call t).phase = .claiming →
      Step s ({ s with
          inflight := (probeTryClaim s.inflight (s.call t).rel t mem).2 }.set t
        ((s.call t).answered (probeTryClaim s.inflight (s.call t).rel t mem).1))
  | sleep {t : ι} : (s.call t).phase = .sleeping → Step s (s.set t (s.call t).slept)
  | recheckHit {t : ι} : (s.call t).phase = .rechecking →
      Step s (s.set t { s.call t with phase := .fetching })
  | walk {t : ι} : (s.call t).phase = .rechecking →
      Step s (s.set t { s.call t with phase := .probing, walks := (s.call t).walks + 1 })
  | probeErr {t : ι} : (s.call t).phase = .probing →
      Step s (s.set t { s.call t with phase := .leaving })
  | probed {t : ι} : (s.call t).phase = .probing →
      Step s (s.set t { s.call t with phase := .fetching })
  | fetched {t : ι} : (s.call t).phase = .fetching →
      Step s (s.set t { s.call t with phase := .leaving })
  | release {t : ι} : (s.call t).phase = .leaving → (s.call t).claim = some .claimed →
      Step s ({ s with
          inflight := (probeRelease (s.call t).rel s.inflight).1
          removals := ((probeRelease (s.call t).rel s.inflight).2.map fun u => (t, u)).toList ++
            s.removals }.set t { s.call t with phase := .done })
  | leave {t : ι} : (s.call t).phase = .leaving → (s.call t).claim ≠ some .claimed →
      Step s (s.set t { s.call t with phase := .done })

/-! ## What a call does by itself -/

/-- The time waited and the next sleep, after so many sleeps. -/
def backoff : Nat → Nat × Nat
  | 0 => (0, probeWaitPollMs)
  | n + 1 =>
    ((backoff n).1 + (backoff n).2, min (min ((backoff n).2 * 2) maxU32) probeWaitPollMaxMs)

/-- The sleeps that two seconds have room for. -/
def maxRounds : Nat := 66

theorem backoff_mono {m n : Nat} (h : m ≤ n) : (backoff m).1 ≤ (backoff n).1 := by
  induction h with
  | refl => exact le_rfl
  | step _ ih => exact ih.trans (Nat.le_add_right ..)

theorem lt_maxRounds {n : Nat} (h : (backoff n).1 < probeWaitMaxMs) : n < maxRounds := by
  by_contra hn
  have hlong : probeWaitMaxMs ≤ (backoff maxRounds).1 := by decide
  have hmono := backoff_mono (Nat.not_lt.mp hn)
  omega

/-- Before the wait is over. -/
def Phase.early : Phase → Bool
  | outside | head | claiming | sleeping => true
  | _ => false

structure CallOk (c : Call) : Prop where
  unclaimed : c.phase.early = true → c.claim ≠ some .claimed
  waits : (c.waited, c.poll) = backoff c.rounds
  bounded : c.phase = .sleeping → c.waited < probeWaitMaxMs
  rounds : c.rounds ≤ maxRounds
  unwalked : c.phase.early = true ∨ c.phase = .rechecking → c.walks = 0
  walks : c.walks ≤ 1

theorem callOk_new (rel : List UInt8) (p : Phase) (hp : p = .outside ∨ p = .head) :
    CallOk { rel := rel, phase := p } where
  unclaimed _ := by simp
  waits := rfl
  bounded hsleep := by
    obtain rfl | rfl := hp <;> cases hsleep
  rounds := Nat.zero_le _
  unwalked _ := rfl
  walks := Nat.zero_le _

/-- A call goes on, past the wait. -/
theorem CallOk.move {c : Call} (h : CallOk c) {p : Phase} (hearly : p.early = false)
    (hrecheck : p ≠ .rechecking) : CallOk { c with phase := p } where
  unclaimed he := absurd he (by simp [hearly])
  waits := h.waits
  bounded hp := by
    have hp : p = .sleeping := hp
    rw [hp] at hearly
    cases hearly
  rounds := h.rounds
  unwalked hw := by
    obtain hw | hw := hw
    · exact absurd hw (by simp [hearly])
    · exact absurd hw hrecheck
  walks := h.walks

theorem CallOk.miss {c : Call} (h : CallOk c) (hp : c.phase = .head) :
    CallOk { c with phase := .claiming } where
  unclaimed _ := h.unclaimed (by rw [hp]; rfl)
  waits := h.waits
  bounded hp := by cases hp
  rounds := h.rounds
  unwalked _ := h.unwalked (by rw [hp]; exact .inl rfl)
  walks := h.walks

theorem CallOk.answered {c : Call} (h : CallOk c) (hp : c.phase = .claiming) (claim : ProbeClaim) :
    CallOk (c.answered claim) where
  unclaimed hearly := by
    unfold Call.answered at hearly ⊢
    dsimp only at hearly ⊢
    split_ifs at hearly with hgo
    · cases hearly
    · rintro ⟨⟩
      exact hgo (.inl (by decide))
  waits := h.waits
  bounded hsleep := by
    unfold Call.answered at hsleep ⊢
    dsimp only at hsleep ⊢
    split_ifs at hsleep with hgo
    exact Nat.not_le.mp fun hle => hgo (.inr hle)
  rounds := h.rounds
  unwalked _ := h.unwalked (by rw [hp]; exact .inl rfl)
  walks := h.walks

theorem CallOk.slept {c : Call} (h : CallOk c) (hp : c.phase = .sleeping) : CallOk c.slept where
  unclaimed _ := h.unclaimed (by rw [hp]; rfl)
  waits := by
    unfold Call.slept
    dsimp only
    rw [backoff, ← h.waits]
  bounded hp := by cases hp
  rounds := by
    have hwaits := congrArg Prod.fst h.waits
    have hlt := h.bounded hp
    rw [show c.waited = (backoff c.rounds).1 from hwaits] at hlt
    exact lt_maxRounds hlt
  unwalked _ := h.unwalked (by rw [hp]; exact .inl rfl)
  walks := h.walks

theorem CallOk.walk {c : Call} (h : CallOk c) (hp : c.phase = .rechecking) :
    CallOk { c with phase := .probing, walks := c.walks + 1 } where
  unclaimed he := by cases he
  waits := h.waits
  bounded hp := by cases hp
  rounds := h.rounds
  unwalked hw := by
    obtain hw | hw := hw <;> cases hw
  walks := by
    have hzero := h.unwalked (.inr hp)
    dsimp only
    omega

/-- **A call, step by step**, whatever the other calls do. -/
theorem calls_step {s s' : State ι} (h : ∀ t, CallOk (s.call t)) (hstep : Step s s') :
    ∀ t, CallOk (s'.call t) := by
  have hset : ∀ {t c}, CallOk c → ∀ u, CallOk (Function.update s.call t c u) := by
    intro t c hc u
    by_cases hu : u = t
    · subst hu
      rw [Function.update_self]
      exact hc
    · rw [Function.update_of_ne hu]
      exact h u
  cases hstep with
  | start rel hp =>
    exact hset (callOk_new rel .head (.inr rfl))
  | hit hp => exact hset ((h _).move rfl (by decide))
  | miss hp => exact hset ((h _).miss hp)
  | tryClaim mem hp => exact hset ((h _).answered hp _)
  | sleep hp => exact hset ((h _).slept hp)
  | recheckHit hp => exact hset ((h _).move rfl (by decide))
  | walk hp => exact hset ((h _).walk hp)
  | probeErr hp => exact hset ((h _).move rfl (by decide))
  | probed hp => exact hset ((h _).move rfl (by decide))
  | fetched hp => exact hset ((h _).move rfl (by decide))
  | release hp hclaim => exact hset ((h _).move rfl (by decide))
  | leave hp hclaim => exact hset ((h _).move rfl (by decide))

/-! ## The table -/

/-- The call was given a claim, and is not over. -/
abbrev Call.Holding (c : Call) : Prop := c.claim = some .claimed ∧ c.phase ≠ .done

abbrev Call.Over (c : Call) : Prop := c.claim = some .claimed ∧ c.phase = .done

structure TableOk (inflight : List (Entry ι)) (call : ι → Call)
    (removals : List (ι × ι)) : Prop where
  once : (inflight.map Entry.rel).Nodup
  capped : inflight.length ≤ probeInflightCap
  entries : ∀ e ∈ inflight, (call e.taker).Holding ∧ (call e.taker).rel = e.rel
  held : ∀ t, (call t).Holding → ⟨(call t).rel, t⟩ ∈ inflight
  removed : ∀ t u, removals.count (t, u) = if t = u ∧ (call t).Over then 1 else 0

section Table

variable {inflight : List (Entry ι)} {call : ι → Call} {removals : List (ι × ι)} {t : ι} {c : Call}

/-- What holds of the calls, where one of them moves. -/
theorem forall_update {P : ι → Call → Prop} (ht : P t c) (h : ∀ u, u ≠ t → P u (call u)) (u : ι) :
    P u (Function.update call t c u) := by
  by_cases hu : u = t
  · subst hu
    rw [Function.update_self]
    exact ht
  · rw [Function.update_of_ne hu]
    exact h u hu

/-- A step that neither takes a claim nor gives one back. -/
theorem TableOk.keep (h : TableOk inflight call removals) (hhold : c.Holding ↔ (call t).Holding)
    (hrel : c.Holding → c.rel = (call t).rel) (hover : c.Over ↔ (call t).Over) :
    TableOk inflight (Function.update call t c) removals where
  once := h.once
  capped := h.capped
  entries e he := by
    refine forall_update (P := fun u c => u = e.taker → c.Holding ∧ c.rel = e.rel) ?_ ?_ e.taker rfl
    · rintro rfl
      have hc := hhold.mpr (h.entries e he).1
      exact ⟨hc, (hrel hc).trans (h.entries e he).2⟩
    · rintro u - rfl
      exact h.entries e he
  held := by
    refine forall_update (P := fun u c => c.Holding → ⟨c.rel, u⟩ ∈ inflight) ?_ fun u _ => h.held u
    intro hc
    rw [hrel hc]
    exact h.held t (hhold.mp hc)
  removed := by
    refine forall_update
      (P := fun u c => ∀ v, removals.count (u, v) = if u = v ∧ c.Over then 1 else 0) ?_
      fun u _ => h.removed u
    intro v
    simp only [hover]
    exact h.removed t v

/-- **A claim is taken.** -/
theorem TableOk.take (h : TableOk inflight call removals) (hfree : ∀ e ∈ inflight, e.rel ≠ c.rel)
    (hroom : inflight.length < probeInflightCap) (hout : (call t).claim ≠ some .claimed)
    (hc : c.Holding) : TableOk (inflight ++ [⟨c.rel, t⟩]) (Function.update call t c) removals where
  once := by
    rw [List.map_append, List.map_singleton]
    refine List.nodup_append.mpr ⟨h.once, List.nodup_singleton _, ?_⟩
    intro a ha b hb heq
    obtain ⟨e, he, rfl⟩ := List.mem_map.mp ha
    exact hfree e he (heq.trans (List.mem_singleton.mp hb))
  capped := by
    rw [List.length_append, List.length_singleton]
    exact hroom
  entries e he := by
    refine forall_update (P := fun u c => u = e.taker → c.Holding ∧ c.rel = e.rel) ?_ ?_ e.taker rfl
    · intro htaker
      obtain he | he := List.mem_append.mp he
      · exact absurd (htaker ▸ (h.entries e he).1.1) hout
      · rw [List.mem_singleton.mp he]
        exact ⟨hc, rfl⟩
    · rintro u hu rfl
      obtain he | he := List.mem_append.mp he
      · exact h.entries e he
      · exact absurd (congrArg Entry.taker (List.mem_singleton.mp he)) hu
  held := by
    refine forall_update (P := fun u c' => c'.Holding → ⟨c'.rel, u⟩ ∈ inflight ++ [⟨c.rel, t⟩])
      (fun _ => List.mem_append_right _ (List.mem_singleton.mpr rfl)) ?_
    exact fun u _ hu => List.mem_append_left _ (h.held u hu)
  removed := by
    refine forall_update
      (P := fun u c => ∀ v, removals.count (u, v) = if u = v ∧ c.Over then 1 else 0) ?_
      fun u _ => h.removed u
    intro v
    rw [h.removed t v, if_neg fun hover => hout hover.2.1, if_neg fun hover => hc.2 hover.2.2]

/-- **A claim is given back**, by the name of the file: it is the entry that the call made. -/
theorem TableOk.release (h : TableOk inflight call removals) (hholds : (call t).Holding)
    (hc : c.Over) :
    TableOk (probeRelease (call t).rel inflight).1 (Function.update call t c)
      (((probeRelease (call t).rel inflight).2.map fun u => (t, u)).toList ++ removals) := by
  obtain ⟨before, after, hsplit, hrelease⟩ := probeRelease_of_mem (h.held t hholds) h.once
  rw [hrelease]
  have hsub : (before ++ after).Sublist inflight := by
    rw [hsplit]
    exact (List.Sublist.refl before).append (List.sublist_cons_self _ after)
  -- nothing else has the name
  have hother : ∀ e ∈ before ++ after, e.taker ≠ t := by
    intro e he htaker
    have hname := (h.entries e (hsub.subset he)).2
    have hnodup := h.once
    rw [hsplit, List.map_append, List.map_cons, List.nodup_middle, ← List.map_append,
      List.nodup_cons] at hnodup
    rw [htaker] at hname
    exact hnodup.1 (List.mem_map.mpr ⟨e, he, hname.symm⟩)
  refine ⟨h.once.sublist (hsub.map _), hsub.length_le.trans h.capped, ?_, ?_, ?_⟩
  · intro e he
    rw [Function.update_of_ne (hother e he)]
    exact h.entries e (hsub.subset he)
  · refine forall_update (P := fun u c' => c'.Holding → ⟨c'.rel, u⟩ ∈ before ++ after) ?_ ?_
    · exact fun hhold => absurd hc.2 hhold.2
    · intro u hu hhold
      have hmem := h.held u hhold
      rw [hsplit] at hmem
      obtain hmem | hmem := List.mem_append.mp hmem
      · exact List.mem_append_left _ hmem
      · obtain heq | hmem := List.mem_cons.mp hmem
        · exact absurd (congrArg Entry.taker heq) hu
        · exact List.mem_append_right _ hmem
  · refine forall_update (P := fun u c => ∀ v, ((t, t) :: removals).count (u, v) =
      if u = v ∧ c.Over then 1 else 0) ?_ ?_
    · intro v
      have hbefore := h.removed t v
      rw [if_neg fun hover => hholds.2 hover.2.2] at hbefore
      rw [List.count_cons, hbefore]
      by_cases htv : t = v
      · subst htv
        simp [hc]
      · simp [htv]
    · intro u hu v
      rw [List.count_cons_of_ne (fun heq => hu (congrArg Prod.fst heq).symm)]
      exact h.removed u v

end Table

/-- **The table, step by step.** -/
theorem table_step {s s' : State ι} (hcalls : ∀ t, CallOk (s.call t))
    (h : TableOk s.inflight s.call s.removals) (hstep : Step s s') :
    TableOk s'.inflight s'.call s'.removals := by
  have hout : ∀ {t}, (s.call t).phase.early = true → ¬ (s.call t).Holding ∧ ¬ (s.call t).Over :=
    fun hp => ⟨fun hc => (hcalls _).unclaimed hp hc.1, fun hc => (hcalls _).unclaimed hp hc.1⟩
  -- a call that keeps its answer, and does not end
  have hgo : ∀ {t p w}, (s.call t).phase ≠ .done → p ≠ .done →
      TableOk s.inflight (Function.update s.call t { s.call t with phase := p, walks := w })
        s.removals := by
    intro t p w hp hp'
    refine h.keep ?_ (fun _ => rfl) ?_
    · exact and_congr_right fun _ => iff_of_true hp' hp
    · exact and_congr_right fun _ => iff_of_false hp' hp
  cases hstep with
  | @start t rel hp =>
    obtain ⟨hhold, hover⟩ := hout (t := t) (by rw [hp]; rfl)
    exact h.keep (iff_of_false (by simp) hhold) (by simp) (iff_of_false (by simp) hover)
  | hit hp => exact hgo (by rw [hp]; decide) (by decide)
  | miss hp => exact hgo (by rw [hp]; decide) (by decide)
  | @tryClaim t mem hp =>
    obtain ⟨hhold, hover⟩ := hout (t := t) (by rw [hp]; rfl)
    have hnot : (s.call t).claim ≠ some .claimed := (hcalls t).unclaimed (by rw [hp]; rfl)
    obtain ⟨claim, hclaim, hr⟩ | ⟨hfree, hroom, hr⟩ :=
      probeTryClaim_cases s.inflight (s.call t).rel t mem
    · have hsome : ((s.call t).answered claim).claim ≠ some .claimed :=
        fun heq => hclaim (Option.some.inj heq)
      rw [hr]
      exact h.keep (iff_of_false (fun hc => hsome hc.1) hhold) (fun hc => absurd hc.1 hsome)
        (iff_of_false (fun hc => hsome hc.1) hover)
    · rw [hr]
      refine h.take (c := (s.call t).answered .claimed) hfree hroom hnot ⟨rfl, ?_⟩
      unfold Call.answered
      dsimp only
      split_ifs <;> decide
  | @sleep t hp =>
    obtain ⟨hhold, hover⟩ := hout (t := t) (by rw [hp]; rfl)
    have hnot : (s.call t).claim ≠ some .claimed := (hcalls t).unclaimed (by rw [hp]; rfl)
    exact h.keep (iff_of_false (fun hc => hnot hc.1) hhold) (fun _ => rfl)
      (iff_of_false (fun hc => hnot hc.1) hover)
  | recheckHit hp => exact hgo (by rw [hp]; decide) (by decide)
  | walk hp => exact hgo (by rw [hp]; decide) (by decide)
  | probeErr hp => exact hgo (by rw [hp]; decide) (by decide)
  | probed hp => exact hgo (by rw [hp]; decide) (by decide)
  | fetched hp => exact hgo (by rw [hp]; decide) (by decide)
  | release hp hclaim => exact h.release ⟨hclaim, by rw [hp]; decide⟩ ⟨hclaim, rfl⟩
  | leave hp hclaim =>
    exact h.keep (iff_of_false (fun hc => hclaim hc.1) fun hc => hclaim hc.1) (fun _ => rfl)
      (iff_of_false (fun hc => hclaim hc.1) fun hc => hclaim hc.1)

/-! ## Runs -/

/-- **The claims and the calls** of a state. -/
structure Singleflight (s : State ι) : Prop where
  /-- One entry a file, and not more than there is room for. -/
  once : (s.inflight.map Entry.rel).Nodup
  capped : s.inflight.length ≤ probeInflightCap
  /-- A call with a claim has its entry until it ends. -/
  held : ∀ t, (s.call t).claim = some .claimed → (s.call t).phase ≠ .done →
    ⟨(s.call t).rel, t⟩ ∈ s.inflight ∧ ∀ u, s.removals.count (t, u) = 0
  /-- When it has ended, it took its entry out, once, and no other. -/
  released : ∀ t, (s.call t).claim = some .claimed → (s.call t).phase = .done →
    (∀ e ∈ s.inflight, e.taker ≠ t) ∧ s.removals.count (t, t) = 1 ∧
      ∀ u, u ≠ t → s.removals.count (t, u) = 0
  /-- A call that was not given a claim takes nothing out. -/
  others : ∀ t, (s.call t).claim ≠ some .claimed →
    (∀ e ∈ s.inflight, e.taker ≠ t) ∧ ∀ u, s.removals.count (t, u) = 0
  walks : ∀ t, (s.call t).walks ≤ 1
  /-- The sleeps are few, and there is none when the time is up. -/
  rounds : ∀ t, (s.call t).rounds ≤ maxRounds ∧
    (s.call t).waited = (backoff (s.call t).rounds).1 ∧
    ((s.call t).phase = .sleeping → (s.call t).waited < probeWaitMaxMs)

structure Inv (s : State ι) : Prop where
  calls : ∀ t, CallOk (s.call t)
  table : TableOk s.inflight s.call s.removals

theorem inv_run {s : State ι} (h : Run Step Always initial s) : Inv s := by
  have hinit : Inv (initial : State ι) := by
    refine ⟨fun _ => callOk_new [] .outside (.inl rfl), List.nodup_nil, Nat.zero_le _, ?_, ?_, ?_⟩
    · intro e he
      cases he
    · intro t hold
      cases hold.1
    · intro t u
      rw [if_neg fun hover => by cases hover.2.1]
      rfl
  exact h.invariant (fun s _ (hinv : Inv s) hstep _ =>
    ⟨calls_step hinv.calls hstep, table_step hinv.calls hinv.table hstep⟩) hinit

/-- **One walk for many fills.** In every run of any calls on any files. -/
theorem probe_singleflight {s : State ι} (h : Run Step Always initial s) : Singleflight s := by
  obtain ⟨hcalls, htable⟩ := inv_run h
  refine ⟨htable.once, htable.capped, ?_, ?_, ?_, fun t => (hcalls t).walks, fun t => ?_⟩
  · intro t hclaim hphase
    refine ⟨htable.held t ⟨hclaim, hphase⟩, fun u => ?_⟩
    rw [htable.removed, if_neg fun hover => hphase hover.2.2]
  · intro t hclaim hphase
    refine ⟨?_, ?_, fun u hu => ?_⟩
    · rintro e he rfl
      exact (htable.entries e he).1.2 hphase
    · rw [htable.removed, if_pos ⟨rfl, hclaim, hphase⟩]
    · rw [htable.removed, if_neg fun hover => hu hover.1.symm]
  · intro t hclaim
    refine ⟨?_, fun u => ?_⟩
    · rintro e he rfl
      exact hclaim (htable.entries e he).1.1
    · rw [htable.removed, if_neg fun hover => hclaim hover.2.1]
  · exact ⟨(hcalls t).rounds, congrArg Prod.fst (hcalls t).waits, (hcalls t).bounded⟩

/-- Two calls on one file: the second finds it busy, and the first gives its claim back. -/
theorem probe_singleflight_two : ∃ s : State Bool, Run Step Always initial s ∧ Singleflight s ∧
    s.inflight = [] ∧ s.removals = [(true, true)] ∧ (s.call false).phase = .sleeping := by
  have h₁ : Run Step Always initial ((initial : State Bool).set true
      { rel := [97], phase := .head }) := (Run.refl _).then (.start _ rfl)
  have h₂ := h₁.then (@Step.start _ _ _ false [97] rfl)
  have h₃ := h₂.then (@Step.miss _ _ _ true rfl)
  have h₄ := h₃.then (@Step.tryClaim _ _ _ true true rfl)
  have h₅ := h₄.then (@Step.miss _ _ _ false rfl)
  have h₆ := h₅.then (@Step.tryClaim _ _ _ false true rfl)
  have h₇ := h₆.then (@Step.walk _ _ _ true rfl)
  have h₈ := h₇.then (@Step.probeErr _ _ _ true rfl)
  have h₉ := h₈.then (@Step.release _ _ _ true rfl rfl)
  exact ⟨_, h₉, probe_singleflight h₉, by decide +kernel, by decide +kernel, by decide +kernel⟩

end ModelFs.ProbeClaims
