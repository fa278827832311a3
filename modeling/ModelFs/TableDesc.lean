import ModelFs.TableLife

/-!
# What a descriptor number reaches

A thread takes the entry's descriptor under `file.mu` and uses the number after it has left the
lock. Readers and peers' requests raise `xfer` for that long, fills have their claim, and `punchPiece`
and `truncateCacheFd` stay under the lock; `reapIdle` looks at all three before it closes. The copy
of a write-through has the entry's reference and nothing else, which `reapIdle` does not look at
again once it has its candidates.

* `Fds.close` — a descriptor nobody has the number of can be closed.
* `FdsOk.step` — one step keeps the numbers good.
* `reaches_of_run` — **a number reaches the file it was obtained for**, in every run in which no
  descriptor is closed under the copy of a write-through.
* `reaches_fails_after_reap` — a copy with an old stamp writes into another entry's file.
-/

namespace ModelFs

namespace Table

open World

variable {τ ρ : Type}
variable {s s' : World τ ρ} {t : τ} {e : Nat}

/-- The operation on a descriptor a thread is inside of. -/
def Thread.user (th : Thread ρ) : Option User :=
  match th.pc with
  | .onFd u => some u
  | _ => none

/-- Whether a thread is inside an operation on `e` under `guard`. -/
def Thread.using (th : Thread ρ) (e : Nat) (guard : Guard) : Nat :=
  match th.user with
  | some u => if u.entry = e ∧ u.guard = guard then 1 else 0
  | none => 0

/-- The count an operation's guard raises; a reference leaves no count. -/
def Slot.guarded (c : Slot ρ) : Guard → Option Nat
  | .transfer => some c.xfer
  | .claim => some c.filling
  | .reference => none

/-- The number was the entry's open descriptor, had been since it was obtained, and reached the
entry's file. -/
def Use.Good (u : Use) : Prop := u.cacheFd = some u.num ∧ u.closed = 0 ∧ u.reached = some u.entry

/-! ## What a step leaves of the descriptors -/

/-- The descriptor and the guards' counts are as they were. -/
structure Slot.SameFd (c c' : Slot ρ) : Prop where
  cacheFd : c'.cacheFd = c.cacheFd
  closes : c'.closes = c.closes
  guarded : ∀ guard, c'.guarded guard = c.guarded guard

theorem Slot.SameFd.refl (c : Slot ρ) : c.SameFd c := ⟨rfl, rfl, fun _ => rfl⟩

theorem Slot.SameFd.trans {a b c : Slot ρ} (h : a.SameFd b) (h' : b.SameFd c) : a.SameFd c :=
  ⟨h'.cacheFd.trans h.cacheFd, h'.closes.trans h.closes,
    fun guard => (h'.guarded guard).trans (h.guarded guard)⟩

/-- Descriptors, guards, numbers in use and uses are as they were. -/
structure Still (s s' : World τ ρ) : Prop where
  slot : ∀ e, (s.slot e).SameFd (s'.slot e)
  desc : s'.desc = s.desc
  user : ∀ u, (s'.thread u).user = (s.thread u).user
  uses : s'.uses = s.uses

theorem Still.refl (s : World τ ρ) : Still s s :=
  ⟨fun _ => Slot.SameFd.refl _, rfl, fun _ => rfl, rfl⟩

theorem Still.trans {s'' : World τ ρ} (h : Still s s') (h' : Still s' s'') : Still s s'' :=
  ⟨fun e => (h.slot e).trans (h'.slot e), h'.desc.trans h.desc,
    fun u => (h'.user u).trans (h.user u), h'.uses.trans h.uses⟩

theorem sameFd_update {c : Slot ρ} (h : (s.slot e).SameFd c) (e' : Nat) :
    (s.slot e').SameFd (Function.update s.slot e c e') := by
  by_cases he : e' = e
  · rw [he, Function.update_self]
    exact h
  · rw [Function.update_of_ne he]
    exact Slot.SameFd.refl _

theorem still_setSlot (s : World τ ρ) {e : Nat} {c : Slot ρ} (h : (s.slot e).SameFd c) :
    Still s (s.setSlot e c) := ⟨sameFd_update h, rfl, fun _ => rfl, rfl⟩

theorem still_touch (s : World τ ρ) (e : Nat) : Still s (s.touch e) :=
  ⟨fun _ => Slot.SameFd.refl _, rfl, fun _ => rfl, rfl⟩

theorem still_moveTo [DecidableEq τ] (s : World τ ρ) {th : Thread ρ}
    (h : th.user = (s.thread t).user) :
    Still s (s.moveTo t th) := by
  refine ⟨fun _ => Slot.SameFd.refl _, rfl, fun u => ?_, rfl⟩
  show (Function.update s.thread t th u).user = _
  by_cases hu : u = t
  · rw [hu, Function.update_self, h]
  · rw [Function.update_of_ne hu]

theorem still_fetchAdd (s : World τ ρ) (e : Nat) : Still s (s.fetchAdd e) :=
  (still_touch s e).trans
    (still_setSlot (s.touch e) ⟨rfl, rfl, fun guard => by cases guard <;> rfl⟩)

theorem still_fetchSub (s : World τ ρ) (e : Nat) : Still s (s.fetchSub e) :=
  (still_touch s e).trans
    (still_setSlot (s.touch e) ⟨rfl, rfl, fun guard => by cases guard <;> rfl⟩)

theorem still_lock (s : World τ ρ) (t : τ) : Still s (s.lock t) :=
  ⟨fun _ => Slot.SameFd.refl _, rfl, fun _ => rfl, rfl⟩

theorem still_unlock (s : World τ ρ) : Still s s.unlock :=
  ⟨fun _ => Slot.SameFd.refl _, rfl, fun _ => rfl, rfl⟩

theorem still_stampDead [DecidableEq ρ] (s : World τ ρ) (e : Nat) : Still s (s.stampDead e) := by
  have hset : Still (s.touch e) ((s.touch e).setSlot e { s.slot e with dead := true, marked := false }) :=
    still_setSlot (s.touch e) ⟨rfl, rfl, fun guard => by cases guard <;> rfl⟩
  have hboth := (still_touch s e).trans hset
  exact ⟨hboth.slot, hboth.desc, hboth.user, hboth.uses⟩

/-! ## The invariant -/

variable [Fintype τ]

/-- Open descriptors reach their entry's file, whoever has a number has the entry's open descriptor,
the guards' counts are those of the threads, and every use was good. -/
structure FdsOk (s : World τ ρ) : Prop where
  opened : ∀ e n, (s.slot e).cacheFd = some n → s.desc n = some e
  has : ∀ u e guard n closes, (s.thread u).user = some ⟨e, guard, some (n, closes)⟩ →
    (s.slot e).cacheFd = some n ∧ (s.slot e).closes = closes
  counts : ∀ e guard k, (s.slot e).guarded guard = some k →
    k = total (fun th => th.using e guard) s.thread
  good : ∀ u ∈ s.uses, u.Good

/-- Nobody has the number of `e`'s descriptor. -/
def Unused (s : World τ ρ) (e : Nat) : Prop :=
  ∀ u v, (s.thread u).user = some v → v.entry = e → v.fd = none

omit [Fintype τ] in
theorem using_congr {th th' : Thread ρ} (h : th.user = th'.user) (e : Nat) (guard : Guard) :
    th.using e guard = th'.using e guard := by
  unfold Thread.using
  rw [h]

theorem FdsOk.still (h : FdsOk s) (hs : Still s s') : FdsOk s' where
  opened e n hfd := by
    rw [(hs.slot e).cacheFd] at hfd
    rw [hs.desc]
    exact h.opened e n hfd
  has u e guard n closes huser := by
    rw [hs.user] at huser
    rw [(hs.slot e).cacheFd, (hs.slot e).closes]
    exact h.has u e guard n closes huser
  counts e guard k hk := by
    rw [(hs.slot e).guarded] at hk
    rw [h.counts e guard k hk]
    exact Finset.sum_congr rfl fun u _ => (using_congr (hs.user u) e guard).symm
  good := by
    rw [hs.uses]
    exact h.good

/-- **A descriptor nobody has the number of can be closed.** -/
theorem FdsOk.close (h : FdsOk s) (hunused : Unused s e) : FdsOk (s.closeFd e) := by
  unfold closeFd
  split
  next n hfd =>
    have hself := h.opened e n hfd
    have hslot : ∀ e', e' ≠ e →
        (Function.update s.slot e { s.slot e with
          cacheFd := none, closes := (s.slot e).closes + 1 }) e' = s.slot e' :=
      fun e' he => Function.update_of_ne he ..
    refine ⟨fun e' n' hfd' => ?_, fun u e' guard n' closes huser => ?_, fun e' guard k hk => ?_,
      h.good⟩
    · have he : e' ≠ e := by
        intro he
        rw [he] at hfd'
        exact absurd hfd' (by simp [setSlot])
      have hfd'' : (s.slot e').cacheFd = some n' := (congrArg Slot.cacheFd (hslot e' he)).symm.trans hfd'
      have hdesc := h.opened e' n' hfd''
      have hn : n' ≠ n := by
        intro hn
        rw [hn, hself] at hdesc
        exact he (Option.some.inj hdesc).symm
      exact (Function.update_of_ne hn ..).trans hdesc
    · have he : e' ≠ e := fun he => absurd (hunused u _ huser he) (by simp)
      have hhas := h.has u e' guard n' closes huser
      exact ⟨(congrArg Slot.cacheFd (hslot e' he)).trans hhas.1,
        (congrArg Slot.closes (hslot e' he)).trans hhas.2⟩
    · refine h.counts e' guard k (Eq.trans ?_ hk)
      by_cases he : e' = e
      · rw [he, slot_setSlot_self]
        cases guard <;> rfl
      · exact (congrArg (fun c => Slot.guarded c guard) (hslot e' he)).symm
  next => exact h

/-- The descriptor of an entry without one is opened on a free number. -/
theorem FdsOk.openFd (h : FdsOk s) {n : Nat} (hfd : (s.slot e).cacheFd = none)
    (hnew : s.desc n = none) : FdsOk (s.openFd e n) := by
  have hslot : ∀ e', e' ≠ e → ((s.openFd e n).slot e') = s.slot e' := fun e' he =>
    Function.update_of_ne he ..
  have hself : (s.openFd e n).slot e = { s.slot e with cacheFd := some n } :=
    slot_setSlot_self ..
  refine ⟨fun e' n' hfd' => ?_, fun u e' guard n' closes huser => ?_, fun e' guard k hk => ?_,
    h.good⟩
  · show Function.update s.desc n (some e) n' = some e'
    by_cases he : e' = e
    · subst he
      rw [hself] at hfd'
      cases hfd'
      exact Function.update_self ..
    · rw [hslot e' he] at hfd'
      have hdesc := h.opened e' n' hfd'
      have hn : n' ≠ n := by
        intro hn
        rw [hn, hnew] at hdesc
        cases hdesc
      rw [Function.update_of_ne hn]
      exact hdesc
  · have hhas := h.has u e' guard n' closes huser
    have he : e' ≠ e := by
      intro he
      rw [he, hfd] at hhas
      cases hhas.1
    rw [hslot e' he]
    exact hhas
  · refine h.counts e' guard k (Eq.trans ?_ hk)
    by_cases he : e' = e
    · rw [he, hself]
      cases guard <;> rfl
    · rw [hslot e' he]

/-- An operation on the entry's open descriptor is a good use. -/
theorem FdsOk.operate (h : FdsOk s) {n closes : Nat} (hfd : (s.slot e).cacheFd = some n)
    (hcloses : (s.slot e).closes = closes) : FdsOk (s.operate e n closes) := by
  refine ⟨h.opened, h.has, h.counts, fun u hu => ?_⟩
  rcases List.mem_cons.mp hu with rfl | hold
  · exact ⟨hfd, by rw [hcloses]; exact Nat.sub_self _, h.opened e n hfd⟩
  · exact h.good u hold

/-! ## The steps of an operation on a descriptor -/

omit [Fintype τ] in
theorem user_moveTo [DecidableEq τ] (s : World τ ρ) (t : τ) (th : Thread ρ) (u : τ) :
    ((s.moveTo t th).thread u).user = if u = t then th.user else (s.thread u).user := by
  show (Function.update s.thread t th u).user = _
  by_cases hu : u = t
  · rw [if_pos hu, hu, Function.update_self]
  · rw [if_neg hu, Function.update_of_ne hu]

/-- Thread `t` gets the number of the descriptor the entry has. -/
theorem FdsOk.take [DecidableEq τ] (h : FdsOk s) {th : Thread ρ} {guard : Guard} {n : Nat}
    (hold : (s.thread t).user = some ⟨e, guard, none⟩) (hfd : (s.slot e).cacheFd = some n)
    (hnew : th.user = some ⟨e, guard, some (n, (s.slot e).closes)⟩) : FdsOk (s.moveTo t th) := by
  refine ⟨h.opened, fun u e' guard' n' closes huser => ?_, fun e' guard' k hk => ?_, h.good⟩
  · rw [user_moveTo] at huser
    split_ifs at huser
    · rw [hnew] at huser
      cases huser
      exact ⟨hfd, rfl⟩
    · exact h.has u e' guard' n' closes huser
  · have hsame : th.using e' guard' = (s.thread t).using e' guard' := by
      unfold Thread.using
      rw [hold, hnew]
    have hmove := total_update (fun th : Thread ρ => th.using e' guard') s.thread t th
    have hcount := h.counts e' guard' k hk
    show k = total (fun th => th.using e' guard') (Function.update s.thread t th)
    omega

omit [Fintype τ] in
theorem using_user {th : Thread ρ} {v : Option User} (h : th.user = v) (e : Nat) (guard : Guard) :
    th.using e guard = v.elim 0 fun u => if u.entry = e ∧ u.guard = guard then 1 else 0 := by
  unfold Thread.using
  rw [h]
  cases v <;> rfl

/-- Thread `t` enters or leaves an operation, and the counts of the guards follow. -/
theorem FdsOk.move [DecidableEq τ] (h : FdsOk s) {s₁ : World τ ρ} {th : Thread ρ}
    (hslot : ∀ e, (s₁.slot e).cacheFd = (s.slot e).cacheFd ∧ (s₁.slot e).closes = (s.slot e).closes)
    (hdesc : s₁.desc = s.desc) (hthread : s₁.thread = s.thread) (huses : s₁.uses = s.uses)
    (hfree : ∀ v, th.user = some v → v.fd = none)
    (hguarded : ∀ e guard k', (s₁.slot e).guarded guard = some k' → ∃ k,
      (s.slot e).guarded guard = some k ∧
        k' + (s.thread t).using e guard = k + th.using e guard) : FdsOk (s₁.moveTo t th) where
  opened e n hfd := by
    have hfd' := (hslot e).1.symm.trans hfd
    exact (congrFun hdesc n).trans (h.opened e n hfd')
  has u e guard n closes huser := by
    rw [user_moveTo, hthread] at huser
    split_ifs at huser
    · exact absurd (hfree _ huser) (by simp)
    · have hhas := h.has u e guard n closes huser
      exact ⟨(hslot e).1.trans hhas.1, (hslot e).2.trans hhas.2⟩
  counts e guard k' hk' := by
    obtain ⟨k, hk, hsum⟩ := hguarded e guard k' hk'
    have hcount := h.counts e guard k hk
    have hmove := total_update (fun th : Thread ρ => th.using e guard) s.thread t th
    show k' = total (fun th => th.using e guard) (Function.update s₁.thread t th)
    rw [hthread]
    omega
  good u hu := h.good u (huses ▸ hu)

omit [Fintype τ] in
theorem guarded_raise (s : World τ ρ) {e e' : Nat} {guard guard' : Guard} {k' : Nat}
    (h : ((s.raise e guard).slot e').guarded guard' = some k') : ∃ k,
      (s.slot e').guarded guard' = some k ∧
        k' = k + if e = e' ∧ guard = guard' then 1 else 0 := by
  by_cases he : e' = e
  · subst he
    cases guard <;> cases guard' <;> simp_all [raise, Slot.guarded]
  · have he' : e ≠ e' := fun heq => he heq.symm
    cases guard <;> simp_all [raise, slot_setSlot_of_ne]

omit [Fintype τ] in
theorem guarded_lower (s : World τ ρ) {e e' : Nat} {guard guard' : Guard} {k' : Nat}
    (h : ((s.lower e guard).slot e').guarded guard' = some k') : ∃ k,
      (s.slot e').guarded guard' = some k ∧
        k' = k - if e = e' ∧ guard = guard' then 1 else 0 := by
  by_cases he : e' = e
  · subst he
    cases guard <;> cases guard' <;> simp_all [lower, Slot.guarded]
  · have he' : e ≠ e' := fun heq => he heq.symm
    cases guard <;> simp_all [lower, slot_setSlot_of_ne]

omit [Fintype τ] in
theorem fd_raise (s : World τ ρ) (e : Nat) (guard : Guard) (e' : Nat) :
    ((s.raise e guard).slot e').cacheFd = (s.slot e').cacheFd ∧
      ((s.raise e guard).slot e').closes = (s.slot e').closes := by
  by_cases he : e' = e
  · subst he
    cases guard <;> simp [raise]
  · cases guard <;> simp [raise, slot_setSlot_of_ne, he]

omit [Fintype τ] in
theorem fd_lower (s : World τ ρ) (e : Nat) (guard : Guard) (e' : Nat) :
    ((s.lower e guard).slot e').cacheFd = (s.slot e').cacheFd ∧
      ((s.lower e guard).slot e').closes = (s.slot e').closes := by
  by_cases he : e' = e
  · subst he
    cases guard <;> simp [lower]
  · cases guard <;> simp [lower, slot_setSlot_of_ne, he]

/-- Thread `t` enters an operation: its guard goes up. -/
theorem FdsOk.enter [DecidableEq τ] (h : FdsOk s) {th : Thread ρ} {guard : Guard}
    (hold : (s.thread t).user = none) (hnew : th.user = some ⟨e, guard, none⟩) :
    FdsOk ((s.raise e guard).moveTo t th) := by
  refine h.move (fd_raise s e guard) (by cases guard <;> rfl) (by cases guard <;> rfl)
    (by cases guard <;> rfl) (fun v hv => ?_) fun e' guard' k' hk' => ?_
  · rw [hnew] at hv
    cases hv
    rfl
  · obtain ⟨k, hk, hsum⟩ := guarded_raise s hk'
    refine ⟨k, hk, ?_⟩
    rw [using_user hold, using_user hnew, hsum]
    rfl

/-- Thread `t` is done with its operation: its guard goes down. -/
theorem FdsOk.exit [DecidableEq τ] (h : FdsOk s) {th : Thread ρ} {guard : Guard}
    {fd : Option (Nat × Nat)}
    (hold : (s.thread t).user = some ⟨e, guard, fd⟩) (hnew : th.user = none) :
    FdsOk ((s.lower e guard).moveTo t th) := by
  refine h.move (fd_lower s e guard) (by cases guard <;> rfl) (by cases guard <;> rfl)
    (by cases guard <;> rfl) (fun v hv => ?_) fun e' guard' k' hk' => ?_
  · rw [hnew] at hv
    cases hv
  · obtain ⟨k, hk, hsum⟩ := guarded_lower s hk'
    refine ⟨k, hk, ?_⟩
    have hle := le_total (fun th : Thread ρ => th.using e' guard') s.thread t
    have hcount := h.counts e' guard' k hk
    have husing := using_user hold e' guard'
    have hpast := using_user hnew e' guard'
    dsimp only [Option.elim] at husing hpast
    omega

/-! ## One step -/

/-- The condition: no descriptor is closed while a thread in the copy of a write-through has it. -/
def ClosesClear (s s' : World τ ρ) : Prop :=
  ∀ e, (s.slot e).closes < (s'.slot e).closes →
    ∀ u n closes, (s.thread u).user ≠ some ⟨e, .reference, some (n, closes)⟩

omit [Fintype τ] in
theorem user_of_pc {th : Thread ρ} {pc : Pc ρ} (hpc : th.pc = pc) (h : ∀ v, pc ≠ .onFd v) :
    th.user = none := by
  unfold Thread.user
  rw [hpc]
  cases pc with
  | onFd v => exact absurd rfl (h v)
  | _ => rfl

omit [Fintype τ] in
theorem user_of_onFd {th : Thread ρ} {v : User} (h : th.pc = .onFd v) : th.user = some v := by
  unfold Thread.user
  rw [h]

omit [Fintype τ] in
theorem slot_openFd_self (s : World τ ρ) (e n : Nat) :
    (s.openFd e n).slot e = { s.slot e with cacheFd := some n } := slot_setSlot_self ..

omit [Fintype τ] in
theorem pc_of_user {th : Thread ρ} {v : User} (h : th.user = some v) : th.pc = .onFd v := by
  unfold Thread.user at h
  split at h
  next u hpc =>
    cases h
    exact hpc
  next => cases h

/-- Nobody is inside an operation on an entry without references. -/
theorem not_user_of_refs (h : TableOk s) (hrefs : (s.slot e).refs = 0) (u : τ) (v : User)
    (huser : (s.thread u).user = some v) : v.entry ≠ e := by
  intro he
  have hheld := (h.fits u).user v (pc_of_user huser)
  rw [he] at hheld
  have hpos := (refsOf_pos (Or.inl hheld)).trans_le (le_holders s u e)
  have hcount : (s.slot e).refs = (s.life e).holders := (h.sound e).count
  omega

theorem unused_of_refs (h : TableOk s) (hrefs : (s.slot e).refs = 0) : Unused s e :=
  fun u v huser he => absurd he (not_user_of_refs h hrefs u v huser)

omit [Fintype τ] in
theorem Unused.still (h : Unused s e) (hs : Still s s') : Unused s' e :=
  fun u v huser => h u v ((hs.user u).symm.trans huser)

omit [Fintype τ] in
/-- A thread outside of every operation on a descriptor moves, and stays outside. -/
theorem still_move [DecidableEq τ] {s₁ : World τ ρ} {th : Thread ρ} (hs : Still s s₁)
    (hold : (s.thread t).user = none) (hnew : th.user = none) : Still s (s₁.moveTo t th) :=
  hs.trans (still_moveTo s₁ (hnew.trans (hold.symm.trans (hs.user t).symm)))

/-- A fresh entry that nobody knows yet. -/
theorem FdsOk.put (h : FdsOk s) {c : Slot ρ} (hfd : c.cacheFd = none)
    (hzero : ∀ guard k, c.guarded guard = some k → k = 0)
    (hnobody : ∀ u v, (s.thread u).user = some v → v.entry ≠ e) : FdsOk (s.setSlot e c) := by
  refine ⟨fun e' n hfd' => ?_, fun u e' guard n closes huser => ?_, fun e' guard k hk => ?_, h.good⟩
  · by_cases he : e' = e
    · rw [he, slot_setSlot_self, hfd] at hfd'
      cases hfd'
    · rw [slot_setSlot_of_ne _ _ he] at hfd'
      exact h.opened e' n hfd'
  · rw [slot_setSlot_of_ne _ _ (hnobody u _ huser)]
    exact h.has u e' guard n closes huser
  · by_cases he : e' = e
    · rw [he, slot_setSlot_self] at hk
      rw [hzero guard k hk, he]
      refine (Finset.sum_eq_zero fun u _ => ?_).symm
      show (s.thread u).using e guard = 0
      cases huser : (s.thread u).user with
      | none => exact using_user huser e guard
      | some v => exact (using_user huser e guard).trans (if_neg fun hv => hnobody u v huser hv.1)
    · rw [slot_setSlot_of_ne _ _ he] at hk
      exact h.counts e' guard k hk

/-- The descriptor goes with the entry. -/
theorem FdsOk.deinit (h : FdsOk s) (hunused : Unused s e) : FdsOk (s.deinit e) := by
  have htouched := h.still (still_touch s e)
  have hclosed := htouched.close (hunused.still (still_touch s e))
  exact hclosed.still (still_setSlot _ ⟨rfl, rfl, fun guard => by cases guard <;> rfl⟩)

theorem FdsOk.destroyIdle (h : FdsOk s) (hunused : (s.slot e).refs = 0 → Unused s e) :
    FdsOk (s.destroyIdle e) := by
  unfold World.destroyIdle
  split_ifs with hrefs hfreed
  · exact h
  · have hs : Still s (s.setSlot e { s.slot e with freed := true }) :=
      still_setSlot s ⟨rfl, rfl, fun guard => by cases guard <;> rfl⟩
    exact (h.still hs).deinit ((hunused hrefs).still hs)
  · exact h

/-- What `reapIdle` looks at before it closes a descriptor. -/
theorem FdsOk.unused_of_quiet (h : FdsOk s) {now minIdle : Int}
    (hquiet : (s.slot e).quiet now minIdle = true)
    (hclear : ∀ u n closes, (s.thread u).user ≠ some ⟨e, .reference, some (n, closes)⟩) :
    Unused s e := by
  unfold Slot.quiet at hquiet
  simp only [Bool.and_eq_true, decide_eq_true_eq] at hquiet
  obtain ⟨⟨hfilling, hxfer⟩, -⟩ := hquiet
  rintro u ⟨e', guard, fd⟩ huser rfl
  have hone : (s.thread u).using e' guard = 1 := by
    rw [using_user huser]
    exact if_pos ⟨rfl, rfl⟩
  cases guard with
  | transfer =>
    have hzero := (h.counts e' .transfer _ rfl).symm.trans hxfer
    have := eq_zero_of_total_eq_zero hzero u
    omega
  | claim =>
    have hzero := (h.counts e' .claim _ rfl).symm.trans hfilling
    have := eq_zero_of_total_eq_zero hzero u
    omega
  | reference =>
    cases fd with
    | none => rfl
    | some fd => exact absurd huser (hclear u fd.1 fd.2)

omit [Fintype τ] in
theorem closes_closeFd {n : Nat} (hfd : (s.slot e).cacheFd = some n) :
    (s.slot e).closes < ((s.closeFd e).slot e).closes := by
  unfold closeFd
  rw [hfd]
  dsimp only
  rw [slot_setSlot_self]
  exact Nat.lt_succ_self _

variable [DecidableEq τ] [DecidableEq ρ]

/-- A call keeps the numbers good. -/
theorem FdsOk.call (h : FdsOk s) (hok : TableOk s) (hcall : Call t s (s.thread t) s')
    (hclear : ClosesClear s s') : FdsOk s' := by
  have hmove : ∀ {s₁ : World τ ρ} {th : Thread ρ} {pc : Pc ρ}, Still s s₁ →
      (s.thread t).pc = pc → (∀ v, pc ≠ .onFd v) → (∀ v, th.pc ≠ .onFd v) →
        FdsOk (s₁.moveTo t th) := fun hs hpc hne hnew =>
    h.still (still_move hs (user_of_pc hpc hne) (user_of_pc rfl hnew))
  cases hcall with
  | @hit rel e₀ hpc hfree hmap =>
    rcases hpc with hpc | ⟨epoch0, hpc⟩
    · exact hmove (still_fetchAdd s e₀) hpc nofun nofun
    · exact hmove (still_fetchAdd s e₀) hpc nofun nofun
  | getMiss rel hpc => exact hmove (Still.refl s) hpc nofun nofun
  | getDiscard hpc => exact hmove (Still.refl s) hpc nofun nofun
  | @getPut rel epoch0 now marked hpc hfree hmap hepoch =>
    have hput := h.put (c := { rel := rel, refs := 1, lastAccess := now, marked := marked }) rfl
      (fun guard k hk => by cases guard <;> cases hk <;> rfl)
      (not_user_of_refs hok (hok.unborn s.next le_rfl).1)
    have hold : (s.thread t).user = none := user_of_pc hpc nofun
    have hnew : ({ s.thread t with
        pc := .idle, held := s.next :: (s.thread t).held } : Thread ρ).user = none := rfl
    have hmoved := hput.still (still_move (t := t) (Still.refl _) hold hnew)
    exact hmoved.still ⟨fun _ => Slot.SameFd.refl _, rfl, fun _ => rfl, rfl⟩
  | @fileSection e₀ now marked hpc hheld =>
    exact h.still ((still_touch s e₀).trans
      (still_setSlot (s.touch e₀) ⟨rfl, rfl, fun guard => by cases guard <;> rfl⟩))
  | @releaseFile e₀ hpc hheld => exact hmove (still_fetchSub s e₀) hpc nofun (hpc ▸ nofun)
  | @forget rel e₀ hpc hfree hmap =>
    have hstamp := still_stampDead s e₀
    refine (h.still hstamp).destroyIdle fun hrefs => ?_
    have hslot : (s.stampDead e₀).slot e₀ = { s.slot e₀ with dead := true, marked := false } :=
      slot_setSlot_self ..
    rw [hslot] at hrefs
    exact (unused_of_refs hok hrefs).still hstamp
  | forgetMiss => exact h.still ⟨fun _ => Slot.SameFd.refl _, rfl, fun _ => rfl, rfl⟩
  | sample now m hpc hnone => exact hmove (still_lock s t) hpc nofun nofun
  | @reapPin rel e₀ now minIdle hpc => exact hmove (still_fetchAdd s e₀) hpc nofun (hpc ▸ nofun)
  | @cullPin rel e₀ now hpc => exact hmove (still_fetchAdd s e₀) hpc nofun (hpc ▸ nofun)
  | @unpin e₀ now minIdle hpc => exact hmove (still_fetchSub s e₀) hpc nofun (hpc ▸ nofun)
  | reapSampled hpc => exact hmove (still_unlock s) hpc nofun nofun
  | cullSampled hpc => exact hmove (still_unlock s) hpc nofun nofun
  | @reapClose e₀ rest now minIdle hpc hpins =>
    have hkept : FdsOk (if (s.slot e₀).quiet now minIdle then (s.touch e₀).closeFd e₀
        else s.touch e₀) := by
      split_ifs with hquiet
      · have hstill := still_touch s e₀
        cases hfd : (s.slot e₀).cacheFd with
        | none =>
          unfold closeFd
          rw [show ((s.touch e₀).slot e₀).cacheFd = none from hfd]
          exact h.still hstill
        | some n =>
          have hgrows : (s.slot e₀).closes < (((s.touch e₀).closeFd e₀).slot e₀).closes :=
            closes_closeFd (s := s.touch e₀) hfd
          rw [if_pos hquiet] at hclear
          exact (h.still hstill).close ((h.unused_of_quiet hquiet (hclear e₀ hgrows)).still hstill)
      · exact h.still (still_touch s e₀)
    refine hkept.still (still_moveTo _ ?_)
    have huser : ∀ s₁ : World τ ρ, s₁.thread = s.thread → (s₁.thread t).user = none := by
      intro s₁ hthread
      rw [hthread]
      exact user_of_pc hpc nofun
    split_ifs
    · exact (huser _ (keeps_closeFd (s.touch e₀) e₀).thread).symm
    · exact (huser _ rfl).symm
  | @reapKeep e₀ rest now minIdle hpc hpins => exact hmove (still_touch s e₀) hpc nofun nofun
  | @reapRelease e₀ rest now minIdle evict hpc => exact hmove (still_fetchSub s e₀) hpc nofun nofun
  | reapEnd hpc => exact hmove (Still.refl s) hpc nofun nofun
  | reapLock hpc => exact hmove (still_lock s t) hpc nofun nofun
  | @evictSkip e₀ rest hpc => exact hmove (still_fetchSub s e₀) hpc nofun (hpc ▸ nofun)
  | @evictEntry e₀ rest hpc =>
    exact hmove ((still_stampDead s e₀).trans (still_fetchSub _ e₀)) hpc nofun (hpc ▸ nofun)
  | evictEnd hpc => exact hmove (still_unlock s) hpc nofun nofun
  | @cullRelease e₀ rest hpc => exact hmove (still_fetchSub s e₀) hpc nofun (hpc ▸ nofun)
  | cullEnd hpc => exact hmove (Still.refl s) hpc nofun nofun
  | @punchPiece e₀ n hheld hidle hfd => exact (h.still (still_touch s e₀)).operate hfd rfl
  | @punchOpen e₀ n hheld hidle hfd hnew =>
    have hopen := (h.still (still_touch s e₀)).openFd hfd hnew
    have hself := slot_openFd_self (s.touch e₀) e₀ n
    exact hopen.operate (congrArg Slot.cacheFd hself) ((congrArg Slot.closes hself).trans rfl)
  | @truncateCacheFd e₀ n hpc hheld hidle hfd =>
    exact (h.still (still_touch s e₀)).operate hfd rfl
  | @enter e₀ guard hpc hheld =>
    exact (h.still (still_touch s e₀)).enter (user_of_pc hpc nofun) rfl
  | @openCache e₀ n guard hpc hfd =>
    exact (h.still (still_touch s e₀)).take (user_of_onFd hpc) hfd rfl
  | @openNew e₀ n guard hpc hfd hnew =>
    have hopen := (h.still (still_touch s e₀)).openFd hfd hnew
    have hself := slot_openFd_self (s.touch e₀) e₀ n
    have hcloses := congrArg Slot.closes hself
    refine hopen.take (t := t) (user_of_onFd hpc) (congrArg Slot.cacheFd hself) ?_
    rw [hcloses]
    rfl
  | @io e₀ n closes guard hpc =>
    obtain ⟨hfd, hcloses⟩ := h.has t e₀ guard n closes (user_of_onFd hpc)
    exact h.operate hfd hcloses
  | @exit e₀ guard fd hpc =>
    exact (h.still (still_touch s e₀)).exit (user_of_onFd hpc) rfl

omit [DecidableEq ρ] in
/-- The tail of `releaseFile` keeps the numbers good: it closes what nobody uses. -/
theorem FdsOk.tail (h : FdsOk s) (hok : TableOk s) (htail : Tail t s (s.thread t) s') :
    FdsOk s' := by
  have hmove : ∀ {s₁ : World τ ρ} {o : Option (Nat × Drop)}, s₁.thread = s.thread → FdsOk s₁ →
      FdsOk (s₁.moveTo t { s.thread t with drop := o }) := by
    intro s₁ o hthread hs₁
    refine hs₁.still (still_moveTo s₁ ?_)
    rw [hthread]
    rfl
  cases htail with
  | @spare e₀ => exact hmove rfl (h.still (still_touch s e₀))
  | @sawDead e₀ => exact hmove rfl (h.still (still_touch s e₀))
  | @lost e₀ => exact hmove rfl (h.still (still_touch s e₀))
  | @won e₀ =>
    exact hmove rfl (h.still ((still_touch s e₀).trans
      (still_setSlot (s.touch e₀) ⟨rfl, rfl, fun guard => by cases guard <;> rfl⟩)))
  | @deinit e₀ hdrop =>
    have hwon := le_won s t e₀
    rw [at_self hdrop, if_pos rfl] at hwon
    have hdead := (hok.sound e₀).dead_of_doomed (by omega)
    have hrefs := ((hok.sound e₀).orphan hdead (by omega)).1
    exact hmove (keeps_closeFd (s.touch e₀) e₀).thread (h.deinit (unused_of_refs hok hrefs))

/-- **A step keeps the numbers good.** -/
theorem FdsOk.step (h : FdsOk s) (hok : TableOk s) (hstep : Step s s')
    (hclear : ClosesClear s s') : FdsOk s' := by
  obtain ⟨t, hcore⟩ := hstep
  rcases hcore with ⟨-, hcall⟩ | htail
  · exact h.call hok hcall hclear
  · exact h.tail hok htail

/-! ## Runs -/

/-- The condition: stamps find nobody in the middle of a `releaseFile`, and no descriptor is closed
under the copy of a write-through. -/
def Clear (s s' : World τ ρ) : Prop := StampsClear s s' ∧ ClosesClear s s'

omit [DecidableEq τ] [DecidableEq ρ] in
theorem fdsOk_of_start (h : Start s) : FdsOk s where
  opened e n hfd := by
    obtain ⟨rel, hslot⟩ := h.slot e
    rw [hslot] at hfd
    cases hfd
  has u e guard n closes huser := by
    rw [h.thread u] at huser
    cases huser
  counts e guard k hk := by
    obtain ⟨rel, hslot⟩ := h.slot e
    rw [hslot] at hk
    have hnone : total (fun th : Thread ρ => th.using e guard) s.thread = 0 :=
      Finset.sum_eq_zero fun u _ => by rw [h.thread u]; rfl
    rw [hnone]
    cases guard <;> cases hk <;> rfl
  good u hu := by
    rw [h.uses] at hu
    cases hu

/-- **A number reaches the file it was obtained for.** In every run from an empty table, of any
number of threads with any clocks, whose stamps find nobody in the middle of a `releaseFile` and
which closes no descriptor under the copy of a write-through, each operation on a descriptor number
finds that number still the entry's open descriptor, never closed since it was obtained. -/
theorem reaches_of_run (hstart : Start s) (hrun : Run Step Clear s s') :
    ∀ u ∈ s'.uses, u.Good := by
  have hkeep : ∀ s₁ s₂ : World τ ρ, TableOk s₁ ∧ FdsOk s₁ → Step s₁ s₂ → Clear s₁ s₂ →
      TableOk s₂ ∧ FdsOk s₂ := by
    rintro s₁ s₂ ⟨hok, hfds⟩ hstep hclear
    exact ⟨hok.step hstep hclear.1, hfds.step hok hstep hclear.2⟩
  exact (hrun.invariant hkeep ⟨tableOk_of_start hstart, fdsOk_of_start hstart⟩).2.good

/-- One thread reads an entry from its cache descriptor. -/
theorem reaches_of_run_read :
    ∃ s : World Unit String, s.uses ≠ [] ∧ ∀ u ∈ s.uses, u.Good := by
  have hclear : ∀ {s s' : World Unit String}, (s.thread ()).drop = none →
      (∀ e n closes, (s.thread ()).user ≠ some ⟨e, .reference, some (n, closes)⟩) → Clear s s' :=
    fun hdrop huser => ⟨fun e _ _ u hu => absurd (hdrop.symm.trans hu) (by simp),
      fun e _ u n closes => huser e n closes⟩
  have r₀ : Run Step Clear _ _ := Run.refl (emptyTable Unit)
  have r₁ := run_core r₀ (.call rfl (.getMiss (t := ()) "m" rfl rfl rfl)) (hclear rfl nofun)
  have r₂ := run_core r₁ (.call rfl (.getPut (t := ()) 0 true rfl rfl rfl rfl)) (hclear rfl nofun)
  have r₃ := run_core r₂ (.call rfl (.enter (t := ()) (e := 0) .transfer rfl (by decide)))
    (hclear rfl nofun)
  have r₄ := run_core r₃ (.call rfl (.openNew (t := ()) (e := 0) (n := 7) rfl rfl rfl))
    (hclear rfl nofun)
  have r₅ := run_core r₄ (.call rfl (.io (t := ()) (e := 0) (n := 7) rfl)) (hclear rfl nofun)
  have r₆ := run_core r₅ (.call rfl (.exit (t := ()) (e := 0) rfl)) (hclear rfl nofun)
  exact ⟨_, by decide, reaches_of_run start_emptyTable r₆⟩

/-- A write-through that took its clock sample long ago has the entry's descriptor when `reapIdle`
closes it; the number goes to another entry, and the copy writes into that entry's file. -/
theorem reaches_other_after_reap :
    ∃ s₀ s : World Bool String, Start s₀ ∧ Run Step Always s₀ s ∧
      ∃ u ∈ s.uses, u.reached = some 1 ∧ u.entry = 0 := by
  have r₀ : Run Step Always _ _ := Run.refl (emptyTable Bool)
  have r₁ := run_core r₀ (.call rfl (.getMiss (t := false) "m" rfl rfl rfl)) trivial
  have r₂ := run_core r₁ (.call rfl (.getPut (t := false) 0 true rfl rfl rfl rfl)) trivial
  have r₃ := run_core r₂ (.call rfl (.releaseFile (t := false) (e := 0) rfl (by decide))) trivial
  have r₄ := run_core r₃ (.tail (.spare (t := false) (e := 0) rfl rfl)) trivial
  -- the reaper has its candidates before the write-through finds the entry
  have r₅ := run_core r₄ (.call rfl (.sample (t := true) 400 (some 300) rfl rfl)) trivial
  have r₆ := run_core r₅ (.call rfl (@Call.reapPin _ _ _ _ true _ _ "m" 0 400 300 rfl rfl rfl
    (by decide))) trivial
  have r₇ := run_core r₆ (.call rfl (.reapSampled (t := true) rfl)) trivial
  have r₈ := run_core r₇ (.call rfl (@Call.hit _ _ _ _ false _ _ "m" 0 (.inl rfl) rfl rfl))
    trivial
  have r₉ := run_core r₈ (.call rfl (.fileSection (t := false) (e := 0) 50 true rfl (by decide)))
    trivial
  have r₁₀ := run_core r₉ (.call rfl (.enter (t := false) (e := 0) .reference rfl (by decide)))
    trivial
  have r₁₁ := run_core r₁₀ (.call rfl (.openNew (t := false) (e := 0) (n := 7) rfl rfl rfl)) trivial
  have r₁₂ := run_core r₁₁ (.call rfl (.reapClose (t := true) (e := 0) rfl rfl)) trivial
  have r₁₃ := run_core r₁₂ (.call rfl (.reapRelease (t := true) (e := 0) rfl rfl)) trivial
  have r₁₄ := run_core r₁₃ (.call rfl (.reapEnd (t := true) rfl rfl rfl)) trivial
  -- the number goes to the next entry that opens its file
  have r₁₅ := run_core r₁₄ (.call rfl (.getMiss (t := true) "k" rfl rfl rfl)) trivial
  have r₁₆ := run_core r₁₅ (.call rfl (.getPut (t := true) 400 false rfl rfl rfl rfl)) trivial
  have r₁₇ := run_core r₁₆ (.call rfl (.enter (t := true) (e := 1) .transfer rfl (by decide)))
    trivial
  have r₁₈ := run_core r₁₇ (.call rfl (.openNew (t := true) (e := 1) (n := 7) rfl rfl rfl)) trivial
  have r₁₉ := run_core r₁₈ (.call rfl (.io (t := false) (e := 0) (n := 7) rfl)) trivial
  exact ⟨_, _, start_emptyTable, r₁₉, _, List.mem_cons_self, rfl, rfl⟩

/-- Numbers are not good under a `reapIdle`. -/
theorem reaches_fails_after_reap :
    ¬ ∀ s₀ s : World Bool String, Start s₀ → Run Step Always s₀ s → ∀ u ∈ s.uses, u.Good := by
  intro h
  obtain ⟨s₀, s, hstart, hrun, u, hu, hother, hentry⟩ := reaches_other_after_reap
  have hreached := (h s₀ s hstart hrun u hu).2.2
  rw [hother, hentry] at hreached
  cases hreached

end Table

end ModelFs
