import ModelFs.Table

/-!
# Who destroys an entry

Seen from one entry, the threads on the table run the hand-off of `Life`: they take references
through the map, drop them in the two steps of `releaseFile`, and `forget` or `reapIdle` stamps the
entry dead. The hand-off needs that no thread is between its decrement to zero and its load of
`dead` when the stamp falls. Nothing in the code sees to that: the decrement is outside of every
lock and leaves no trace in the count.

* `life_core` — a step of the table is, for each entry, a step of the hand-off or none.
* `safe_of_run` — **entries are destroyed once, by one thread, and never used again**, along every
  run whose stamps find nobody in between.
* `safe_fails_after_forget` — a `forget` between the two steps of a `releaseFile`.
-/

namespace ModelFs

namespace Table

open World

variable {τ ρ : Type}
variable {s s' : World τ ρ} {t : τ} {e : Nat}

/-- The references a thread has to `e`. -/
def Thread.refsOf (th : Thread ρ) (e : Nat) : Nat :=
  th.held.count e + th.pins.count e + th.evict.count e

/-- Whether a thread is at `d` with `e`. -/
def Thread.at (th : Thread ρ) (d : Drop) (e : Nat) : Nat := if th.drop = some (e, d) then 1 else 0

/-- An entry as the hand-off sees it. -/
def World.life [Fintype τ] (s : World τ ρ) (e : Nat) : Life where
  count := (s.slot e).refs
  dead := (s.slot e).dead
  freed := (s.slot e).freed
  holders := total (fun th => th.refsOf e) s.thread
  leaving := total (fun th => th.at .dropped e) s.thread
  doomed := total (fun th => th.at .sawDead e) s.thread
  won := total (fun th => th.at .won e) s.thread
  ends := (s.slot e).deinits

/-! ## What a step leaves alone -/

@[simp] theorem slot_setSlot_self (s : World τ ρ) (e : Nat) (c : Slot ρ) :
    (s.setSlot e c).slot e = c := Function.update_self ..

theorem slot_setSlot_of_ne (s : World τ ρ) {e e' : Nat} (c : Slot ρ) (h : e' ≠ e) :
    (s.setSlot e c).slot e' = s.slot e' := Function.update_of_ne h ..

/-- Two slots that differ in descriptor, claims, transfers, marks and stamp at most. -/
structure Slot.Alike (c c' : Slot ρ) : Prop where
  rel : c'.rel = c.rel
  refs : c'.refs = c.refs
  dead : c'.dead = c.dead
  freed : c'.freed = c.freed
  deinits : c'.deinits = c.deinits

theorem Slot.Alike.refl (c : Slot ρ) : c.Alike c := ⟨rfl, rfl, rfl, rfl, rfl⟩

theorem Slot.Alike.trans {a b c : Slot ρ} (h : a.Alike b) (h' : b.Alike c) : a.Alike c :=
  ⟨h'.rel.trans h.rel, h'.refs.trans h.refs, h'.dead.trans h.dead, h'.freed.trans h.freed,
    h'.deinits.trans h.deinits⟩

/-- The map and the threads are as they were, and so is what the hand-off is about. -/
structure Keeps (s s' : World τ ρ) : Prop where
  slot : ∀ e, (s.slot e).Alike (s'.slot e)
  thread : s'.thread = s.thread
  files : s'.files = s.files
  next : s'.next = s.next

theorem Keeps.refl (s : World τ ρ) : Keeps s s := ⟨fun _ => Slot.Alike.refl _, rfl, rfl, rfl⟩

theorem Keeps.trans {s'' : World τ ρ} (h : Keeps s s') (h' : Keeps s' s'') : Keeps s s'' :=
  ⟨fun e => (h.slot e).trans (h'.slot e), h'.thread.trans h.thread, h'.files.trans h.files,
    h'.next.trans h.next⟩

theorem alike_update {c : Slot ρ} (h : (s.slot e).Alike c) (e' : Nat) :
    (s.slot e').Alike (Function.update s.slot e c e') := by
  by_cases he : e' = e
  · rw [he, Function.update_self]
    exact h
  · rw [Function.update_of_ne he]
    exact Slot.Alike.refl _

theorem keeps_setSlot (s : World τ ρ) {e : Nat} {c : Slot ρ} (h : (s.slot e).Alike c) :
    Keeps s (s.setSlot e c) := ⟨alike_update h, rfl, rfl, rfl⟩

theorem keeps_touch (s : World τ ρ) (e : Nat) : Keeps s (s.touch e) :=
  ⟨fun _ => Slot.Alike.refl _, rfl, rfl, rfl⟩

theorem keeps_closeFd (s : World τ ρ) (e : Nat) : Keeps s (s.closeFd e) := by
  unfold closeFd
  split
  · exact ⟨alike_update ⟨rfl, rfl, rfl, rfl, rfl⟩, rfl, rfl, rfl⟩
  · exact Keeps.refl s

theorem keeps_openFd (s : World τ ρ) (e n : Nat) : Keeps s (s.openFd e n) :=
  ⟨alike_update ⟨rfl, rfl, rfl, rfl, rfl⟩, rfl, rfl, rfl⟩

theorem keeps_raise (s : World τ ρ) (e : Nat) (guard : Guard) : Keeps s (s.raise e guard) := by
  cases guard
  · exact keeps_setSlot s ⟨rfl, rfl, rfl, rfl, rfl⟩
  · exact keeps_setSlot s ⟨rfl, rfl, rfl, rfl, rfl⟩
  · exact Keeps.refl s

theorem keeps_lower (s : World τ ρ) (e : Nat) (guard : Guard) : Keeps s (s.lower e guard) := by
  cases guard
  · exact keeps_setSlot s ⟨rfl, rfl, rfl, rfl, rfl⟩
  · exact keeps_setSlot s ⟨rfl, rfl, rfl, rfl, rfl⟩
  · exact Keeps.refl s

variable [Fintype τ]

/-! ## One entry -/

variable [DecidableEq τ]

/-- Thread `t` moves to `th`: what this does to the counts of one entry. -/
theorem counts_update {th : Thread ρ} (hthread : s'.thread = Function.update s.thread t th)
    (e : Nat) :
    (s'.life e).holders + (s.thread t).refsOf e = (s.life e).holders + th.refsOf e ∧
      (s'.life e).leaving + (s.thread t).at .dropped e = (s.life e).leaving + th.at .dropped e ∧
      (s'.life e).doomed + (s.thread t).at .sawDead e = (s.life e).doomed + th.at .sawDead e ∧
      (s'.life e).won + (s.thread t).at .won e = (s.life e).won + th.at .won e := by
  unfold life
  rw [hthread]
  have hmove := fun f : Thread ρ → Nat => total_update f s.thread t th
  exact ⟨hmove fun th => th.refsOf e, hmove fun th => th.at .dropped e,
    hmove fun th => th.at .sawDead e, hmove fun th => th.at .won e⟩

/-- The life of an entry after a step, from its slot and what the step's thread had and has. -/
theorem life_eq {th : Thread ρ} {l : Life} {c : Slot ρ}
    (hthread : s'.thread = Function.update s.thread t th) (hslot : s'.slot e = c)
    (hcount : c.refs = l.count) (hdead : c.dead = l.dead) (hfreed : c.freed = l.freed)
    (hends : c.deinits = l.ends)
    (hholders : (s.life e).holders + th.refsOf e = l.holders + (s.thread t).refsOf e)
    (hleaving : (s.life e).leaving + th.at .dropped e = l.leaving + (s.thread t).at .dropped e)
    (hdoomed : (s.life e).doomed + th.at .sawDead e = l.doomed + (s.thread t).at .sawDead e)
    (hwon : (s.life e).won + th.at .won e = l.won + (s.thread t).at .won e) :
    s'.life e = l := by
  obtain ⟨h₁, h₂, h₃, h₄⟩ := counts_update hthread e
  have hs := congrArg Slot.refs hslot
  ext1
  · exact hs.trans hcount
  · exact (congrArg Slot.dead hslot).trans hdead
  · exact (congrArg Slot.freed hslot).trans hfreed
  · omega
  · omega
  · omega
  · omega
  · exact (congrArg Slot.deinits hslot).trans hends

/-- A step that neither moves a reference of `e` nor touches its flags. -/
theorem life_same {th : Thread ρ} (hthread : s'.thread = Function.update s.thread t th)
    (hslot : (s.slot e).Alike (s'.slot e)) (hrefs : th.refsOf e = (s.thread t).refsOf e)
    (hat : ∀ d, th.at d e = (s.thread t).at d e) : s'.life e = s.life e :=
  life_eq hthread rfl hslot.refs hslot.dead hslot.freed hslot.deinits (by rw [hrefs])
    (by rw [hat]) (by rw [hat]) (by rw [hat])

omit [DecidableEq τ] in
theorem le_holders (s : World τ ρ) (t : τ) (e : Nat) :
    (s.thread t).refsOf e ≤ (s.life e).holders :=
  le_total (fun th : Thread ρ => th.refsOf e) s.thread t

omit [Fintype τ] [DecidableEq τ] in
theorem refsOf_pos {th : Thread ρ} (h : e ∈ th.held ∨ e ∈ th.pins ∨ e ∈ th.evict) :
    0 < th.refsOf e := by
  unfold Thread.refsOf
  rcases h with h | h | h <;> have hpos := List.count_pos_iff.mpr h <;> omega

omit [Fintype τ] [DecidableEq τ] in
theorem at_of_none {th : Thread ρ} (h : th.drop = none) (d : Drop) : th.at d e = 0 := by
  unfold Thread.at
  rw [h]
  exact if_neg (by simp)

/-- What one step of the table is to one entry. -/
def Hands (s s' : World τ ρ) (e : Nat) : Prop :=
  s'.life e = s.life e ∨ Life.Step (s.life e) (s'.life e)

theorem hands_still {th : Thread ρ} (hkeeps : Keeps s s')
    (hrefs : ∀ e, th.refsOf e = (s.thread t).refsOf e) (hdrop : th.drop = (s.thread t).drop)
    (e : Nat) : Hands s (s'.moveTo t th) e := by
  refine Or.inl (life_same (t := t) ?_ (hkeeps.slot e) (hrefs e) fun d => ?_)
  · show Function.update s'.thread t th = _
    rw [hkeeps.thread]
  · unfold Thread.at
    rw [hdrop]

omit [DecidableEq τ] in
/-- A step that does not move its thread. -/
theorem hands_keeps (hkeeps : Keeps s s') (e : Nat) : Hands s s' e := by
  refine Or.inl ?_
  have hslot := hkeeps.slot e
  unfold life
  rw [hkeeps.thread]
  ext1
  exacts [hslot.refs, hslot.dead, hslot.freed, rfl, rfl, rfl, rfl, hslot.deinits]

/-- The entries a step on `e` is not about. -/
theorem hands_other {th : Thread ρ} {e' : Nat}
    (hthread : s'.thread = Function.update s.thread t th) (hslot : s'.slot e' = s.slot e')
    (hrefs : th.refsOf e' = (s.thread t).refsOf e') (hat : ∀ d, th.at d e' = (s.thread t).at d e') :
    Hands s s' e' :=
  Or.inl (life_same hthread (by rw [hslot]; exact Slot.Alike.refl _) hrefs hat)

omit [Fintype τ] [DecidableEq τ] in
theorem at_congr {th th' : Thread ρ} (h : th.drop = th'.drop) (d : Drop) (e : Nat) :
    th.at d e = th'.at d e := by
  unfold Thread.at
  rw [h]

theorem hands_fetchAdd {th : Thread ρ} (hlive : (s.slot e).dead = false)
    (hrefs : ∀ e', th.refsOf e' = (s.thread t).refsOf e' + if e' = e then 1 else 0)
    (hdrop : th.drop = (s.thread t).drop) (e' : Nat) :
    Hands s ((s.fetchAdd e).moveTo t th) e' := by
  have hat := fun d => at_congr hdrop d e'
  have hr := hrefs e'
  by_cases he : e' = e
  · subst he
    rw [if_pos rfl] at hr
    have hlife : ((s.fetchAdd e').moveTo t th).life e' = { s.life e' with
        count := (s.life e').count + 1
        holders := (s.life e').holders + 1 } :=
      life_eq (s := s) (t := t) rfl (slot_setSlot_self ..) rfl rfl rfl rfl
        (by dsimp only; omega) (by rw [hat]) (by rw [hat]) (by rw [hat])
    exact Or.inr (hlife ▸ Life.Step.take hlive)
  · rw [if_neg he] at hr
    exact hands_other rfl (slot_setSlot_of_ne _ _ he) hr hat

/-- A pin goes back under the lock. -/
theorem hands_unpin {th : Thread ρ} (hlive : (s.slot e).dead = false)
    (hrefs : ∀ e', th.refsOf e' + (if e' = e then 1 else 0) = (s.thread t).refsOf e')
    (hdrop : th.drop = (s.thread t).drop) (e' : Nat) :
    Hands s ((s.fetchSub e).moveTo t th) e' := by
  have hat := fun d => at_congr hdrop d e'
  have hr := hrefs e'
  by_cases he : e' = e
  · subst he
    rw [if_pos rfl] at hr
    have hle := le_holders s t e'
    have hlife : ((s.fetchSub e').moveTo t th).life e' = { s.life e' with
        count := (s.life e').count - 1
        holders := (s.life e').holders - 1 } :=
      life_eq (s := s) (t := t) rfl (slot_setSlot_self ..) rfl rfl rfl rfl
        (by dsimp only; omega) (by rw [hat]) (by rw [hat]) (by rw [hat])
    exact Or.inr (hlife ▸ Life.Step.undo hlive (by omega))
  · rw [if_neg he] at hr
    exact hands_other rfl (slot_setSlot_of_ne _ _ he) (by omega) hat

omit [Fintype τ] [DecidableEq τ] in
/-- The thread after the decrement of `releaseFile`. -/
theorem at_released {th : Thread ρ} (hdrop : th.drop = s.released e) (d : Drop) (e' : Nat) :
    th.at d e' = if e' = e ∧ d = .dropped ∧ (s.slot e).refs = 1 then 1 else 0 := by
  unfold Thread.at released at *
  rw [hdrop]
  by_cases hrefs : (s.slot e).refs = 1
  · by_cases he : e' = e
    · subst he
      cases d <;> simp [hrefs]
    · simp [hrefs, he, Ne.symm he]
  · simp [hrefs]

theorem hands_fetchSub {th : Thread ρ} (hidle : (s.thread t).drop = none)
    (hrefs : ∀ e', th.refsOf e' + (if e' = e then 1 else 0) = (s.thread t).refsOf e')
    (hdrop : th.drop = s.released e) (e' : Nat) : Hands s ((s.fetchSub e).moveTo t th) e' := by
  have hat := fun d => at_released hdrop d e'
  have hnone := fun d => at_of_none hidle d (e := e')
  have hr := hrefs e'
  by_cases he : e' = e
  · subst he
    rw [if_pos rfl] at hr
    have hle := le_holders s t e'
    have hleaving : (s.life e').leaving + th.at .dropped e' =
        ((s.life e').leaving + if (s.slot e').refs = 1 then 1 else 0) +
          (s.thread t).at .dropped e' := by
      rw [hat, hnone]
      simp
    have hlife : ((s.fetchSub e').moveTo t th).life e' = { s.life e' with
        count := (s.life e').count - 1
        holders := (s.life e').holders - 1
        leaving := (s.life e').leaving + if (s.life e').count = 1 then 1 else 0 } :=
      life_eq (s := s) (t := t) rfl (slot_setSlot_self ..) rfl rfl rfl rfl
        (by dsimp only; omega) hleaving (by rw [hat, hnone]; simp)
        (by rw [hat, hnone]; simp)
    exact Or.inr (hlife ▸ Life.Step.drop (by omega))
  · rw [if_neg he] at hr
    refine hands_other rfl (slot_setSlot_of_ne _ _ he) (by omega) fun d => ?_
    rw [hat, hnone, if_neg (by simp [he])]

/-- A thread in the tail of `releaseFile` for `e` goes to `d'`, or is done with it. -/
theorem hands_tail {d : Drop} (s₁ : World τ ρ) (o : Option (Nat × Drop))
    (hdrop : (s.thread t).drop = some (e, d)) (ho : ∀ e' d', o = some (e', d') → e' = e)
    (hthread : s₁.thread = s.thread) (hslot : ∀ e', e' ≠ e → s₁.slot e' = s.slot e')
    (hstep : (s₁.moveTo t { s.thread t with drop := o }).life e = s.life e ∨
      Life.Step (s.life e) ((s₁.moveTo t { s.thread t with drop := o }).life e)) (e' : Nat) :
    Hands s (s₁.moveTo t { s.thread t with drop := o }) e' := by
  by_cases he : e' = e
  · rw [he]
    exact hstep
  · have hmove : (s₁.moveTo t { s.thread t with drop := o }).thread =
        Function.update s.thread t { s.thread t with drop := o } := by
      rw [← hthread]
      rfl
    refine hands_other hmove (hslot e' he) rfl fun d' => ?_
    have hold : (s.thread t).drop ≠ some (e', d') := fun h => by
      rw [hdrop] at h
      exact he (by cases h; rfl)
    have hnew : o ≠ some (e', d') := fun h => he (ho e' d' h)
    exact (if_neg hnew).trans (if_neg hold).symm

theorem at_self {th : Thread ρ} {d : Drop} (h : th.drop = some (e, d)) (d' : Drop) :
    th.at d' e = if d' = d then 1 else 0 := by
  unfold Thread.at
  rw [h]
  by_cases hd : d' = d
  · rw [hd]
    simp
  · rw [if_neg hd, if_neg fun heq => hd (by cases heq; rfl)]

omit [DecidableEq τ] in
theorem le_leaving (s : World τ ρ) (t : τ) (e : Nat) :
    (s.thread t).at .dropped e ≤ (s.life e).leaving :=
  le_total (fun th : Thread ρ => th.at .dropped e) s.thread t

omit [DecidableEq τ] in
theorem le_doomed (s : World τ ρ) (t : τ) (e : Nat) :
    (s.thread t).at .sawDead e ≤ (s.life e).doomed :=
  le_total (fun th : Thread ρ => th.at .sawDead e) s.thread t

omit [DecidableEq τ] in
theorem le_won (s : World τ ρ) (t : τ) (e : Nat) : (s.thread t).at .won e ≤ (s.life e).won :=
  le_total (fun th : Thread ρ => th.at .won e) s.thread t

omit [DecidableEq τ] [Fintype τ] in
theorem slot_closeFd_of_ne (s : World τ ρ) {e e' : Nat} (h : e' ≠ e) :
    (s.closeFd e).slot e' = s.slot e' := by
  unfold closeFd
  split
  · exact Function.update_of_ne h ..
  · rfl

/-- The tail of `releaseFile` is the tail of the hand-off. -/
theorem hands_of_tail (h : Tail t s (s.thread t) s') (e : Nat) : Hands s s' e := by
  have hnone : ∀ d e, Thread.at { s.thread t with drop := none } d e = 0 := fun d e =>
    at_of_none rfl d
  have hnew : ∀ d' d e, Thread.at { s.thread t with drop := some (e, d') } d e =
      if d = d' then 1 else 0 := fun d' d e => at_self rfl d
  cases h with
  | @spare e₀ hdrop hlive =>
    have hat := at_self hdrop
    have hpos := le_leaving s t e₀
    rw [hat, if_pos rfl] at hpos
    refine hands_tail (s.touch e₀) none hdrop nofun rfl (fun _ _ => rfl) (Or.inr ?_) e
    have hlife : ((s.touch e₀).moveTo t { s.thread t with drop := none }).life e₀ =
        { s.life e₀ with leaving := (s.life e₀).leaving - 1 } :=
      life_eq (s := s) (t := t) rfl rfl rfl rfl rfl rfl rfl
        (by rw [hat, hnone, if_pos rfl]; dsimp only; omega)
        (by rw [hat, hnone, if_neg (by decide)]) (by rw [hat, hnone, if_neg (by decide)])
    exact hlife ▸ Life.Step.spare hpos hlive
  | @sawDead e₀ hdrop hdead =>
    have hat := at_self hdrop
    have hpos := le_leaving s t e₀
    rw [hat, if_pos rfl] at hpos
    refine hands_tail (s.touch e₀) (some (e₀, .sawDead)) hdrop (fun e' d' h => by cases h; rfl) rfl
      (fun _ _ => rfl) (Or.inr ?_) e
    have hlife : ((s.touch e₀).moveTo t { s.thread t with drop := some (e₀, .sawDead) }).life e₀ =
        { s.life e₀ with
          leaving := (s.life e₀).leaving - 1
          doomed := (s.life e₀).doomed + 1 } :=
      life_eq (s := s) (t := t) rfl rfl rfl rfl rfl rfl rfl
        (by rw [hat, hnew, if_pos rfl, if_neg (by decide)]; dsimp only; omega)
        (by rw [hat, hnew, if_pos rfl, if_neg (by decide)])
        (by rw [hat, hnew, if_neg (by decide), if_neg (by decide)])
    exact hlife ▸ Life.Step.doom hpos hdead
  | @won e₀ hdrop hfirst =>
    have hat := at_self hdrop
    have hpos := le_doomed s t e₀
    rw [hat, if_pos rfl] at hpos
    refine hands_tail ((s.touch e₀).setSlot e₀ { s.slot e₀ with freed := true }) (some (e₀, .won))
      hdrop (fun e' d' h => by cases h; rfl) rfl
      (fun e' he => slot_setSlot_of_ne _ _ he) (Or.inr ?_) e
    have hlife : (((s.touch e₀).setSlot e₀ { s.slot e₀ with freed := true }).moveTo t
          { s.thread t with drop := some (e₀, .won) }).life e₀ =
        { s.life e₀ with
          freed := true
          doomed := (s.life e₀).doomed - 1
          won := (s.life e₀).won + 1 } :=
      life_eq (s := s) (t := t) rfl (slot_setSlot_self ..) rfl rfl rfl rfl rfl
        (by rw [hat, hnew, if_neg (by decide), if_neg (by decide)])
        (by rw [hat, hnew, if_pos rfl, if_neg (by decide)]; dsimp only; omega)
        (by rw [hat, hnew, if_pos rfl, if_neg (by decide)])
    exact hlife ▸ Life.Step.win hpos hfirst
  | @lost e₀ hdrop hlast =>
    have hat := at_self hdrop
    have hpos := le_doomed s t e₀
    rw [hat, if_pos rfl] at hpos
    refine hands_tail (s.touch e₀) none hdrop nofun rfl (fun _ _ => rfl) (Or.inr ?_) e
    have hlife : ((s.touch e₀).moveTo t { s.thread t with drop := none }).life e₀ =
        { s.life e₀ with doomed := (s.life e₀).doomed - 1 } :=
      life_eq (s := s) (t := t) rfl rfl rfl rfl rfl rfl rfl
        (by rw [hat, hnone, if_neg (by decide)])
        (by rw [hat, hnone, if_pos rfl]; dsimp only; omega)
        (by rw [hat, hnone, if_neg (by decide)])
    exact hlife ▸ Life.Step.lose hpos hlast
  | @deinit e₀ hdrop =>
    have hat := at_self hdrop
    have hpos := le_won s t e₀
    rw [hat, if_pos rfl] at hpos
    have hclose := keeps_closeFd (s.touch e₀) e₀
    refine hands_tail (s.deinit e₀) none hdrop nofun (by exact hclose.thread)
      (fun e' he => ?_) (Or.inr ?_) e
    · exact (slot_setSlot_of_ne _ _ he).trans (slot_closeFd_of_ne _ he)
    have hmove : ((s.deinit e₀).moveTo t { s.thread t with drop := none }).thread =
        Function.update s.thread t { s.thread t with drop := none } := by
      show Function.update ((s.touch e₀).closeFd e₀).thread t _ = _
      rw [hclose.thread]
      rfl
    have hlife : ((s.deinit e₀).moveTo t { s.thread t with drop := none }).life e₀ =
        { s.life e₀ with
          won := (s.life e₀).won - 1
          ends := (s.life e₀).ends + 1 } :=
      life_eq hmove (slot_setSlot_self ..) (hclose.slot e₀).refs (hclose.slot e₀).dead
        (hclose.slot e₀).freed (congrArg (· + 1) (hclose.slot e₀).deinits) rfl
        (by rw [hat, hnone, if_neg (by decide)]) (by rw [hat, hnone, if_neg (by decide)])
        (by rw [hat, hnone, if_pos rfl]; dsimp only; omega)
    exact hlife ▸ Life.Step.destroy hpos

/-! ## The stamps -/

/-- The condition: no thread is between its decrement to zero and its load of `dead` on an entry
that is stamped dead. -/
def StampsClear (s s' : World τ ρ) : Prop :=
  ∀ e, (s.slot e).dead = false → (s'.slot e).dead = true →
    ∀ u, (s.thread u).drop ≠ some (e, .dropped)

omit [DecidableEq τ] in
theorem leaving_of_clear (hclear : ∀ u, (s.thread u).drop ≠ some (e, .dropped)) :
    (s.life e).leaving = 0 :=
  Finset.sum_eq_zero fun u _ => if_neg (hclear u)

/-- `forget` on a live entry, seen from every entry. -/
theorem hands_forget [DecidableEq ρ] (t : τ) (hsound : (s.life e).Sound)
    (hlive : (s.slot e).dead = false)
    (hclear : StampsClear s ((s.stampDead e).destroyIdle e)) (e' : Nat) :
    Hands s ((s.stampDead e).destroyIdle e) e' := by
  have hslot : (s.stampDead e).slot e = { s.slot e with dead := true, marked := false } :=
    slot_setSlot_self ..
  have hother : ∀ e', e' ≠ e → (s.stampDead e).slot e' = s.slot e' := fun e' he =>
    slot_setSlot_of_ne (s.touch e) _ he
  obtain ⟨-, -, -, hfreed⟩ := hsound.live hlive
  have hstays : ∀ s₁ : World τ ρ, s₁.thread = s.thread → s₁.thread =
      Function.update s.thread t (s.thread t) := fun s₁ h => by rw [h, Function.update_eq_self]
  by_cases hrefs : (s.slot e).refs = 0
  · set s₁ := (s.stampDead e).setSlot e { (s.stampDead e).slot e with freed := true } with hs₁
    have heq : (s.stampDead e).destroyIdle e = s₁.deinit e := by
      unfold destroyIdle
      rw [hslot, if_pos hrefs, if_neg (by rw [show (s.slot e).freed = false from hfreed]; simp)]
      rw [hs₁, hslot]
    rw [heq] at hclear ⊢
    have hclose := keeps_closeFd (s₁.touch e) e
    have hslot₁ : s₁.slot e = { s.slot e with dead := true, marked := false, freed := true } := by
      rw [hs₁, slot_setSlot_self, hslot]
    have hat := hclose.slot e
    have hthread : (s₁.deinit e).thread = s.thread := hclose.thread
    by_cases he : e' = e
    · subst he
      have hkept : (((s₁.touch e').closeFd e').slot e').refs = (s.slot e').refs ∧
          (((s₁.touch e').closeFd e').slot e').dead = true ∧
          (((s₁.touch e').closeFd e').slot e').freed = true ∧
          (((s₁.touch e').closeFd e').slot e').deinits = (s.slot e').deinits := by
        rw [hat.refs, hat.dead, hat.freed, hat.deinits]
        show (s₁.slot e').refs = _ ∧ (s₁.slot e').dead = _ ∧ (s₁.slot e').freed = _ ∧
          (s₁.slot e').deinits = _
        rw [hslot₁]
        exact ⟨rfl, rfl, rfl, rfl⟩
      have hdead : ((s₁.deinit e').slot e').dead = true :=
        (congrArg Slot.dead (slot_setSlot_self ..)).trans hkept.2.1
      have hzero := leaving_of_clear (hclear e' hlive hdead)
      have hlife : (s₁.deinit e').life e' = { s.life e' with
          dead := true
          freed := true
          ends := (s.life e').ends + 1 } :=
        life_eq (hstays _ hthread) (slot_setSlot_self ..) hkept.1 hkept.2.1 hkept.2.2.1
          (congrArg (· + 1) hkept.2.2.2) rfl rfl rfl rfl
      exact Or.inr (hlife ▸ Life.Step.killLast hlive hzero hrefs)
    · refine hands_other (hstays _ hthread) ?_ rfl fun _ => rfl
      rw [← hother e' he]
      exact (slot_setSlot_of_ne _ _ he).trans
        ((slot_closeFd_of_ne _ he).trans (slot_setSlot_of_ne _ _ he))
  · have heq : (s.stampDead e).destroyIdle e = s.stampDead e := by
      unfold destroyIdle
      rw [hslot]
      exact if_neg hrefs
    rw [heq] at hclear ⊢
    by_cases he : e' = e
    · subst he
      have hzero := leaving_of_clear (hclear e' hlive (congrArg Slot.dead hslot))
      have hlife : (s.stampDead e').life e' = { s.life e' with dead := true } :=
        life_eq (hstays _ rfl) hslot rfl rfl rfl rfl rfl rfl rfl rfl
      exact Or.inr (hlife ▸ Life.Step.kill hlive hzero (Nat.pos_of_ne_zero hrefs))
    · exact hands_other (hstays _ rfl) (hother e' he) rfl fun _ => rfl

/-- `reapIdle` evicts an entry it has the last reference to. -/
theorem hands_evict [DecidableEq ρ] {th : Thread ρ} (hlive : (s.slot e).dead = false)
    (hrefs : (s.slot e).refs = 1) (hidle : (s.thread t).drop = none)
    (hmoved : ∀ e', th.refsOf e' + (if e' = e then 1 else 0) = (s.thread t).refsOf e')
    (hdrop : th.drop = s.released e)
    (hclear : StampsClear s (((s.stampDead e).fetchSub e).moveTo t th)) (e' : Nat) :
    Hands s (((s.stampDead e).fetchSub e).moveTo t th) e' := by
  have hslot : (s.stampDead e).slot e = { s.slot e with dead := true, marked := false } :=
    slot_setSlot_self ..
  have hlast : ((s.stampDead e).fetchSub e).slot e =
      { s.slot e with dead := true, marked := false, refs := 0 } := by
    refine (slot_setSlot_self ..).trans ?_
    rw [hslot]
    dsimp only
    rw [hrefs]
  have hat := fun d => at_released hdrop d e'
  have hnone := fun d => at_of_none hidle d (e := e')
  have hr := hmoved e'
  by_cases he : e' = e
  · subst he
    rw [if_pos rfl] at hr
    have hle := le_holders s t e'
    have hzero := leaving_of_clear (hclear e' hlive (congrArg Slot.dead hlast))
    have hlife : (((s.stampDead e').fetchSub e').moveTo t th).life e' = { s.life e' with
        dead := true
        count := 0
        holders := (s.life e').holders - 1
        leaving := (s.life e').leaving + 1 } :=
      life_eq (s := s) (t := t) rfl hlast rfl rfl rfl rfl (by dsimp only; omega)
        (by rw [hat, hnone, if_pos ⟨rfl, rfl, hrefs⟩]) (by rw [hat, hnone]; simp)
        (by rw [hat, hnone]; simp)
    exact Or.inr (hlife ▸ Life.Step.killDrop hlive hzero hrefs)
  · rw [if_neg he] at hr
    refine hands_other rfl ?_ (by omega) fun d => ?_
    · exact (slot_setSlot_of_ne _ _ he).trans (slot_setSlot_of_ne _ _ he)
    · rw [hat, hnone, if_neg (by simp [he])]

/-! ## The table -/

/-- The call holds `store.mu`. -/
def Pc.locks : Pc ρ → Bool
  | .sampling .. => true
  | .evicting => true
  | _ => false

/-- The call may have candidates it has neither dropped nor kept. -/
def Pc.samples : Pc ρ → Bool
  | .sampling .. => true
  | .closing .. => true
  | .culling => true
  | _ => false

/-- What the point a thread is at says about its references: a sample taken under the lock is of
entries that are not `dead`, no pin outlives its phase, a descriptor is used under a reference. -/
structure Thread.Fits (dead : Nat → Bool) (th : Thread ρ) : Prop where
  pinned : ∀ now minIdle, th.pc = .sampling now minIdle → ∀ e ∈ th.pins, dead e = false
  unpinned : th.pc.samples = false → th.pins = []
  user : ∀ u, th.pc = .onFd u → u.entry ∈ th.held

omit [Fintype τ] in
/-- A thread between samples. -/
theorem Thread.Fits.rest {th : Thread ρ} {dead : Nat → Bool} (hpins : th.pins = [])
    (huser : ∀ u, th.pc = .onFd u → u.entry ∈ th.held) : th.Fits dead := by
  refine ⟨fun now minIdle _ e hpin => ?_, fun _ => hpins, huser⟩
  rw [hpins] at hpin
  exact absurd hpin List.not_mem_nil

/-- What the table keeps: every entry's hand-off is sound, the map holds the entries that are not
dead, `store.mu` has one owner, and no destroyed entry was used. -/
structure TableOk (s : World τ ρ) : Prop where
  sound : ∀ e, (s.life e).Sound
  mapped : ∀ rel e, s.files rel = some e →
    (s.slot e).rel = rel ∧ (s.slot e).dead = false ∧ e < s.next
  listed : ∀ e, e < s.next → (s.slot e).dead = false → s.files (s.slot e).rel = some e
  unborn : ∀ e, s.next ≤ e → (s.slot e).refs = 0 ∧ (s.slot e).dead = false
  mu : ∀ u, (s.thread u).pc.locks = true → s.storeMu = some u
  fits : ∀ u, (s.thread u).Fits fun e => (s.slot e).dead
  late : s.late = false

omit [DecidableEq τ] in
theorem TableOk.born (h : TableOk s) (href : e ∈ (s.thread t).held ∨ e ∈ (s.thread t).pins ∨
    e ∈ (s.thread t).evict) : e < s.next := by
  by_contra hge
  have hrefs := (h.unborn e (Nat.not_lt.mp hge)).1
  have hcount := (h.sound e).count
  have hle := le_holders s t e
  have hpos := refsOf_pos href
  have hzero : (s.life e).count = 0 := hrefs
  omega

omit [DecidableEq τ] in
/-- An entry a thread has a reference to has not been destroyed. -/
theorem TableOk.there (h : TableOk s) (href : e ∈ (s.thread t).held ∨ e ∈ (s.thread t).pins ∨
    e ∈ (s.thread t).evict) : (s.slot e).deinits = 0 :=
  (h.sound e).ends_of_held ((refsOf_pos href).trans_le (le_holders s t e))

omit [DecidableEq τ] in
/-- Nor has one that is not dead. -/
theorem TableOk.there_of_live (h : TableOk s) (hlive : (s.slot e).dead = false) :
    (s.slot e).deinits = 0 := ((h.sound e).live hlive).2.2.1

theorem count_cons (l : List Nat) (e e' : Nat) :
    (e :: l).count e' = l.count e' + if e' = e then 1 else 0 := by
  rw [List.count_cons]
  by_cases h : e' = e
  · rw [if_pos h, if_pos (by rw [h]; exact beq_self_eq_true e)]
  · rw [if_neg h, if_neg fun hb => h (eq_of_beq hb).symm]

theorem count_erase_add {l : List Nat} {e : Nat} (h : e ∈ l) (e' : Nat) :
    (l.erase e).count e' + (if e' = e then 1 else 0) = l.count e' := by
  rw [← count_cons]
  exact (List.perm_cons_erase h).count_eq e' |>.symm

/-- A builder publishes its entry: the first reference. -/
theorem hands_getPut (h : TableOk s) {th : Thread ρ} {rel : ρ} {now : Int} {marked : Bool}
    {files : ρ → Option Nat} {next : Nat}
    (hrefs : ∀ e', th.refsOf e' = (s.thread t).refsOf e' + if e' = s.next then 1 else 0)
    (hdrop : th.drop = (s.thread t).drop) (e' : Nat) :
    Hands s ({ s.setSlot s.next { rel := rel, refs := 1, lastAccess := now, marked := marked } with
      files := files, next := next }.moveTo t th) e' := by
  have hat := fun d => at_congr hdrop d e'
  have hr := hrefs e'
  by_cases he : e' = s.next
  · subst he
    rw [if_pos rfl] at hr
    obtain ⟨hcount, hlive⟩ := h.unborn s.next le_rfl
    obtain ⟨-, -, hends, hfreed⟩ := (h.sound s.next).live hlive
    have hzero : (s.life s.next).count = 0 := hcount
    have hlife : ({ s.setSlot s.next { rel := rel, refs := 1, lastAccess := now, marked := marked }
          with files := files, next := next }.moveTo t th).life s.next = { s.life s.next with
        count := (s.life s.next).count + 1
        holders := (s.life s.next).holders + 1 } :=
      life_eq (s := s) (t := t) rfl (slot_setSlot_self ..) (by dsimp only; omega) hlive.symm
        hfreed.symm hends.symm (by dsimp only; omega) (by rw [hat]) (by rw [hat]) (by rw [hat])
    exact Or.inr (hlife ▸ Life.Step.take hlive)
  · rw [if_neg he] at hr
    exact hands_other rfl (slot_setSlot_of_ne _ _ he) hr hat

/-- **A step of the table is, for each entry, a step of the hand-off or none.** -/
theorem hands_of_call [DecidableEq ρ] (h : TableOk s) (hidle : (s.thread t).drop = none)
    (hcall : Call t s (s.thread t) s') (hclear : StampsClear s s') (e : Nat) : Hands s s' e := by
  have hkeep := fun {s₁ : World τ ρ} {th : Thread ρ} (hkeeps : Keeps s s₁)
    (hrefs : ∀ e, th.refsOf e = (s.thread t).refsOf e) (hdrop : th.drop = (s.thread t).drop) =>
      hands_still hkeeps hrefs hdrop e
  cases hcall with
  | @hit rel e₀ hpc hfree hmap =>
    refine hands_fetchAdd (h.mapped rel e₀ hmap).2.1 (fun e' => ?_) (by rfl) e
    unfold Thread.refsOf
    dsimp only
    rw [count_cons]
    omega
  | getMiss => exact hkeep (Keeps.refl s) (fun _ => rfl) (by rfl)
  | getDiscard => exact hkeep (Keeps.refl s) (fun _ => rfl) (by rfl)
  | getPut now marked hpc hfree hmap hepoch =>
    refine hands_getPut h (fun e' => ?_) (by rfl) e
    unfold Thread.refsOf
    dsimp only
    rw [count_cons]
    omega
  | @fileSection e₀ now marked hpc hheld =>
    have halike : (s.slot e₀).Alike { s.slot e₀ with lastAccess := now, marked := marked } :=
      ⟨rfl, rfl, rfl, rfl, rfl⟩
    exact hands_keeps ((keeps_touch s e₀).trans (keeps_setSlot _ halike)) e
  | releaseFile hpc hheld =>
    refine hands_fetchSub hidle (fun e' => ?_) (by rfl) e
    have hcount := count_erase_add hheld e'
    unfold Thread.refsOf
    dsimp only
    omega
  | @forget rel e₀ hpc hfree hmap =>
    exact hands_forget t (h.sound e₀) (h.mapped rel e₀ hmap).2.1 hclear e
  | forgetMiss => exact hands_keeps ⟨fun _ => Slot.Alike.refl _, rfl, rfl, rfl⟩ e
  | sample => exact hkeep ⟨fun _ => Slot.Alike.refl _, rfl, rfl, rfl⟩ (fun _ => rfl) (by rfl)
  | @reapPin rel e₀ now minIdle hpc hmap hrefs hidle' =>
    refine hands_fetchAdd (h.mapped rel e₀ hmap).2.1 (fun e' => ?_) (by rfl) e
    unfold Thread.refsOf
    dsimp only
    rw [count_cons]
    omega
  | @cullPin rel e₀ now hpc hmap hidle' =>
    refine hands_fetchAdd (h.mapped rel e₀ hmap).2.1 (fun e' => ?_) (by rfl) e
    unfold Thread.refsOf
    dsimp only
    rw [count_cons]
    omega
  | @unpin e₀ now minIdle hpc hpin =>
    refine hands_unpin ((h.fits t).pinned now minIdle hpc e₀ hpin) (fun e' => ?_) (by rfl) e
    have hcount := count_erase_add hpin e'
    unfold Thread.refsOf
    dsimp only
    omega
  | reapSampled => exact hkeep ⟨fun _ => Slot.Alike.refl _, rfl, rfl, rfl⟩ (fun _ => rfl) (by rfl)
  | cullSampled => exact hkeep ⟨fun _ => Slot.Alike.refl _, rfl, rfl, rfl⟩ (fun _ => rfl) (by rfl)
  | reapClose hpc hpins =>
    refine hkeep ?_ (fun _ => rfl) (by rfl)
    split_ifs
    · exact (keeps_touch s _).trans (keeps_closeFd _ _)
    · exact keeps_touch s _
  | reapKeep hpc hpins =>
    refine hkeep (keeps_touch s _) (fun e' => ?_) (by rfl)
    unfold Thread.refsOf
    rw [hpins]
    dsimp only
    rw [count_cons, count_cons]
    omega
  | reapRelease hpc hpins =>
    refine hands_fetchSub hidle (fun e' => ?_) (by rfl) e
    unfold Thread.refsOf
    rw [hpins]
    dsimp only
    rw [count_cons]
    omega
  | reapEnd => exact hkeep (Keeps.refl s) (fun _ => rfl) (by rfl)
  | reapLock => exact hkeep ⟨fun _ => Slot.Alike.refl _, rfl, rfl, rfl⟩ (fun _ => rfl) (by rfl)
  | evictSkip hpc hevict =>
    refine hands_fetchSub hidle (fun e' => ?_) (by rfl) e
    unfold Thread.refsOf
    rw [hevict]
    dsimp only
    rw [count_cons]
    omega
  | evictEntry hpc hevict hlive hrefs hfilling hmarked hmap =>
    refine hands_evict hlive hrefs hidle (fun e' => ?_) (by rfl) hclear e
    unfold Thread.refsOf
    rw [hevict]
    dsimp only
    rw [count_cons]
    omega
  | evictEnd => exact hkeep ⟨fun _ => Slot.Alike.refl _, rfl, rfl, rfl⟩ (fun _ => rfl) (by rfl)
  | cullRelease hpc hpins =>
    refine hands_fetchSub hidle (fun e' => ?_) (by rfl) e
    unfold Thread.refsOf
    rw [hpins]
    dsimp only
    rw [count_cons]
    omega
  | cullEnd => exact hkeep (Keeps.refl s) (fun _ => rfl) (by rfl)
  | punchPiece => exact hands_keeps ⟨fun _ => Slot.Alike.refl _, rfl, rfl, rfl⟩ e
  | @punchOpen e₀ n =>
    have hopen := (keeps_touch s e₀).trans (keeps_openFd (s.touch e₀) e₀ n)
    exact hands_keeps ⟨hopen.slot, hopen.thread, hopen.files, hopen.next⟩ e
  | truncateCacheFd => exact hands_keeps ⟨fun _ => Slot.Alike.refl _, rfl, rfl, rfl⟩ e
  | enter guard =>
    exact hkeep ((keeps_touch s _).trans (keeps_raise _ _ guard)) (fun _ => rfl) (by rfl)
  | openCache => exact hkeep (keeps_touch s _) (fun _ => rfl) (by rfl)
  | openNew => exact hkeep ((keeps_touch s _).trans (keeps_openFd _ _ _)) (fun _ => rfl) (by rfl)
  | io => exact hands_keeps ⟨fun _ => Slot.Alike.refl _, rfl, rfl, rfl⟩ e
  | @exit e₀ guard =>
    exact hkeep ((keeps_touch s e₀).trans (keeps_lower _ _ guard)) (fun _ => rfl) (by rfl)

theorem hands_of_core [DecidableEq ρ] (h : TableOk s) (hcore : Core t s s')
    (hclear : StampsClear s s') (e : Nat) :
    Hands s s' e := by
  rcases hcore with ⟨hidle, hcall⟩ | htail
  · exact hands_of_call h hidle hcall hclear e
  · exact hands_of_tail htail e

/-- What a step that neither stamps nor publishes leaves of the table. -/
structure Frame (t : τ) (s s' : World τ ρ) : Prop where
  rel : ∀ e, (s'.slot e).rel = (s.slot e).rel
  dead : ∀ e, (s'.slot e).dead = (s.slot e).dead
  refs : ∀ e, (s.slot e).refs = 0 → e < s.next ∨ (s'.slot e).refs = 0
  files : s'.files = s.files
  next : s'.next = s.next
  others : ∀ u, u ≠ t → s'.thread u = s.thread u
  mu : (s'.thread t).pc.locks = true → s'.storeMu = some t
  muOthers : ∀ u, u ≠ t → s.storeMu = some u → s'.storeMu = some u
  fits : (s'.thread t).Fits fun e => (s.slot e).dead
  late : s'.late = false

theorem TableOk.of_frame (h : TableOk s) (hsound : ∀ e, (s'.life e).Sound) (hf : Frame t s s') :
    TableOk s' where
  sound := hsound
  mapped rel e hmap := by
    rw [hf.files] at hmap
    rw [hf.rel, hf.dead, hf.next]
    exact h.mapped rel e hmap
  listed e he hlive := by
    rw [hf.next] at he
    rw [hf.dead] at hlive
    rw [hf.files, hf.rel]
    exact h.listed e he hlive
  unborn e he := by
    rw [hf.next] at he
    obtain ⟨hrefs, hlive⟩ := h.unborn e he
    rw [hf.dead]
    exact ⟨(hf.refs e hrefs).resolve_left (Nat.not_lt.mpr he), hlive⟩
  mu u hlocks := by
    by_cases hu : u = t
    · subst hu
      exact hf.mu hlocks
    · rw [hf.others u hu] at hlocks
      exact hf.muOthers u hu (h.mu u hlocks)
  fits u := by
    rw [funext hf.dead]
    by_cases hu : u = t
    · subst hu
      exact hf.fits
    · rw [hf.others u hu]
      exact h.fits u
  late := hf.late

/-- The map, the threads and the references are as they were. -/
structure KeepsTable (s s' : World τ ρ) : Prop where
  rel : ∀ e, (s'.slot e).rel = (s.slot e).rel
  refs : ∀ e, (s'.slot e).refs = (s.slot e).refs
  dead : ∀ e, (s'.slot e).dead = (s.slot e).dead
  thread : s'.thread = s.thread
  files : s'.files = s.files
  next : s'.next = s.next

omit [Fintype τ] [DecidableEq τ] in
theorem Keeps.table (h : Keeps s s') : KeepsTable s s' :=
  ⟨fun e => (h.slot e).rel, fun e => (h.slot e).refs, fun e => (h.slot e).dead, h.thread, h.files,
    h.next⟩

omit [Fintype τ] [DecidableEq τ] in
theorem keepsTable_setSlot {s₁ : World τ ρ} (hkeeps : Keeps s s₁) {c : Slot ρ}
    (hrel : c.rel = (s.slot e).rel) (hrefs : c.refs = (s.slot e).refs)
    (hdead : c.dead = (s.slot e).dead) : KeepsTable s (s₁.setSlot e c) := by
  refine ⟨fun e' => ?_, fun e' => ?_, fun e' => ?_, hkeeps.thread, hkeeps.files, hkeeps.next⟩ <;>
    by_cases he : e' = e
  · rw [he, slot_setSlot_self, hrel]
  · rw [slot_setSlot_of_ne _ _ he, (hkeeps.slot e').rel]
  · rw [he, slot_setSlot_self, hrefs]
  · rw [slot_setSlot_of_ne _ _ he, (hkeeps.slot e').refs]
  · rw [he, slot_setSlot_self, hdead]
  · rw [slot_setSlot_of_ne _ _ he, (hkeeps.slot e').dead]

omit [Fintype τ] in
theorem frame_of_keeps {s₁ : World τ ρ} {th : Thread ρ} (hkeeps : KeepsTable s s₁)
    (hmu : th.pc.locks = true → s₁.storeMu = some t)
    (hothers : ∀ u, u ≠ t → s.storeMu = some u → s₁.storeMu = some u)
    (hfits : th.Fits fun e => (s.slot e).dead)
    (hlate : s₁.late = false) : Frame t s (s₁.moveTo t th) where
  rel := hkeeps.rel
  dead := hkeeps.dead
  refs e h := Or.inr ((hkeeps.refs e).trans h)
  files := hkeeps.files
  next := hkeeps.next
  others u hu := by
    show Function.update s₁.thread t th u = _
    rw [Function.update_of_ne hu, hkeeps.thread]
  mu hlocks := hmu (by rwa [show (s₁.moveTo t th).thread t = th from Function.update_self ..] at hlocks)
  muOthers := hothers
  fits := by
    rw [show (s₁.moveTo t th).thread t = th from Function.update_self ..]
    exact hfits
  late := hlate

omit [DecidableEq τ] in
theorem frame_unmoved (h : TableOk s) (hkeeps : Keeps s s') (hmu : s'.storeMu = s.storeMu)
    (hlate : s'.late = false) : Frame t s s' where
  rel e := (hkeeps.slot e).rel
  dead e := (hkeeps.slot e).dead
  refs e h := Or.inr ((hkeeps.slot e).refs.trans h)
  files := hkeeps.files
  next := hkeeps.next
  others u _ := by rw [hkeeps.thread]
  mu hlocks := by
    rw [hkeeps.thread] at hlocks
    exact hmu.trans (h.mu t hlocks)
  muOthers u _ hu := hmu.trans hu
  fits := by
    rw [hkeeps.thread]
    exact h.fits t
  late := hlate

/-- The count of an entry moves, and with it a reference of `t`. -/
theorem frame_setRefs (h : TableOk s) {r : Nat} {th : Thread ρ} (hborn : e < s.next)
    (hthere : (s.slot e).deinits = 0) (hmu : th.pc.locks = true → s.storeMu = some t)
    (hfits : th.Fits fun e => (s.slot e).dead) :
    Frame t s (((s.touch e).setSlot e { s.slot e with refs := r }).moveTo t th) := by
  set s' := ((s.touch e).setSlot e { s.slot e with refs := r }).moveTo t th with hs'
  have hself : s'.slot e = { s.slot e with refs := r } := slot_setSlot_self ..
  have hother : ∀ e', e' ≠ e → s'.slot e' = s.slot e' := fun e' he =>
    slot_setSlot_of_ne (s.touch e) _ he
  have hthread : s'.thread t = th := Function.update_self ..
  refine ⟨fun e' => ?_, fun e' => ?_, fun e' hrefs => ?_, rfl, rfl,
    fun u hu => Function.update_of_ne hu .., fun hlocks => hmu (by rwa [hthread] at hlocks),
    fun _ _ hu => hu, by rw [hthread]; exact hfits, ?_⟩
  · by_cases he : e' = e
    · rw [he, hself]
    · rw [hother e' he]
  · by_cases he : e' = e
    · rw [he, hself]
    · rw [hother e' he]
  · by_cases he : e' = e
    · exact Or.inl (he ▸ hborn)
    · exact Or.inr (by rw [hother e' he]; exact hrefs)
  · show (s.late || decide (0 < (s.slot e).deinits)) = false
    rw [h.late, hthere]
    rfl

omit [DecidableEq τ] in
theorem late_touch (h : TableOk s) (hthere : (s.slot e).deinits = 0) : (s.touch e).late = false := by
  show (s.late || decide (0 < (s.slot e).deinits)) = false
  rw [h.late, hthere]
  rfl

omit [Fintype τ] [DecidableEq τ] in
theorem late_closeFd (s : World τ ρ) (e : Nat) : (s.closeFd e).late = s.late := by
  unfold closeFd
  split <;> rfl

omit [Fintype τ] [DecidableEq τ] in
theorem storeMu_closeFd (s : World τ ρ) (e : Nat) : (s.closeFd e).storeMu = s.storeMu := by
  unfold closeFd
  split <;> rfl

/-- A step of `releaseFile`'s tail leaves the table. -/
theorem frame_of_tail (h : TableOk s) (htail : Tail t s (s.thread t) s') : Frame t s s' := by
  have hthere : ∀ {e : Nat} {d : Drop}, (s.thread t).drop = some (e, d) →
      (s.slot e).deinits = 0 := by
    intro e d hdrop
    have hat := at_self hdrop d
    rw [if_pos rfl] at hat
    have h₁ := le_leaving s t e
    have h₂ := le_doomed s t e
    have h₃ := le_won s t e
    refine (h.sound e).ends_of_leaving ?_
    cases d <;> omega
  have hmove : ∀ {s₁ : World τ ρ} {o : Option (Nat × Drop)}, KeepsTable s s₁ →
      s₁.storeMu = s.storeMu → s₁.late = false →
        Frame t s (s₁.moveTo t { s.thread t with drop := o }) := fun hkeeps hmu hlate =>
    frame_of_keeps hkeeps (fun hlocks => hmu.trans (h.mu t hlocks))
      (fun u _ hu => hmu.trans hu) ⟨(h.fits t).pinned, (h.fits t).unpinned, (h.fits t).user⟩ hlate
  cases htail with
  | spare hdrop _ => exact hmove (keeps_touch s _).table rfl (late_touch h (hthere hdrop))
  | sawDead hdrop _ => exact hmove (keeps_touch s _).table rfl (late_touch h (hthere hdrop))
  | lost hdrop _ => exact hmove (keeps_touch s _).table rfl (late_touch h (hthere hdrop))
  | @won e₀ hdrop hfirst =>
    exact hmove (keepsTable_setSlot (keeps_touch s e₀) rfl rfl rfl) rfl
      (late_touch h (hthere hdrop))
  | @deinit e₀ hdrop =>
    have hclose := keeps_closeFd (s.touch e₀) e₀
    have hkeeps := (keeps_touch s e₀).trans hclose
    refine hmove (keepsTable_setSlot hkeeps (hclose.slot e₀).rel (hclose.slot e₀).refs
      (hclose.slot e₀).dead) (storeMu_closeFd ..) ?_
    exact (late_closeFd ..).trans (late_touch h (hthere hdrop))

omit [Fintype τ] [DecidableEq τ] in
theorem dead_forget [DecidableEq ρ] (s : World τ ρ) (e : Nat) :
    (((s.stampDead e).destroyIdle e).slot e).dead = true := by
  have hslot : ((s.stampDead e).slot e).dead = true := by
    exact congrArg Slot.dead (slot_setSlot_self (s.touch e) e _)
  unfold destroyIdle
  split_ifs
  · exact hslot
  · refine (congrArg Slot.dead (slot_setSlot_self ..)).trans ?_
    refine ((keeps_closeFd _ e).slot e).dead.trans ?_
    refine (congrArg Slot.dead (slot_setSlot_self (s.stampDead e) e _)).trans ?_
    exact hslot
  · exact hslot

omit [Fintype τ] in
theorem dead_evict [DecidableEq ρ] (s : World τ ρ) (t : τ) (e : Nat) (th : Thread ρ) :
    ((((s.stampDead e).fetchSub e).moveTo t th).slot e).dead = true := by
  refine (congrArg Slot.dead (slot_setSlot_self ((s.stampDead e).touch e) e _)).trans ?_
  exact congrArg Slot.dead (slot_setSlot_self (s.touch e) e _)

variable [DecidableEq ρ]

/-- What a stamp on `e` leaves of the table. -/
structure Stamped (t : τ) (e : Nat) (s s' : World τ ρ) : Prop where
  rel : ∀ e', (s'.slot e').rel = (s.slot e').rel
  dead : (s'.slot e).dead = true
  others : ∀ e', e' ≠ e → s'.slot e' = s.slot e'
  files : s'.files = Function.update s.files (s.slot e).rel none
  next : s'.next = s.next
  storeMu : s'.storeMu = s.storeMu
  pc : ∀ u, (s'.thread u).pc = (s.thread u).pc
  pins : ∀ u, (s'.thread u).pins = (s.thread u).pins
  held : ∀ u, (s'.thread u).held = (s.thread u).held
  late : s'.late = false

omit [DecidableEq τ] in
/-- Nobody is sampling when the stamp falls, so no sample goes stale. -/
theorem TableOk.of_stamped (h : TableOk s) (hsound : ∀ e, (s'.life e).Sound)
    (hlive : (s.slot e).dead = false) (hborn : e < s.next)
    (hcalm : ∀ u now minIdle, (s.thread u).pc ≠ .sampling now minIdle) (hf : Stamped t e s s') :
    TableOk s' where
  sound := hsound
  mapped rel e' hmap := by
    rw [hf.files] at hmap
    by_cases hrel : rel = (s.slot e).rel
    · rw [hrel, Function.update_self] at hmap
      cases hmap
    · rw [Function.update_of_ne hrel] at hmap
      obtain ⟨hrel', hlive', hborn'⟩ := h.mapped rel e' hmap
      have he : e' ≠ e := fun he => hrel (by rw [← he, hrel'])
      rw [hf.others e' he, hf.next]
      exact ⟨hrel', hlive', hborn'⟩
  listed e' he' hlive' := by
    have he : e' ≠ e := fun he => by
      rw [he, hf.dead] at hlive'
      cases hlive'
    rw [hf.next] at he'
    rw [hf.others e' he] at hlive' ⊢
    have hmap := h.listed e' he' hlive'
    have hrel : (s.slot e').rel ≠ (s.slot e).rel := fun hrel => by
      rw [hrel, h.listed e hborn hlive] at hmap
      exact he (Option.some.inj hmap).symm
    rw [hf.files, Function.update_of_ne hrel]
    exact hmap
  unborn e' he' := by
    rw [hf.next] at he'
    rw [hf.others e' (by omega)]
    exact h.unborn e' he'
  mu u hlocks := by
    rw [hf.pc] at hlocks
    exact hf.storeMu.trans (h.mu u hlocks)
  fits u := by
    refine ⟨fun now minIdle hpc => ?_, fun hpc => ?_, fun v hpc => ?_⟩
    · rw [hf.pc] at hpc
      exact absurd hpc (hcalm u now minIdle)
    · rw [hf.pc] at hpc
      rw [hf.pins]
      exact (h.fits u).unpinned hpc
    · rw [hf.pc] at hpc
      rw [hf.held]
      exact (h.fits u).user v hpc
  late := hf.late

omit [DecidableEq τ] [DecidableEq ρ] in
/-- `store.mu` is free, or held by a thread that evicts. -/
theorem TableOk.calm (h : TableOk s) (hmu : ∀ u, s.storeMu = some u → (s.thread u).pc = .evicting)
    (u : τ) (now : Int) (minIdle : Option Int) : (s.thread u).pc ≠ .sampling now minIdle := by
  intro hpc
  have hown := hmu u (h.mu u (by rw [hpc]; rfl))
  exact absurd (hpc.symm.trans hown) (by simp)

omit [DecidableEq τ] in
theorem stamped_forget (h : TableOk s) (t : τ) (hthere : (s.slot e).deinits = 0) :
    Stamped t e s ((s.stampDead e).destroyIdle e) := by
  have hlate : (s.stampDead e).late = false := late_touch h hthere
  have hslot : (s.stampDead e).slot e = { s.slot e with dead := true, marked := false } :=
    slot_setSlot_self ..
  have hother : ∀ e', e' ≠ e → (s.stampDead e).slot e' = s.slot e' := fun e' he =>
    slot_setSlot_of_ne (s.touch e) _ he
  have hrel : ∀ e', ((s.stampDead e).slot e').rel = (s.slot e').rel := by
    intro e'
    by_cases he : e' = e
    · rw [he, hslot]
    · rw [hother e' he]
  have hdead := dead_forget s e
  unfold destroyIdle at hdead ⊢
  split_ifs at hdead ⊢ with hrefs hfreed
  · exact ⟨hrel, hdead, hother, rfl, rfl, rfl, fun _ => rfl, fun _ => rfl, fun _ => rfl, hlate⟩
  · set s₁ := (s.stampDead e).setSlot e { (s.stampDead e).slot e with freed := true } with hs₁
    have hclose := keeps_closeFd (s₁.touch e) e
    have hthread : (s₁.deinit e).thread = s.thread := hclose.thread
    have hother₁ : ∀ e', e' ≠ e → (s₁.deinit e).slot e' = s.slot e' := fun e' he =>
      (slot_setSlot_of_ne _ _ he).trans ((slot_closeFd_of_ne _ he).trans
        ((slot_setSlot_of_ne _ _ he).trans (hother e' he)))
    refine ⟨fun e' => ?_, hdead, hother₁, hclose.files, hclose.next, storeMu_closeFd ..,
      fun u => by rw [hthread], fun u => by rw [hthread], fun u => by rw [hthread], ?_⟩
    · by_cases he : e' = e
      · rw [he]
        refine (congrArg Slot.rel (slot_setSlot_self ..)).trans ((hclose.slot e).rel.trans ?_)
        exact (congrArg Slot.rel (slot_setSlot_self ..)).trans (hrel e)
      · rw [hother₁ e' he]
    · refine (late_closeFd (s₁.touch e) e).trans ?_
      show ((s.stampDead e).late || decide (0 < (s₁.slot e).deinits)) = false
      have hends : (s₁.slot e).deinits = 0 := by
        rw [hs₁, slot_setSlot_self, hslot]
        exact hthere
      rw [hlate, hends]
      rfl
  · exact ⟨hrel, hdead, hother, rfl, rfl, rfl, fun _ => rfl, fun _ => rfl, fun _ => rfl, hlate⟩

theorem stamped_evict (h : TableOk s) {th : Thread ρ} (hthere : (s.slot e).deinits = 0)
    (hpc : th.pc = (s.thread t).pc) (hpins : th.pins = (s.thread t).pins)
    (hheld : th.held = (s.thread t).held) :
    Stamped t e s (((s.stampDead e).fetchSub e).moveTo t th) := by
  have hslot : (s.stampDead e).slot e = { s.slot e with dead := true, marked := false } :=
    slot_setSlot_self ..
  have hother : ∀ e', e' ≠ e →
      (((s.stampDead e).fetchSub e).moveTo t th).slot e' = s.slot e' := fun e' he =>
    (slot_setSlot_of_ne _ _ he).trans (slot_setSlot_of_ne (s.touch e) _ he)
  have hthread : ∀ {α : Type} (f : Thread ρ → α), f th = f (s.thread t) → ∀ u,
      f ((((s.stampDead e).fetchSub e).moveTo t th).thread u) = f (s.thread u) := by
    intro α f hf u
    show f (Function.update s.thread t th u) = _
    by_cases hu : u = t
    · rw [hu, Function.update_self, hf]
    · rw [Function.update_of_ne hu]
  refine ⟨fun e' => ?_, dead_evict s t e th, hother, rfl, rfl, rfl, hthread _ hpc, hthread _ hpins,
    hthread _ hheld, ?_⟩
  · by_cases he : e' = e
    · rw [he]
      refine (congrArg Slot.rel (slot_setSlot_self ((s.stampDead e).touch e) e _)).trans ?_
      show ((s.stampDead e).slot e).rel = _
      rw [hslot]
    · rw [hother e' he]
  · show ((s.stampDead e).late || decide (0 < ((s.stampDead e).slot e).deinits)) = false
    rw [hslot, show (s.stampDead e).late = false from late_touch h hthere]
    dsimp only
    rw [hthere]
    rfl

/-- A builder's entry takes the place of none. -/
theorem TableOk.getPut (h : TableOk s) {rel : ρ} {now : Int} {marked : Bool} {th : Thread ρ}
    (hmap : s.files rel = none) (hlocks : th.pc.locks = false)
    (hfits : th.Fits fun e => (s.slot e).dead)
    (hsound : ∀ e, (({ s.setSlot s.next { rel := rel, refs := 1, lastAccess := now, marked := marked }
      with files := Function.update s.files rel (some s.next), next := s.next + 1 }.moveTo t
        th).life e).Sound) :
    TableOk ({ s.setSlot s.next { rel := rel, refs := 1, lastAccess := now, marked := marked }
      with files := Function.update s.files rel (some s.next), next := s.next + 1 }.moveTo t th) := by
  set c : Slot ρ := { rel := rel, refs := 1, lastAccess := now, marked := marked } with hc
  set s' := { s.setSlot s.next c with
    files := Function.update s.files rel (some s.next), next := s.next + 1 }.moveTo t th with hs'
  have hself : s'.slot s.next = c := slot_setSlot_self ..
  have hother : ∀ e, e ≠ s.next → s'.slot e = s.slot e := fun e he => slot_setSlot_of_ne _ _ he
  have hdead : ∀ e, (s'.slot e).dead = (s.slot e).dead := by
    intro e
    by_cases he : e = s.next
    · rw [he, hself, (h.unborn s.next le_rfl).2]
    · rw [hother e he]
  refine ⟨hsound, fun rel' e hmap' => ?_, fun e he hlive => ?_, fun e he => ?_, fun u hlocks' => ?_,
    fun u => ?_, h.late⟩
  · have hmap'' : Function.update s.files rel (some s.next) rel' = some e := hmap'
    by_cases hrel : rel' = rel
    · rw [hrel, Function.update_self] at hmap''
      cases hmap''
      rw [hself]
      exact ⟨hrel.symm, rfl, Nat.lt_succ_self _⟩
    · rw [Function.update_of_ne hrel] at hmap''
      obtain ⟨hrel', hlive, hborn⟩ := h.mapped rel' e hmap''
      rw [hother e (Nat.ne_of_lt hborn)]
      exact ⟨hrel', hlive, Nat.lt_succ_of_lt hborn⟩
  · show Function.update s.files rel (some s.next) (s'.slot e).rel = some e
    rcases Nat.lt_succ_iff_lt_or_eq.mp he with hlt | heq
    · rw [hother e (Nat.ne_of_lt hlt)] at hlive ⊢
      have hmap' := h.listed e hlt hlive
      rw [Function.update_of_ne fun hrel => ?_]
      · exact hmap'
      · rw [hrel, hmap] at hmap'
        cases hmap'
    · rw [heq, hself, Function.update_self]
  · have hge : s.next + 1 ≤ e := he
    rw [hother e (by omega)]
    exact h.unborn e (by omega)
  · show s.storeMu = some u
    have hthread : s'.thread u = Function.update s.thread t th u := rfl
    rw [hthread] at hlocks'
    by_cases hu : u = t
    · rw [hu, Function.update_self, hlocks] at hlocks'
      cases hlocks'
    · rw [Function.update_of_ne hu] at hlocks'
      exact h.mu u hlocks'
  · rw [funext hdead]
    show (Function.update s.thread t th u).Fits _
    by_cases hu : u = t
    · rw [hu, Function.update_self]
      exact hfits
    · rw [Function.update_of_ne hu]
      exact h.fits u

/-- A call keeps the table. -/
theorem TableOk.call (h : TableOk s) (hcall : Call t s (s.thread t) s')
    (hsound : ∀ e, (s'.life e).Sound) : TableOk s' := by
  have hmu := h.mu t
  have hfits := h.fits t
  have hpins : ∀ {pc : Pc ρ}, (s.thread t).pc = pc → pc.samples = false → (s.thread t).pins = [] :=
    fun hpc hpc' => hfits.unpinned (hpc ▸ hpc')
  have hfree : ∀ {u : τ} {p : Prop}, s.storeMu = none → s.storeMu = some u → p := fun hnone hsome =>
    absurd (hnone.symm.trans hsome) (by simp)
  have hmine : ∀ {u : τ} {p : Prop}, s.storeMu = some t → u ≠ t → s.storeMu = some u → p :=
    fun hown hu hother => absurd (Option.some.inj (hother.symm.trans hown)) hu
  cases hcall with
  | @hit rel e₀ hpc hfree hmap =>
    obtain ⟨-, hlive, hborn⟩ := h.mapped rel e₀ hmap
    refine h.of_frame (t := t) hsound ?_
    refine frame_setRefs h hborn (h.there_of_live hlive) nofun (.rest ?_ nofun)
    rcases hpc with hpc | ⟨epoch0, hpc⟩ <;> exact hpins hpc rfl
  | getMiss rel hpc =>
    refine h.of_frame (t := t) hsound ?_
    exact frame_of_keeps (Keeps.refl s).table nofun (fun _ _ hu => hu)
      (.rest (hpins hpc rfl) nofun) h.late
  | getDiscard hpc =>
    refine h.of_frame (t := t) hsound ?_
    exact frame_of_keeps (Keeps.refl s).table nofun (fun _ _ hu => hu)
      (.rest (hpins hpc rfl) nofun) h.late
  | getPut now marked hpc hfree' hmap hepoch =>
    exact h.getPut hmap rfl (.rest (hpins hpc rfl) nofun) hsound
  | @fileSection e₀ now marked hpc hheld =>
    have halike : (s.slot e₀).Alike { s.slot e₀ with lastAccess := now, marked := marked } :=
      ⟨rfl, rfl, rfl, rfl, rfl⟩
    refine h.of_frame (t := t) hsound ?_
    exact frame_unmoved h ((keeps_touch s e₀).trans (keeps_setSlot _ halike)) rfl
      (late_touch h (h.there (Or.inl hheld)))
  | releaseFile hpc hheld =>
    refine h.of_frame (t := t) hsound ?_
    refine frame_setRefs h (h.born (Or.inl hheld)) (h.there (Or.inl hheld)) hmu
      (.rest (hpins hpc rfl) fun u hpc' => ?_)
    exact absurd (hpc.symm.trans hpc') (by simp)
  | @forget rel e₀ hpc hfree' hmap =>
    obtain ⟨-, hlive, hborn⟩ := h.mapped rel e₀ hmap
    exact h.of_stamped (t := t) hsound hlive hborn (h.calm fun u hu => hfree hfree' hu)
      (stamped_forget h t (h.there_of_live hlive))
  | forgetMiss =>
    refine h.of_frame (t := t) hsound ?_
    exact frame_unmoved h ⟨fun _ => Slot.Alike.refl _, rfl, rfl, rfl⟩ rfl h.late
  | sample now m hpc hnone =>
    refine h.of_frame (t := t) hsound ?_
    exact frame_of_keeps ⟨fun _ => rfl, fun _ => rfl, fun _ => rfl, rfl, rfl, rfl⟩ (fun _ => rfl)
      (fun _ _ hu => hfree hnone hu) (.rest (hpins hpc rfl) nofun) h.late
  | @reapPin rel e₀ now minIdle hpc hmap hrefs hidle =>
    obtain ⟨-, hlive, hborn⟩ := h.mapped rel e₀ hmap
    refine h.of_frame (t := t) hsound ?_
    refine frame_setRefs h hborn (h.there_of_live hlive) hmu ⟨fun now m hpc' e hpin => ?_, ?_, ?_⟩
    · rcases List.mem_cons.mp hpin with rfl | hold
      · exact hlive
      · exact hfits.pinned now m hpc' e hold
    · exact fun hpc' => absurd (hpc' : (s.thread t).pc.samples = false) (by rw [hpc]; simp [Pc.samples])
    · exact hfits.user
  | @cullPin rel e₀ now hpc hmap hidle =>
    obtain ⟨-, hlive, hborn⟩ := h.mapped rel e₀ hmap
    refine h.of_frame (t := t) hsound ?_
    refine frame_setRefs h hborn (h.there_of_live hlive) hmu ⟨fun now m hpc' e hpin => ?_, ?_, ?_⟩
    · rcases List.mem_cons.mp hpin with rfl | hold
      · exact hlive
      · exact hfits.pinned now m hpc' e hold
    · exact fun hpc' => absurd (hpc' : (s.thread t).pc.samples = false) (by rw [hpc]; simp [Pc.samples])
    · exact hfits.user
  | @unpin e₀ now minIdle hpc hpin =>
    refine h.of_frame (t := t) hsound ?_
    refine frame_setRefs h (h.born (Or.inr (Or.inl hpin))) (h.there (Or.inr (Or.inl hpin))) hmu
      ⟨fun now m hpc' e hpin' => ?_, ?_, ?_⟩
    · exact hfits.pinned now m hpc' e (List.mem_of_mem_erase hpin')
    · exact fun hpc' => absurd (hpc' : (s.thread t).pc.samples = false) (by rw [hpc]; simp [Pc.samples])
    · exact hfits.user
  | reapSampled hpc =>
    refine h.of_frame (t := t) hsound ?_
    exact frame_of_keeps ⟨fun _ => rfl, fun _ => rfl, fun _ => rfl, rfl, rfl, rfl⟩ nofun
      (fun u hu => hmine (hmu (by rw [hpc]; rfl)) hu) ⟨nofun, nofun, nofun⟩ h.late
  | cullSampled hpc =>
    refine h.of_frame (t := t) hsound ?_
    exact frame_of_keeps ⟨fun _ => rfl, fun _ => rfl, fun _ => rfl, rfl, rfl, rfl⟩ nofun
      (fun u hu => hmine (hmu (by rw [hpc]; rfl)) hu) ⟨nofun, nofun, nofun⟩ h.late
  | @reapClose e₀ rest now minIdle hpc hpins' =>
    have hthere := h.there (t := t) (e := e₀) (Or.inr (Or.inl (by rw [hpins']; simp)))
    have hkeeps : Keeps s (if (s.slot e₀).quiet now minIdle then (s.touch e₀).closeFd e₀
        else s.touch e₀) := by
      split_ifs
      · exact (keeps_touch s _).trans (keeps_closeFd _ _)
      · exact keeps_touch s _
    refine h.of_frame (t := t) hsound ?_
    refine frame_of_keeps hkeeps.table nofun (fun u _ hu => ?_) ⟨nofun, nofun, nofun⟩ ?_
    · split_ifs
      · exact (storeMu_closeFd ..).trans hu
      · exact hu
    · split_ifs
      · exact (late_closeFd ..).trans (late_touch h hthere)
      · exact late_touch h hthere
  | @reapKeep e₀ rest now minIdle hpc hpins' =>
    have hthere := h.there (t := t) (e := e₀) (Or.inr (Or.inl (by rw [hpins']; simp)))
    refine h.of_frame (t := t) hsound ?_
    exact frame_of_keeps (keeps_touch s e₀).table nofun (fun _ _ hu => hu) ⟨nofun, nofun, nofun⟩
      (late_touch h hthere)
  | @reapRelease e₀ rest now minIdle evict hpc hpins' =>
    have href : e₀ ∈ (s.thread t).held ∨ e₀ ∈ (s.thread t).pins ∨ e₀ ∈ (s.thread t).evict :=
      Or.inr (Or.inl (by rw [hpins']; simp))
    refine h.of_frame (t := t) hsound ?_
    exact frame_setRefs h (h.born href) (h.there href) nofun ⟨nofun, nofun, nofun⟩
  | reapEnd hpc hpins' =>
    refine h.of_frame (t := t) hsound ?_
    exact frame_of_keeps (Keeps.refl s).table nofun (fun _ _ hu => hu) (.rest hpins' nofun) h.late
  | reapLock hpc hpins' hnone =>
    refine h.of_frame (t := t) hsound ?_
    exact frame_of_keeps ⟨fun _ => rfl, fun _ => rfl, fun _ => rfl, rfl, rfl, rfl⟩ (fun _ => rfl)
      (fun _ _ hu => hfree hnone hu) (.rest hpins' nofun) h.late
  | @evictSkip e₀ rest hpc hevict =>
    have href : e₀ ∈ (s.thread t).held ∨ e₀ ∈ (s.thread t).pins ∨ e₀ ∈ (s.thread t).evict :=
      Or.inr (Or.inr (by rw [hevict]; simp))
    refine h.of_frame (t := t) hsound ?_
    refine frame_setRefs h (h.born href) (h.there href) hmu (.rest (hpins hpc rfl) fun u hpc' => ?_)
    exact absurd (hpc.symm.trans hpc') (by simp)
  | @evictEntry e₀ rest hpc hevict hlive hrefs hfilling hmarked hmap =>
    have href : e₀ ∈ (s.thread t).held ∨ e₀ ∈ (s.thread t).pins ∨ e₀ ∈ (s.thread t).evict :=
      Or.inr (Or.inr (by rw [hevict]; simp))
    refine h.of_stamped hsound hlive (h.born href) (h.calm fun u hu => ?_)
      (stamped_evict h (h.there href) (by rfl) (by rfl) (by rfl))
    have hown := hmu (by rw [hpc]; rfl)
    rw [← Option.some.inj (hown.symm.trans hu)]
    exact hpc
  | evictEnd hpc hevict =>
    refine h.of_frame (t := t) hsound ?_
    exact frame_of_keeps ⟨fun _ => rfl, fun _ => rfl, fun _ => rfl, rfl, rfl, rfl⟩ nofun
      (fun u hu => hmine (hmu (by rw [hpc]; rfl)) hu) (.rest (hpins hpc rfl) nofun) h.late
  | @cullRelease e₀ rest hpc hpins' =>
    have href : e₀ ∈ (s.thread t).held ∨ e₀ ∈ (s.thread t).pins ∨ e₀ ∈ (s.thread t).evict :=
      Or.inr (Or.inl (by rw [hpins']; simp))
    refine h.of_frame (t := t) hsound ?_
    refine frame_setRefs h (h.born href) (h.there href) hmu ⟨fun now m hpc' => ?_, ?_, fun u hpc' => ?_⟩
    · exact absurd (hpc.symm.trans hpc') (by simp)
    · exact fun hpc' => absurd (hpc' : (s.thread t).pc.samples = false) (by rw [hpc]; simp [Pc.samples])
    · exact absurd (hpc.symm.trans hpc') (by simp)
  | cullEnd hpc hpins' =>
    refine h.of_frame (t := t) hsound ?_
    exact frame_of_keeps (Keeps.refl s).table nofun (fun _ _ hu => hu) (.rest hpins' nofun) h.late
  | @punchPiece e₀ n hheld _ _ =>
    have href : e₀ ∈ (s.thread t).held ∨ e₀ ∈ (s.thread t).pins ∨ e₀ ∈ (s.thread t).evict :=
      hheld.elim (fun h => Or.inl h.2) fun h => Or.inr (Or.inl h.2)
    refine h.of_frame (t := t) hsound ?_
    exact frame_unmoved h ⟨fun _ => Slot.Alike.refl _, rfl, rfl, rfl⟩ rfl
      (late_touch h (h.there href))
  | @punchOpen e₀ n hheld _ _ _ =>
    have href : e₀ ∈ (s.thread t).held ∨ e₀ ∈ (s.thread t).pins ∨ e₀ ∈ (s.thread t).evict :=
      hheld.elim (fun h => Or.inl h.2) fun h => Or.inr (Or.inl h.2)
    have hopen := (keeps_touch s e₀).trans (keeps_openFd (s.touch e₀) e₀ n)
    refine h.of_frame (t := t) hsound ?_
    exact frame_unmoved h ⟨hopen.slot, hopen.thread, hopen.files, hopen.next⟩ rfl
      (late_touch h (h.there href))
  | @truncateCacheFd e₀ n hpc hheld _ _ =>
    refine h.of_frame (t := t) hsound ?_
    exact frame_unmoved h ⟨fun _ => Slot.Alike.refl _, rfl, rfl, rfl⟩ rfl
      (late_touch h (h.there (Or.inl hheld)))
  | @enter e₀ guard hpc hheld =>
    refine h.of_frame (t := t) hsound ?_
    refine frame_of_keeps ((keeps_touch s e₀).trans (keeps_raise _ _ guard)).table nofun
      (fun u _ hu => ?_) (.rest (hpins hpc rfl) fun u hu => ?_) ?_
    · cases guard <;> exact hu
    · cases hu
      exact hheld
    · have hlate := late_touch h (h.there (Or.inl hheld))
      cases guard <;> exact hlate
  | @openCache e₀ n guard hpc hfd =>
    have hheld := hfits.user _ hpc
    refine h.of_frame (t := t) hsound ?_
    refine frame_of_keeps (keeps_touch s e₀).table nofun (fun u _ hu => hu)
      (.rest (hpins hpc rfl) fun u hu => ?_) (late_touch h (h.there (Or.inl hheld)))
    cases hu
    exact hheld
  | @openNew e₀ n guard hpc hfd hnew =>
    have hheld := hfits.user _ hpc
    refine h.of_frame (t := t) hsound ?_
    refine frame_of_keeps ((keeps_touch s e₀).trans (keeps_openFd _ _ _)).table nofun
      (fun u _ hu => hu) (.rest (hpins hpc rfl) fun u hu => ?_)
      (late_touch h (h.there (Or.inl hheld)))
    cases hu
    exact hheld
  | io =>
    refine h.of_frame (t := t) hsound ?_
    exact frame_unmoved h ⟨fun _ => Slot.Alike.refl _, rfl, rfl, rfl⟩ rfl h.late
  | @exit e₀ guard fd hpc =>
    have hheld := hfits.user _ hpc
    refine h.of_frame (t := t) hsound ?_
    refine frame_of_keeps ((keeps_touch s e₀).trans (keeps_lower _ _ guard)).table nofun
      (fun u _ hu => ?_) (.rest (hpins hpc rfl) nofun) ?_
    · cases guard <;> exact hu
    · have hlate := late_touch h (h.there (Or.inl hheld))
      cases guard <;> exact hlate

/-- **A step keeps the table.** -/
theorem TableOk.step (h : TableOk s) (hstep : Step s s') (hclear : StampsClear s s') :
    TableOk s' := by
  obtain ⟨t, hcore⟩ := hstep
  have hsound : ∀ e, (s'.life e).Sound := by
    intro e
    rcases hands_of_core h hcore hclear e with heq | hlife
    · rw [heq]
      exact h.sound e
    · exact (h.sound e).step hlife
  rcases hcore with ⟨-, hcall⟩ | htail
  · exact h.call hcall hsound
  · exact h.of_frame hsound (frame_of_tail h htail)

/-! ## Runs -/

/-- An empty table that nobody uses yet. -/
structure Start (s : World τ ρ) : Prop where
  files : ∀ rel, s.files rel = none
  slot : ∀ e, ∃ rel, s.slot e = { rel := rel }
  next : s.next = 0
  thread : ∀ u, s.thread u = {}
  desc : ∀ n, s.desc n = none
  storeMu : s.storeMu = none
  late : s.late = false
  uses : s.uses = []

/-- An entry is destroyed at most once, not while a thread has a reference to it, and not before
another access to it. A dead entry without references has exactly one thread that destroys it or
did. -/
structure Safe (s : World τ ρ) : Prop where
  once : ∀ e, (s.slot e).deinits ≤ 1
  unheld : ∀ e, 0 < (s.slot e).deinits → ∀ u,
    e ∉ (s.thread u).held ∧ e ∉ (s.thread u).pins ∧ e ∉ (s.thread u).evict
  late : s.late = false
  heir : ∀ e, (s.slot e).dead = true → (s.slot e).refs = 0 →
    total (fun th => if th.drop.map Prod.fst = some e then 1 else 0) s.thread +
      (s.slot e).deinits = 1

omit [DecidableEq τ] [DecidableEq ρ] in
theorem tableOk_of_start (h : Start s) : TableOk s := by
  have hzero : ∀ (f : Thread ρ → Nat), f {} = 0 → total f s.thread = 0 := fun f hf =>
    Finset.sum_eq_zero fun u _ => by rw [h.thread u, hf]
  refine ⟨fun e => ?_, fun rel e hmap => ?_, fun e he => ?_, fun e _ => ?_, fun u hlocks => ?_,
    fun u => ?_, h.late⟩
  · obtain ⟨rel, hslot⟩ := h.slot e
    have hat : ∀ d, total (fun th : Thread ρ => th.at d e) s.thread = 0 := fun d =>
      hzero (fun th => th.at d e) (at_of_none rfl d)
    refine .of_live (congrArg Slot.dead hslot) ?_ ⟨hat .sawDead, hat .won,
      congrArg Slot.deinits hslot, congrArg Slot.freed hslot⟩
    exact (congrArg Slot.refs hslot).trans (hzero (fun th => th.refsOf e) rfl).symm
  · exact absurd ((h.files rel).symm.trans hmap) (by simp)
  · exact absurd he (by rw [h.next]; exact Nat.not_lt_zero e)
  · obtain ⟨rel, hslot⟩ := h.slot e
    exact ⟨congrArg Slot.refs hslot, congrArg Slot.dead hslot⟩
  · rw [h.thread u] at hlocks
    cases hlocks
  · rw [h.thread u]
    exact .rest rfl nofun

omit [Fintype τ] [DecidableEq τ] [DecidableEq ρ] in
/-- A thread in the tail of `releaseFile` is at one of its three points. -/
theorem at_sum (th : Thread ρ) (e : Nat) :
    (if th.drop.map Prod.fst = some e then 1 else 0) =
      th.at .dropped e + th.at .sawDead e + th.at .won e := by
  unfold Thread.at
  rcases hdrop : th.drop with _ | ⟨e', d⟩
  · simp
  · by_cases he : e' = e
    · subst he
      cases d <;> simp
    · simp [he]

omit [DecidableEq τ] [DecidableEq ρ] in
theorem TableOk.safe (h : TableOk s) : Safe s := by
  refine ⟨fun e => (h.sound e).ends_le, fun e hpos u => ?_, h.late, fun e hdead hrefs => ?_⟩
  · have hthere := fun href => Nat.ne_of_gt hpos (h.there (t := u) href)
    exact ⟨fun hheld => hthere (Or.inl hheld), fun hpin => hthere (Or.inr (Or.inl hpin)),
      fun hevict => hthere (Or.inr (Or.inr hevict))⟩
  · have hone := ((h.sound e).heir hdead hrefs).1
    unfold Life.heirs at hone
    have hsum : total (fun th : Thread ρ => if th.drop.map Prod.fst = some e then 1 else 0) s.thread =
        (s.life e).leaving + (s.life e).doomed + (s.life e).won := by
      unfold total life total
      rw [← Finset.sum_add_distrib, ← Finset.sum_add_distrib]
      exact Finset.sum_congr rfl fun u _ => at_sum (s.thread u) e
    have hends : (s.life e).ends = (s.slot e).deinits := rfl
    omega

/-- **Entries are destroyed once, by one thread, and never used again**, in every run whose stamps
find no thread between its decrement to zero and its load of `dead`. -/
theorem safe_of_run (hstart : Start s) (hrun : Run Step StampsClear s s') : Safe s' :=
  (hrun.invariant (fun _ _ h hstep hclear => h.step hstep hclear) (tableOk_of_start hstart)).safe

omit [Fintype τ] in
theorem run_core {Cond : World τ ρ → World τ ρ → Prop} {s₀ : World τ ρ} (h : Run Step Cond s₀ s)
    (hcore : Core t s s') (hcond : Cond s s') : Run Step Cond s₀ s' := h.tail ⟨t, hcore⟩ hcond

omit [Fintype τ] [DecidableEq τ] [DecidableEq ρ] in
theorem dead_setSlot (s : World τ ρ) (e : Nat) {c : Slot ρ} (h : c.dead = (s.slot e).dead)
    (e' : Nat) : ((s.setSlot e c).slot e').dead = (s.slot e').dead := by
  by_cases he : e' = e
  · rw [he, slot_setSlot_self, h]
  · rw [slot_setSlot_of_ne _ _ he]

omit [Fintype τ] [DecidableEq ρ] in
/-- The tail of `releaseFile` stamps nothing. -/
theorem stampsClear_of_tail (h : Tail t s (s.thread t) s') : StampsClear s s' := by
  intro e hlive hdead
  have hsame : (s'.slot e).dead = (s.slot e).dead := by
    cases h with
    | spare => rfl
    | sawDead => rfl
    | lost => rfl
    | @won e₀ => exact dead_setSlot (s.touch e₀) e₀ (by rfl) e
    | @deinit e₀ =>
      have hset := dead_setSlot ((s.touch e₀).closeFd e₀) e₀
        (c := { ((s.touch e₀).closeFd e₀).slot e₀ with
          deinits := (((s.touch e₀).closeFd e₀).slot e₀).deinits + 1 }) rfl e
      exact hset.trans ((keeps_closeFd (s.touch e₀) e₀).slot e).dead
  exact absurd (hlive.symm.trans (hsame.symm.trans hdead)) (by simp)

/-- An empty table. -/
def emptyTable (τ : Type) : World τ String where
  files := fun _ => none
  slot := fun _ => { rel := "" }
  next := 0
  thread := fun _ => {}

omit [Fintype τ] [DecidableEq τ] in
theorem start_emptyTable : Start (emptyTable τ) :=
  ⟨fun _ => rfl, fun _ => ⟨"", rfl⟩, rfl, fun _ => rfl, fun _ => rfl, rfl, rfl, rfl⟩

/-- One thread takes an entry, forgets its path and gives it back: it destroys it. -/
theorem safe_of_run_release :
    ∃ s : World Unit String, (s.slot 0).deinits = 1 ∧ Safe s := by
  have hunstamped : ∀ {s s' : World Unit String}, (s.thread ()).drop = none → StampsClear s s' :=
    fun hdrop e _ _ u hu => absurd (hdrop.symm.trans hu) (by simp)
  have r₀ : Run Step StampsClear _ _ := Run.refl (emptyTable Unit)
  have r₁ := run_core r₀ (.call rfl (.getMiss (t := ()) "m" rfl rfl rfl)) (hunstamped rfl)
  have r₂ := run_core r₁ (.call rfl (.getPut (t := ()) 0 false rfl rfl rfl rfl)) (hunstamped rfl)
  have r₃ := run_core r₂ (.call rfl (.forget (t := ()) "m" rfl rfl rfl)) (hunstamped rfl)
  have r₄ := run_core r₃ (.call rfl (.releaseFile (t := ()) (e := 0) rfl (by decide)))
    (hunstamped rfl)
  have r₅ := run_core r₄ (.tail (.sawDead (t := ()) (e := 0) rfl rfl))
    (stampsClear_of_tail (.sawDead (t := ()) (e := 0) rfl rfl))
  have r₆ := run_core r₅ (.tail (.won (t := ()) (e := 0) rfl rfl))
    (stampsClear_of_tail (.won (t := ()) (e := 0) rfl rfl))
  have r₇ := run_core r₆ (.tail (.deinit (t := ()) (e := 0) rfl))
    (stampsClear_of_tail (.deinit (t := ()) (e := 0) rfl))
  exact ⟨_, by decide, safe_of_run start_emptyTable r₇⟩

/-- A thread has taken the count to zero and has not looked at `dead` yet when another forgets the
path: the entry is destroyed under it. -/
theorem late_after_forget :
    ∃ s₀ s : World Bool String, Start s₀ ∧ Run Step Always s₀ s ∧ s.late = true := by
  have r₀ : Run Step Always _ _ := Run.refl (emptyTable Bool)
  have r₁ := run_core r₀ (.call rfl (.getMiss (t := false) "m" rfl rfl rfl)) trivial
  have r₂ := run_core r₁ (.call rfl (.getPut (t := false) 0 false rfl rfl rfl rfl)) trivial
  have r₃ := run_core r₂ (.call rfl (.releaseFile (t := false) (e := 0) rfl (by decide))) trivial
  have r₄ := run_core r₃ (.call rfl (.forget (t := true) "m" rfl rfl rfl)) trivial
  have r₅ := run_core r₄ (.tail (.sawDead (t := false) (e := 0) rfl rfl)) trivial
  exact ⟨_, _, start_emptyTable, r₅, by decide⟩

/-- Entries are not safe from a `forget` between the two steps of a `releaseFile`. -/
theorem safe_fails_after_forget :
    ¬ ∀ s₀ s : World Bool String, Start s₀ → Run Step Always s₀ s → Safe s := by
  intro h
  obtain ⟨s₀, s, hstart, hrun, hlate⟩ := late_after_forget
  exact absurd (hlate.symm.trans (h s₀ s hstart hrun).late) (by simp)

end Table

end ModelFs
