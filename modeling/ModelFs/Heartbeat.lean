import ModelFs.Install
import ModelFs.Lib.Machine
import ModelFs.StatusDoc

/-!
# Who is reported as serving

`statusJson` prints a document, writes it to `status.json.tmp` and renames that to `status.json`.
The stage has one name for all the daemons of a cache, and nothing keeps a second one from opening
it; a descriptor goes on naming its file whatever happens to the name. `liveDaemon` opens
`status.json`, reads it, asks for the process, and reads its clock twice, each at an instant of its
own.

Processes come and go, the wall clock is set at will, the host sleeps, and it reboots, after which
pids and the boot clock start again. A reboot leaves the files as they are.

* `Settled.step` — a file that has been put in place is not written to any more.
* `Staging`, `Beats` — the invariants: what is in the files, and who wrote it when.
* `status_gate` — **who is reported**, as long as no two daemons stage a document at once.
* `stage_torn` — two that do put an empty file in place.
-/

namespace ModelFs

namespace StatusDoc

open Discover (validId)
open Install (writeAt writeAt_take)

variable {τ : Type}

/-! ## The machine -/

/-- Where a daemon is in `statusJson`. -/
inductive Call where
  | idle
  /-- The clocks are read, and the document is printed. -/
  | printed (f : StatusFields)
  /-- `off` bytes of the document went to the file behind the descriptor of the stage. -/
  | writing (f : StatusFields) (ino off : Nat)
  /-- The stage is closed, and the rename is next. -/
  | staged (f : StatusFields)
  /-- The open, a write, the close or the rename failed. -/
  | unlinking (f : StatusFields)

def Call.fields : Call → Option StatusFields
  | .idle => none
  | .printed f | .writing f _ _ | .staged f | .unlinking f => some f

/-- Between the open of the stage and its rename. -/
def Call.holds : Call → Bool
  | .writing .. | .staged _ => true
  | _ => false

/-- The host, its processes, the daemons of one cache, and the two names they write to. `wrote` is
history: the document that was put in place last, and the boot it was printed in. -/
structure World (τ : Type) where
  epoch : Nat
  clock : Clock
  alive : Int → Bool
  calls : τ → Call
  /-- The file that `status.json.tmp` names. -/
  tmp : Option Nat
  /-- The file that `status.json` names. -/
  file : Option Nat
  data : Nat → List UInt8
  nextIno : Nat
  wrote : Option (Nat × StatusFields)

variable [DecidableEq τ]

def World.moveTo (s : World τ) (t : τ) (c : Call) : World τ :=
  { s with calls := Function.update s.calls t c }

/-- `open(O_CREAT | O_TRUNC)` of the stage: the file, and the world with it. -/
def World.openTmp (s : World τ) : Nat × World τ :=
  match s.tmp with
  | some ino => (ino, { s with data := Function.update s.data ino [] })
  | none => (s.nextIno, { s with
      tmp := some s.nextIno
      data := Function.update s.data s.nextIno []
      nextIno := s.nextIno + 1 })

inductive Step (s : World τ) : World τ → Prop where
  /-- The awake clock stands still while the host sleeps. -/
  | pass {asleep awake : Int} : 0 ≤ asleep → 0 ≤ awake →
      Step s { s with clock := ⟨s.clock.now + asleep + awake, s.clock.mono + awake,
        s.clock.boot + asleep + awake⟩ }
  | setTime {now : Int} : Step s { s with clock := { s.clock with now := now } }
  | spawn {pid : Int} : s.alive pid = false →
      Step s { s with alive := Function.update s.alive pid true }
  /-- A daemon goes wherever it is. -/
  | exit {pid : Int} :
      Step s { s with
        alive := Function.update s.alive pid false
        calls := fun t =>
          if (s.calls t).fields.map (fun f => f.pid.toInt) = some pid then .idle else s.calls t }
  /-- `statusJson` reads the clocks. What it prints besides is not looked at. -/
  | sample {t : τ} {f : StatusFields} (hidle : s.calls t = .idle)
      (hpid : pidAlive s.alive f.pid.toInt = true) (hid : validId f.id = true)
      (hboot : f.bootS.toInt = s.clock.boot) : Step s (s.moveTo t (.printed f))
  | openTmp {t : τ} {f : StatusFields} (hcall : s.calls t = .printed f) :
      Step s (s.openTmp.2.moveTo t (.writing f s.openTmp.1 0))
  | write {t : τ} {f : StatusFields} {ino off : Nat} (k : Nat)
      (hcall : s.calls t = .writing f ino off) (hfit : off + k ≤ (writeStatusDoc f).length) :
      Step s ({ s with
        data := Function.update s.data ino
          (writeAt (s.data ino) off (((writeStatusDoc f).drop off).take k)) }.moveTo t
            (.writing f ino (off + k)))
  | close {t : τ} {f : StatusFields} {ino : Nat}
      (hcall : s.calls t = .writing f ino (writeStatusDoc f).length) :
      Step s (s.moveTo t (.staged f))
  | rename {t : τ} {f : StatusFields} {ino : Nat} (hcall : s.calls t = .staged f)
      (htmp : s.tmp = some ino) :
      Step s ({ s with tmp := none, file := some ino, wrote := some (s.epoch, f) }.moveTo t .idle)
  /-- A call fails, the rename also because the name is gone. -/
  | fail {t : τ} {f : StatusFields} (hcall : (s.calls t).fields = some f) :
      Step s (s.moveTo t (.unlinking f))
  | unlink {t : τ} {f : StatusFields} (hcall : s.calls t = .unlinking f) :
      Step s ({ s with tmp := none }.moveTo t .idle)
  | reboot {c : Clock} :
      Step s { s with epoch := s.epoch + 1, clock := c, alive := fun _ => false,
                      calls := fun _ => .idle }

/-- No two daemons are between the open of the stage and its rename. -/
def OneStage (s : World τ) : Prop :=
  ∀ t u, (s.calls t).holds = true → (s.calls u).holds = true → t = u

/-- The condition on a step. -/
def Apart (_ s' : World τ) : Prop := OneStage s'

/-! ## A file in place -/

/-- The stage is another file, and nobody writes to this one. -/
def Settled (s : World τ) (ino : Nat) : Prop :=
  ino < s.nextIno ∧ s.tmp ≠ some ino ∧ ∀ t f off, s.calls t ≠ .writing f ino off

variable {s s' : World τ}

theorem calls_moveTo (t u : τ) (c : Call) :
    (s.moveTo t c).calls u = if u = t then c else s.calls u :=
  Function.update_apply ..

omit [DecidableEq τ] in
/-- The stage that is opened: the file it was, or a new one. -/
theorem openTmp_eq (s : World τ) : ∃ ino next,
    s.openTmp = (ino, { s with
      tmp := some ino, data := Function.update s.data ino [], nextIno := next }) ∧
      (s.tmp = some ino ∧ next = s.nextIno ∨
        s.tmp = none ∧ ino = s.nextIno ∧ next = s.nextIno + 1) := by
  unfold World.openTmp
  cases htmp : s.tmp with
  | some ino =>
    refine ⟨ino, s.nextIno, ?_, Or.inl ⟨rfl, rfl⟩⟩
    simp only [← htmp]
  | none => exact ⟨s.nextIno, s.nextIno + 1, rfl, Or.inr ⟨rfl, rfl, rfl⟩⟩

/-- The call of one daemon moves on, and does not write to the file. -/
theorem Settled.moveTo {ino : Nat} (h : Settled s ino) {t : τ} {c : Call}
    (hc : ∀ f off, c ≠ .writing f ino off) : Settled (s.moveTo t c) ino := by
  refine ⟨h.1, h.2.1, fun u f off => ?_⟩
  rw [calls_moveTo]
  split
  · exact hc f off
  · exact h.2.2 u f off

/-- **A file in place stays as it is**, whatever the daemons do. -/
theorem Settled.step {ino : Nat} (h : Settled s ino) (hstep : Step s s') :
    Settled s' ino ∧ s'.data ino = s.data ino := by
  cases hstep with
  | pass | setTime | spawn => exact ⟨h, rfl⟩
  | exit =>
    refine ⟨⟨h.1, h.2.1, fun u f off => ?_⟩, rfl⟩
    dsimp only
    split
    · nofun
    · exact h.2.2 u f off
  | reboot => exact ⟨⟨h.1, h.2.1, fun _ _ _ => nofun⟩, rfl⟩
  | sample | close | fail => exact ⟨h.moveTo fun _ _ => nofun, rfl⟩
  | @openTmp t f hcall =>
    obtain ⟨ino', next, heq, hcases⟩ := openTmp_eq s
    rw [heq]
    have hne : ino ≠ ino' := by
      rintro rfl
      rcases hcases with ⟨htmp, -⟩ | ⟨-, hnew, -⟩
      · exact h.2.1 htmp
      · exact absurd h.1 (by omega)
    have hlt : ino < next := by
      have hino := h.1
      rcases hcases with ⟨-, hnext⟩ | ⟨-, -, hnext⟩ <;> omega
    have hopen : Settled { s with
        tmp := some ino', data := Function.update s.data ino' [], nextIno := next } ino :=
      ⟨hlt, fun htmp => hne (Option.some.inj htmp).symm, h.2.2⟩
    refine ⟨hopen.moveTo fun g off hwrite => ?_, Function.update_of_ne hne _ _⟩
    cases hwrite
    exact hne rfl
  | @write t f ino' off k hcall hfit =>
    have hne : ino ≠ ino' := by
      rintro rfl
      exact h.2.2 t f off hcall
    have hwritten : Settled { s with
        data := Function.update s.data ino'
          (writeAt (s.data ino') off (((writeStatusDoc f).drop off).take k)) } ino := h
    refine ⟨hwritten.moveTo fun g off' hwrite => ?_, Function.update_of_ne hne _ _⟩
    cases hwrite
    exact hne rfl
  | @rename t f ino' hcall htmp =>
    have hmoved : Settled { s with
        tmp := none, file := some ino', wrote := some (s.epoch, f) } ino := ⟨h.1, nofun, h.2.2⟩
    exact ⟨hmoved.moveTo fun _ _ => nofun, rfl⟩
  | unlink =>
    have hgone : Settled { s with tmp := none } ino := ⟨h.1, nofun, h.2.2⟩
    exact ⟨hgone.moveTo fun _ _ => nofun, rfl⟩

/-- **A reader sees what was there when it opened the file.** -/
theorem Settled.run {ino : Nat} (h : Settled s ino) (hrun : Run Step Always s s') :
    s'.data ino = s.data ino := by
  have hinv : Settled s' ino ∧ s'.data ino = s.data ino :=
    @Run.invariant _ _ _ (fun u => Settled u ino ∧ u.data ino = s.data ino)
      (fun _ _ hi hstep _ => ⟨(hi.1.step hstep).1, (hi.1.step hstep).2.trans hi.2⟩) _ _ ⟨h, rfl⟩
      hrun
  exact hinv.2

/-! ## The stage -/

/-- The stage holds what its one writer has written, and the file in place is another. -/
structure Staging (s : World τ) : Prop where
  one : OneStage s
  tmp : ∀ ino, s.tmp = some ino → ino < s.nextIno
  file : ∀ ino, s.file = some ino → Settled s ino
  writing : ∀ t f ino off, s.calls t = .writing f ino off →
    ino < s.nextIno ∧ s.data ino = (writeStatusDoc f).take off ∧ ∀ j, s.tmp = some j → j = ino
  staged : ∀ t f ino, s.calls t = .staged f → s.tmp = some ino → s.data ino = writeStatusDoc f

/-- Who is where it was, or has nothing open. -/
def Leaves (s s' : World τ) : Prop :=
  ∀ t, s'.calls t = s.calls t ∨ (s'.calls t).holds = false

theorem leaves_moveTo {t : τ} {c : Call} (hc : c.holds = false) : Leaves s (s.moveTo t c) := by
  intro u
  rw [calls_moveTo]
  split
  · exact Or.inr hc
  · exact Or.inl rfl

omit [DecidableEq τ] in
/-- **What only takes away**: the stage may go, and calls may be over. -/
theorem Staging.narrow (h : Staging s) (hdata : s'.data = s.data) (hnext : s'.nextIno = s.nextIno)
    (htmp : ∀ ino, s'.tmp = some ino → s.tmp = some ino) (hfile : s'.file = s.file)
    (hcalls : Leaves s s') : Staging s' := by
  have hheld : ∀ t c, s'.calls t = c → c.holds = true → s.calls t = c := by
    rintro t c rfl hholds
    rcases hcalls t with hsame | hfree
    · exact hsame.symm
    · rw [hfree] at hholds
      cases hholds
  refine ⟨fun t u ht hu => ?_, fun ino hino => ?_, fun ino hino => ?_, fun t f ino off hcall => ?_,
    fun t f ino hcall hino => ?_⟩
  · refine h.one t u ?_ ?_
    · rw [hheld t _ rfl ht]
      exact ht
    · rw [hheld u _ rfl hu]
      exact hu
  · rw [hnext]
    exact h.tmp ino (htmp ino hino)
  · obtain ⟨hlt, hne, hclosed⟩ := h.file ino (hfile ▸ hino)
    exact ⟨hnext ▸ hlt, fun heq => hne (htmp ino heq),
      fun t f off hcall => hclosed t f off (hheld t _ hcall rfl)⟩
  · obtain ⟨hlt, hbytes, hstage⟩ := h.writing t f ino off (hheld t _ hcall rfl)
    exact ⟨hnext ▸ hlt, hdata ▸ hbytes, fun j hj => hstage j (htmp j hj)⟩
  · rw [hdata]
    exact h.staged t f ino (hheld t _ hcall rfl) (htmp ino hino)

omit [DecidableEq τ] in
/-- The stage is held, and so what there is to know of it is what its holder knows. -/
theorem Staging.of_holder (hone : OneStage s) {t : τ} (ht : (s.calls t).holds = true)
    (htmp : ∀ ino, s.tmp = some ino → ino < s.nextIno)
    (hfile : ∀ ino, s.file = some ino → Settled s ino)
    (hwriting : ∀ f ino off, s.calls t = .writing f ino off →
      ino < s.nextIno ∧ s.data ino = (writeStatusDoc f).take off ∧ ∀ j, s.tmp = some j → j = ino)
    (hstaged : ∀ f ino, s.calls t = .staged f → s.tmp = some ino →
      s.data ino = writeStatusDoc f) : Staging s := by
  have hsame : ∀ u c, s.calls u = c → c.holds = true → u = t := by
    rintro u c rfl hholds
    exact hone u t hholds ht
  refine ⟨hone, htmp, hfile, fun u f ino off hu => ?_, fun u f ino hu => ?_⟩
  · obtain rfl := hsame u _ hu rfl
    exact hwriting f ino off hu
  · obtain rfl := hsame u _ hu rfl
    exact hstaged f ino hu

/-- **What a step leaves of the stage**, as long as one daemon at a time holds it. -/
theorem Staging.step (h : Staging s) (hstep : Step s s') (hone : OneStage s') : Staging s' := by
  cases hstep with
  | pass | setTime | spawn =>
    exact h.narrow rfl rfl (fun _ htmp => htmp) rfl fun _ => Or.inl rfl
  | reboot => exact h.narrow rfl rfl (fun _ htmp => htmp) rfl fun _ => Or.inr rfl
  | exit =>
    refine h.narrow rfl rfl (fun _ htmp => htmp) rfl fun t => ?_
    dsimp only
    split
    · exact Or.inr rfl
    · exact Or.inl rfl
  | sample | fail => exact h.narrow rfl rfl (fun _ htmp => htmp) rfl (leaves_moveTo rfl)
  | unlink =>
    exact h.narrow rfl rfl (fun _ => nofun) rfl (leaves_moveTo rfl)
  | @openTmp t f hcall =>
    have hfile := fun ino hino => ((h.file ino hino).step (Step.openTmp hcall)).1
    obtain ⟨ino, next, heq, hcases⟩ := openTmp_eq s
    rw [heq] at hone hfile ⊢
    have hlt : ino < next := by
      rcases hcases with ⟨htmp, rfl⟩ | ⟨-, rfl, rfl⟩
      · exact h.tmp ino htmp
      · exact Nat.lt_succ_self _
    have hnow := calls_moveTo (s := { s with
      tmp := some ino, data := Function.update s.data ino [], nextIno := next }) t t
      (.writing f ino 0)
    rw [if_pos rfl] at hnow
    refine .of_holder hone (t := t) (by rw [hnow]; rfl) (fun i hi => ?_) hfile
      (fun g i off hcall' => ?_) (fun g i hcall' => ?_)
    · cases hi
      exact hlt
    · cases hnow.symm.trans hcall'
      refine ⟨hlt, Function.update_self _ _ _, fun j hj => ?_⟩
      exact (Option.some.inj hj).symm
    · cases hnow.symm.trans hcall'
  | @write t f ino off k hcall hfit =>
    obtain ⟨hlt, hbytes, hstage⟩ := h.writing t f ino off hcall
    have hfile := fun i hi => ((h.file i hi).step (Step.write k hcall hfit)).1
    have hnow := calls_moveTo (s := { s with
      data := Function.update s.data ino
        (writeAt (s.data ino) off (((writeStatusDoc f).drop off).take k)) }) t t
      (.writing f ino (off + k))
    rw [if_pos rfl] at hnow
    refine .of_holder hone (t := t) (by rw [hnow]; rfl) h.tmp hfile
      (fun g i off' hcall' => ?_) (fun g i hcall' => ?_)
    · cases hnow.symm.trans hcall'
      refine ⟨hlt, ?_, hstage⟩
      exact (Function.update_self _ _ _).trans (writeAt_take hbytes hfit)
    · cases hnow.symm.trans hcall'
  | @close t f ino hcall =>
    obtain ⟨hlt, hbytes, hstage⟩ := h.writing t f ino _ hcall
    have hfile := fun i hi => ((h.file i hi).step (Step.close hcall)).1
    have hnow := calls_moveTo (s := s) t t (.staged f)
    rw [if_pos rfl] at hnow
    refine .of_holder hone (t := t) (by rw [hnow]; rfl) h.tmp hfile
      (fun g i off' hcall' => ?_) (fun g i hcall' hi => ?_)
    · cases hnow.symm.trans hcall'
    · cases hnow.symm.trans hcall'
      obtain rfl := hstage i hi
      exact hbytes.trans (List.take_length)
  | @rename t f ino hcall htmp =>
    have hfree : ∀ u, u ≠ t → (s.calls u).holds = false := by
      intro u hut
      by_contra hu
      exact hut (h.one u t (Bool.eq_true_of_not_eq_false hu) (by rw [hcall]; rfl))
    have hnow : ∀ u, ((({ s with tmp := none, file := some ino, wrote := some (s.epoch, f) } :
        World τ).moveTo t .idle).calls u).holds = false := by
      intro u
      rw [calls_moveTo]
      split
      · rfl
      · next hut => exact hfree u hut
    refine ⟨hone, fun _ => nofun, fun i hi => ?_, fun u g i off hu => ?_, fun u g i hu => ?_⟩
    · cases hi
      refine ⟨h.tmp ino htmp, nofun, fun u g off hu => ?_⟩
      have hu' := hnow u
      rw [hu] at hu'
      cases hu'
    · have hu' := hnow u
      rw [hu] at hu'
      cases hu'
    · nofun

/-! ## The documents -/

/-- What is in the file is what was put in place last, by a daemon with an id that may be printed;
and no stamp of this boot is ahead. -/
structure Beats (s : World τ) : Prop where
  file : s.file.map s.data = s.wrote.map fun w => writeStatusDoc w.2
  calls : ∀ t f, (s.calls t).fields = some f → validId f.id = true ∧ f.bootS.toInt ≤ s.clock.boot
  valid : ∀ w ∈ s.wrote, validId w.2.id = true
  epoch : ∀ w ∈ s.wrote, w.1 ≤ s.epoch
  stamp : ∀ w ∈ s.wrote, w.1 = s.epoch → w.2.bootS.toInt ≤ s.clock.boot

omit [DecidableEq τ] in
/-- **A step of the same boot that puts nothing in place.** -/
theorem Beats.keep (h : Beats s) (hfile : s'.file = s.file)
    (hdata : ∀ ino, s.file = some ino → s'.data ino = s.data ino) (hwrote : s'.wrote = s.wrote)
    (hepoch : s'.epoch = s.epoch) (hclock : s.clock.boot ≤ s'.clock.boot)
    (hcalls : ∀ t f, (s'.calls t).fields = some f → (∃ u, (s.calls u).fields = some f) ∨
      validId f.id = true ∧ f.bootS.toInt ≤ s'.clock.boot) : Beats s' := by
  refine ⟨?_, fun t f hf => ?_, fun w hw => ?_, fun w hw => ?_, fun w hw he => ?_⟩
  · rw [hfile, hwrote, ← h.file]
    cases hino : s.file with
    | none => rfl
    | some ino => exact congrArg some (hdata ino hino)
  · rcases hcalls t f hf with ⟨u, hold⟩ | hnew
    · exact ⟨(h.calls u f hold).1, (h.calls u f hold).2.trans hclock⟩
    · exact hnew
  · exact h.valid w (hwrote ▸ hw)
  · exact hepoch ▸ h.epoch w (hwrote ▸ hw)
  · exact (h.stamp w (hwrote ▸ hw) (hepoch ▸ he)).trans hclock

/-- What the call that moves on goes on to print is what it has printed. -/
theorem fields_moveTo {t u : τ} {c : Call} {g : StatusFields}
    (hg : ((s.moveTo t c).calls u).fields = some g)
    (hc : c.fields = none ∨ c.fields = (s.calls t).fields) : ∃ v, (s.calls v).fields = some g := by
  rw [calls_moveTo] at hg
  split at hg
  · rcases hc with hnone | hsame
    · cases hnone.symm.trans hg
    · exact ⟨t, hsame.symm.trans hg⟩
  · exact ⟨u, hg⟩

theorem Beats.step (h : Beats s) (hs : Staging s) (hstep : Step s s') : Beats s' := by
  have hdata : ∀ ino, s.file = some ino → s'.data ino = s.data ino := fun ino hino =>
    ((hs.file ino hino).step hstep).2
  cases hstep with
  | pass hasleep hawake =>
    exact h.keep rfl hdata rfl rfl (by dsimp only; omega) fun t f hf => Or.inl ⟨t, hf⟩
  | setTime | spawn => exact h.keep rfl hdata rfl rfl (le_refl _) fun t f hf => Or.inl ⟨t, hf⟩
  | exit =>
    refine h.keep rfl hdata rfl rfl (le_refl _) fun t f hf => Or.inl ⟨t, ?_⟩
    dsimp only at hf
    split at hf
    · cases hf
    · exact hf
  | @sample t f hidle hpid hid hboot =>
    refine h.keep rfl hdata rfl rfl (le_refl _) fun u g hg => ?_
    rw [calls_moveTo] at hg
    split at hg
    · cases hg
      exact Or.inr ⟨hid, hboot.le⟩
    · exact Or.inl ⟨u, hg⟩
  | @openTmp t f hcall =>
    obtain ⟨ino, next, heq, -⟩ := openTmp_eq s
    rw [heq] at hdata ⊢
    exact h.keep rfl hdata rfl rfl (le_refl _) fun u g hg => Or.inl
      (fields_moveTo (s := s) hg (Or.inr (by rw [hcall]; rfl)))
  | @write t f ino off k hcall hfit =>
    exact h.keep rfl hdata rfl rfl (le_refl _) fun u g hg => Or.inl
      (fields_moveTo (s := s) hg (Or.inr (by rw [hcall]; rfl)))
  | @close t f ino hcall =>
    exact h.keep rfl hdata rfl rfl (le_refl _) fun u g hg => Or.inl
      (fields_moveTo hg (Or.inr (by rw [hcall]; rfl)))
  | @fail t f hcall =>
    exact h.keep rfl hdata rfl rfl (le_refl _) fun u g hg => Or.inl
      (fields_moveTo hg (Or.inr hcall.symm))
  | @unlink t f hcall =>
    exact h.keep rfl hdata rfl rfl (le_refl _) fun u g hg => Or.inl
      (fields_moveTo (s := s) hg (Or.inl rfl))
  | @rename t f ino hcall htmp =>
    have hf := h.calls t f (by rw [hcall]; rfl)
    refine ⟨congrArg some (hs.staged t f ino hcall htmp), fun u g hg => ?_, fun w hw => ?_,
      fun w hw => ?_, fun w hw _ => ?_⟩
    · obtain ⟨v, hv⟩ := fields_moveTo (s := s) hg (Or.inl rfl)
      exact h.calls v g hv
    · cases hw
      exact hf.1
    · cases hw
      exact le_refl _
    · cases hw
      exact hf.2
  | reboot =>
    refine ⟨h.file, fun _ _ => nofun, h.valid, fun w hw => Nat.le_succ_of_le (h.epoch w hw),
      fun w hw he => ?_⟩
    exact absurd (h.epoch w hw) (by simp only [he]; omega)

/-- A host without the two files. -/
def fresh (c : Clock) : World τ :=
  ⟨0, c, fun _ => false, fun _ => .idle, none, none, fun _ => [], 0, none⟩

omit [DecidableEq τ] in
theorem staging_fresh (c : Clock) : Staging (fresh c : World τ) where
  one _ _ := nofun
  tmp _ := nofun
  file _ := nofun
  writing _ _ _ _ := nofun
  staged _ _ _ := nofun

omit [DecidableEq τ] in
theorem beats_fresh (c : Clock) : Beats (fresh c : World τ) where
  file := rfl
  calls _ _ := nofun
  valid _ := nofun
  epoch _ := nofun
  stamp _ := nofun

/-- **Both, in every run** in which one daemon at a time holds the stage. -/
theorem beats_of_run {c₀ : Clock} (hrun : Run Step Apart (fresh c₀) s) : Staging s ∧ Beats s :=
  @Run.invariant _ _ _ (fun u => Staging u ∧ Beats u)
    (fun _ _ h hstep hone => ⟨h.1.step hstep hone, h.2.step h.1 hstep⟩) _ _
    ⟨staging_fresh c₀, beats_fresh c₀⟩ hrun

/-! ## The reader's instants -/

/-- The boot clock does not go back, but for a reboot. -/
theorem boot_le_of_run (hrun : Run Step Always s s') :
    s.epoch < s'.epoch ∨ s.epoch = s'.epoch ∧ s.clock.boot ≤ s'.clock.boot := by
  refine @Run.invariant _ _ _
    (fun u : World τ => s.epoch < u.epoch ∨ s.epoch = u.epoch ∧ s.clock.boot ≤ u.clock.boot)
    (fun u v h hstep _ => ?_) _ _ (Or.inr ⟨rfl, le_refl _⟩) hrun
  cases hstep with
  | pass hasleep hawake => exact h.imp id fun h => ⟨h.1, by dsimp only; omega⟩
  | reboot => exact Or.inl (by dsimp only; omega)
  | openTmp =>
    obtain ⟨ino, next, heq, -⟩ := openTmp_eq u
    rw [heq]
    exact h
  | _ => exact h

/-- **The heartbeat.** In every run in which no two daemons stage a document at once, with the wall
clock set at will, the host suspended, and reboots after which pids and the boot clock start again:
a reader that opens the file at one instant, reads it at a later one, and then asks for the process
and reads its clock twice, all in one boot, reports a process exactly if it is there when it asks,
the last document put in place before the open names it, and that document was stamped no more than
120 seconds before the first reading by the boot clock. Only of a document of an earlier boot may
the stamp be as far ahead, when the clock passes it by the second reading. -/
theorem status_gate (ofFloat : List UInt8 → Option Int) {c₀ : Clock}
    {opened read asked aged looked : World τ} (hrun : Run Step Apart (fresh c₀) opened)
    (hread : Run Step Always opened read) (hasked : Run Step Always read asked)
    (haged : Run Step Always asked aged) (hlooked : Run Step Always aged looked)
    (hboot : looked.epoch = opened.epoch) (pid : Int) :
    liveDaemon ofFloat (opened.file.map read.data) asked.alive aged.clock looked.clock = .ok pid ↔
      ∃ e f, opened.wrote = some (e, f) ∧ f.pid.toInt = pid ∧ pidAlive asked.alive pid = true ∧
        if e = opened.epoch then
          f.bootS.toInt ≤ opened.clock.boot ∧ aged.clock.boot - f.bootS.toInt ≤ maxStatusAgeSecs
        else |aged.clock.boot - f.bootS.toInt| ≤ maxStatusAgeSecs ∧
          f.bootS.toInt ≤ looked.clock.boot := by
  obtain ⟨hstaging, hbeats⟩ := beats_of_run hrun
  -- the file does not change behind the reader, and its clock does not go back
  have hsame : opened.file.map read.data = opened.wrote.map fun w => writeStatusDoc w.2 := by
    rw [← hbeats.file]
    cases hfile : opened.file with
    | none => rfl
    | some ino => exact congrArg some ((hstaging.file ino hfile).run hread)
  have hclocks : opened.clock.boot ≤ aged.clock.boot ∧ aged.clock.boot ≤ looked.clock.boot := by
    have h₁ := boot_le_of_run ((hread.trans hasked).trans haged)
    have h₂ := boot_le_of_run hlooked
    omega
  have hage : ∀ stamp : Int, stampAge stamp aged.clock.boot ≤ maxStatusAgeSecs ↔
      |aged.clock.boot - stamp| ≤ maxStatusAgeSecs := by
    intro stamp
    unfold stampAge satSubI64 maxStatusAgeSecs
    rw [abs_le]
    split <;> omega
  rw [hsame]
  cases hwrote : opened.wrote with
  | none =>
    constructor
    · intro h
      cases h
    · rintro ⟨e, f, heq, -⟩
      cases heq
  | some w =>
    obtain ⟨e, f⟩ := w
    have hid := hbeats.valid (e, f) (by rw [hwrote]; rfl)
    rw [Option.map_some, liveDaemon_doc ofFloat hid, Recent, hage]
    constructor
    · rintro ⟨hpid, halive, hrecent, hle⟩
      refine ⟨e, f, rfl, hpid, halive, ?_⟩
      split
      · next he =>
        have hstamp := hbeats.stamp (e, f) (by rw [hwrote]; rfl) he
        exact ⟨hstamp, (abs_le.mp hrecent).2⟩
      · exact ⟨hrecent, hle⟩
    · rintro ⟨e', f', heq, hpid, halive, hrecent⟩
      cases heq
      refine ⟨hpid, halive, ?_⟩
      split at hrecent
      · obtain ⟨hstamp, hrecent⟩ := hrecent
        have hmax : maxStatusAgeSecs = 120 := rfl
        refine ⟨abs_le.mpr ⟨?_, hrecent⟩, hstamp.trans (hclocks.1.trans hclocks.2)⟩
        dsimp only
        omega
      · exact hrecent

/-! ## A tick -/

/-- One daemon has moved on, and the others hold nothing. -/
theorem oneStage_update (hfree : ∀ u, (s.calls u).holds = false) {t : τ} {c : Call}
    (hcalls : s'.calls = Function.update s.calls t c) : OneStage s' := by
  have hother : ∀ u, (s'.calls u).holds = true → u = t := by
    intro u hu
    by_contra hut
    rw [hcalls, Function.update_of_ne hut, hfree u] at hu
    cases hu
  exact fun u v hu hv => (hother u hu).trans (hother v hv).symm

/-- A document that is staged while nobody else has the stage open. -/
theorem stage_run (hfree : ∀ u, (s.calls u).holds = false) {t : τ} {f : StatusFields}
    (hcall : s.calls t = .printed f) :
    ∃ s', Run Step Apart s s' ∧ (∃ ino, s'.tmp = some ino) ∧ s'.epoch = s.epoch ∧
      s'.clock = s.clock ∧ s'.alive = s.alive ∧
      s'.calls = Function.update s.calls t (.staged f) := by
  have hat : ∀ (u : World τ) (c : Call), (u.moveTo t c).calls t = c := by
    intro u c
    rw [calls_moveTo, if_pos rfl]
  have hgo : ∀ {u v : World τ} {c : Call}, Run Step Apart s u → Step u v →
      v.calls = Function.update s.calls t c → Run Step Apart s v := fun hrun hstep hcalls =>
    hrun.tail hstep (oneStage_update hfree hcalls)
  obtain ⟨ino, next, heq, -⟩ := openTmp_eq s
  have hopen := Step.openTmp hcall
  rw [heq] at hopen
  have h₁ := hgo (c := .writing f ino 0) (Run.refl s) hopen rfl
  have h₂ := hgo (c := .writing f ino (0 + (writeStatusDoc f).length)) h₁
    (Step.write (writeStatusDoc f).length (hat _ _) (by omega))
    (by simp only [World.moveTo, Function.update_idem])
  rw [Nat.zero_add] at h₂
  have h₃ := hgo (c := .staged f) h₂ (Step.close (hat _ _))
    (by simp only [World.moveTo, Function.update_idem])
  exact ⟨_, h₃, ⟨ino, rfl⟩, rfl, rfl, rfl, by simp only [World.moveTo, Function.update_idem]⟩

/-- **A tick that nothing disturbs puts its document in place.** -/
theorem tick_run (hfree : ∀ u, (s.calls u).holds = false) {t : τ} {f : StatusFields}
    (hcall : s.calls t = .printed f) :
    ∃ s', Run Step Apart s s' ∧ s'.wrote = some (s.epoch, f) ∧ s'.epoch = s.epoch ∧
      s'.clock = s.clock ∧ s'.alive = s.alive ∧ s'.calls = Function.update s.calls t .idle := by
  obtain ⟨staged, hrun, ⟨ino, htmp⟩, hepoch, hclock, halive, hcalls⟩ := stage_run hfree hcall
  have hrename := Step.rename (t := t) (f := f) (by rw [hcalls, Function.update_self]) htmp
  have hidle : ∀ u : World τ, u.calls = staged.calls →
      (u.moveTo t .idle).calls = Function.update s.calls t .idle := by
    intro u hu
    rw [World.moveTo, hu, hcalls, Function.update_idem]
  refine ⟨_, hrun.tail hrename (oneStage_update hfree (hidle _ rfl)), ?_, hepoch, hclock, halive,
    hidle _ rfl⟩
  exact congrArg (fun e => some (e, f)) hepoch

/-! ### Two daemons of one cache -/

section Two

/-- What the second daemon writes at the same time. -/
def secondFields : StatusFields := { wedgedFields with id := ascii "n2", pid := 8 }

/-- Both have printed a document. -/
theorem printed_run : ∃ s : World Bool, Run Step Apart (fresh ⟨1000, 50, 50⟩) s ∧
    s.alive 7 = true ∧ s.alive 8 = true ∧ s.clock.boot = 50 ∧ s.tmp = none ∧
    s.calls false = .printed wedgedFields ∧ s.calls true = .printed secondFields := by
  have hone : ∀ s s' : World Bool, (∀ t, (s'.calls t).holds = false) → Apart s s' := by
    intro s s' h t u ht
    cases (h t).symm.trans ht
  have h₀ : Run Step Apart (fresh ⟨1000, 50, 50⟩) (fresh ⟨1000, 50, 50⟩ : World Bool) := Run.refl _
  have h₁ := h₀.tail (@Step.spawn Bool _ _ 7 rfl) (hone _ _ fun _ => rfl)
  have h₂ := h₁.tail (@Step.spawn Bool _ _ 8 rfl) (hone _ _ fun _ => rfl)
  have h₃ := h₂.tail (@Step.sample Bool _ _ false wedgedFields rfl (by decide) (by decide)
    (by decide)) (hone _ _ (by decide))
  have h₄ := h₃.tail (@Step.sample Bool _ _ true secondFields rfl (by decide) (by decide)
    (by decide)) (hone _ _ (by decide))
  exact ⟨_, h₄, rfl, rfl, rfl, rfl, rfl, rfl⟩

theorem free_of_printed {s : World Bool} (hfirst : s.calls false = .printed wedgedFields)
    (hsecond : s.calls true = .printed secondFields) : ∀ t, (s.calls t).holds = false := by
  intro t
  cases t
  · rw [hfirst]
    rfl
  · rw [hsecond]
    rfl

/-- The first is there when its document is replaced, and both stop. -/
theorem two_runs : ∃ opened read late : World Bool, Run Step Apart (fresh ⟨1000, 50, 50⟩) opened ∧
    Run Step Apart opened read ∧ Run Step Apart read late ∧ read.epoch = opened.epoch ∧
    opened.wrote = some (opened.epoch, wedgedFields) ∧ opened.clock.boot = 50 ∧
    read.alive 7 = true ∧ read.clock.boot = 50 ∧
    read.wrote = some (read.epoch, secondFields) ∧
    late.wrote = some (late.epoch, secondFields) ∧ late.clock.boot = 171 := by
  obtain ⟨s, hrun, halive, -, hboot, -, hfirst, hsecond⟩ := printed_run
  have hfree := free_of_printed hfirst hsecond
  obtain ⟨opened, hopened, hwrote, hepoch, hclock, halive', hcalls⟩ := tick_run hfree hfirst
  have hfree' : ∀ t, (opened.calls t).holds = false := by
    intro t
    rw [hcalls]
    cases t
    · rfl
    · exact hfree true
  have hwaits : opened.calls true = .printed secondFields := by
    rw [hcalls]
    exact hsecond
  obtain ⟨read, hread, hwrote', hepoch', hclock', halive'', hcalls'⟩ := tick_run hfree' hwaits
  have hlate : Run Step Apart read _ := (Run.refl read).tail
    (@Step.pass Bool _ _ 100 21 (by decide) (by decide)) (oneStage_update hfree' hcalls')
  refine ⟨opened, read, _, hrun.trans hopened, hread, hlate, hepoch', ?_, ?_, ?_, ?_, ?_, ?_, ?_⟩
  · rw [hwrote, hepoch]
  · rw [hclock, hboot]
  · rw [halive'', halive', halive]
  · rw [hclock', hclock, hboot]
  · rw [hwrote', hepoch']
  · exact hwrote'.trans (by rw [hepoch'])
  · dsimp only
    rw [hclock', hclock, hboot]
    rfl

/-- **A reader reports who was there when it opened the file**, and nobody when the document is
old. -/
theorem status_gate_two : ∃ opened read late : World Bool,
    read.wrote = some (read.epoch, secondFields) ∧
    liveDaemon (fun _ => none) (opened.file.map read.data) read.alive read.clock read.clock =
      .ok 7 ∧
    liveDaemon (fun _ => none) (late.file.map late.data) late.alive late.clock late.clock ≠
      .ok 8 := by
  obtain ⟨opened, read, late, hopened, hread, hlate, hepoch, hwrote, hboot, halive, hboot', hwrote',
    hwrote'', hboot''⟩ := two_runs
  have halways : Run Step Always opened read := hread.mono fun _ _ _ => trivial
  refine ⟨opened, read, late, hwrote', ?_, fun hlive => ?_⟩
  · refine (status_gate _ hopened halways (Run.refl _) (Run.refl _) (Run.refl _) hepoch 7).mpr
      ⟨opened.epoch, wedgedFields, hwrote, by decide, ?_, ?_⟩
    · exact pidAlive_iff.mpr ⟨by decide, by decide, halive⟩
    · rw [if_pos rfl, hboot, hboot']
      decide
  · obtain ⟨e, f, hlast, -, -, hrecent⟩ := (status_gate _ ((hopened.trans hread).trans hlate)
      (Run.refl _) (Run.refl _) (Run.refl _) (Run.refl _) rfl 8).mp hlive
    rw [hwrote''] at hlast
    cases hlast
    rw [if_pos rfl, hboot''] at hrecent
    exact absurd hrecent.2 (by decide)

/-- **A torn heartbeat**: the second daemon opens the stage before the first one renames it, and
what is put in place is empty. Both are there, and nobody is reported. -/
theorem stage_torn : ∃ s : World Bool, Run Step Always (fresh ⟨1000, 50, 50⟩) s ∧
    s.wrote = some (s.epoch, wedgedFields) ∧ s.alive 7 = true ∧ s.alive 8 = true ∧
    s.clock.boot = 50 ∧
    liveDaemon (fun _ => none) (s.file.map s.data) s.alive s.clock s.clock =
      .error .unreadable := by
  obtain ⟨s, hrun, h₇, h₈, hboot, -, hfirst, hsecond⟩ := printed_run
  obtain ⟨staged, hstaged, ⟨ino, htmp'⟩, hepoch, hclock, halive, hcalls⟩ :=
    stage_run (free_of_printed hfirst hsecond) hfirst
  have hopen := Step.openTmp (s := staged) (t := true) (f := secondFields)
    (by rw [hcalls]; exact hsecond)
  have hstage : staged.openTmp = (ino, { staged with
      data := Function.update staged.data ino [] }) := by
    rw [World.openTmp, htmp']
  rw [hstage] at hopen
  have hrename := Step.rename (t := false) (f := wedgedFields)
    (s := ({ staged with data := Function.update staged.data ino [] } : World Bool).moveTo true
      (.writing secondFields ino 0)) (by
        rw [calls_moveTo, if_neg Bool.false_ne_true]
        exact congrFun hcalls false) htmp'
  have halways : Run Step Always (fresh ⟨1000, 50, 50⟩) staged :=
    Run.mono (fun _ _ _ => trivial) (hrun.trans hstaged)
  refine ⟨_, (halways.then hopen).then hrename, rfl, ?_, ?_, ?_, ?_⟩
  · exact (congrFun halive 7).trans h₇
  · exact (congrFun halive 8).trans h₈
  · exact (congrArg Clock.boot hclock).trans hboot
  · have hempty : Function.update staged.data ino [] ino = [] := Function.update_self ..
    show liveDaemon _ (some (Function.update staged.data ino [] ino)) _ _ _ = _
    rw [hempty]
    rfl

end Two

end StatusDoc

end ModelFs
