import ModelFs.Lib.Machine
import ModelFs.SwapFiles

/-!
# Replacing the daemon's image

`modelfs update` publishes a request, sends SIGUSR2, and waits for the acknowledgement. The daemon
leaves its loop, reads the request, execs the binary the request names, and the image that comes up
reads the request once more, for its token; once it serves, it writes the token back. Any number of
updates may run at once, of any users, and the cache root may be open to others: they put in and
take out files as they like, but a file they make is their own, and a token they were not told they
do not know.

* `images_authorized` — **no image runs but the first and those that a trusted update named**.
* `updated_attached` — **who is told of such an update has an image that serves with its token**.
* `updated_own` — and that image is its own binary, if no request is put in place between the two
  readings of one handover.
* `taken_once` — no token of theirs is taken twice, if the taken request is removed and not put back.

A signal that comes while no handler is installed kills the daemon; so does a request that is not
followed.
-/

namespace ModelFs

namespace ImageSwap

open Inodes (pathMax)

/-! ## Parties -/

/-- One run of `modelfs update`: its user, its own binary, and the random bytes of its token. -/
structure Cli where
  uid : UInt32
  bin : List UInt8
  raw : List UInt8

def Cli.token (c : Cli) : List UInt8 := tokenHex c.raw

/-- The updates, and the daemon's user. Tokens are 16 random bytes, so no two are alike. -/
structure Setup (κ : Type) where
  euid : UInt32
  cli : κ → Cli
  fresh : ∀ k l, (cli k).raw = (cli l).raw → k = l

inductive CliPc where
  | start
  | staged
  | published
  /-- Signalled; so many milliseconds waited. -/
  | waiting (waited : Nat)
  | matched
  | expired
  | updated
  | failed
  deriving DecidableEq

/-- A file in the cache root. -/
structure Planted where
  owner : UInt32
  bytes : List UInt8

/-- An image of the daemon. -/
structure Image where
  bin : List UInt8
  /-- The request it was execed for; the first image was started by hand. -/
  named : Option Req
  /-- `update_token`. -/
  took : Option (List UInt8)
  attached : Bool

inductive Phase where
  /-- In the session's loop. -/
  | serving
  /-- In `execHandover`, with the request still to be read. -/
  | reading (waited : Nat)
  /-- The request passed. -/
  | checked (req : Req)
  /-- The new image, before it reads the request. -/
  | starting
  /-- It has read it. -/
  | took
  /-- It has unlinked it. -/
  | attaching
  /-- It serves, and writes the acknowledgement: `written` bytes so far. -/
  | acking (written : Nat)
  | dead
  deriving DecidableEq

structure World (κ : Type) where
  cli : κ → CliPc
  req : Option Planted
  ack : Option (List UInt8)
  phase : Phase
  /-- `handover_asked`. -/
  asked : Bool
  /-- `init_len` is not zero. -/
  captured : Bool
  now : Image
  past : List Image

def World.images {κ : Type} (s : World κ) : List Image := s.now :: s.past

/-! ## Steps -/

def updateWaitMs : Nat := 30000

def updatePollMs : Nat := 50

/-- How long a missing request is waited for. -/
def requestWaitMs : Nat := 1000

/-- `installHandoverSignal` has been called, and `removeHandoverSignal` has not. -/
def Phase.handles : Phase → Bool
  | .serving | .acking _ => true
  | _ => false

section System

variable {κ : Type}

/-- `onUsr2`; the file may be there and yet not open. -/
def onUsr2 (opens : Bool) (s : World κ) : World κ :=
  if !s.captured then s
  else if s.req.isSome && opens then { s with asked := true }
  else s

/-- SIGUSR2. -/
def usr2 (opens : Bool) (s : World κ) : World κ :=
  if s.phase.handles then onUsr2 opens s else { s with phase := .dead }

inductive HandoverError where
  | noRequest
  | foreignRequest
  | badRequest
  | badBin

variable (ofFloat : List UInt8 → Option Int)

/-- What `execHandover` makes of the request file. -/
def checkRequest (euid : UInt32) (f : Planted) : Except HandoverError Req :=
  match readCapped reqMaxBytes f.bytes with
  | none => .error .noRequest
  | some bytes =>
    if !reqOwnerOk f.owner euid then .error .foreignRequest
    else
      match decodeReq ofFloat bytes with
      | none => .error .badRequest
      | some r => if r.bin = [] ∨ r.bin.head? ≠ some 47 then .error .badBin else .ok r

/-- What `cmdHandover` takes of it. -/
def takeToken (req : Option Planted) : Option (List UInt8) :=
  ((req.bind fun f => readCapped reqMaxBytes f.bytes).bind (decodeReq ofFloat)).map Req.token

/-- `cmdReload` looks at the acknowledgement. -/
def pollAck (token : List UInt8) (ack : Option (List UInt8)) : Bool :=
  ((ack.bind (readCapped reqMaxBytes)).bind (decodeAck ofFloat)) = some token

variable (u : Setup κ)

/-- An update whose request the daemon follows. -/
def Trusted (k : κ) : Prop := reqOwnerOk (u.cli k).uid u.euid = true

/-- The request of an update. -/
def own (k : κ) : Req := ⟨(u.cli k).bin, (u.cli k).token⟩

/-- The request file of an update. -/
def Requests (k : κ) (f : Planted) : Prop :=
  f.owner = (u.cli k).uid ∧ encodeReq (u.cli k).bin (u.cli k).token = some f.bytes

variable [DecidableEq κ]

def World.setCli (s : World κ) (k : κ) (pc : CliPc) : World κ :=
  { s with cli := Function.update s.cli k pc }

/-- `cmdReload`. An unlink may fail. -/
inductive CliStep (k : κ) (s : World κ) : World κ → Prop
  | stage (hpc : s.cli k = .start) : CliStep k s (s.setCli k .staged)
  | giveUp (hpc : s.cli k = .start ∨ s.cli k = .staged) : CliStep k s (s.setCli k .failed)
  | publish {f : Planted} (hpc : s.cli k = .staged) (hf : Requests u k f) :
      CliStep k s ({ s with req := some f }.setCli k .published)
  | signal (opens : Bool) (hpc : s.cli k = .published) (halive : s.phase ≠ .dead) :
      CliStep k s ((usr2 opens s).setCli k (.waiting 0))
  | noSignal {req : Option Planted} (hpc : s.cli k = .published) (hreq : req = none ∨ req = s.req) :
      CliStep k s ({ s with req := req }.setCli k .failed)
  | poll {waited : Nat} (hpc : s.cli k = .waiting waited) (hin : waited < updateWaitMs)
      (hack : pollAck ofFloat (u.cli k).token s.ack = true) : CliStep k s (s.setCli k .matched)
  | sleep {waited : Nat} (hpc : s.cli k = .waiting waited) (hin : waited < updateWaitMs) :
      CliStep k s (s.setCli k (.waiting (waited + updatePollMs)))
  | accept {ack : Option (List UInt8)} (hpc : s.cli k = .matched)
      (hack : ack = none ∨ ack = s.ack) : CliStep k s ({ s with ack := ack }.setCli k .updated)
  | expire {waited : Nat} {req : Option Planted} (hpc : s.cli k = .waiting waited)
      (hout : updateWaitMs ≤ waited) (hreq : req = none ∨ req = s.req) :
      CliStep k s ({ s with req := req }.setCli k .expired)
  | cleanUp {ack : Option (List UInt8)} (hpc : s.cli k = .expired)
      (hack : ack = none ∨ ack = s.ack) : CliStep k s ({ s with ack := ack }.setCli k .failed)

/-- The image that is execed into. -/
def imageFor (r : Req) : Image where
  bin := r.bin
  named := some r
  took := none
  attached := false

/-- The daemon, from image to image. -/
inductive DaemonStep (s : World κ) : World κ → Prop
  | exit (hphase : s.phase = .serving) : DaemonStep s { s with phase := .dead }
  | leave (hphase : s.phase = .serving) (hasked : s.asked = true) :
      DaemonStep s { s with phase := .reading 0 }
  | retry {waited : Nat} (hphase : s.phase = .reading waited) (hnone : s.req = none)
      (hin : waited < requestWaitMs) : DaemonStep s { s with phase := .reading (waited + 50) }
  | noRequest {waited : Nat} (hphase : s.phase = .reading waited) :
      DaemonStep s { s with phase := .dead }
  | pass {waited : Nat} {f : Planted} {r : Req} (hphase : s.phase = .reading waited)
      (hreq : s.req = some f) (hok : checkRequest ofFloat u.euid f = .ok r) :
      DaemonStep s { s with phase := .checked r }
  | refuse {waited : Nat} {f : Planted} {e : HandoverError} (hphase : s.phase = .reading waited)
      (hreq : s.req = some f) (herr : checkRequest ofFloat u.euid f = .error e) :
      DaemonStep s { s with phase := .dead }
  | exec {r : Req} (hphase : s.phase = .checked r) :
      DaemonStep s { s with
        phase := .starting
        asked := false
        now := imageFor r
        past := s.now :: s.past }
  | execFails {r : Req} (hphase : s.phase = .checked r) : DaemonStep s { s with phase := .dead }
  | take (hphase : s.phase = .starting) :
      DaemonStep s { s with phase := .took, now := { s.now with took := takeToken ofFloat s.req } }
  | takeNothing (hphase : s.phase = .starting) : DaemonStep s { s with phase := .took }
  | unlink {req : Option Planted} (hphase : s.phase = .took) (hreq : req = none ∨ req = s.req) :
      DaemonStep s { s with phase := .attaching, req := req }
  | fails (hphase : s.phase = .starting ∨ s.phase = .took ∨ s.phase = .attaching) :
      DaemonStep s { s with phase := .dead }
  | attach (hphase : s.phase = .attaching) :
      DaemonStep s { s with
        phase := if s.now.took.isSome then .acking 0 else .serving
        now := { s.now with attached := true } }
  | ack {token blob : List UInt8} {written more : Nat} {ack : Option (List UInt8)}
      (hphase : s.phase = .acking written) (htook : s.now.took = some token)
      (hblob : encodeAck token = some blob) (hmore : written ≤ more)
      (hack : ack = some (blob.take more) ∨ ack = s.ack) :
      DaemonStep s { s with phase := .acking more, ack := ack }
  | acked {written : Nat} (hphase : s.phase = .acking written) :
      DaemonStep s { s with phase := .serving }

/-- A file that is put in place by another hand: of another user, with a token that is nobody's who
is trusted, or a request of an update that was there before or was staged. -/
def Plantable (s : World κ) (f : Planted) : Prop :=
  (reqOwnerOk f.owner u.euid = false ∧
    ∀ r, decodeReq ofFloat f.bytes = some r → ∀ k, Trusted u k → r.token ≠ (u.cli k).token) ∨
  ∃ k, s.cli k ≠ .start ∧ Requests u k f

/-- Some image serves, or has served, with the token. -/
def World.Attached (s : World κ) (token : List UInt8) : Prop :=
  ∃ i ∈ s.images, i.attached = true ∧ i.took = some token

/-- The rest of the host. -/
inductive OtherStep (s : World κ) : World κ → Prop
  | plant {f : Planted} (hf : Plantable ofFloat u s f) : OtherStep s { s with req := some f }
  | dropReq : OtherStep s { s with req := none }
  | plantAck {bytes : List UInt8} (hknown : ∀ k, Trusted u k →
      decodeAck ofFloat bytes = some (u.cli k).token → s.Attached (u.cli k).token) :
      OtherStep s { s with ack := some bytes }
  | dropAck : OtherStep s { s with ack := none }
  | signal (opens : Bool) : OtherStep s (usr2 opens s)
  /-- The kernel's FUSE_INIT comes past. -/
  | capture (hphase : s.phase = .serving) : OtherStep s { s with captured := true }

inductive Step (s s' : World κ) : Prop
  | cli (k : κ) (h : CliStep ofFloat u k s s')
  | daemon (h : DaemonStep ofFloat u s s')
  | other (h : OtherStep ofFloat u s s')

/-- The daemon serves, with the image it was started with, and nobody has asked for anything. -/
structure Start (first : List UInt8) (s : World κ) : Prop where
  cli : ∀ k, s.cli k = .start
  req : s.req = none
  ack : s.ack = none
  phase : s.phase = .serving
  now : s.now = ⟨first, none, none, true⟩
  past : s.past = []

/-! ## What a step does -/

section Frames

variable (s : World κ) (k : κ) (pc : CliPc) (opens : Bool)

@[simp] theorem setCli_req : (s.setCli k pc).req = s.req := rfl
@[simp] theorem setCli_ack : (s.setCli k pc).ack = s.ack := rfl
@[simp] theorem setCli_phase : (s.setCli k pc).phase = s.phase := rfl
@[simp] theorem setCli_now : (s.setCli k pc).now = s.now := rfl
@[simp] theorem setCli_past : (s.setCli k pc).past = s.past := rfl
@[simp] theorem setCli_self : (s.setCli k pc).cli k = pc := Function.update_self ..

theorem setCli_other {l : κ} (h : l ≠ k) : (s.setCli k pc).cli l = s.cli l :=
  Function.update_of_ne h ..

omit [DecidableEq κ] in
/-- A signal sets the flag, or kills. -/
theorem usr2_cases : usr2 opens s = s ∨ usr2 opens s = { s with asked := true } ∨
    usr2 opens s = { s with phase := .dead } := by
  unfold usr2 onUsr2
  split_ifs
  · exact Or.inl rfl
  · exact Or.inr (Or.inl rfl)
  · exact Or.inl rfl
  · exact Or.inr (Or.inr rfl)

omit [DecidableEq κ] in
@[simp] theorem usr2_req : (usr2 opens s).req = s.req := by
  rcases usr2_cases s opens with h | h | h <;> rw [h]

omit [DecidableEq κ] in
@[simp] theorem usr2_ack : (usr2 opens s).ack = s.ack := by
  rcases usr2_cases s opens with h | h | h <;> rw [h]

omit [DecidableEq κ] in
@[simp] theorem usr2_cli : (usr2 opens s).cli = s.cli := by
  rcases usr2_cases s opens with h | h | h <;> rw [h]

end Frames

variable {u : Setup κ} {ofFloat : List UInt8 → Option Int} {s s' : World κ}

/-- An update that has begun stays begun. -/
theorem step_started (h : Step ofFloat u s s') {k : κ} (hk : s.cli k ≠ .start) :
    s'.cli k ≠ .start := by
  cases h with
  | cli l h =>
    by_cases hkl : k = l
    · subst hkl
      cases h <;> simp
    · cases h <;> simp [setCli_other, hkl, hk]
  | daemon h => cases h <;> exact hk
  | other h => cases h <;> simpa using hk

/-- Where a request file comes from. -/
theorem step_req (h : Step ofFloat u s s') {f : Planted} (hf : s'.req = some f) :
    s.req = some f ∨ Plantable ofFloat u s f ∨
      ∃ k, s.cli k = .staged ∧ s'.cli k = .published ∧ Requests u k f := by
  have hkept : ∀ {req : Option Planted}, req = none ∨ req = s.req → req = some f →
      s.req = some f := by
    rintro req (rfl | rfl) heq
    · cases heq
    · exact heq
  cases h with
  | cli k h =>
    cases h with
    | publish hpc hreq =>
      cases hf
      exact Or.inr (Or.inr ⟨k, hpc, by simp, hreq⟩)
    | noSignal hpc hreq => exact Or.inl (hkept hreq hf)
    | expire hpc hout hreq => exact Or.inl (hkept hreq hf)
    | signal opens hpc halive =>
      rw [setCli_req, usr2_req] at hf
      exact Or.inl hf
    | stage | giveUp | poll | sleep | accept | cleanUp => exact Or.inl hf
  | daemon h =>
    cases h with
    | unlink hphase hreq => exact Or.inl (hkept hreq hf)
    | exit | leave | retry | noRequest | pass | refuse | exec | execFails | take | takeNothing
    | fails | attach | ack | acked => exact Or.inl hf
  | other h =>
    cases h with
    | plant hplant =>
      cases hf
      exact Or.inr (Or.inl hplant)
    | dropReq => cases hf
    | signal opens =>
      rw [usr2_req] at hf
      exact Or.inl hf
    | plantAck | dropAck | capture => exact Or.inl hf

/-- Where an acknowledgement comes from. -/
theorem step_ack (h : Step ofFloat u s s') {bytes : List UInt8} (hb : s'.ack = some bytes) :
    s.ack = some bytes ∨
      (∀ k, Trusted u k → decodeAck ofFloat bytes = some (u.cli k).token →
        s.Attached (u.cli k).token) ∨
      ∃ written token blob more, s.phase = .acking written ∧ s.now.took = some token ∧
        encodeAck token = some blob ∧ bytes = blob.take more := by
  have hkept : ∀ {ack : Option (List UInt8)}, ack = none ∨ ack = s.ack → ack = some bytes →
      s.ack = some bytes := by
    rintro ack (rfl | rfl) heq
    · cases heq
    · exact heq
  cases h with
  | cli k h =>
    cases h with
    | accept hpc hack => exact Or.inl (hkept hack hb)
    | cleanUp hpc hack => exact Or.inl (hkept hack hb)
    | signal opens hpc halive =>
      rw [setCli_ack, usr2_ack] at hb
      exact Or.inl hb
    | stage | giveUp | publish | noSignal | poll | sleep | expire => exact Or.inl hb
  | daemon h =>
    cases h with
    | ack hphase htook hblob hmore hack =>
      rcases hack with rfl | rfl
      · cases hb
        exact Or.inr (Or.inr ⟨_, _, _, _, hphase, htook, hblob, rfl⟩)
      · exact Or.inl hb
    | exit | leave | retry | noRequest | pass | refuse | exec | execFails | take | takeNothing
    | unlink | fails | attach | acked => exact Or.inl hb
  | other h =>
    cases h with
    | plantAck hknown =>
      cases hb
      exact Or.inr (Or.inl hknown)
    | dropAck => cases hb
    | signal opens =>
      rw [usr2_ack] at hb
      exact Or.inl hb
    | plant | dropReq | capture => exact Or.inl hb

/-- The image is up, in its loop or out of it. -/
def Phase.up : Phase → Prop
  | .serving | .reading _ | .acking _ => True
  | _ => False

/-- What a step does to the images and to the daemon's phase. -/
inductive Turn (ofFloat : List UInt8 → Option Int) (u : Setup κ) (s s' : World κ) : Prop
  | rest (hphase : s'.phase = s.phase ∨ s'.phase = .dead) (hnow : s'.now = s.now)
      (hpast : s'.past = s.past)
  | wait (hphase : s.phase.up) (hphase' : s'.phase.up)
    (hacks : ∀ written, s'.phase ≠ .acking written)
      (hnow : s'.now = s.now) (hpast : s'.past = s.past)
  | check {f : Planted} {r : Req} (hup : s.phase.up) (hreq : s.req = some f)
      (hok : checkRequest ofFloat u.euid f = .ok r) (hphase : s'.phase = .checked r)
      (hkept : s'.req = s.req) (hnow : s'.now = s.now) (hpast : s'.past = s.past)
  | exec {r : Req} (hphase : s.phase = .checked r) (hphase' : s'.phase = .starting)
      (hkept : s'.req = s.req) (hnow : s'.now = imageFor r) (hpast : s'.past = s.now :: s.past)
  | take {token : Option (List UInt8)} (hphase : s.phase = .starting) (hphase' : s'.phase = .took)
      (htoken : token = takeToken ofFloat s.req ∨ token = s.now.took)
      (hkept : s'.req = s.req) (hnow : s'.now = { s.now with took := token })
      (hpast : s'.past = s.past)
  | unlink (hphase : s.phase = .took) (hphase' : s'.phase = .attaching) (hnow : s'.now = s.now)
      (hpast : s'.past = s.past)
  | attach (hphase : s.phase = .attaching)
      (hphase' : s'.phase = .serving ∨ ∃ written, s'.phase = .acking written)
      (hnow : s'.now = { s.now with attached := true }) (hpast : s'.past = s.past)
  | ack {written more : Nat} (hphase : s.phase = .acking written)
      (hphase' : s'.phase = .acking more) (hnow : s'.now = s.now) (hpast : s'.past = s.past)

omit [DecidableEq κ] in
/-- A signal turns nothing but the phase. -/
theorem turn_usr2 (opens : Bool) : Turn ofFloat u s (usr2 opens s) := by
  rcases usr2_cases s opens with h | h | h
  · rw [h]
    exact Turn.rest (Or.inl rfl) rfl rfl
  · rw [h]
    exact Turn.rest (Or.inl rfl) rfl rfl
  · rw [h]
    exact Turn.rest (Or.inr rfl) rfl rfl

theorem step_turn (h : Step ofFloat u s s') : Turn ofFloat u s s' := by
  cases h with
  | cli k h =>
    cases h with
    | signal opens hpc halive =>
      have hturn : Turn ofFloat u s (usr2 opens s) := turn_usr2 opens
      cases hturn with
      | rest hphase hnow hpast => exact Turn.rest hphase hnow hpast
      | wait hphase hphase' hacks hnow hpast => exact Turn.wait hphase hphase' hacks hnow hpast
      | check hup hreq hok hphase hkept hnow hpast =>
        exact Turn.check hup hreq hok hphase hkept hnow hpast
      | exec hphase hphase' hkept hnow hpast => exact Turn.exec hphase hphase' hkept hnow hpast
      | take hphase hphase' htoken hkept hnow hpast =>
        exact Turn.take hphase hphase' htoken hkept hnow hpast
      | unlink hphase hphase' hnow hpast => exact Turn.unlink hphase hphase' hnow hpast
      | attach hphase hphase' hnow hpast => exact Turn.attach hphase hphase' hnow hpast
      | ack hphase hphase' hnow hpast => exact Turn.ack hphase hphase' hnow hpast
    | stage | giveUp | publish | noSignal | poll | sleep | accept | expire | cleanUp =>
      exact Turn.rest (Or.inl rfl) rfl rfl
  | daemon h =>
    cases h with
    | exit | noRequest | refuse | execFails | fails => exact Turn.rest (Or.inr rfl) rfl rfl
    | leave hphase =>
      refine Turn.wait ?_ trivial (by simp) rfl rfl
      rw [hphase]
      trivial
    | retry hphase =>
      refine Turn.wait ?_ trivial (by simp) rfl rfl
      rw [hphase]
      trivial
    | pass hphase hreq hok =>
      refine Turn.check ?_ hreq hok rfl rfl rfl rfl
      rw [hphase]
      trivial
    | exec hphase => exact Turn.exec hphase rfl rfl rfl rfl
    | take hphase => exact Turn.take hphase rfl (Or.inl rfl) rfl rfl rfl
    | takeNothing hphase => exact Turn.take hphase rfl (Or.inr rfl) rfl rfl rfl
    | unlink hphase hreq => exact Turn.unlink hphase rfl rfl rfl
    | attach hphase =>
      refine Turn.attach hphase ?_ rfl rfl
      dsimp only
      split
      · exact Or.inr ⟨0, rfl⟩
      · exact Or.inl rfl
    | ack hphase htook hblob hmore hack => exact Turn.ack hphase rfl rfl rfl
    | acked hphase =>
      refine Turn.wait ?_ trivial (by simp) rfl rfl
      rw [hphase]
      trivial
  | other h =>
    cases h with
    | signal opens => exact turn_usr2 opens
    | plant | dropReq | plantAck | dropAck | capture => exact Turn.rest (Or.inl rfl) rfl rfl

/-! ## Whose requests and tokens -/

omit [DecidableEq κ] in
theorem token_inj {k l : κ} (h : (u.cli k).token = (u.cli l).token) : k = l := by
  apply u.fresh
  have hbytes := congrArg Handover.hexToBytes h
  unfold Cli.token tokenHex at hbytes
  rw [Handover.hexToBytes_hex, Handover.hexToBytes_hex] at hbytes
  exact Option.some.inj hbytes

omit [DecidableEq κ] in
theorem decodeReq_of_requests {k : κ} {f : Planted} (h : Requests u k f) :
    decodeReq ofFloat f.bytes = some (own u k) := decodeReq_encodeReq ofFloat h.2

omit [DecidableEq κ] in
theorem trusted_of_owner {k : κ} {f : Planted} (h : Requests u k f)
    (howner : reqOwnerOk f.owner u.euid = true) : Trusted u k := by
  unfold Trusted
  rw [← h.1]
  exact howner

omit [DecidableEq κ] in
/-- What passes is the daemon's own user's, or root's, and names a path from the root. -/
theorem of_checkRequest {euid : UInt32} {f : Planted} {r : Req}
    (h : checkRequest ofFloat euid f = .ok r) :
    reqOwnerOk f.owner euid = true ∧ decodeReq ofFloat f.bytes = some r ∧
      r.bin.head? = some 47 := by
  unfold checkRequest readCapped at h
  split at h
  · cases h
  · next bytes hread =>
    split_ifs at hread with hcap
    cases hread
    split at h
    · cases h
    · next howner =>
      split at h
      · cases h
      · next r' hdecode =>
        split_ifs at h with hbin
        cases h
        rw [not_or, not_not] at hbin
        exact ⟨by simpa using howner, hdecode, hbin.2⟩

omit [DecidableEq κ] in
theorem of_takeToken {req : Option Planted} {token : List UInt8}
    (h : takeToken ofFloat req = some token) :
    ∃ f r, req = some f ∧ decodeReq ofFloat f.bytes = some r ∧ r.token = token := by
  unfold takeToken at h
  obtain ⟨r, hr, htoken⟩ := Option.map_eq_some_iff.mp h
  obtain ⟨bytes, hbytes, hdecode⟩ := Option.bind_eq_some_iff.mp hr
  obtain ⟨f, hf, hread⟩ := Option.bind_eq_some_iff.mp hbytes
  unfold readCapped at hread
  split_ifs at hread
  cases hread
  exact ⟨f, r, hf, hdecode, htoken⟩

omit [DecidableEq κ] in
theorem of_pollAck {token : List UInt8} {ack : Option (List UInt8)}
    (h : pollAck ofFloat token ack = true) :
    ∃ bytes, ack = some bytes ∧ decodeAck ofFloat bytes = some token := by
  unfold pollAck at h
  obtain ⟨bytes, hbytes, hdecode⟩ := Option.bind_eq_some_iff.mp (of_decide_eq_true h)
  obtain ⟨whole, hwhole, hread⟩ := Option.bind_eq_some_iff.mp hbytes
  unfold readCapped at hread
  split_ifs at hread
  cases hread
  exact ⟨_, hwhole, hdecode⟩

omit [DecidableEq κ] in
/-- A part of an acknowledgement is none, or is that acknowledgement. -/
theorem token_of_take {token token' blob : List UInt8} {more : Nat}
    (hblob : encodeAck token = some blob) (h : decodeAck ofFloat (blob.take more) = some token') :
    token' = token := by
  rcases Nat.lt_or_ge more (ackDoc token).length with hlt | hge
  · rw [decodeAck_torn ofFloat hblob hlt] at h
    cases h
  · rw [decodeAck_whole ofFloat hblob hge] at h
    exact (Option.some.inj h).symm

/-! ## The invariant -/

/-- An update's request stands behind the image. -/
def NamedBy (u : Setup κ) (s : World κ) (i : Image) (k : κ) : Prop :=
  Trusted u k ∧ s.cli k ≠ .start ∧ i.named = some (own u k) ∧ i.bin = (u.cli k).bin

/-- The image is under way. -/
def Phase.comingUp : Phase → Prop
  | .starting | .took | .attaching => True
  | _ => False

theorem Phase.up.not_comingUp {p : Phase} (h : p.up) : ¬ p.comingUp := by
  cases p <;> simp_all [Phase.up, Phase.comingUp]

theorem Phase.up.ne_checked {p : Phase} (h : p.up) (r : Req) : p ≠ .checked r := by
  rintro rfl
  exact h.elim

structure Sound (ofFloat : List UInt8 → Option Int) (u : Setup κ) (first : List UInt8)
    (s : World κ) : Prop where
  req : ∀ f, s.req = some f → Plantable ofFloat u s f
  checked : ∀ r, s.phase = .checked r → ∃ k, Trusted u k ∧ s.cli k ≠ .start ∧ r = own u k
  images : ∀ i ∈ s.images, (i.bin = first ∧ i.named = none) ∨ ∃ k, NamedBy u s i k
  comingUp : s.phase.comingUp → s.now.attached = false
  acking : ∀ written, s.phase = .acking written → s.now.attached = true
  ack : ∀ bytes, s.ack = some bytes → ∀ k, Trusted u k →
    decodeAck ofFloat bytes = some (u.cli k).token → s.Attached (u.cli k).token
  told : ∀ k, Trusted u k → s.cli k = .matched ∨ s.cli k = .updated → s.Attached (u.cli k).token

omit [DecidableEq κ] in
theorem sound_start {first : List UInt8} (h : Start first s) : Sound ofFloat u first s := by
  obtain ⟨hcli, hreq, hack, hphase, hnow, hpast⟩ := h
  refine ⟨?_, ?_, ?_, ?_, ?_, ?_, ?_⟩
  · intro f hf
    rw [hreq] at hf
    cases hf
  · intro r hr
    rw [hphase] at hr
    cases hr
  · intro i hi
    unfold World.images at hi
    rw [hnow, hpast, List.mem_singleton] at hi
    subst hi
    exact Or.inl ⟨rfl, rfl⟩
  · intro hup
    rw [hphase] at hup
    exact hup.elim
  · intro written hw
    rw [hphase] at hw
    cases hw
  · intro bytes hb
    rw [hack] at hb
    cases hb
  · intro k _ hk
    rw [hcli k] at hk
    rcases hk with hk | hk <;> cases hk

theorem plantable_step (h : Step ofFloat u s s') {f : Planted} (hf : Plantable ofFloat u s f) :
    Plantable ofFloat u s' f := by
  rcases hf with hf | ⟨k, hk, hreq⟩
  · exact Or.inl hf
  · exact Or.inr ⟨k, step_started h hk, hreq⟩

theorem namedBy_step (h : Step ofFloat u s s') {i : Image} {k : κ} (hi : NamedBy u s i k) :
    NamedBy u s' i k := ⟨hi.1, step_started h hi.2.1, hi.2.2⟩

variable {first : List UInt8}

/-- An image that serves is not lost, nor is its token. -/
theorem attached_step (hs : Sound ofFloat u first s) (h : Step ofFloat u s s')
    {token : List UInt8} (hatt : s.Attached token) : s'.Attached token := by
  obtain ⟨i, hi, hserves, htook⟩ := hatt
  have hmem : ∀ {j : Image}, s'.now = j → s'.past = s.past →
      (i = s.now → j.attached = true ∧ j.took = some token) → s'.Attached token := by
    intro j hnow hpast hj
    rcases List.mem_cons.mp hi with rfl | hold
    · exact ⟨j, by rw [World.images, hnow]; exact List.mem_cons_self, hj rfl⟩
    · exact ⟨i, by rw [World.images, hpast]; exact List.mem_cons_of_mem _ hold, hserves, htook⟩
  have hkept : s'.now = s.now → s'.past = s.past → s'.Attached token := by
    intro hnow hpast
    exact hmem hnow hpast fun heq => heq ▸ ⟨hserves, htook⟩
  -- an image that comes up has not served yet
  have hnot : s.phase.comingUp → i ≠ s.now := by
    rintro hup rfl
    rw [hs.comingUp hup] at hserves
    cases hserves
  cases step_turn h with
  | rest hphase hnow hpast => exact hkept hnow hpast
  | wait hphase hphase' hacks hnow hpast => exact hkept hnow hpast
  | check hup' hreq hok hphase hreq' hnow hpast => exact hkept hnow hpast
  | exec hphase hphase' hreq' hnow hpast =>
    exact ⟨i, by rw [World.images, hpast]; exact List.mem_cons_of_mem _ hi, hserves, htook⟩
  | take hphase hphase' htoken hreq' hnow hpast =>
    refine hmem hnow hpast fun heq => absurd heq (hnot ?_)
    rw [hphase]
    trivial
  | unlink hphase hphase' hnow hpast => exact hkept hnow hpast
  | attach hphase hphase' hnow hpast =>
    refine hmem hnow hpast fun heq => ⟨rfl, ?_⟩
    rw [heq] at htook
    exact htook
  | ack hphase hphase' hnow hpast => exact hkept hnow hpast

theorem req_step (hs : Sound ofFloat u first s) (h : Step ofFloat u s s') {f : Planted}
    (hf : s'.req = some f) : Plantable ofFloat u s' f := by
  rcases step_req h hf with hold | hplant | ⟨k, -, hk, hreq⟩
  · exact plantable_step h (hs.req f hold)
  · exact plantable_step h hplant
  · exact Or.inr ⟨k, by rw [hk]; simp, hreq⟩

omit [DecidableEq κ] in
/-- **What passes the check** was written by a trusted update. -/
theorem own_of_check (hs : Sound ofFloat u first s) {f : Planted} {r : Req}
    (hreq : s.req = some f) (hok : checkRequest ofFloat u.euid f = .ok r) :
    ∃ k, Trusted u k ∧ s.cli k ≠ .start ∧ r = own u k := by
  obtain ⟨howner, hdecode, -⟩ := of_checkRequest hok
  rcases hs.req f hreq with ⟨hforeign, -⟩ | ⟨k, hk, hrequests⟩
  · rw [howner] at hforeign
    cases hforeign
  · rw [decodeReq_of_requests hrequests] at hdecode
    exact ⟨k, trusted_of_owner hrequests howner, hk, (Option.some.inj hdecode).symm⟩

theorem checked_step (hs : Sound ofFloat u first s) (h : Step ofFloat u s s') {r : Req}
    (hr : s'.phase = .checked r) : ∃ k, Trusted u k ∧ s'.cli k ≠ .start ∧ r = own u k := by
  have hlift : (∃ k, Trusted u k ∧ s.cli k ≠ .start ∧ r = own u k) →
      ∃ k, Trusted u k ∧ s'.cli k ≠ .start ∧ r = own u k := by
    rintro ⟨k, htrust, hk, hown⟩
    exact ⟨k, htrust, step_started h hk, hown⟩
  apply hlift
  cases step_turn h with
  | rest hphase hnow hpast =>
    rcases hphase with hsame | hdead
    · exact hs.checked r (hsame ▸ hr)
    · rw [hr] at hdead
      cases hdead
  | wait hphase hphase' hacks hnow hpast =>
    rw [hr] at hphase'
    exact hphase'.elim
  | check hup' hreq hok hphase hreq' hnow hpast =>
    rw [hr] at hphase
    cases hphase
    exact own_of_check hs hreq hok
  | exec hphase hphase' | take hphase hphase' | unlink hphase hphase' | ack hphase hphase' =>
    rw [hr] at hphase'
    cases hphase'
  | attach hphase hphase' =>
    rw [hr] at hphase'
    rcases hphase' with hphase' | ⟨written, hphase'⟩ <;> cases hphase'

theorem images_step (hs : Sound ofFloat u first s) (h : Step ofFloat u s s') {i : Image}
    (hi : i ∈ s'.images) : (i.bin = first ∧ i.named = none) ∨ ∃ k, NamedBy u s' i k := by
  have hlift : ∀ {j : Image}, ((j.bin = first ∧ j.named = none) ∨ ∃ k, NamedBy u s j k) →
      (j.bin = first ∧ j.named = none) ∨ ∃ k, NamedBy u s' j k := by
    rintro j (hj | ⟨k, hj⟩)
    · exact Or.inl hj
    · exact Or.inr ⟨k, namedBy_step h hj⟩
  have hnow := hs.images s.now List.mem_cons_self
  have hpast : ∀ j ∈ s.past, (j.bin = first ∧ j.named = none) ∨ ∃ k, NamedBy u s j k :=
    fun j hj => hs.images j (List.mem_cons_of_mem _ hj)
  unfold World.images at hi
  cases step_turn h with
  | exec hphase hphase' hreq' hnow' hpast' =>
    rw [hnow', hpast'] at hi
    rcases List.mem_cons.mp hi with rfl | hi
    · obtain ⟨k, htrust, hk, rfl⟩ := hs.checked _ hphase
      exact Or.inr ⟨k, htrust, step_started h hk, rfl, rfl⟩
    · exact hlift (hs.images i hi)
  | rest _ hnow' hpast' | wait _ _ _ hnow' hpast' | check _ _ _ _ _ hnow' hpast'
  | take _ _ _ _ hnow' hpast' | unlink _ _ hnow' hpast' | attach _ _ hnow' hpast'
  | ack _ _ hnow' hpast' =>
    -- the current image keeps its binary and its request
    rw [hnow', hpast'] at hi
    rcases List.mem_cons.mp hi with rfl | hi
    · exact hlift hnow
    · exact hlift (hpast i hi)

theorem comingUp_step (hs : Sound ofFloat u first s) (h : Step ofFloat u s s')
    (hup : s'.phase.comingUp) : s'.now.attached = false := by
  have hback : s.phase.comingUp → s'.now.attached = s.now.attached → s'.now.attached = false := by
    intro hold hsame
    rw [hsame]
    exact hs.comingUp hold
  cases step_turn h with
  | rest hphase hnow hpast =>
    rcases hphase with hsame | hdead
    · exact hback (hsame ▸ hup) (by rw [hnow])
    · rw [hdead] at hup
      exact hup.elim
  | wait hphase hphase' hacks hnow hpast => exact absurd hup hphase'.not_comingUp
  | check hup' hreq hok hphase hreq' hnow hpast =>
    rw [hphase] at hup
    exact hup.elim
  | exec hphase hphase' hreq' hnow hpast =>
    rw [hnow]
    rfl
  | take hphase hphase' htoken hreq' hnow hpast =>
    refine hback ?_ (by rw [hnow])
    rw [hphase]
    trivial
  | unlink hphase hphase' hnow hpast =>
    refine hback ?_ (by rw [hnow])
    rw [hphase]
    trivial
  | attach hphase hphase' hnow hpast =>
    rcases hphase' with hphase' | ⟨written, hphase'⟩
    · rw [hphase'] at hup
      exact hup.elim
    · rw [hphase'] at hup
      exact hup.elim
  | ack hphase hphase' hnow hpast =>
    rw [hphase'] at hup
    exact hup.elim

theorem acking_step (hs : Sound ofFloat u first s) (h : Step ofFloat u s s') {written : Nat}
    (hw : s'.phase = .acking written) : s'.now.attached = true := by
  cases step_turn h with
  | rest hphase hnow hpast =>
    rcases hphase with hsame | hdead
    · rw [hnow]
      exact hs.acking written (hsame ▸ hw)
    · rw [hw] at hdead
      cases hdead
  | wait hphase hphase' hacks hnow hpast => exact absurd hw (hacks written)
  | check hup' hreq hok hphase hreq' hnow hpast =>
    rw [hw] at hphase
    cases hphase
  | exec _ hphase' | take _ hphase' | unlink _ hphase' =>
    rw [hw] at hphase'
    cases hphase'
  | attach hphase hphase' hnow hpast => rw [hnow]
  | ack hphase hphase' hnow hpast =>
    rw [hnow]
    exact hs.acking _ hphase

theorem ack_step (hs : Sound ofFloat u first s) (h : Step ofFloat u s s') {bytes : List UInt8}
    (hb : s'.ack = some bytes) {k : κ} (htrust : Trusted u k)
    (hdecode : decodeAck ofFloat bytes = some (u.cli k).token) : s'.Attached (u.cli k).token := by
  apply attached_step hs h
  rcases step_ack h hb with hold | hknown | ⟨written, token, blob, more, hphase, htook, hblob, rfl⟩
  · exact hs.ack bytes hold k htrust hdecode
  · exact hknown k htrust hdecode
  · rw [token_of_take hblob hdecode]
    exact ⟨s.now, List.mem_cons_self, hs.acking written hphase, htook⟩

theorem told_step (hs : Sound ofFloat u first s) (h : Step ofFloat u s s') {k : κ}
    (htrust : Trusted u k) (hk : s'.cli k = .matched ∨ s'.cli k = .updated) :
    s'.Attached (u.cli k).token := by
  apply attached_step hs h
  have hold : s'.cli k = s.cli k → s.Attached (u.cli k).token := by
    intro hsame
    rw [hsame] at hk
    exact hs.told k htrust hk
  have hother : ∀ {pc : CliPc}, pc ≠ .matched ∧ pc ≠ .updated → s'.cli k = pc →
      s.Attached (u.cli k).token := by
    intro pc hpc heq
    rw [heq] at hk
    exact (hk.elim hpc.1 hpc.2).elim
  cases h with
  | cli l h =>
    by_cases hkl : k = l
    · subst hkl
      cases h with
      | poll hpc hin hack =>
        obtain ⟨bytes, hbytes, hdecode⟩ := of_pollAck hack
        exact hs.ack bytes hbytes k htrust hdecode
      | accept hpc hack => exact hs.told k htrust (Or.inl hpc)
      | stage | giveUp | publish | signal | noSignal | sleep | expire | cleanUp =>
        exact hother ⟨by simp, by simp⟩ (setCli_self _ k _)
    · apply hold
      cases h <;> simp [setCli_other, hkl]
  | daemon h => cases h <;> exact hold rfl
  | other h =>
    cases h with
    | signal opens => exact hold (by rw [usr2_cli])
    | plant | dropReq | plantAck | dropAck | capture => exact hold rfl

theorem sound_step (hs : Sound ofFloat u first s) (h : Step ofFloat u s s') :
    Sound ofFloat u first s' where
  req _ hf := req_step hs h hf
  checked _ hr := checked_step hs h hr
  images _ hi := images_step hs h hi
  comingUp hup := comingUp_step hs h hup
  acking _ hw := acking_step hs h hw
  ack _ hb _ htrust hdecode := ack_step hs h hb htrust hdecode
  told _ htrust hk := told_step hs h htrust hk

theorem sound_run {Cond : World κ → World κ → Prop} {s₀ : World κ} (h₀ : Start first s₀)
    (h : Run (Step ofFloat u) Cond s₀ s) : Sound ofFloat u first s := by
  have hstart : Sound ofFloat u first s₀ := sound_start h₀
  exact @Run.invariant _ _ _ (Sound ofFloat u first)
    (fun _ _ hs hstep _ => sound_step hs hstep) s₀ s hstart h

/-! ## Conditions on a run, and a run that meets them -/

/-- Between the two readings of a request no other that is followed is put in place. -/
def Undisturbed (u : Setup κ) (s s' : World κ) : Prop :=
  ((∃ r, s.phase = .checked r) ∨ s.phase = .starting) → ∀ f, s'.req = some f →
    reqOwnerOk f.owner u.euid = true → s.req = some f

/-- The request that was read is removed, and no request that is followed is put back. -/
def Removed (ofFloat : List UInt8 → Option Int) (u : Setup κ) (s s' : World κ) : Prop :=
  (s.phase = .took → s'.phase = .attaching → s'.req = none) ∧
    ∀ f, s'.req = some f → s.req = some f ∨
      (∃ k, s.cli k = .staged ∧ s'.cli k = .published ∧ Requests u k f) ∨
      ∀ r, decodeReq ofFloat f.bytes = some r → ∀ k, Trusted u k → r.token ≠ (u.cli k).token

omit [DecidableEq κ] in
/-- A step that puts no request in place. -/
theorem calm_of_req (hreq : s'.req = s.req ∨ s'.req = none)
    (htook : s.phase = .took → s'.phase = .attaching → s'.req = none) :
    Undisturbed u s s' ∧ Removed ofFloat u s s' := by
  have hold : ∀ f, s'.req = some f → s.req = some f := by
    intro f hf
    rcases hreq with hsame | hnone
    · rw [← hsame]
      exact hf
    · rw [hnone] at hf
      cases hf
  exact ⟨fun _ f hf _ => hold f hf, htook, fun f hf => Or.inl (hold f hf)⟩

omit [DecidableEq κ] in
/-- What an update's request comes to where it is read. -/
theorem checkRequest_own {k : κ} {f : Planted} (h : Requests u k f) (htrust : Trusted u k)
    (hbin : (u.cli k).bin.head? = some 47) (hlen : (u.cli k).bin.length ≤ pathMax)
    (hraw : (u.cli k).raw.length = tokenBytes) :
    checkRequest ofFloat u.euid f = .ok (own u k) ∧
      takeToken ofFloat (some f) = some (u.cli k).token := by
  have hread : readCapped reqMaxBytes f.bytes = some f.bytes :=
    readCapped_encodeReq h.2 hlen hraw
  have hdecode : decodeReq ofFloat f.bytes = some (own u k) := decodeReq_encodeReq ofFloat h.2
  have howner : reqOwnerOk f.owner u.euid = true := by
    rw [h.1]
    exact htrust
  have hnil : (u.cli k).bin ≠ [] := by
    intro hnil
    rw [hnil] at hbin
    cases hbin
  constructor
  · unfold checkRequest
    rw [hread]
    dsimp only
    rw [howner, hdecode]
    simp [hbin, hnil, own, Cli.token]
  · unfold takeToken
    rw [Option.bind_some, hread, Option.bind_some, hdecode]
    rfl

/-- One update, by the daemon's user. -/
def solo : Setup Unit where
  euid := 1000
  cli _ := ⟨1000, ascii "/usr/local/bin/modelfs", List.replicate 16 7⟩
  fresh _ _ _ := rfl

def firstBin : List UInt8 := ascii "/usr/bin/modelfs"

def firstImage : Image := ⟨firstBin, none, none, true⟩

def soloReq : Planted := ⟨1000, reqDoc (solo.cli ()).bin (solo.cli ()).token ++ [10]⟩

def soloAck : List UInt8 := ackDoc (solo.cli ()).token ++ [10]

/-- The states of the run: the update's point, the two files, and the daemon. -/
def soloAt (pc : CliPc) (req : Option Planted) (ack : Option (List UInt8)) (phase : Phase)
    (asked : Bool) (now : Image) (past : List Image) : World Unit where
  cli _ := pc
  req := req
  ack := ack
  phase := phase
  asked := asked
  captured := true
  now := now
  past := past

def soloStart : World Unit := soloAt .start none none .serving false firstImage []

def soloImage (attached : Bool) (took : Option (List UInt8)) : Image :=
  ⟨(solo.cli ()).bin, some (own solo ()), took, attached⟩

def soloEnd : World Unit :=
  soloAt .updated none none .serving false (soloImage true (some (solo.cli ()).token)) [firstImage]

def noFloat : List UInt8 → Option Int := fun _ => none

theorem soloAt_set (pc pc' : CliPc) (req : Option Planted) (ack : Option (List UInt8))
    (phase : Phase) (asked : Bool) (now : Image) (past : List Image) :
    (soloAt pc req ack phase asked now past).setCli () pc' =
      soloAt pc' req ack phase asked now past := by
  unfold soloAt World.setCli
  congr 1

theorem requests_solo : Requests solo () soloReq :=
  ⟨rfl, if_pos (utf8_tokenHex _)⟩

theorem trusted_solo : Trusted solo () := rfl

/-- The update takes its steps. -/
theorem solo_cli {s : World Unit} {pc pc' : CliPc} {req : Option Planted}
    {ack : Option (List UInt8)} {phase : Phase} {asked : Bool} {now : Image} {past : List Image}
    (h : CliStep noFloat solo () s ((soloAt pc req ack phase asked now past).setCli () pc')) :
    Step noFloat solo s (soloAt pc' req ack phase asked now past) := by
  rw [soloAt_set] at h
  exact Step.cli () h

/-- The run of one update comes to the state. -/
def Reaches (s : World Unit) : Prop :=
  Run (Step noFloat solo) (fun s s' => Undisturbed solo s s' ∧ Removed noFloat solo s s')
    soloStart s

theorem Reaches.next {s s' : World Unit} (h : Reaches s) (hstep : Step noFloat solo s s')
    (hreq : s'.req = s.req ∧ s.phase ≠ .took ∨ s'.req = none) : Reaches s' := by
  refine h.tail hstep (calm_of_req (hreq.imp_left And.left) fun htook _ => ?_)
  rcases hreq with ⟨-, hnot⟩ | hnone
  · exact absurd htook hnot
  · exact hnone

/-- **The run of one update**, from its start to its message. -/
theorem solo_run : Reaches soloEnd := by
  obtain ⟨hcheck, htake⟩ :=
    @checkRequest_own Unit solo noFloat () soloReq requests_solo trusted_solo rfl
    (by decide) rfl
  have hblob : encodeAck (solo.cli ()).token = some soloAck := if_pos (utf8_tokenHex _)
  have hpoll : pollAck noFloat (solo.cli ()).token (some soloAck) = true := by
    have hwhole := @decodeAck_whole noFloat _ _ hblob soloAck.length (by simp [soloAck])
    rw [List.take_length] at hwhole
    unfold pollAck readCapped
    rw [Option.bind_some, if_neg (by decide), Option.bind_some, hwhole]
    simp
  have hstaged : Reaches (soloAt .staged none none .serving false firstImage []) :=
    Reaches.next (Run.refl soloStart) (solo_cli (CliStep.stage rfl)) (Or.inr rfl)
  have hpublished :
      Reaches (soloAt .published (some soloReq) none .serving false firstImage []) := by
    have hpublish := @CliStep.publish Unit noFloat solo _ ()
      (soloAt .staged none none .serving false firstImage []) soloReq rfl requests_solo
    refine hstaged.tail (solo_cli hpublish) ⟨?_, ?_, ?_⟩
    · rintro (⟨r, h⟩ | h) <;> cases h
    · intro h
      cases h
    · intro f hf
      cases hf
      exact Or.inr (Or.inl ⟨(), rfl, rfl, requests_solo⟩)
  have hsignalled :
      Reaches (soloAt (.waiting 0) (some soloReq) none .serving true firstImage []) := by
    have hsignal := @CliStep.signal Unit noFloat solo _ ()
      (soloAt .published (some soloReq) none .serving false firstImage []) true rfl
      (by simp [soloAt])
    exact hpublished.next (solo_cli hsignal) (Or.inl ⟨rfl, by simp [soloAt]⟩)
  have hleft : Reaches (soloAt (.waiting 0) (some soloReq) none (.reading 0) true firstImage []) :=
    hsignalled.next (Step.daemon (DaemonStep.leave rfl rfl)) (Or.inl ⟨rfl, by simp [soloAt]⟩)
  have hpassed : Reaches
      (soloAt (.waiting 0) (some soloReq) none (.checked (own solo ())) true firstImage []) :=
    hleft.next (Step.daemon (DaemonStep.pass rfl rfl hcheck)) (Or.inl ⟨rfl, by simp [soloAt]⟩)
  have hexeced : Reaches
      (soloAt (.waiting 0) (some soloReq) none .starting false (soloImage false none)
        [firstImage]) :=
    hpassed.next (Step.daemon (@DaemonStep.exec Unit noFloat solo _ (own solo ()) rfl))
      (Or.inl ⟨rfl, by simp [soloAt]⟩)
  have htook : Reaches (soloAt (.waiting 0) (some soloReq) none .took false
      (soloImage false (some (solo.cli ()).token)) [firstImage]) := by
    have hstep := @DaemonStep.take Unit noFloat solo (soloAt (.waiting 0) (some soloReq) none
      .starting false (soloImage false none) [firstImage]) rfl
    have htoken : takeToken noFloat (soloAt (.waiting 0) (some soloReq) none .starting false
        (soloImage false none) [firstImage]).req = some (solo.cli ()).token := htake
    rw [htoken] at hstep
    exact hexeced.next (Step.daemon hstep) (Or.inl ⟨rfl, by simp [soloAt]⟩)
  have hunlinked : Reaches (soloAt (.waiting 0) none none .attaching false
      (soloImage false (some (solo.cli ()).token)) [firstImage]) :=
    htook.next (Step.daemon (DaemonStep.unlink rfl (Or.inl rfl))) (Or.inr rfl)
  have hattached : Reaches (soloAt (.waiting 0) none none (.acking 0) false
      (soloImage true (some (solo.cli ()).token)) [firstImage]) :=
    hunlinked.next (Step.daemon (DaemonStep.attach rfl)) (Or.inr rfl)
  have hacking : Reaches (soloAt (.waiting 0) none (some soloAck) (.acking soloAck.length) false
      (soloImage true (some (solo.cli ()).token)) [firstImage]) :=
    hattached.next (Step.daemon (DaemonStep.ack rfl rfl hblob (Nat.zero_le _)
      (Or.inl (by rw [List.take_length])))) (Or.inr rfl)
  have hserving : Reaches (soloAt (.waiting 0) none (some soloAck) .serving false
      (soloImage true (some (solo.cli ()).token)) [firstImage]) :=
    hacking.next (Step.daemon (DaemonStep.acked rfl)) (Or.inr rfl)
  have hmatched : Reaches (soloAt .matched none (some soloAck) .serving false
      (soloImage true (some (solo.cli ()).token)) [firstImage]) :=
    hserving.next (solo_cli (CliStep.poll rfl (by decide) hpoll)) (Or.inr rfl)
  have haccept := @CliStep.accept Unit noFloat solo _ ()
    (soloAt .matched none (some soloAck) .serving false
      (soloImage true (some (solo.cli ()).token)) [firstImage]) none rfl (Or.inl rfl)
  exact hmatched.next (solo_cli haccept) (Or.inr rfl)

/-! ## Runs -/

/-- **No image runs but the first and those that a trusted update named.** Whatever others put into
the cache root, and whenever signals come. -/
theorem images_authorized {s₀ : World κ} (h₀ : Start first s₀)
    (h : Run (Step ofFloat u) Always s₀ s) {i : Image} (hi : i ∈ s.images) :
    i.bin = first ∨ ∃ k, Trusted u k ∧ s.cli k ≠ .start ∧ i.bin = (u.cli k).bin := by
  rcases (sound_run h₀ h).images i hi with ⟨hbin, -⟩ | ⟨k, htrust, hk, -, hbin⟩
  · exact Or.inl hbin
  · exact Or.inr ⟨k, htrust, hk, hbin⟩

theorem start_solo : Start firstBin soloStart := ⟨fun _ => rfl, rfl, rfl, rfl, rfl, rfl⟩

theorem solo_always : Run (Step noFloat solo) Always soloStart soloEnd :=
  solo_run.mono fun _ _ _ => trivial

theorem images_authorized_solo : (solo.cli ()).bin = firstBin ∨
    ∃ k, Trusted solo k ∧ soloEnd.cli k ≠ .start ∧ (solo.cli ()).bin = (solo.cli k).bin :=
  @images_authorized Unit _ solo noFloat soloEnd firstBin soloStart start_solo solo_always
    soloEnd.now List.mem_cons_self

/-- **Who is told of an update has an image that serves**, and no two are told of the same one. -/
theorem updated_attached {s₀ : World κ} (h₀ : Start first s₀)
    (h : Run (Step ofFloat u) Always s₀ s) {k : κ} (htrust : Trusted u k)
    (hk : s.cli k = .updated) :
    ∃ i ∈ s.images, i.attached = true ∧ i.took = some (u.cli k).token ∧
      ∀ l, i.took = some (u.cli l).token → l = k := by
  obtain ⟨i, hi, hserves, htook⟩ := (sound_run h₀ h).told k htrust (Or.inr hk)
  refine ⟨i, hi, hserves, htook, fun l hl => token_inj (u := u) ?_⟩
  rw [htook] at hl
  exact (Option.some.inj hl).symm

theorem updated_attached_solo : ∃ i ∈ soloEnd.images, i.attached = true ∧
    i.took = some (solo.cli ()).token ∧ ∀ l, i.took = some (solo.cli l).token → l = () :=
  updated_attached start_solo solo_always trusted_solo rfl

/-! ## One update at a time -/

/-- The request that is in place is the one the image was checked for. -/
structure Paired (ofFloat : List UInt8 → Option Int) (u : Setup κ) (s : World κ) : Prop where
  checked : ∀ r, s.phase = .checked r → ∀ f, s.req = some f →
    reqOwnerOk f.owner u.euid = true → decodeReq ofFloat f.bytes = some r
  starting : s.phase = .starting → ∀ f, s.req = some f → reqOwnerOk f.owner u.euid = true →
    decodeReq ofFloat f.bytes = s.now.named
  images : ∀ i ∈ s.images, ∀ k, Trusted u k → i.took = some (u.cli k).token →
    i.named = some (own u k)

omit [DecidableEq κ] in
/-- What an image takes is its own request's token, or nobody's. -/
theorem named_of_take (hs : Sound ofFloat u first s) (hp : Paired ofFloat u s)
    (hphase : s.phase = .starting) {k : κ} (htrust : Trusted u k)
    (htake : takeToken ofFloat s.req = some (u.cli k).token) : s.now.named = some (own u k) := by
  obtain ⟨f, r, hf, hdecode, htoken⟩ := of_takeToken htake
  rcases hs.req f hf with ⟨-, hunknown⟩ | ⟨l, -, hrequests⟩
  · exact absurd htoken (hunknown r hdecode k htrust)
  · have hown := @decodeReq_of_requests κ u ofFloat l f hrequests
    rw [hdecode] at hown
    cases hown
    obtain rfl := token_inj (u := u) htoken
    have howner : reqOwnerOk f.owner u.euid = true := by
      rw [hrequests.1]
      exact htrust
    rw [← hp.starting hphase f hf howner, hdecode]

theorem paired_step (hs : Sound ofFloat u first s) (hp : Paired ofFloat u s)
    (h : Step ofFloat u s s') (hcond : Undisturbed u s s') : Paired ofFloat u s' := by
  have hpast : ∀ i ∈ s.past, ∀ k, Trusted u k → i.took = some (u.cli k).token →
      i.named = some (own u k) := fun i hi => hp.images i (List.mem_cons_of_mem _ hi)
  have hnow := hp.images s.now List.mem_cons_self
  have himages : s'.now = s.now → s'.past = s.past → ∀ i ∈ s'.images, ∀ k, Trusted u k →
      i.took = some (u.cli k).token → i.named = some (own u k) := by
    intro hnow' hpast' i hi
    rw [World.images, hnow', hpast'] at hi
    exact hp.images i hi
  cases step_turn h with
  | rest hphase hnow' hpast' =>
    refine ⟨?_, ?_, himages hnow' hpast'⟩
    · intro r hr f hf howner
      rcases hphase with hphase | hphase
      · rw [hr] at hphase
        exact hp.checked r hphase.symm f (hcond (Or.inl ⟨r, hphase.symm⟩) f hf howner) howner
      · rw [hr] at hphase
        cases hphase
    · intro hr f hf howner
      rcases hphase with hphase | hphase
      · rw [hr] at hphase
        rw [hnow']
        exact hp.starting hphase.symm f (hcond (Or.inr hphase.symm) f hf howner) howner
      · rw [hr] at hphase
        cases hphase
  | wait hphase hphase' hacks hnow' hpast' =>
    refine ⟨fun r hr => absurd hr (hphase'.ne_checked r), fun hr => ?_, himages hnow' hpast'⟩
    rw [hr] at hphase'
    exact hphase'.elim
  | @check g r' _ hreq hok hphase hkept hnow' hpast' =>
    refine ⟨?_, ?_, himages hnow' hpast'⟩
    · intro r hr f hf howner
      rw [hphase] at hr
      cases hr
      rw [hkept, hreq] at hf
      cases hf
      exact (of_checkRequest hok).2.1
    · intro hr
      rw [hphase] at hr
      cases hr
  | @exec r' hphase hphase' hkept hnow' hpast' =>
    refine ⟨?_, ?_, ?_⟩
    · intro r hr
      rw [hphase'] at hr
      cases hr
    · intro _ f hf howner
      rw [hkept] at hf
      rw [hnow']
      exact hp.checked r' hphase f hf howner
    · intro i hi
      rw [World.images, hnow', hpast'] at hi
      rcases List.mem_cons.mp hi with rfl | hi
      · intro k _ htook
        cases htook
      · exact hp.images i hi
  | take hphase hphase' htoken hkept hnow' hpast' =>
    refine ⟨?_, ?_, ?_⟩
    · intro r hr
      rw [hphase'] at hr
      cases hr
    · intro hr
      rw [hphase'] at hr
      cases hr
    · intro i hi
      rw [World.images, hnow', hpast'] at hi
      rcases List.mem_cons.mp hi with rfl | hi
      · intro k htrust htook
        dsimp only at htook
        rcases htoken with rfl | rfl
        · exact named_of_take hs hp hphase htrust htook
        · exact hnow k htrust htook
      · exact hpast i hi
  | unlink hphase hphase' hnow' hpast' | ack hphase hphase' hnow' hpast' =>
    refine ⟨?_, ?_, himages hnow' hpast'⟩
    · intro r hr
      rw [hphase'] at hr
      cases hr
    · intro hr
      rw [hphase'] at hr
      cases hr
  | attach hphase hphase' hnow' hpast' =>
    refine ⟨?_, ?_, ?_⟩
    · intro r hr
      rw [hr] at hphase'
      rcases hphase' with hphase' | ⟨written, hphase'⟩ <;> cases hphase'
    · intro hr
      rw [hr] at hphase'
      rcases hphase' with hphase' | ⟨written, hphase'⟩ <;> cases hphase'
    · intro i hi
      rw [World.images, hnow', hpast'] at hi
      rcases List.mem_cons.mp hi with rfl | hi
      · exact hnow
      · exact hpast i hi

omit [DecidableEq κ] in
theorem paired_start (h : Start first s) : Paired ofFloat u s := by
  obtain ⟨-, -, -, hphase, hnow, hpast⟩ := h
  refine ⟨?_, ?_, ?_⟩
  · intro r hr
    rw [hphase] at hr
    cases hr
  · intro hr
    rw [hphase] at hr
    cases hr
  · intro i hi k _ htook
    rw [World.images, hnow, hpast, List.mem_singleton] at hi
    subst hi
    cases htook

/-- **Who is told of a trusted update has its own binary serving**, if no two updates overlap. -/
theorem updated_own {s₀ : World κ} (h₀ : Start first s₀)
    (h : Run (Step ofFloat u) (Undisturbed u) s₀ s) {k : κ} (htrust : Trusted u k)
    (hk : s.cli k = .updated) :
    ∃ i ∈ s.images, i.attached = true ∧ i.took = some (u.cli k).token ∧
      i.bin = (u.cli k).bin := by
  have hboth : Sound ofFloat u first s ∧ Paired ofFloat u s := by
    have hstart : Sound ofFloat u first s₀ ∧ Paired ofFloat u s₀ :=
      ⟨sound_start h₀, paired_start h₀⟩
    exact @Run.invariant _ _ _ (fun s => Sound ofFloat u first s ∧ Paired ofFloat u s)
      (fun _ _ hi hstep hcond => ⟨sound_step hi.1 hstep, paired_step hi.1 hi.2 hstep hcond⟩)
      s₀ s hstart h
  obtain ⟨hs, hp⟩ := hboth
  obtain ⟨i, hi, hserves, htook⟩ := hs.told k htrust (Or.inr hk)
  refine ⟨i, hi, hserves, htook, ?_⟩
  have hnamed := hp.images i hi k htrust htook
  rcases hs.images i hi with ⟨-, hnone⟩ | ⟨l, -, -, hown, hbin⟩
  · rw [hnone] at hnamed
    cases hnamed
  · rw [hown] at hnamed
    have htoken : (u.cli l).token = (u.cli k).token :=
      congrArg Req.token (Option.some.inj hnamed)
    rw [hbin, token_inj (u := u) htoken]

theorem updated_own_solo : ∃ i ∈ soloEnd.images, i.attached = true ∧
    i.took = some (solo.cli ()).token ∧ i.bin = (solo.cli ()).bin :=
  updated_own start_solo (solo_run.mono fun _ _ h => h.1) trusted_solo rfl

/-! ## Every token once -/

/-- The request's file is there no more. -/
def Gone (s : World κ) (k : κ) : Prop := s.cli k ≠ .start ∧ s.cli k ≠ .staged

/-- The file carries the token. -/
def Carries (ofFloat : List UInt8 → Option Int) (f : Planted) (token : List UInt8) : Prop :=
  ∃ r, decodeReq ofFloat f.bytes = some r ∧ r.token = token

structure Once (ofFloat : List UInt8 → Option Int) (u : Setup κ) (s : World κ) : Prop where
  req : ∀ f, s.req = some f → ∀ k, Trusted u k → Carries ofFloat f (u.cli k).token → Gone s k
  took : ∀ i ∈ s.images, ∀ k, Trusted u k → i.took = some (u.cli k).token → Gone s k
  apart : ∀ i ∈ s.images, ∀ k, Trusted u k → i.took = some (u.cli k).token →
    ∀ f, s.req = some f → Carries ofFloat f (u.cli k).token → s.phase = .took ∨ s.phase = .dead
  pairwise : s.images.Pairwise fun i j => ∀ k, Trusted u k →
    ¬ (i.took = some (u.cli k).token ∧ j.took = some (u.cli k).token)

theorem gone_step (h : Step ofFloat u s s') {k : κ} (hk : Gone s k) : Gone s' k := by
  refine ⟨step_started h hk.1, ?_⟩
  cases h with
  | cli l h =>
    by_cases hkl : k = l
    · subst hkl
      cases h with
      | stage hpc => exact absurd hpc hk.1
      | giveUp | publish | signal | noSignal | poll | sleep | accept | expire | cleanUp => simp
    · cases h <;> simp [setCli_other, hkl, hk.2]
  | daemon h => cases h <;> exact hk.2
  | other h => cases h <;> simpa using hk.2

/-- A token that an image has was taken before, or is taken now. -/
theorem took_back (h : Step ofFloat u s s') {i : Image} (hi : i ∈ s'.images) {token : List UInt8}
    (htook : i.took = some token) :
    (∃ j ∈ s.images, j.took = some token) ∨
      (s.phase = .starting ∧ s'.phase = .took ∧ takeToken ofFloat s.req = some token) := by
  have hold : s'.past = s.past → s'.now.took = s.now.took →
      ∃ j ∈ s.images, j.took = some token := by
    intro hpast hnow
    unfold World.images at hi
    rw [hpast] at hi
    rcases List.mem_cons.mp hi with rfl | hi
    · exact ⟨s.now, List.mem_cons_self, hnow ▸ htook⟩
    · exact ⟨i, List.mem_cons_of_mem _ hi, htook⟩
  cases step_turn h with
  | rest _ hnow hpast | wait _ _ _ hnow hpast | check _ _ _ _ _ hnow hpast | unlink _ _ hnow hpast
  | attach _ _ hnow hpast | ack _ _ hnow hpast => exact Or.inl (hold hpast (by rw [hnow]))
  | exec hphase hphase' hkept hnow hpast =>
    rw [World.images, hnow, hpast] at hi
    rcases List.mem_cons.mp hi with rfl | hi
    · cases htook
    · exact Or.inl ⟨i, hi, htook⟩
  | take hphase hphase' htoken hkept hnow hpast =>
    rcases htoken with rfl | rfl
    · rw [World.images, hnow, hpast] at hi
      rcases List.mem_cons.mp hi with rfl | hi
      · exact Or.inr ⟨hphase, hphase', htook⟩
      · exact Or.inl ⟨i, List.mem_cons_of_mem _ hi, htook⟩
    · exact Or.inl (hold hpast (by rw [hnow]))

omit [DecidableEq κ] in
theorem carries_of_take {req : Option Planted} {token : List UInt8}
    (h : takeToken ofFloat req = some token) : ∃ f, req = some f ∧ Carries ofFloat f token := by
  obtain ⟨f, r, hf, hdecode, htoken⟩ := of_takeToken h
  exact ⟨f, hf, r, hdecode, htoken⟩

omit [DecidableEq κ] in
theorem eq_of_carries {k l : κ} {f : Planted} (h : Requests u l f)
    (hcarries : Carries ofFloat f (u.cli k).token) : k = l := by
  obtain ⟨r, hdecode, htoken⟩ := hcarries
  rw [decodeReq_of_requests h] at hdecode
  cases hdecode
  exact token_inj (u := u) htoken.symm

omit [DecidableEq κ] in
/-- A token in place is old, or its update has just published it. -/
theorem carried_back (hcond : Removed ofFloat u s s') {f : Planted}
    (hf : s'.req = some f) {k : κ} (htrust : Trusted u k)
    (hcarries : Carries ofFloat f (u.cli k).token) :
    s.req = some f ∨ (s.cli k = .staged ∧ s'.cli k = .published) := by
  rcases hcond.2 f hf with hold | ⟨l, hstaged, hpublished, hrequests⟩ | hunknown
  · exact Or.inl hold
  · obtain rfl := eq_of_carries hrequests hcarries
    exact Or.inr ⟨hstaged, hpublished⟩
  · obtain ⟨r, hdecode, htoken⟩ := hcarries
    exact absurd htoken (hunknown r hdecode k htrust)

theorem apart_step (ho : Once ofFloat u s) (h : Step ofFloat u s s')
    (hcond : Removed ofFloat u s s') {i : Image} (hi : i ∈ s'.images) {k : κ}
    (htrust : Trusted u k) (htook : i.took = some (u.cli k).token) {f : Planted}
    (hf : s'.req = some f) (hcarries : Carries ofFloat f (u.cli k).token) :
    s'.phase = .took ∨ s'.phase = .dead := by
  rcases took_back h hi htook with ⟨j, hj, hjtook⟩ | ⟨-, hphase', -⟩
  · rcases carried_back hcond hf htrust hcarries with hold | ⟨hstaged, -⟩
    · have hphase := ho.apart j hj k htrust hjtook f hold hcarries
      have hconflict : ∀ {p : Phase}, s.phase = p → p ≠ .took → p ≠ .dead →
          s'.phase = .took ∨ s'.phase = .dead := by
        rintro p rfl htook' hdead
        exact (hphase.elim htook' hdead).elim
      cases step_turn h with
      | rest hphase' =>
        rcases hphase' with hsame | hdead
        · rw [hsame]
          exact hphase
        · exact Or.inr hdead
      | wait hup | check hup =>
        rcases hphase with hphase | hphase
        · rw [hphase] at hup
          exact hup.elim
        · rw [hphase] at hup
          exact hup.elim
      | exec hold' => exact hconflict hold' (by simp) (by simp)
      | take hold' => exact hconflict hold' (by simp) (by simp)
      | unlink hold' hphase' =>
        rw [hcond.1 hold' hphase'] at hf
        cases hf
      | attach hold' => exact hconflict hold' (by simp) (by simp)
      | ack hold' => exact hconflict hold' (by simp) (by simp)
    · exact absurd hstaged (ho.took j hj k htrust hjtook).2
  · exact Or.inl hphase'

theorem pairwise_step (ho : Once ofFloat u s) (h : Step ofFloat u s s') :
    s'.images.Pairwise fun i j => ∀ k, Trusted u k →
      ¬ (i.took = some (u.cli k).token ∧ j.took = some (u.cli k).token) := by
  have hpair := ho.pairwise
  unfold World.images at hpair ⊢
  have hsame : s'.past = s.past → s'.now.took = s.now.took →
      (s'.now :: s'.past).Pairwise fun i j => ∀ k, Trusted u k →
        ¬ (i.took = some (u.cli k).token ∧ j.took = some (u.cli k).token) := by
    intro hpast hnow
    rw [hpast, List.pairwise_cons] at *
    refine ⟨fun j hj k htrust hboth => ?_, hpair.2⟩
    rw [hnow] at hboth
    exact hpair.1 j hj k htrust hboth
  cases step_turn h with
  | rest _ hnow hpast | wait _ _ _ hnow hpast | check _ _ _ _ _ hnow hpast | unlink _ _ hnow hpast
  | attach _ _ hnow hpast | ack _ _ hnow hpast => exact hsame hpast (by rw [hnow])
  | exec hphase hphase' hkept hnow hpast =>
    rw [hnow, hpast, List.pairwise_cons]
    refine ⟨?_, hpair⟩
    rintro j - k - ⟨hnone, -⟩
    cases hnone
  | take hphase hphase' htoken hkept hnow hpast =>
    rcases htoken with rfl | rfl
    · rw [hnow, hpast]
      rw [List.pairwise_cons] at hpair ⊢
      refine ⟨?_, hpair.2⟩
      rintro j hj k htrust ⟨htake, hjtook⟩
      -- the token is in place, so no image has it, unless it has just been read
      obtain ⟨f, hf, hcarries⟩ := carries_of_take htake
      have hconflict := ho.apart j (List.mem_cons_of_mem _ hj) k htrust hjtook f hf hcarries
      rw [hphase] at hconflict
      rcases hconflict with hconflict | hconflict <;> cases hconflict
    · exact hsame hpast (by rw [hnow])

theorem once_step (ho : Once ofFloat u s) (h : Step ofFloat u s s')
    (hcond : Removed ofFloat u s s') : Once ofFloat u s' where
  req f hf k htrust hcarries := by
    rcases carried_back hcond hf htrust hcarries with hold | ⟨-, hpublished⟩
    · exact gone_step h (ho.req f hold k htrust hcarries)
    · refine ⟨?_, ?_⟩
      · rw [hpublished]
        simp
      · rw [hpublished]
        simp
  took i hi k htrust htook := by
    rcases took_back h hi htook with ⟨j, hj, hjtook⟩ | ⟨-, -, htake⟩
    · exact gone_step h (ho.took j hj k htrust hjtook)
    · obtain ⟨f, hf, hcarries⟩ := carries_of_take htake
      exact gone_step h (ho.req f hf k htrust hcarries)
  apart _ hi _ htrust htook _ hf hcarries := apart_step ho h hcond hi htrust htook hf hcarries
  pairwise := pairwise_step ho h

omit [DecidableEq κ] in
theorem once_start (h : Start first s) : Once ofFloat u s := by
  obtain ⟨-, hreq, -, -, hnow, hpast⟩ := h
  have hnone : ∀ i ∈ s.images, ∀ k, i.took ≠ some (u.cli k).token := by
    intro i hi k htook
    rw [World.images, hnow, hpast, List.mem_singleton] at hi
    subst hi
    cases htook
  refine ⟨?_, fun i hi k _ htook => absurd htook (hnone i hi k),
    fun i hi k _ htook => absurd htook (hnone i hi k), ?_⟩
  · intro f hf
    rw [hreq] at hf
    cases hf
  · rw [World.images, hpast]
    exact List.pairwise_singleton _ _

/-- **No token of a trusted update is taken twice**, if the request that was read is removed and none
is put back: so such an update leads to one image at most. -/
theorem taken_once {s₀ : World κ} (h₀ : Start first s₀)
    (h : Run (Step ofFloat u) (Removed ofFloat u) s₀ s) {k : κ} (htrust : Trusted u k) :
    (s.images.filter fun i => i.took = some (u.cli k).token).length ≤ 1 := by
  have hstart : Once ofFloat u s₀ := once_start h₀
  have ho := @Run.invariant _ _ _ (Once ofFloat u)
    (fun _ _ ho hstep hcond => once_step ho hstep hcond) s₀ s hstart h
  generalize hfilter : s.images.filter (fun i => i.took = some (u.cli k).token) = took
  have hpair : took.Pairwise fun i j => ¬ (i.took = some (u.cli k).token ∧
      j.took = some (u.cli k).token) := by
    rw [← hfilter]
    exact (ho.pairwise.filter _).imp fun hij => hij k htrust
  have htook : ∀ i ∈ took, i.took = some (u.cli k).token := by
    intro i hi
    rw [← hfilter] at hi
    exact of_decide_eq_true (List.mem_filter.mp hi).2
  rcases took with - | ⟨i, - | ⟨j, rest⟩⟩
  · exact Nat.zero_le 1
  · exact Nat.le_refl 1
  · have hne := (List.pairwise_cons.mp hpair).1 j List.mem_cons_self
    exact absurd ⟨htook i List.mem_cons_self,
      htook j (List.mem_cons_of_mem i List.mem_cons_self)⟩ hne

theorem taken_once_solo :
    (soloEnd.images.filter fun i => i.took = some (solo.cli ()).token).length ≤ 1 :=
  taken_once start_solo (solo_run.mono fun _ _ h => h.2) trusted_solo

end System

end ImageSwap

end ModelFs
