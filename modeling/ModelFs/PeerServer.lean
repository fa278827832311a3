import ModelFs.Cached
import ModelFs.Lib.Machine
import ModelFs.Lib.Pool
import ModelFs.Lib.Throttle
import ModelFs.PeerRequest

/-!
# The server of a node

`serve` starts an accept loop for each listening descriptor, and a loop starts a handler for each
connection it admits: at most sixteen, by one counter that all loops claim from. What is over the
cap is closed, and counted, and named in the journal once a second at most. `stop` closes the
listeners under the lock that `serve` spawns under; `deinit` then joins the loops, waits for the
handlers, and frees what they use.

Threads are any in number and their steps come in any order. An atomic operation is one step, and
so is a call of the kernel. The kernel gives a new descriptor any number that is free, and the rest
of the process opens and closes descriptors too.

* `admission` — **no more than sixteen connections are served**, and the counter is exact.
* `connections` — **every connection is closed once, by its own thread**, and answered before if it
  was admitted.
* `journal_bounded` — a kind of line comes once a second; what it is about is counted each time.
* `stop_accepts`, `freed_unused` — what is accepted after `stop`, and **who is left when the memory
  goes**.
-/

namespace ModelFs

namespace PeerServer

/-! ## Threads -/

/-- `Server.max_inflight`. -/
def maxInflight : Nat := 16

/-- `auth_warn_min_gap_ms`. -/
def authWarnMinGapMs : Int := 1000

/-- What is refused, and counted: over the cap, without the key, not a `GET`. -/
inductive Warn where
  | drop
  | auth
  | method
  deriving DecidableEq

/-- Where a thread is in `claimWarn`, and in the line after it. -/
inductive WarnPc where
  | asking
  | timed (now : Int)
  | loaded (now prev : Int)
  /-- The exchange went through. -/
  | won (now : Int)
  | passed

/-- Why a connection is closed unheard. -/
inductive Turned where
  | refused
  | unspawned
  deriving DecidableEq

/-- What happens to a connection. -/
inductive Act where
  | accepted
  | turned (why : Turned)
  | handled
  | answered (r : Reply)
  | closed
  deriving DecidableEq

inductive LoopPc where
  | top
  /-- In `accept`; `live` if the number was a listener when it was called. -/
  | accepting (live : Bool)
  | failed (errno : Nat)
  | got (fd id : Nat)
  /-- It claimed beyond the cap. -/
  | beyond (fd id : Nat)
  | counting (fd id : Nat)
  | warning (fd id : Nat) (pc : WarnPc)
  | claimed (fd id : Nat)
  /-- No thread could be started. -/
  | unclaiming (fd id : Nat)
  | closing (fd id : Nat) (why : Turned)
  | left

/-- A thread in `acceptLoop`; `fd` is the number it was given. -/
structure Loop where
  fd : Nat
  failing : Bool
  pc : LoopPc

inductive HandlerPc where
  | reading
  | counting (w : Warn)
  | warning (w : Warn) (pc : WarnPc)
  | replying
  /-- At the `defer`. -/
  | releasing
  | closing

/-- A thread in `handleConn`. -/
structure Handler where
  fd : Nat
  id : Nat
  reply : Reply
  pc : HandlerPc

/-! ## Shared state -/

/-- What a number of the process stands for. -/
inductive Desc where
  | listener
  | conn (id : Nat)
  | other
  deriving DecidableEq

/-- The descriptors, and what happened to each connection so far. -/
structure Net where
  fds : Nat → Option Desc
  hist : Nat → List Act
  /-- How many were accepted. -/
  conns : Nat

def Net.accept (n : Net) (fd : Nat) : Net where
  fds := Function.update n.fds fd (some (.conn n.conns))
  hist := Function.update n.hist n.conns [.accepted]
  conns := n.conns + 1

/-- An act on a number is one on the connection that it stands for. -/
def Net.act (n : Net) (fd : Nat) (a : Act) : Net :=
  match n.fds fd with
  | some (.conn id) => { n with hist := Function.update n.hist id (n.hist id ++ [a]) }
  | _ => n

def Net.close (n : Net) (fd : Nat) : Net :=
  { n.act fd .closed with fds := Function.update n.fds fd none }

/-- The stamps and counters, and the lines that were written. -/
structure Journal where
  /-- `last_drop_warn_ms`, `last_auth_warn_ms`, `last_method_warn_ms`. -/
  slot : Warn → Int
  /-- The stamps that were put there, the last one first. -/
  claims : Warn → List Int
  lines : Warn → Multiset Int
  /-- `http_dropped`, `http_unauthorized`, `http_405`. -/
  count : Warn → Nat

def Journal.claim (j : Journal) (w : Warn) (now : Int) : Journal :=
  { j with slot := Function.update j.slot w now,
           claims := Function.update j.claims w (now :: j.claims w) }

def Journal.write (j : Journal) (w : Warn) (now : Int) : Journal :=
  { j with lines := Function.update j.lines w (now ::ₘ j.lines w) }

def Journal.bump (j : Journal) (w : Warn) : Journal :=
  { j with count := Function.update j.count w ((j.count w + 1) % 2 ^ 64) }

structure Shared where
  running : Bool
  inflight : Nat
  net : Net
  journal : Journal
  /-- `monoMs`. -/
  clock : Int

/-- `http_inflight` is a `u32`. -/
def Shared.fetchAdd (g : Shared) : Shared := { g with inflight := (g.inflight + 1) % 2 ^ 32 }

def Shared.fetchSub (g : Shared) : Shared :=
  { g with inflight := if g.inflight = 0 then 2 ^ 32 - 1 else g.inflight - 1 }

section Counter

variable (g : Shared)

@[simp] theorem Shared.fetchAdd_net : g.fetchAdd.net = g.net := rfl

@[simp] theorem Shared.fetchSub_net : g.fetchSub.net = g.net := rfl

@[simp] theorem Shared.fetchAdd_journal : g.fetchAdd.journal = g.journal := rfl

@[simp] theorem Shared.fetchSub_journal : g.fetchSub.journal = g.journal := rfl

@[simp] theorem Shared.fetchAdd_clock : g.fetchAdd.clock = g.clock := rfl

@[simp] theorem Shared.fetchSub_clock : g.fetchSub.clock = g.clock := rfl

@[simp] theorem Shared.fetchAdd_running : g.fetchAdd.running = g.running := rfl

@[simp] theorem Shared.fetchSub_running : g.fetchSub.running = g.running := rfl

end Counter

/-! ## Steps of a thread -/

/-- `claimWarn` and the line it is for. -/
inductive WarnStep (w : Warn) (clock : Int) : Journal → WarnPc → Journal → WarnPc → Prop where
  | time {j : Journal} : WarnStep w clock j .asking j (.timed clock)
  | load {j : Journal} {now : Int} : WarnStep w clock j (.timed now) j (.loaded now (j.slot w))
  | early {j : Journal} {now prev : Int} : satSubI64 now prev < authWarnMinGapMs →
      WarnStep w clock j (.loaded now prev) j .passed
  | lost {j : Journal} {now prev : Int} : authWarnMinGapMs ≤ satSubI64 now prev →
      j.slot w ≠ prev → WarnStep w clock j (.loaded now prev) j .passed
  | win {j : Journal} {now prev : Int} : authWarnMinGapMs ≤ satSubI64 now prev →
      j.slot w = prev → WarnStep w clock j (.loaded now prev) (j.claim w now) (.won now)
  | line {j : Journal} {now : Int} : WarnStep w clock j (.won now) (j.write w now) .passed

/-- Errors of `accept` that tell that the number is no listener: `EBADF`, `EINVAL`, `ENOTSOCK`. -/
def unusable : List Nat := [9, 22, 88]

/-- The loop goes on, alone. -/
inductive LoopStep (g : Shared) (l : Loop) : Shared → Loop → Prop where
  | enter : l.pc = .top → g.running = true →
      LoopStep g l g { l with pc := .accepting (g.net.fds l.fd = some .listener) }
  | stopped : l.pc = .top → g.running = false → LoopStep g l g { l with pc := .left }
  | accept {fd : Nat} : l.pc = .accepting true → g.net.fds fd = none →
      LoopStep g l { g with net := g.net.accept fd }
        { l with failing := false, pc := .got fd g.net.conns }
  | fail {live : Bool} {errno : Nat} : l.pc = .accepting live →
      LoopStep g l g { l with pc := if g.running then .failed errno else .left }
  | unusable {errno : Nat} : l.pc = .failed errno → errno ∈ unusable →
      LoopStep g l g { l with pc := .left }
  | retry {errno : Nat} : l.pc = .failed errno → errno ∉ PeerServer.unusable →
      LoopStep g l g { l with failing := true, pc := .top }
  | claim {fd id : Nat} : l.pc = .got fd id → g.inflight < maxInflight →
      LoopStep g l g.fetchAdd { l with pc := .claimed fd id }
  | exceed {fd id : Nat} : l.pc = .got fd id → maxInflight ≤ g.inflight →
      LoopStep g l g.fetchAdd { l with pc := .beyond fd id }
  | undo {fd id : Nat} : l.pc = .beyond fd id →
      LoopStep g l { g.fetchSub with net := g.net.act fd (.turned .refused) }
        { l with pc := .counting fd id }
  | count {fd id : Nat} : l.pc = .counting fd id →
      LoopStep g l { g with journal := g.journal.bump .drop }
        { l with pc := .warning fd id .asking }
  | warn {fd id : Nat} {pc pc' : WarnPc} {j' : Journal} : l.pc = .warning fd id pc →
      WarnStep .drop g.clock g.journal pc j' pc' →
      LoopStep g l { g with journal := j' } { l with pc := .warning fd id pc' }
  | warned {fd id : Nat} : l.pc = .warning fd id .passed →
      LoopStep g l g { l with pc := .closing fd id .refused }
  | noThread {fd id : Nat} : l.pc = .claimed fd id →
      LoopStep g l { g with net := g.net.act fd (.turned .unspawned) }
        { l with pc := .unclaiming fd id }
  | unclaim {fd id : Nat} : l.pc = .unclaiming fd id →
      LoopStep g l g.fetchSub { l with pc := .closing fd id .unspawned }
  | close {fd id : Nat} {why : Turned} : l.pc = .closing fd id why →
      LoopStep g l { g with net := g.net.close fd } { l with pc := .top }

/-- Where a handler goes with its answer. -/
def afterAnswer : Reply → HandlerPc
  | .malformed => .releasing
  | .unauthorized => .counting .auth
  | .methodNotAllowed => .counting .method
  | _ => .replying

section Answers

variable {δ : Type*} [DecidableEq δ] (sha256 : List UInt8 → δ) (psk : List UInt8)

/-- A handler goes on. The head that it reads is any, or none. -/
inductive HandlerStep (g : Shared) (h : Handler) : Shared → Handler → Prop where
  | answer (head : List UInt8) {r : Reply} : h.pc = .reading → handleConn sha256 psk head = r →
      HandlerStep g h { g with net := g.net.act h.fd (.answered r) }
        { h with reply := r, pc := afterAnswer r }
  | noHead : h.pc = .reading →
      HandlerStep g h { g with net := g.net.act h.fd (.answered .malformed) }
        { h with reply := .malformed, pc := .releasing }
  | count {w : Warn} : h.pc = .counting w →
      HandlerStep g h { g with journal := g.journal.bump w } { h with pc := .warning w .asking }
  | warn {w : Warn} {pc pc' : WarnPc} {j' : Journal} : h.pc = .warning w pc →
      WarnStep w g.clock g.journal pc j' pc' →
      HandlerStep g h { g with journal := j' } { h with pc := .warning w pc' }
  | warned {w : Warn} : h.pc = .warning w .passed → HandlerStep g h g { h with pc := .replying }
  | replied : h.pc = .replying → HandlerStep g h g { h with pc := .releasing }
  | release : h.pc = .releasing → HandlerStep g h g.fetchSub { h with pc := .closing }

/-! ## Steps of the server -/

inductive ServePc where
  /-- Not started, or before the lock. -/
  | waiting
  | locked
  | spawning (rest : List Nat)
  | joining
  | returned

inductive StopPc where
  | idle
  /-- It has stored that nothing runs. -/
  | locking
  | closing (rest : List Nat)
  | returned

inductive DeinitPc where
  | stopping (pc : StopPc)
  | joining
  | draining (waited : Nat)
  | deciding
  /-- The store is freed, or it is not. -/
  | ended (freed : Bool)
  /-- In `teardownMount`; `State` itself is freed, or it is not. -/
  | tornDown (freed destroyed : Bool)

/-- Who holds `fds_mu`. -/
inductive Locker where
  | serve
  | destroy
  | deinit
  deriving DecidableEq

structure World where
  g : Shared
  listenFds : List Nat
  mu : Option Locker
  serve : ServePc
  /-- The `stop` of `ll_destroy`. -/
  destroy : StopPc
  deinit : DeinitPc
  loops : Multiset Loop
  handlers : Multiset Handler

/-- `stop`, by either caller. -/
inductive StopStep (who : Locker) (s : World) : StopPc → World → StopPc → Prop where
  | store : StopStep who s .idle { s with g.running := false } .locking
  | lock : s.mu = none → StopStep who s .locking { s with mu := some who } (.closing s.listenFds)
  | close {k : Nat} {rest : List Nat} :
      StopStep who s (.closing (k :: rest)) { s with g.net := s.g.net.close k } (.closing rest)
  | unlock : StopStep who s (.closing []) { s with listenFds := [], mu := none } .returned

inductive ServeStep (s : World) : World → Prop where
  | noWorker : s.serve = .waiting → ServeStep s { s with serve := .returned }
  | lock : s.serve = .waiting → s.mu = none →
      ServeStep s { s with serve := .locked, mu := some .serve }
  | noMemory : s.serve = .locked → ServeStep s { s with serve := .returned, mu := none }
  | memory : s.serve = .locked → ServeStep s { s with serve := .spawning s.listenFds }
  | spawn {k : Nat} {rest : List Nat} : s.serve = .spawning (k :: rest) →
      ServeStep s { s with serve := .spawning rest, loops := ⟨k, false, .top⟩ ::ₘ s.loops }
  | noThread {k : Nat} {rest : List Nat} : s.serve = .spawning (k :: rest) →
      ServeStep s { s with serve := .spawning rest }
  | unlock : s.serve = .spawning [] → ServeStep s { s with serve := .joining, mu := none }
  | joined : s.serve = .joining → s.loops = 0 → ServeStep s { s with serve := .returned }

/-- How often `deinit` looks. -/
def drainLooks : Nat := 400

inductive DeinitStep (s : World) : World → Prop where
  | stop {pc pc' : StopPc} {s' : World} : s.deinit = .stopping pc →
      StopStep .deinit s pc s' pc' → DeinitStep s { s' with deinit := .stopping pc' }
  | stopped : s.deinit = .stopping .returned → DeinitStep s { s with deinit := .joining }
  | joined : s.deinit = .joining → s.serve = .returned →
      DeinitStep s { s with deinit := .draining 0 }
  | sleep {waited : Nat} : s.deinit = .draining waited → s.g.inflight ≠ 0 → waited < drainLooks →
      DeinitStep s { s with deinit := .draining (waited + 1) }
  | drained {waited : Nat} : s.deinit = .draining waited →
      s.g.inflight = 0 ∨ drainLooks ≤ waited → DeinitStep s { s with deinit := .deciding }
  | decide : s.deinit = .deciding → DeinitStep s { s with deinit := .ended (s.g.inflight = 0) }
  | tearDown {freed : Bool} : s.deinit = .ended freed →
      DeinitStep s { s with deinit := .tornDown freed (s.g.inflight = 0) }

/-- Time passes, and the rest of the process has descriptors. -/
inductive EnvStep (s : World) : World → Prop where
  | tick {now : Int} : s.g.clock ≤ now → now < 2 ^ 63 → EnvStep s { s with g.clock := now }
  | opens {k : Nat} : s.g.net.fds k = none →
      EnvStep s { s with g.net.fds := Function.update s.g.net.fds k (some .other) }
  | closes {k : Nat} : s.g.net.fds k = some .other →
      EnvStep s { s with g.net.fds := Function.update s.g.net.fds k none }

inductive Step (s : World) : World → Prop where
  | loop {l l' : Loop} {g' : Shared} {rest : Multiset Loop} : s.loops = l ::ₘ rest →
      LoopStep s.g l g' l' → Step s { s with g := g', loops := l' ::ₘ rest }
  /-- A handler is started, and detached. -/
  | spawn {l : Loop} {fd id : Nat} {rest : Multiset Loop} : s.loops = l ::ₘ rest →
      l.pc = .claimed fd id →
      Step s { s with g.net := s.g.net.act fd .handled, loops := { l with pc := .top } ::ₘ rest,
                      handlers := ⟨fd, id, .malformed, .reading⟩ ::ₘ s.handlers }
  | leave {l : Loop} {rest : Multiset Loop} : s.loops = l ::ₘ rest → l.pc = .left →
      Step s { s with loops := rest }
  | handler {h h' : Handler} {g' : Shared} {rest : Multiset Handler} : s.handlers = h ::ₘ rest →
      HandlerStep sha256 psk s.g h g' h' → Step s { s with g := g', handlers := h' ::ₘ rest }
  | exit {h : Handler} {rest : Multiset Handler} : s.handlers = h ::ₘ rest → h.pc = .closing →
      Step s { s with g.net := s.g.net.close h.fd, handlers := rest }
  | serve {s' : World} : ServeStep s s' → Step s s'
  | destroy {pc pc' : StopPc} {s' : World} : s.destroy = pc → StopStep .destroy s pc s' pc' →
      Step s { s' with destroy := pc' }
  | deinit {s' : World} : DeinitStep s s' → Step s s'
  | env {s' : World} : EnvStep s s' → Step s s'

/-- Before the first thread: the listeners are open, and nothing was accepted yet. -/
structure Start (s : World) : Prop where
  running : s.g.running = true
  inflight : s.g.inflight = 0
  listeners : ∀ k ∈ s.listenFds, s.g.net.fds k = some .listener
  nodup : s.listenFds.Nodup
  /-- One port each. -/
  ports : s.listenFds.length ≤ 65536
  conns : s.g.net.conns = 0
  noConn : ∀ k id, s.g.net.fds k ≠ some (.conn id)
  hist : ∀ id, s.g.net.hist id = []
  slot : ∀ w, s.g.journal.slot w = 0
  claims : ∀ w, s.g.journal.claims w = []
  lines : ∀ w, s.g.journal.lines w = 0
  count : ∀ w, s.g.journal.count w = 0
  clock : 0 ≤ s.g.clock ∧ s.g.clock < 2 ^ 63
  mu : s.mu = none
  serve : s.serve = .waiting
  destroy : s.destroy = .idle
  deinit : s.deinit = .stopping .idle
  loops : s.loops = 0
  handlers : s.handlers = 0

/-! ## The cap -/

/-- The thread has a claim that stands. -/
def Loop.admitted (l : Loop) : Nat :=
  match l.pc with
  | .claimed .. | .unclaiming .. => 1
  | _ => 0

/-- The thread has a claim that it will take back. -/
def Loop.beyond (l : Loop) : Nat :=
  match l.pc with
  | .beyond .. => 1
  | _ => 0

def Handler.admitted (h : Handler) : Nat :=
  match h.pc with
  | .closing => 0
  | _ => 1

/-- The connections that are served, and those that are about to be. -/
def World.admitted (s : World) : Nat :=
  tally Loop.admitted s.loops + tally Handler.admitted s.handlers

def World.beyond (s : World) : Nat := tally Loop.beyond s.loops

/-- How many loops `serve` may still start. -/
def World.unstarted (s : World) : Nat :=
  match s.serve with
  | .waiting | .locked => s.listenFds.length
  | .spawning rest => rest.length
  | .joining | .returned => 0

structure Capped (s : World) : Prop where
  cap : s.admitted ≤ maxInflight
  count : s.g.inflight = s.admitted + s.beyond
  loops : s.loops.card + s.unstarted ≤ 65536

theorem Loop.beyond_le (l : Loop) : l.beyond ≤ 1 := by
  unfold Loop.beyond
  split <;> decide

theorem fetchAdd_inflight {g : Shared} (h : g.inflight + 1 < 2 ^ 32) :
    g.fetchAdd.inflight = g.inflight + 1 := by
  unfold Shared.fetchAdd
  dsimp only
  omega

theorem fetchSub_inflight {g : Shared} (h : 1 ≤ g.inflight) :
    g.fetchSub.inflight = g.inflight - 1 := by
  unfold Shared.fetchSub
  dsimp only
  rw [if_neg (by omega)]

/-- What a step of a loop does to the counter, and when a claim stands. -/
theorem LoopStep.inflight {g g' : Shared} {l l' : Loop} (h : LoopStep g l g' l')
    (hmax : g.inflight + 1 < 2 ^ 32) (hown : l.admitted + l.beyond ≤ g.inflight) :
    g'.inflight + (l.admitted + l.beyond) = g.inflight + (l'.admitted + l'.beyond) ∧
      (l'.admitted ≤ l.admitted ∨ l'.admitted = 1 ∧ g.inflight < maxInflight) := by
  have hadd := fetchAdd_inflight hmax
  have hsub := @fetchSub_inflight g
  cases h with
  | enter hpc | stopped hpc | accept hpc | unusable hpc | retry hpc | count hpc | warn hpc
    | warned hpc | close hpc | noThread hpc =>
    simp [Loop.admitted, Loop.beyond, hpc]
  | @fail live errno hpc =>
    cases g.running <;> simp [Loop.admitted, Loop.beyond, hpc]
  | claim hpc hlt =>
    rw [hadd]
    simp [Loop.admitted, Loop.beyond, hpc, hlt]
  | exceed hpc hge =>
    rw [hadd]
    simp [Loop.admitted, Loop.beyond, hpc]
  | undo hpc =>
    simp only [Loop.admitted, Loop.beyond, hpc] at hown ⊢
    rw [hsub (by omega)]
    omega
  | unclaim hpc =>
    simp only [Loop.admitted, Loop.beyond, hpc] at hown ⊢
    rw [hsub (by omega)]
    omega

theorem HandlerStep.inflight {g g' : Shared} {h h' : Handler}
    (hstep : HandlerStep sha256 psk g h g' h') (hown : h.admitted ≤ g.inflight) :
    g'.inflight + h.admitted = g.inflight + h'.admitted ∧ h'.admitted ≤ h.admitted := by
  cases hstep with
  | answer head hpc hr =>
    have hafter : ∀ r, afterAnswer r ≠ .closing := by
      intro r
      cases r <;> simp [afterAnswer]
    simp [Handler.admitted, hpc, hafter]
  | noHead hpc | count hpc | warn hpc | warned hpc | replied hpc =>
    simp [Handler.admitted, hpc]
  | release hpc =>
    simp only [Handler.admitted, hpc] at hown ⊢
    rw [fetchSub_inflight hown]
    omega

theorem StopStep.frame {who : Locker} {s s' : World} {pc pc' : StopPc}
    (h : StopStep who s pc s' pc') : s'.g.inflight = s.g.inflight ∧ s'.loops = s.loops ∧
      s'.handlers = s.handlers ∧ s'.serve = s.serve ∧ s'.g.journal = s.g.journal ∧
      s'.g.clock = s.g.clock ∧ s'.listenFds.length ≤ s.listenFds.length := by
  cases h with
  | store | lock hmu | close => exact ⟨rfl, rfl, rfl, rfl, rfl, rfl, le_refl _⟩
  | unlock => exact ⟨rfl, rfl, rfl, rfl, rfl, rfl, Nat.zero_le _⟩

theorem StopStep.callers {who : Locker} {s s' : World} {pc pc' : StopPc}
    (h : StopStep who s pc s' pc') : s'.destroy = s.destroy ∧ s'.deinit = s.deinit := by
  cases h <;> exact ⟨rfl, rfl⟩

theorem Capped.of_frame {s s' : World} (h : Capped s) (hinflight : s'.g.inflight = s.g.inflight)
    (hloops : s'.loops = s.loops) (hhandlers : s'.handlers = s.handlers)
    (hserve : s'.unstarted ≤ s.unstarted) : Capped s' := by
  have hadmitted : s'.admitted = s.admitted := by
    unfold World.admitted
    rw [hloops, hhandlers]
  have hbeyond : s'.beyond = s.beyond := by
    unfold World.beyond
    rw [hloops]
  refine ⟨hadmitted ▸ h.cap, ?_, ?_⟩
  · rw [hinflight, hadmitted, hbeyond]
    exact h.count
  · have hmax := h.loops
    rw [hloops]
    omega

theorem StopStep.unstarted {who : Locker} {s s' : World} {pc pc' : StopPc}
    (h : StopStep who s pc s' pc') : s'.unstarted ≤ s.unstarted := by
  obtain ⟨-, -, -, hserve, -, -, hlen⟩ := h.frame
  unfold World.unstarted
  rw [hserve]
  cases s.serve with
  | waiting | locked => exact hlen
  | spawning rest | joining | returned => exact le_refl _

theorem Capped.max {s : World} (h : Capped s) : s.g.inflight + 1 < 2 ^ 32 := by
  have hcap := h.cap
  have hloops := h.loops
  have hbeyond := tally_le_card Loop.beyond_le s.loops
  have hcount := h.count
  unfold maxInflight at hcap
  unfold World.beyond at hcount
  omega

theorem capped_serve {s s' : World} (h : Capped s) (hstep : ServeStep s s') : Capped s' := by
  cases hstep with
  | @spawn k rest hpc =>
    have hcap := h.cap
    have hcount := h.count
    have hloops := h.loops
    unfold World.unstarted at hloops
    simp only [hpc, List.length_cons] at hloops
    constructor
    · simpa [World.admitted, Loop.admitted] using hcap
    · simpa [World.admitted, World.beyond, Loop.admitted, Loop.beyond] using hcount
    · simp only [Multiset.card_cons, World.unstarted]
      omega
  | noWorker hpc | lock hpc hmu | noMemory hpc | memory hpc | noThread hpc | unlock hpc
    | joined hpc hnone =>
    refine h.of_frame rfl rfl rfl ?_
    simp [World.unstarted, hpc]

theorem capped_deinit {s s' : World} (h : Capped s) (hstep : DeinitStep s s') : Capped s' := by
  cases hstep with
  | stop hpc hstop =>
    obtain ⟨hinflight, hloops, hhandlers, -⟩ := hstop.frame
    exact h.of_frame hinflight hloops hhandlers hstop.unstarted
  | stopped hpc | joined hpc hserve | sleep hpc hne hlt | drained hpc hdone | decide hpc
    | tearDown hpc => exact h.of_frame rfl rfl rfl (le_refl _)

/-- **The cap, step by step.** -/
theorem capped_step {s s' : World} (h : Capped s) (hstep : Step sha256 psk s s') : Capped s' := by
  have hmax := h.max
  obtain ⟨hcap, hcount, hloops⟩ := h
  have hsums := And.intro hcap hcount
  unfold World.admitted World.beyond at hsums
  obtain ⟨hadmitted, htotal⟩ := hsums
  cases hstep with
  | @loop l l' g' rest hl hstep =>
    simp only [hl, tally_cons] at hadmitted htotal
    obtain ⟨hinflight, hstands⟩ := hstep.inflight hmax (by omega)
    constructor
    · simp only [World.admitted, tally_cons]
      rcases hstands with hle | ⟨hone, hlt⟩
      · omega
      · omega
    · simp only [World.admitted, World.beyond, tally_cons]
      omega
    · rw [hl] at hloops
      simpa [World.unstarted] using hloops
  | @spawn l fd id rest hl hpc =>
    simp only [hl, tally_cons] at hadmitted htotal
    have hold : l.admitted = 1 ∧ l.beyond = 0 := by simp [Loop.admitted, Loop.beyond, hpc]
    constructor
    · simp [World.admitted, Loop.admitted, Handler.admitted]
      omega
    · simp [World.admitted, World.beyond, Loop.admitted, Loop.beyond, Handler.admitted]
      omega
    · rw [hl] at hloops
      simpa [World.unstarted] using hloops
  | @leave l rest hl hpc =>
    simp only [hl, tally_cons] at hadmitted htotal
    have hold : l.admitted = 0 ∧ l.beyond = 0 := by simp [Loop.admitted, Loop.beyond, hpc]
    constructor
    · simp only [World.admitted]
      omega
    · simp only [World.admitted, World.beyond]
      omega
    · rw [hl, Multiset.card_cons] at hloops
      simp only [World.unstarted] at hloops ⊢
      omega
  | @handler k k' g' rest hh hstep =>
    simp only [hh, tally_cons] at hadmitted htotal
    obtain ⟨hinflight, hle⟩ := hstep.inflight sha256 psk (by omega)
    constructor
    · simp only [World.admitted, tally_cons]
      omega
    · simp only [World.admitted, World.beyond, tally_cons]
      omega
    · exact hloops
  | @exit k rest hh hpc =>
    simp only [hh, tally_cons] at hadmitted htotal
    have hold : k.admitted = 0 := by simp [Handler.admitted, hpc]
    constructor
    · simp only [World.admitted]
      omega
    · simp only [World.admitted, World.beyond]
      omega
    · exact hloops
  | serve hstep => exact capped_serve ⟨hcap, hcount, hloops⟩ hstep
  | destroy hpc hstep =>
    obtain ⟨hinflight, hsame, hhandlers, -⟩ := hstep.frame
    exact Capped.of_frame ⟨hcap, hcount, hloops⟩ hinflight hsame hhandlers hstep.unstarted
  | deinit hstep => exact capped_deinit ⟨hcap, hcount, hloops⟩ hstep
  | env hstep =>
    cases hstep with
    | tick hle hlt | opens hk | closes hk =>
      exact Capped.of_frame ⟨hcap, hcount, hloops⟩ rfl rfl rfl (le_refl _)

theorem capped_start {s : World} (h : Start s) : Capped s where
  cap := by simp [World.admitted, h.loops, h.handlers]
  count := by simp [World.admitted, World.beyond, h.loops, h.handlers, h.inflight]
  loops := by
    have hports := h.ports
    simpa [World.unstarted, h.loops, h.serve] using hports

/-- The states of a server's life. -/
def Reaches (s t : World) : Prop := Run (Step sha256 psk) Always s t

theorem capped_run {s t : World} (hstart : Start s) (h : Reaches sha256 psk s t) : Capped t :=
  @Run.invariant _ _ _ Capped (fun _ _ hinv hstep _ => capped_step sha256 psk hinv hstep) _ _
    (capped_start hstart) h

/-- A server with one listener. -/
def idle : World where
  g := {
    running := true
    inflight := 0
    net := {
      fds := fun k => if k = 3 then some .listener else none
      hist := fun _ => []
      conns := 0 }
    journal := {
      slot := fun _ => 0
      claims := fun _ => []
      lines := fun _ => 0
      count := fun _ => 0 }
    clock := 5000 }
  listenFds := [3]
  mu := none
  serve := .waiting
  destroy := .idle
  deinit := .stopping .idle
  loops := 0
  handlers := 0

theorem start_idle : Start idle where
  running := rfl
  inflight := rfl
  listeners := by simp [idle]
  nodup := by simp [idle]
  ports := by simp [idle]
  conns := rfl
  noConn := by
    intro k id
    simp only [idle]
    split <;> simp
  hist _ := rfl
  slot _ := rfl
  claims _ := rfl
  lines _ := rfl
  count _ := rfl
  clock := by simp [idle]
  mu := rfl
  serve := rfl
  destroy := rfl
  deinit := rfl
  loops := rfl
  handlers := rfl

/-- What the server with the key `k` comes to. -/
def Goes : World → World → Prop := Reaches (id : List UInt8 → List UInt8) [107]

/-- The one loop goes on. -/
theorem Goes.loop {s t : World} (h : Goes s t) {l l' : Loop} {g' : Shared} (hl : t.loops = {l})
    (hstep : LoopStep t.g l g' l') : Goes s { t with g := g', loops := {l'} } :=
  h.then (@Step.loop _ _ _ _ t l l' g' 0 hl hstep)

/-- `n` connections are served, under the numbers from 4 on. -/
def netOf : Nat → Net
  | 0 => idle.g.net
  | n + 1 => ((netOf n).accept (4 + n)).act (4 + n) .handled

def handlersOf : Nat → Multiset Handler
  | 0 => 0
  | n + 1 => ⟨4 + n, n, .malformed, .reading⟩ ::ₘ handlersOf n

def serving (n : Nat) : World :=
  { idle with
    g.inflight := n
    g.net := netOf n
    mu := some .serve
    serve := .spawning []
    loops := {⟨3, false, .top⟩}
    handlers := handlersOf n }

theorem netOf_spec (n : Nat) : (netOf n).fds 3 = some .listener ∧
    (∀ k, 4 + n ≤ k → (netOf n).fds k = none) ∧ (netOf n).conns = n := by
  have hact : ∀ (m : Net) (fd : Nat) (a : Act), (m.act fd a).fds = m.fds ∧
      (m.act fd a).conns = m.conns := by
    intro m fd a
    unfold Net.act
    split <;> exact ⟨rfl, rfl⟩
  induction n with
  | zero =>
    refine ⟨rfl, fun k hk => ?_, rfl⟩
    have hne : k ≠ 3 := by omega
    simp [netOf, idle, hne]
  | succ n ih =>
    obtain ⟨hlisten, hfree, hconns⟩ := ih
    obtain ⟨hfds, hcount⟩ := hact ((netOf n).accept (4 + n)) (4 + n) .handled
    have h3 : 3 ≠ 4 + n := by omega
    rw [netOf, hfds, hcount]
    refine ⟨?_, fun k hk => ?_, congrArg Nat.succ hconns⟩
    · simpa [Net.accept, Function.update_of_ne h3] using hlisten
    · have hne : k ≠ 4 + n := by omega
      simpa [Net.accept, Function.update_of_ne hne] using hfree k (by omega)

/-- A loop accepts. -/
theorem goes_accept {s : World} {fd : Nat} (hloops : s.loops = {⟨3, false, .top⟩})
    (hrunning : s.g.running = true) (hlisten : s.g.net.fds 3 = some .listener)
    (hfd : s.g.net.fds fd = none) : Goes s { s with
      g.net := s.g.net.accept fd
      loops := {⟨3, false, .got fd s.g.net.conns⟩} } := by
  have henter := @LoopStep.enter s.g ⟨3, false, .top⟩ rfl hrunning
  rw [hlisten] at henter
  have hcalled : Goes s _ := Goes.loop (Run.refl s) hloops henter
  exact hcalled.loop rfl (@LoopStep.accept _ _ fd rfl hfd)

/-- Up to the cap, each connection gets a handler. -/
theorem run_serving {n : Nat} (hn : n ≤ maxInflight) : Goes idle (serving n) := by
  induction n with
  | zero =>
    have hlocked := (Run.refl idle : Goes idle idle).then (.serve (.lock rfl rfl))
    exact (hlocked.then (.serve (.memory rfl))).then (.serve (.spawn rfl))
  | succ n ih =>
    obtain ⟨hlisten, hfree, hconns⟩ := netOf_spec n
    have hgot : Goes idle _ := (ih (by omega)).trans
      (@goes_accept (serving n) (4 + n) rfl rfl hlisten (hfree _ le_rfl))
    have hclaimed := hgot.loop rfl (.claim rfl hn)
    have hserved := hclaimed.then
      (@Step.spawn _ _ _ _ _ ⟨3, false, .claimed (4 + n) (netOf n).conns⟩ (4 + n) _ 0 rfl rfl)
    have hlt : n + 1 < 4294967296 := by
      unfold maxInflight at hn
      omega
    rw [hconns] at hserved
    unfold Goes Reaches
    simpa [serving, netOf, handlersOf, Shared.fetchAdd, Nat.mod_eq_of_lt hlt] using hserved

/-- A connection too many has been claimed for. -/
def exceeded : World :=
  { serving maxInflight with
    g.inflight := 17
    g.net := (netOf maxInflight).accept 20
    loops := {⟨3, false, .beyond 20 16⟩} }

theorem run_exceeded : Goes idle exceeded := by
  obtain ⟨hlisten, hfree, hconns⟩ := netOf_spec maxInflight
  have hgot : Goes idle _ := (run_serving le_rfl).trans
    (@goes_accept (serving maxInflight) 20 rfl rfl hlisten (hfree 20 (by decide)))
  have hid : (serving maxInflight).g.net.conns = 16 := hconns
  rw [hid] at hgot
  exact hgot.loop rfl (.exceed rfl le_rfl)

/-- It has been turned away, and the journal says so. -/
def refused : World :=
  { serving maxInflight with
    g.net := (((netOf maxInflight).accept 20).act 20 (.turned .refused)).close 20
    g.journal := ((idle.g.journal.bump .drop).claim .drop 5000).write .drop 5000 }

theorem run_refused : Goes idle refused := by
  have hundone := run_exceeded.loop rfl (.undo rfl)
  have hcounted := hundone.loop rfl (.count rfl)
  have htimed := hcounted.loop rfl (.warn rfl .time)
  have hloaded := htimed.loop rfl (.warn rfl .load)
  have hwon := hloaded.loop rfl (.warn rfl (.win (by decide) rfl))
  have hwritten := hwon.loop rfl (.warn rfl .line)
  have hwarned := hwritten.loop rfl (.warned rfl)
  exact hwarned.loop rfl (.close rfl)

/-- **Admission.** No more than sixteen connections are served at a time, and `http_inflight` is
their number, and that of the loops that are about to give a claim back. -/
theorem admission {s t : World} (hstart : Start s) (h : Reaches sha256 psk s t) :
    t.admitted ≤ maxInflight ∧ t.g.inflight = t.admitted + t.beyond ∧
      t.beyond ≤ t.loops.card := by
  have hcapped := capped_run sha256 psk hstart h
  exact ⟨hcapped.cap, hcapped.count, tally_le_card Loop.beyond_le t.loops⟩

theorem admission_exceeded : exceeded.admitted = maxInflight ∧ exceeded.beyond = 1 ∧
    exceeded.admitted ≤ maxInflight ∧
      exceeded.g.inflight = exceeded.admitted + exceeded.beyond ∧
        exceeded.beyond ≤ exceeded.loops.card :=
  ⟨rfl, rfl, admission _ _ start_idle run_exceeded⟩

/-! ## Connections -/

/-- What a thread answers for: a number, the connection it took the number for, and what it knows to
have happened to that. -/
structure Holding where
  fd : Nat
  id : Nat
  acts : List Act

def Loop.held (l : Loop) : Multiset Holding :=
  match l.pc with
  | .got fd id | .beyond fd id | .claimed fd id => {⟨fd, id, [.accepted]⟩}
  | .counting fd id | .warning fd id _ => {⟨fd, id, [.accepted, .turned .refused]⟩}
  | .unclaiming fd id => {⟨fd, id, [.accepted, .turned .unspawned]⟩}
  | .closing fd id why => {⟨fd, id, [.accepted, .turned why]⟩}
  | .top | .accepting _ | .failed _ | .left => 0

def Handler.acts (h : Handler) : List Act :=
  match h.pc with
  | .reading => [.accepted, .handled]
  | _ => [.accepted, .handled, .answered h.reply]

def Handler.held (h : Handler) : Multiset Holding := {⟨h.fd, h.id, h.acts⟩}

def World.held (s : World) : Multiset Holding :=
  pooled Loop.held s.loops + pooled Handler.held s.handlers

/-- A connection that is done with. -/
def Ended (acts : List Act) : Prop :=
  (∃ why, acts = [.accepted, .turned why, .closed]) ∨
    ∃ r, acts = [.accepted, .handled, .answered r, .closed]

/-- Each connection is somebody's, under the number that it has, or is done with. -/
structure Conns (n : Net) (held : Multiset Holding) : Prop where
  apart : (held.map Holding.id).Nodup
  own : ∀ x ∈ held, n.fds x.fd = some (.conn x.id) ∧ n.hist x.id = x.acts ∧ x.id < n.conns
  somebody : ∀ fd id, n.fds fd = some (.conn id) → ∃ x ∈ held, x.fd = fd ∧ x.id = id
  ended : ∀ id < n.conns, (∀ x ∈ held, x.id ≠ id) → Ended (n.hist id)
  fresh : ∀ id, n.conns ≤ id → n.hist id = []

section Holders

variable {n : Net} {held rest : Multiset Holding} {x : Holding}

theorem Conns.others (h : Conns n (x ::ₘ rest)) : ∀ y ∈ rest, y.id ≠ x.id := by
  intro y hy heq
  have hnodup := h.apart
  rw [Multiset.map_cons, Multiset.nodup_cons] at hnodup
  exact hnodup.1 (heq ▸ Multiset.mem_map_of_mem _ hy)

/-- **A new connection** is the accepter's. -/
theorem Conns.accept (h : Conns n held) {fd : Nat} (hfd : n.fds fd = none) :
    Conns (n.accept fd) (⟨fd, n.conns, [.accepted]⟩ ::ₘ held) := by
  have hold : ∀ y ∈ held, y.id ≠ n.conns := fun y hy => Nat.ne_of_lt (h.own y hy).2.2
  have hother : ∀ y ∈ held, y.fd ≠ fd := by
    intro y hy heq
    have hown := (h.own y hy).1
    rw [heq, hfd] at hown
    cases hown
  constructor
  · rw [Multiset.map_cons, Multiset.nodup_cons]
    refine ⟨fun hmem => ?_, h.apart⟩
    obtain ⟨y, hy, heq⟩ := Multiset.mem_map.mp hmem
    exact hold y hy heq
  · intro y hy
    rcases Multiset.mem_cons.mp hy with rfl | hy
    · simp [Net.accept]
    · obtain ⟨hown, hacts, hlt⟩ := h.own y hy
      refine ⟨?_, ?_, Nat.lt_succ_of_lt hlt⟩
      · simpa [Net.accept, Function.update_of_ne (hother y hy)] using hown
      · simpa [Net.accept, Function.update_of_ne (hold y hy)] using hacts
  · intro k id hk
    by_cases hkfd : k = fd
    · subst hkfd
      simp only [Net.accept, Function.update_self, Option.some.injEq, Desc.conn.injEq] at hk
      exact ⟨_, Multiset.mem_cons_self _ _, rfl, hk⟩
    · simp only [Net.accept, Function.update_of_ne hkfd] at hk
      obtain ⟨y, hy, hyk⟩ := h.somebody k id hk
      exact ⟨y, Multiset.mem_cons_of_mem hy, hyk⟩
  · intro id hid hnone
    have hne : id ≠ n.conns := by
      intro heq
      exact hnone _ (Multiset.mem_cons_self _ _) heq.symm
    have hlt : id < n.conns := by
      simp only [Net.accept] at hid
      omega
    have hended := h.ended id hlt fun y hy => hnone y (Multiset.mem_cons_of_mem hy)
    simpa [Net.accept, Function.update_of_ne hne] using hended
  · intro id hid
    simp only [Net.accept] at hid ⊢
    rw [Function.update_of_ne (by omega)]
    exact h.fresh id (by omega)

theorem Net.act_conn {fd id : Nat} (h : n.fds fd = some (.conn id)) (a : Act) :
    n.act fd a = { n with hist := Function.update n.hist id (n.hist id ++ [a]) } := by
  unfold Net.act
  rw [h]

theorem Net.act_fds (n : Net) (fd : Nat) (a : Act) : (n.act fd a).fds = n.fds := by
  unfold Net.act
  split <;> rfl

/-- **What a thread does on its number** happens to its connection. -/
theorem Conns.act (h : Conns n (x ::ₘ rest)) (a : Act) :
    Conns (n.act x.fd a) (⟨x.fd, x.id, x.acts ++ [a]⟩ ::ₘ rest) := by
  obtain ⟨hown, hhist, hlt⟩ := h.own x (Multiset.mem_cons_self _ _)
  have hothers := h.others
  have hapart := h.apart
  rw [Multiset.map_cons] at hapart
  rw [Net.act_conn hown]
  constructor
  · rw [Multiset.map_cons]
    exact hapart
  · intro y hy
    rcases Multiset.mem_cons.mp hy with rfl | hy
    · exact ⟨hown, by simp [hhist], hlt⟩
    · obtain ⟨hyown, hyacts, hylt⟩ := h.own y (Multiset.mem_cons_of_mem hy)
      exact ⟨hyown, by simpa [Function.update_of_ne (hothers y hy)] using hyacts, hylt⟩
  · intro k id hk
    obtain ⟨y, hy, hyk⟩ := h.somebody k id hk
    rcases Multiset.mem_cons.mp hy with rfl | hy
    · exact ⟨_, Multiset.mem_cons_self _ _, hyk⟩
    · exact ⟨y, Multiset.mem_cons_of_mem hy, hyk⟩
  · intro id hid hnone
    have hne : id ≠ x.id := fun heq => hnone _ (Multiset.mem_cons_self _ _) heq.symm
    have hended := h.ended id hid fun y hy => by
      rcases Multiset.mem_cons.mp hy with rfl | hy
      · exact hne.symm
      · exact hnone y (Multiset.mem_cons_of_mem hy)
    simpa [Function.update_of_ne hne] using hended
  · intro id hid
    dsimp only at hid ⊢
    rw [Function.update_of_ne (by omega)]
    exact h.fresh id hid

/-- **Who closes its number** is rid of its connection, and nobody else's is touched. -/
theorem Conns.close (h : Conns n (x ::ₘ rest)) (hended : Ended (x.acts ++ [.closed])) :
    Conns (n.close x.fd) rest := by
  obtain ⟨hown, hhist, hlt⟩ := h.own x (Multiset.mem_cons_self _ _)
  have hothers := h.others
  have hapart := h.apart
  rw [Multiset.map_cons, Multiset.nodup_cons] at hapart
  have hother : ∀ y ∈ rest, y.fd ≠ x.fd := by
    intro y hy heq
    have hyown := (h.own y (Multiset.mem_cons_of_mem hy)).1
    rw [heq, hown] at hyown
    exact hothers y hy (Desc.conn.inj (Option.some.inj hyown)).symm
  unfold Net.close
  rw [Net.act_conn hown]
  constructor
  · exact hapart.2
  · intro y hy
    obtain ⟨hyown, hyacts, hylt⟩ := h.own y (Multiset.mem_cons_of_mem hy)
    refine ⟨?_, ?_, hylt⟩
    · simpa [Function.update_of_ne (hother y hy)] using hyown
    · simpa [Function.update_of_ne (hothers y hy)] using hyacts
  · intro k id hk
    by_cases hkfd : k = x.fd
    · subst hkfd
      simp at hk
    · simp only [Function.update_of_ne hkfd] at hk
      obtain ⟨y, hy, hyk, hyid⟩ := h.somebody k id hk
      rcases Multiset.mem_cons.mp hy with rfl | hy
      · exact absurd hyk.symm hkfd
      · exact ⟨y, hy, hyk, hyid⟩
  · intro id hid hnone
    by_cases hne : id = x.id
    · subst hne
      simpa [hhist] using hended
    · have hold := h.ended id hid fun y hy => by
        rcases Multiset.mem_cons.mp hy with rfl | hy
        · exact Ne.symm hne
        · exact hnone y hy
      simpa [Function.update_of_ne hne] using hold
  · intro id hid
    dsimp only at hid ⊢
    rw [Function.update_of_ne (by omega)]
    exact h.fresh id hid

/-- A number that is no connection's changes what it stands for, and is none's after it. -/
theorem Conns.elsewhere (h : Conns n held) {fd : Nat} {d : Option Desc}
    (hold : ∀ id, n.fds fd ≠ some (.conn id)) (hnew : ∀ id, d ≠ some (.conn id)) :
    Conns { n with fds := Function.update n.fds fd d } held := by
  constructor
  · exact h.apart
  · intro y hy
    obtain ⟨hown, hrest⟩ := h.own y hy
    refine ⟨?_, hrest⟩
    have hne : y.fd ≠ fd := fun heq => hold y.id (heq ▸ hown)
    simpa [Function.update_of_ne hne] using hown
  · intro k id hk
    by_cases hkfd : k = fd
    · subst hkfd
      simp only [Function.update_self] at hk
      exact absurd hk (hnew id)
    · simp only [Function.update_of_ne hkfd] at hk
      exact h.somebody k id hk
  · exact h.ended
  · exact h.fresh

end Holders

theorem conns_loop {g g' : Shared} {l l' : Loop} {rest : Multiset Holding}
    (hstep : LoopStep g l g' l') (h : Conns g.net (l.held + rest)) :
    Conns g'.net (l'.held + rest) := by
  cases hstep with
  | enter hpc | stopped hpc | unusable hpc | retry hpc | claim hpc hlt | exceed hpc hge | count hpc
    | warn hpc | warned hpc | unclaim hpc => simpa [Loop.held, hpc] using h
  | @fail live errno hpc => cases g.running <;> simpa [Loop.held, hpc] using h
  | accept hpc hfd =>
    simp only [Loop.held, hpc, zero_add] at h
    exact h.accept hfd
  | @undo fd id hpc =>
    simp only [Loop.held, hpc, Multiset.singleton_add] at h ⊢
    exact h.act (.turned .refused)
  | @noThread fd id hpc =>
    simp only [Loop.held, hpc, Multiset.singleton_add] at h ⊢
    exact h.act (.turned .unspawned)
  | @close fd id why hpc =>
    simp only [Loop.held, hpc, Multiset.singleton_add, zero_add] at h ⊢
    exact h.close (Or.inl ⟨why, rfl⟩)

theorem conns_handler {g g' : Shared} {k k' : Handler} {rest : Multiset Holding}
    (hstep : HandlerStep sha256 psk g k g' k') (h : Conns g.net (k.held + rest)) :
    Conns g'.net (k'.held + rest) := by
  cases hstep with
  | @answer head r hpc hr =>
    have hafter : afterAnswer r ≠ .reading := by cases r <;> simp [afterAnswer]
    simp only [Handler.held, Handler.acts, hpc, Multiset.singleton_add] at h ⊢
    exact h.act (.answered r)
  | noHead hpc =>
    simp only [Handler.held, Handler.acts, hpc, Multiset.singleton_add] at h ⊢
    exact h.act (.answered .malformed)
  | count hpc | warn hpc | warned hpc | replied hpc | release hpc =>
    simpa [Handler.held, Handler.acts, hpc] using h

/-! ## Listeners -/

/-- Steps of a thread leave the listeners open. -/
def Keeps (n n' : Net) : Prop := ∀ k, n.fds k = some .listener → n'.fds k = some .listener

theorem keeps_accept {n : Net} {fd : Nat} (hfd : n.fds fd = none) : Keeps n (n.accept fd) := by
  intro k hk
  have hne : k ≠ fd := by
    rintro rfl
    rw [hfd] at hk
    cases hk
  simpa [Net.accept, Function.update_of_ne hne] using hk

theorem keeps_act (n : Net) (fd : Nat) (a : Act) : Keeps n (n.act fd a) := by
  intro k hk
  rw [Net.act_fds]
  exact hk

theorem keeps_close {n : Net} {fd id : Nat} (hfd : n.fds fd = some (.conn id)) :
    Keeps n (n.close fd) := by
  intro k hk
  have hne : k ≠ fd := by
    rintro rfl
    rw [hfd] at hk
    cases hk
  unfold Net.close
  dsimp only
  rw [Function.update_of_ne hne]
  exact hk

theorem keeps_loop {g g' : Shared} {l l' : Loop} {rest : Multiset Holding}
    (hstep : LoopStep g l g' l') (h : Conns g.net (l.held + rest)) : Keeps g.net g'.net := by
  cases hstep with
  | enter hpc | stopped hpc | unusable hpc | retry hpc | claim hpc hlt | exceed hpc hge | count hpc
    | warn hpc | warned hpc | unclaim hpc | fail hpc => exact fun k hk => hk
  | accept hpc hfd => exact keeps_accept hfd
  | undo hpc | noThread hpc => exact keeps_act _ _ _
  | @close fd id why hpc =>
    simp only [Loop.held, hpc, Multiset.singleton_add] at h
    exact keeps_close (h.own _ (Multiset.mem_cons_self _ _)).1

theorem keeps_handler {g g' : Shared} {k k' : Handler} (hstep : HandlerStep sha256 psk g k g' k') :
    Keeps g.net g'.net := by
  cases hstep with
  | answer head hpc hr | noHead hpc => exact keeps_act _ _ _
  | count hpc | warn hpc | warned hpc | replied hpc | release hpc => exact fun k hk => hk

/-- What a caller of `stop` still has to close. -/
def World.closing (s : World) : Locker → Option (List Nat)
  | .serve => none
  | .destroy =>
    match s.destroy with
    | .closing rest => some rest
    | _ => none
  | .deinit =>
    match s.deinit with
    | .stopping (.closing rest) => some rest
    | _ => none

/-- `serve` has the lock. -/
def ServePc.locks : ServePc → Prop
  | .locked | .spawning _ => True
  | _ => False

/-- The lock is one's at a time, and who has it works on listeners that are open. -/
structure Listening (s : World) : Prop where
  nodup : s.listenFds.Nodup
  serves : s.serve.locks → s.mu = some .serve
  closes : ∀ who rest, s.closing who = some rest →
    s.mu = some who ∧ rest.Nodup ∧ ∀ k ∈ rest, s.g.net.fds k = some .listener
  opened : s.mu = none ∨ s.mu = some .serve → ∀ k ∈ s.listenFds, s.g.net.fds k = some .listener
  spawns : ∀ rest, s.serve = .spawning rest → ∀ k ∈ rest, k ∈ s.listenFds

theorem Listening.of_keeps {s s' : World} (h : Listening s) (hkeeps : Keeps s.g.net s'.g.net)
    (hfds : s'.listenFds = s.listenFds) (hmu : s'.mu = s.mu) (hserve : s'.serve = s.serve)
    (hclosing : s'.closing = s.closing) : Listening s' where
  nodup := hfds ▸ h.nodup
  serves := by
    rw [hserve, hmu]
    exact h.serves
  closes := by
    intro who rest hrest
    rw [hclosing] at hrest
    obtain ⟨hlock, hnodup, hopen⟩ := h.closes who rest hrest
    exact ⟨hmu ▸ hlock, hnodup, fun k hk => hkeeps k (hopen k hk)⟩
  opened := by
    intro hlock k hk
    rw [hmu] at hlock
    rw [hfds] at hk
    exact hkeeps k (h.opened hlock k hk)
  spawns := by
    rw [hserve, hfds]
    exact h.spawns

theorem listening_serve {s s' : World} (h : Listening s) (hstep : ServeStep s s') :
    Listening s' := by
  have hfree : s.serve.locks → ∀ who, s.closing who = none := by
    intro hlocks who
    by_contra hne
    obtain ⟨rest, hrest⟩ := Option.ne_none_iff_exists'.mp hne
    have hmu := (h.closes who rest hrest).1
    rw [h.serves hlocks] at hmu
    cases hmu
    cases hrest
  cases hstep with
  | noWorker hpc =>
    exact ⟨h.nodup, False.elim, h.closes, h.opened, fun rest hrest => nomatch hrest⟩
  | lock hpc hmu =>
    refine ⟨h.nodup, fun _ => rfl, ?_, fun _ => h.opened (Or.inl hmu), ?_⟩
    · intro who rest hrest
      have hlock := (h.closes who rest hrest).1
      rw [hmu] at hlock
      cases hlock
    · intro rest hrest
      cases hrest
  | noMemory hpc =>
    have hlocks : s.serve.locks := by simp [hpc, ServePc.locks]
    refine ⟨h.nodup, False.elim, ?_, fun _ => h.opened (Or.inr (h.serves hlocks)), ?_⟩
    · intro who rest hrest
      have hnone : s.closing who = some rest := hrest
      rw [hfree hlocks who] at hnone
      cases hnone
    · intro rest hrest
      cases hrest
  | memory hpc =>
    have hlocks : s.serve.locks := by simp [hpc, ServePc.locks]
    refine ⟨h.nodup, fun _ => h.serves hlocks, h.closes, h.opened, ?_⟩
    intro rest hrest
    cases hrest
    exact fun k hk => hk
  | @spawn k rest hpc | @noThread k rest hpc =>
    have hlocks : s.serve.locks := by simp [hpc, ServePc.locks]
    refine ⟨h.nodup, fun _ => h.serves hlocks, h.closes, h.opened, ?_⟩
    intro rest' hrest
    cases hrest
    exact fun j hj => h.spawns _ hpc j (List.mem_cons_of_mem _ hj)
  | unlock hpc =>
    have hlocks : s.serve.locks := by simp [hpc, ServePc.locks]
    refine ⟨h.nodup, False.elim, ?_, fun _ => h.opened (Or.inr (h.serves hlocks)), ?_⟩
    · intro who rest hrest
      have hnone : s.closing who = some rest := hrest
      rw [hfree hlocks who] at hnone
      cases hnone
    · intro rest hrest
      cases hrest
  | joined hpc hnone =>
    exact ⟨h.nodup, False.elim, h.closes, h.opened, fun rest hrest => nomatch hrest⟩

/-- What a program point of `stop` has to close. -/
def StopPc.rest : StopPc → Option (List Nat)
  | .closing rest => some rest
  | _ => none

/-- **`stop` closes what `serve` has the lock for**: one of the two at a time. -/
theorem listening_stop {who : Locker} {s s' t : World} {pc pc' : StopPc} (h : Listening s)
    (hstep : StopStep who s pc s' pc') (hwho : who ≠ .serve) (hown : s.closing who = pc.rest)
    (hnet : t.g = s'.g) (hfds : t.listenFds = s'.listenFds) (hmu : t.mu = s'.mu)
    (hserve : t.serve = s'.serve) (hnew : t.closing who = pc'.rest)
    (hother : ∀ w, w ≠ who → t.closing w = s.closing w) : Listening t := by
  cases hstep with
  | store =>
    refine h.of_keeps (by rw [hnet]; exact fun k hk => hk) hfds hmu hserve ?_
    funext w
    by_cases hw : w = who
    · rw [hw, hnew, hown]
      rfl
    · exact hother w hw
  | lock hfree =>
    have hnobody : ∀ w, s.closing w = none := by
      intro w
      by_contra hne
      obtain ⟨rest, hrest⟩ := Option.ne_none_iff_exists'.mp hne
      have hlock := (h.closes w rest hrest).1
      rw [hfree] at hlock
      cases hlock
    refine ⟨hfds ▸ h.nodup, ?_, ?_, ?_, ?_⟩
    · intro hlocks
      rw [hserve] at hlocks
      have hlock := h.serves hlocks
      rw [hfree] at hlock
      cases hlock
    · intro w rest hrest
      by_cases hw : w = who
      · subst hw
        rw [hnew] at hrest
        cases hrest
        rw [hmu, hnet]
        exact ⟨rfl, h.nodup, h.opened (Or.inl hfree)⟩
      · rw [hother w hw, hnobody w] at hrest
        cases hrest
    · intro hlock
      rw [hmu] at hlock
      simp [hwho] at hlock
    · rw [hserve, hfds]
      exact h.spawns
  | @close k rest =>
    obtain ⟨hlock, hnodup, hopen⟩ := h.closes who (k :: rest) hown
    obtain ⟨hk, hnodup⟩ := List.nodup_cons.mp hnodup
    have hnotServe : s.mu ≠ some .serve := by simp [hlock, hwho]
    refine ⟨hfds ▸ h.nodup, ?_, ?_, ?_, ?_⟩
    · intro hlocks
      rw [hserve] at hlocks
      exact absurd (h.serves hlocks) hnotServe
    · intro w rest' hrest
      by_cases hw : w = who
      · subst hw
        rw [hnew] at hrest
        cases hrest
        rw [hmu, hnet]
        refine ⟨hlock, hnodup, fun j hj => ?_⟩
        have hne : j ≠ k := fun heq => hk (heq ▸ hj)
        unfold Net.close
        dsimp only
        rw [Function.update_of_ne hne]
        exact hopen j (List.mem_cons_of_mem _ hj)
      · rw [hother w hw] at hrest
        have hlock' := (h.closes w rest' hrest).1
        rw [hlock] at hlock'
        exact absurd (Option.some.inj hlock').symm hw
    · intro hlock'
      rw [hmu] at hlock'
      simp [hlock, hwho] at hlock'
    · rw [hserve, hfds]
      exact h.spawns
  | unlock =>
    obtain ⟨hlock, -, -⟩ := h.closes who [] hown
    have hnotServe : ¬ s.serve.locks := by
      intro hlocks
      have hserves := h.serves hlocks
      rw [hlock] at hserves
      exact hwho (Option.some.inj hserves)
    refine ⟨hfds ▸ List.nodup_nil, ?_, ?_, ?_, ?_⟩
    · intro hlocks
      rw [hserve] at hlocks
      exact absurd hlocks hnotServe
    · intro w rest hrest
      by_cases hw : w = who
      · subst hw
        rw [hnew] at hrest
        cases hrest
      · rw [hother w hw] at hrest
        have hlock' := (h.closes w rest hrest).1
        rw [hlock] at hlock'
        exact absurd (Option.some.inj hlock').symm hw
    · intro _ k hk
      rw [hfds] at hk
      cases hk
    · intro rest hrest
      rw [hserve] at hrest
      have hlocks : s.serve.locks := by
        have hspawning : s.serve = .spawning rest := hrest
        simp [hspawning, ServePc.locks]
      exact absurd hlocks hnotServe

theorem closing_destroy {s : World} {pc : StopPc} (hpc : s.destroy = pc) :
    s.closing .destroy = pc.rest := by
  simp only [World.closing, hpc]
  cases pc <;> rfl

theorem closing_deinit {s : World} {pc : StopPc} (hpc : s.deinit = .stopping pc) :
    s.closing .deinit = pc.rest := by
  simp only [World.closing, hpc]
  cases pc <;> rfl

/-- Descriptors: connections are their threads', and listeners are open. -/
structure Kept (s : World) : Prop where
  conns : Conns s.g.net s.held
  listening : Listening s

theorem conns_stop {who : Locker} {s s' : World} {pc pc' : StopPc} (h : Kept s)
    (hstep : StopStep who s pc s' pc') (hown : s.closing who = pc.rest) :
    Conns s'.g.net s.held := by
  cases hstep with
  | store | lock hfree | unlock => exact h.conns
  | @close k rest =>
    have hopen := (h.listening.closes who (k :: rest) hown).2.2 k List.mem_cons_self
    have hact : s.g.net.act k .closed = s.g.net := by
      unfold Net.act
      rw [hopen]
    have hnone : ∀ id, s.g.net.fds k ≠ some (.conn id) := by simp [hopen]
    have hclosed := h.conns.elsewhere hnone (d := none) (by simp)
    simp only [Net.close, hact]
    exact hclosed

theorem kept_deinit {s s' : World} (h : Kept s) (hstep : DeinitStep s s') : Kept s' := by
  cases hstep with
  | @stop pc pc' t hpc hstop =>
    have hown := closing_deinit hpc
    obtain ⟨-, hloops, hhandlers, hserve, -, -, -⟩ := hstop.frame
    have hheld : World.held { t with deinit := .stopping pc' } = s.held := by
      unfold World.held
      dsimp only
      rw [hloops, hhandlers]
    have hnew : Conns t.g.net s.held := conns_stop h hstop hown
    refine ⟨by rw [hheld]; exact hnew, ?_⟩
    refine listening_stop (t := { t with deinit := .stopping pc' }) h.listening hstop (by simp) hown
      rfl rfl rfl rfl ?_ ?_
    · simp only [World.closing]
      cases pc' <;> rfl
    · intro w hw
      cases w with
      | serve => rfl
      | destroy => simp [World.closing, hstop.callers.1]
      | deinit => exact absurd rfl hw
  | stopped hpc | joined hpc hserve | sleep hpc hne hlt | drained hpc hdone | decide hpc
    | tearDown hpc =>
    refine ⟨h.conns, h.listening.of_keeps (fun k hk => hk) rfl rfl rfl ?_⟩
    funext w
    cases w with
    | serve | destroy => rfl
    | deinit => simp [World.closing, hpc]

/-- **Descriptors, step by step.** -/
theorem kept_step {s s' : World} (h : Kept s) (hstep : Step sha256 psk s s') : Kept s' := by
  have hconns := h.conns
  unfold World.held at hconns
  cases hstep with
  | @loop l l' g' rest hl hstep =>
    rw [hl, pooled_cons, add_assoc] at hconns
    refine ⟨?_, h.listening.of_keeps (keeps_loop hstep hconns) rfl rfl rfl rfl⟩
    have hnew := conns_loop hstep hconns
    simpa [World.held, add_assoc] using hnew
  | @spawn l fd id rest hl hpc =>
    rw [hl, pooled_cons, add_assoc] at hconns
    have hheld : l.held = {⟨fd, id, [.accepted]⟩} := by simp [Loop.held, hpc]
    rw [hheld, Multiset.singleton_add] at hconns
    refine ⟨?_, h.listening.of_keeps (keeps_act _ _ _) rfl rfl rfl rfl⟩
    have hnew := hconns.act .handled
    simp only [World.held, pooled_cons, Loop.held, Handler.held, Handler.acts, zero_add]
    rw [Multiset.singleton_add, Multiset.add_cons]
    exact hnew
  | @leave l rest hl hpc =>
    rw [hl, pooled_cons, add_assoc] at hconns
    have hheld : l.held = 0 := by simp [Loop.held, hpc]
    rw [hheld, zero_add] at hconns
    exact ⟨hconns, h.listening.of_keeps (fun k hk => hk) rfl rfl rfl rfl⟩
  | @handler k k' g' rest hh hstep =>
    rw [hh, pooled_cons, add_left_comm] at hconns
    refine ⟨?_, h.listening.of_keeps (keeps_handler sha256 psk hstep) rfl rfl rfl rfl⟩
    have hnew := conns_handler sha256 psk hstep hconns
    simp only [World.held, pooled_cons]
    rw [add_left_comm]
    exact hnew
  | @exit k rest hh hpc =>
    rw [hh, pooled_cons, add_left_comm] at hconns
    have hheld : k.held = {⟨k.fd, k.id, [.accepted, .handled, .answered k.reply]⟩} := by
      simp [Handler.held, Handler.acts, hpc]
    rw [hheld, Multiset.singleton_add] at hconns
    have hfd := (hconns.own _ (Multiset.mem_cons_self _ _)).1
    exact ⟨hconns.close (Or.inr ⟨k.reply, rfl⟩),
      h.listening.of_keeps (keeps_close hfd) rfl rfl rfl rfl⟩
  | serve hstep =>
    refine ⟨?_, listening_serve h.listening hstep⟩
    cases hstep with
    | noWorker hpc | lock hpc hmu | noMemory hpc | memory hpc | noThread hpc | unlock hpc
      | joined hpc hnone => exact hconns
    | spawn hpc => simpa [World.held, Loop.held] using hconns
  | @destroy pc pc' t hpc hstop =>
    have hown := closing_destroy hpc
    obtain ⟨-, hloops, hhandlers, -, -, -, -⟩ := hstop.frame
    have hheld : World.held { t with destroy := pc' } = s.held := by
      unfold World.held
      dsimp only
      rw [hloops, hhandlers]
    have hnew : Conns t.g.net s.held := conns_stop h hstop hown
    refine ⟨by rw [hheld]; exact hnew, ?_⟩
    refine listening_stop (t := { t with destroy := pc' }) h.listening hstop (by simp) hown
      rfl rfl rfl rfl ?_ ?_
    · simp only [World.closing]
      cases pc' <;> rfl
    · intro w hw
      cases w with
      | serve => rfl
      | deinit => simp [World.closing, hstop.callers.2]
      | destroy => exact absurd rfl hw
  | deinit hstep => exact kept_deinit h hstep
  | env hstep =>
    cases hstep with
    | tick hle hlt => exact ⟨hconns, h.listening.of_keeps (fun k hk => hk) rfl rfl rfl rfl⟩
    | @opens k hk =>
      refine ⟨h.conns.elsewhere (by simp [hk]) (by simp), ?_⟩
      refine h.listening.of_keeps (fun j hj => ?_) rfl rfl rfl rfl
      have hne : j ≠ k := by
        rintro rfl
        rw [hk] at hj
        cases hj
      simpa [Function.update_of_ne hne] using hj
    | @closes k hk =>
      refine ⟨h.conns.elsewhere (by simp [hk]) (by simp), ?_⟩
      refine h.listening.of_keeps (fun j hj => ?_) rfl rfl rfl rfl
      have hne : j ≠ k := by
        rintro rfl
        rw [hk] at hj
        cases hj
      simpa [Function.update_of_ne hne] using hj

theorem kept_start {s : World} (h : Start s) : Kept s := by
  have hheld : s.held = 0 := by simp [World.held, h.loops, h.handlers]
  have hclosing : ∀ who, s.closing who = none := by
    intro who
    cases who <;> simp [World.closing, h.destroy, h.deinit]
  refine ⟨⟨?_, ?_, ?_, ?_, fun id _ => h.hist id⟩, ⟨h.nodup, ?_, ?_, fun _ => h.listeners, ?_⟩⟩
  · simp [hheld]
  · simp [hheld]
  · intro fd id hfd
    exact absurd hfd (h.noConn fd id)
  · intro id hid
    rw [h.conns] at hid
    cases hid
  · intro hlocks
    rw [h.serve] at hlocks
    cases hlocks
  · intro who rest hrest
    rw [hclosing who] at hrest
    cases hrest
  · intro rest hrest
    rw [h.serve] at hrest
    cases hrest

theorem kept_run {s t : World} (hstart : Start s) (h : Reaches sha256 psk s t) : Kept t :=
  @Run.invariant _ _ _ Kept (fun _ _ hinv hstep _ => kept_step sha256 psk hinv hstep) _ _
    (kept_start hstart) h

/-- **Connections.** One that was accepted is either one thread's, open under the number that the
thread has for it, or it was closed, once, and was either turned away or answered before. What
`stop` closes are listeners, and a loop is started on one that is open. -/
theorem connections {s t : World} (hstart : Start s) (h : Reaches sha256 psk s t) :
    (∀ id < t.g.net.conns, (∃ x ∈ t.held, x.id = id) ∨ Ended (t.g.net.hist id)) ∧
      (∀ x ∈ t.held, t.g.net.fds x.fd = some (.conn x.id) ∧ t.g.net.hist x.id = x.acts) ∧
      (t.held.map Holding.id).Nodup ∧ (t.held.map Holding.fd).Nodup ∧
      (∀ who k rest, t.closing who = some (k :: rest) → t.g.net.fds k = some .listener) ∧
      ∀ k rest, t.serve = .spawning (k :: rest) → t.g.net.fds k = some .listener := by
  obtain ⟨hconns, hlistening⟩ := kept_run sha256 psk hstart h
  refine ⟨?_, fun x hx => ⟨(hconns.own x hx).1, (hconns.own x hx).2.1⟩, hconns.apart, ?_, ?_, ?_⟩
  · intro id hid
    by_cases hheld : ∃ x ∈ t.held, x.id = id
    · exact Or.inl hheld
    · exact Or.inr (hconns.ended id hid fun x hx heq => hheld ⟨x, hx, heq⟩)
  · -- two that had one number would have one connection
    apply Multiset.Nodup.map_on ?_ (Multiset.Nodup.of_map _ hconns.apart)
    intro x hx y hy heq
    have hxid := (hconns.own x hx).1
    rw [heq, (hconns.own y hy).1] at hxid
    exact (Multiset.inj_on_of_nodup_map hconns.apart x hx y hy
      (Desc.conn.inj (Option.some.inj hxid)).symm)
  · intro who k rest hrest
    exact (hlistening.closes who _ hrest).2.2 k List.mem_cons_self
  · intro k rest hrest
    have hmu := hlistening.serves (by simp [hrest, ServePc.locks])
    exact hlistening.opened (Or.inr hmu) k (hlistening.spawns _ hrest k List.mem_cons_self)

theorem connections_refused :
    refused.g.net.hist 16 = [.accepted, .turned .refused, .closed] ∧
    (∀ id < refused.g.net.conns, (∃ x ∈ refused.held, x.id = id) ∨ Ended (refused.g.net.hist id)) ∧
      (∀ x ∈ refused.held,
        refused.g.net.fds x.fd = some (.conn x.id) ∧ refused.g.net.hist x.id = x.acts) ∧
      (refused.held.map Holding.id).Nodup ∧ (refused.held.map Holding.fd).Nodup ∧
      (∀ who k rest, refused.closing who = some (k :: rest) →
        refused.g.net.fds k = some .listener) ∧
      ∀ k rest, refused.serve = .spawning (k :: rest) → refused.g.net.fds k = some .listener :=
  ⟨by decide, connections _ _ start_idle run_refused⟩

/-! ## The journal -/

/-- The stamp of a claim whose line is still to be written. -/
def WarnPc.unwritten : WarnPc → Multiset Int
  | .won now => {now}
  | _ => 0

def Loop.unwritten (w : Warn) (l : Loop) : Multiset Int :=
  match l.pc with
  | .warning _ _ pc => if w = .drop then pc.unwritten else 0
  | _ => 0

def Handler.unwritten (w : Warn) (h : Handler) : Multiset Int :=
  match h.pc with
  | .warning v pc => if w = v then pc.unwritten else 0
  | _ => 0

def World.unwritten (s : World) (w : Warn) : Multiset Int :=
  pooled (Loop.unwritten w) s.loops + pooled (Handler.unwritten w) s.handlers

/-- What a thread has read lies in the past. -/
def WarnPc.Past (clock : Int) : WarnPc → Prop
  | .timed now => 0 ≤ now ∧ now ≤ clock
  | .loaded now prev => (0 ≤ now ∧ now ≤ clock) ∧ 0 ≤ prev ∧ prev ≤ clock
  | .asking | .won _ | .passed => True

def Loop.Past (clock : Int) (l : Loop) : Prop :=
  ∀ fd id pc, l.pc = .warning fd id pc → pc.Past clock

def Handler.Past (clock : Int) (h : Handler) : Prop := ∀ w pc, h.pc = .warning w pc → pc.Past clock

/-- The stamps are a second apart, and each is of a line, written or not. -/
structure Stamped (clock : Int) (j : Journal) (won : Warn → Multiset Int) : Prop where
  range : 0 ≤ clock ∧ clock < 2 ^ 63
  spaced : ∀ w, Spaced authWarnMinGapMs 0 (j.claims w)
  slot : ∀ w, j.slot w = lastStamp 0 (j.claims w)
  past : ∀ w, 0 ≤ j.slot w ∧ j.slot w ≤ clock
  lines : ∀ w, (j.claims w : Multiset Int) = j.lines w + won w

theorem Stamped.congr {clock : Int} {j : Journal} {won : Warn → Multiset Int}
    (h : Stamped clock j won) (won' : Warn → Multiset Int) (hwon : ∀ w, won' w = won w) :
    Stamped clock j won' :=
  funext hwon ▸ h

theorem WarnPc.Past.mono {clock clock' : Int} {pc : WarnPc} (h : pc.Past clock)
    (hle : clock ≤ clock') : pc.Past clock' := by
  cases pc with
  | asking | won now | passed => trivial
  | timed now => exact ⟨h.1, h.2.trans hle⟩
  | loaded now prev => exact ⟨⟨h.1.1, h.1.2.trans hle⟩, h.2.1, h.2.2.trans hle⟩

/-- **One claimer's step.** -/
theorem stamped_warn {w : Warn} {clock : Int} {j j' : Journal} {pc pc' : WarnPc}
    {won : Warn → Multiset Int} (won' : Warn → Multiset Int) (rest : Multiset Int)
    (h : Stamped clock j won) (hstep : WarnStep w clock j pc j' pc') (hpast : pc.Past clock)
    (hown : won w = pc.unwritten + rest)
    (hnew : won' w = pc'.unwritten + rest) (hother : ∀ v, v ≠ w → won' v = won v) :
    Stamped clock j' won' ∧ pc'.Past clock := by
  have hsame : pc'.unwritten = pc.unwritten → ∀ v, won' v = won v := by
    intro heq v
    by_cases hv : v = w
    · rw [hv, hnew, hown, heq]
    · exact hother v hv
  cases hstep with
  | time => exact ⟨h.congr won' (hsame rfl), h.range.1, le_refl _⟩
  | load => exact ⟨h.congr won' (hsame rfl), hpast, h.past w⟩
  | early hlt => exact ⟨h.congr won' (hsame rfl), trivial⟩
  | lost hge hne => exact ⟨h.congr won' (hsame rfl), trivial⟩
  | @win now prev hge hslot =>
    refine ⟨⟨h.range, fun v => ?_, fun v => ?_, fun v => ?_, fun v => ?_⟩, trivial⟩
    · by_cases hv : v = w
      · subst hv
        simp only [Journal.claim, Function.update_self]
        apply (h.spaced v).cons
        obtain ⟨⟨hnow, hnowle⟩, hprev, hprevle⟩ := hpast
        have hmax := h.range.2
        unfold satSubI64 at hge
        rw [← h.slot, hslot]
        omega
      · simp only [Journal.claim, Function.update_of_ne hv]
        exact h.spaced v
    · by_cases hv : v = w
      · subst hv
        simp [Journal.claim, lastStamp]
      · simp only [Journal.claim, Function.update_of_ne hv]
        exact h.slot v
    · by_cases hv : v = w
      · subst hv
        simp only [Journal.claim, Function.update_self]
        exact hpast.1
      · simp only [Journal.claim, Function.update_of_ne hv]
        exact h.past v
    · by_cases hv : v = w
      · subst hv
        have hlines := h.lines v
        rw [hown] at hlines
        simp only [WarnPc.unwritten, zero_add] at hlines
        simp only [Journal.claim, Function.update_self, hnew, WarnPc.unwritten]
        rw [← Multiset.cons_coe, hlines, Multiset.singleton_add, Multiset.add_cons]
      · simp only [Journal.claim, Function.update_of_ne hv, hother v hv]
        exact h.lines v
  | @line now =>
    refine ⟨⟨h.range, h.spaced, h.slot, h.past, fun v => ?_⟩, trivial⟩
    by_cases hv : v = w
    · subst hv
      have hlines := h.lines v
      rw [hown] at hlines
      simp only [WarnPc.unwritten, Multiset.singleton_add] at hlines
      simp only [Journal.write, Function.update_self, hnew, WarnPc.unwritten, zero_add]
      rw [hlines, Multiset.add_cons, Multiset.cons_add]
    · simp only [Journal.write, Function.update_of_ne hv, hother v hv]
      exact h.lines v

theorem Stamped.of_slots {clock : Int} {j : Journal} {won : Warn → Multiset Int}
    (h : Stamped clock j won) (j' : Journal) (hslot : j'.slot = j.slot)
    (hclaims : j'.claims = j.claims)
    (hlines : j'.lines = j.lines) : Stamped clock j' won where
  range := h.range
  spaced := hclaims ▸ h.spaced
  slot := by
    rw [hslot, hclaims]
    exact h.slot
  past := hslot ▸ h.past
  lines := by
    rw [hclaims, hlines]
    exact h.lines

theorem stamped_loop {g g' : Shared} {l l' : Loop} {rest : Warn → Multiset Int}
    (hstep : LoopStep g l g' l') (h : Stamped g.clock g.journal fun w => l.unwritten w + rest w)
    (hpast : l.Past g.clock) :
    g'.clock = g.clock ∧ Stamped g'.clock g'.journal (fun w => l'.unwritten w + rest w) ∧
      l'.Past g'.clock := by
  cases hstep with
  | enter hpc | stopped hpc | accept hpc hfd | unusable hpc | retry hpc | claim hpc hlt
    | exceed hpc hge | undo hpc | noThread hpc | unclaim hpc | close hpc =>
    exact ⟨rfl, by simpa [Loop.unwritten, hpc] using h, by simp [Loop.Past]⟩
  | fail hpc =>
    cases g.running <;>
      exact ⟨rfl, by simpa [Loop.unwritten, hpc] using h, by simp [Loop.Past]⟩
  | count hpc =>
    refine ⟨rfl, ?_, by simp [Loop.Past, WarnPc.Past]⟩
    have hsame : Stamped g.clock g.journal rest := by simpa [Loop.unwritten, hpc] using h
    have hnew := hsame.of_slots (g.journal.bump .drop) rfl rfl rfl
    simpa [Loop.unwritten, WarnPc.unwritten] using hnew
  | @warn fd id pc pc' j' hpc hwarn =>
    have hnew := stamped_warn (fun w => Loop.unwritten w { l with pc := .warning fd id pc' } +
      rest w) (rest .drop) h hwarn (hpast fd id pc hpc) (by simp [Loop.unwritten, hpc])
      (by simp [Loop.unwritten]) (by
        intro v hv
        simp [Loop.unwritten, hpc, hv])
    refine ⟨rfl, hnew.1, ?_⟩
    intro fd' id' pc'' heq
    cases heq
    exact hnew.2
  | warned hpc =>
    exact ⟨rfl, by simpa [Loop.unwritten, WarnPc.unwritten, hpc] using h, by simp [Loop.Past]⟩

theorem stamped_handler {g g' : Shared} {k k' : Handler} {rest : Warn → Multiset Int}
    (hstep : HandlerStep sha256 psk g k g' k')
    (h : Stamped g.clock g.journal fun w => k.unwritten w + rest w) (hpast : k.Past g.clock) :
    g'.clock = g.clock ∧ Stamped g'.clock g'.journal (fun w => k'.unwritten w + rest w) ∧
      k'.Past g'.clock := by
  cases hstep with
  | @answer head r hpc hr =>
    have hafter : ∀ w pc, afterAnswer r ≠ .warning w pc := by
      intro w pc
      cases r <;> simp [afterAnswer]
    have hwon : ∀ w, Handler.unwritten w { k with reply := r, pc := afterAnswer r } = 0 := by
      intro w
      cases r <;> simp [Handler.unwritten, afterAnswer]
    refine ⟨rfl, ?_, ?_⟩
    · simp only [hwon]
      simpa [Handler.unwritten, hpc] using h
    · intro w pc heq
      exact absurd heq (hafter w pc)
  | noHead hpc | replied hpc | release hpc =>
    exact ⟨rfl, by simpa [Handler.unwritten, hpc] using h, by simp [Handler.Past]⟩
  | @count w hpc =>
    refine ⟨rfl, ?_, by simp [Handler.Past, WarnPc.Past]⟩
    have hsame : Stamped g.clock g.journal rest := by simpa [Handler.unwritten, hpc] using h
    have hnew := hsame.of_slots (g.journal.bump w) rfl rfl rfl
    simpa [Handler.unwritten, WarnPc.unwritten] using hnew
  | @warn w pc pc' j' hpc hwarn =>
    have hnew := stamped_warn (fun v => Handler.unwritten v { k with pc := .warning w pc' } +
      rest v) (rest w) h hwarn (hpast w pc hpc) (by simp [Handler.unwritten, hpc])
      (by simp [Handler.unwritten]) (by
        intro v hv
        simp [Handler.unwritten, hpc, hv])
    refine ⟨rfl, hnew.1, ?_⟩
    intro w' pc'' heq
    cases heq
    exact hnew.2
  | @warned w hpc =>
    refine ⟨rfl, ?_, by simp [Handler.Past]⟩
    have hwon : ∀ v, k.unwritten v = 0 := by
      intro v
      simp [Handler.unwritten, WarnPc.unwritten, hpc]
    simp only [hwon] at h
    simpa [Handler.unwritten] using h

structure Noted (s : World) : Prop where
  stamped : Stamped s.g.clock s.g.journal s.unwritten
  loops : ∀ l ∈ s.loops, l.Past s.g.clock
  handlers : ∀ k ∈ s.handlers, k.Past s.g.clock

theorem Noted.of_frame {s s' : World} (h : Noted s) (hjournal : s'.g.journal = s.g.journal)
    (hclock : s'.g.clock = s.g.clock) (hloops : s'.loops = s.loops)
    (hhandlers : s'.handlers = s.handlers) : Noted s' := by
  have hunwritten : s'.unwritten = s.unwritten := by
    funext w
    unfold World.unwritten
    rw [hloops, hhandlers]
  constructor
  · rw [hjournal, hclock, hunwritten]
    exact h.stamped
  · rw [hloops, hclock]
    exact h.loops
  · rw [hhandlers, hclock]
    exact h.handlers

/-- **The journal, step by step.** -/
theorem noted_step {s s' : World} (h : Noted s) (hstep : Step sha256 psk s s') : Noted s' := by
  have hstamped := h.stamped
  cases hstep with
  | @loop l l' g' rest hl hstep =>
    have hone := hstamped.congr (fun w => l.unwritten w +
      (pooled (Loop.unwritten w) rest + pooled (Handler.unwritten w) s.handlers)) fun w => by
        simp [World.unwritten, hl, add_assoc]
    obtain ⟨hclock, hnew, hpast⟩ := stamped_loop hstep hone (h.loops l (by simp [hl]))
    refine ⟨hnew.congr _ fun w => by simp [World.unwritten, add_assoc], ?_, ?_⟩
    · have hold := h.loops
      rw [hl] at hold
      exact forall_replace (fun u hu => by rw [hclock]; exact hold u hu) hpast
    · intro k hk
      dsimp only
      rw [hclock]
      exact h.handlers k hk
  | @spawn l fd id rest hl hpc =>
    have hsame : ∀ w, World.unwritten { s with
        g.net := s.g.net.act fd .handled, loops := { l with pc := .top } ::ₘ rest,
        handlers := ⟨fd, id, .malformed, .reading⟩ ::ₘ s.handlers } w = s.unwritten w := by
      intro w
      simp [World.unwritten, hl, Loop.unwritten, Handler.unwritten, hpc]
    refine ⟨hstamped.congr _ hsame, ?_, ?_⟩
    · have hold := h.loops
      rw [hl] at hold
      exact forall_replace hold (by simp [Loop.Past])
    · intro k hk
      rcases Multiset.mem_cons.mp hk with rfl | hk
      · simp [Handler.Past]
      · exact h.handlers k hk
  | @leave l rest hl hpc =>
    refine ⟨hstamped.congr _ fun w => ?_, ?_, h.handlers⟩
    · simp [World.unwritten, hl, Loop.unwritten, hpc]
    · intro k hk
      exact h.loops k (by rw [hl]; exact Multiset.mem_cons_of_mem hk)
  | @handler k k' g' rest hh hstep =>
    have hone := hstamped.congr (fun w => k.unwritten w +
      (pooled (Loop.unwritten w) s.loops + pooled (Handler.unwritten w) rest)) fun w => by
        simp [World.unwritten, hh, add_left_comm]
    obtain ⟨hclock, hnew, hpast⟩ :=
      stamped_handler sha256 psk hstep hone (h.handlers k (by simp [hh]))
    refine ⟨hnew.congr _ fun w => by simp [World.unwritten, add_left_comm], ?_, ?_⟩
    · intro l hl
      dsimp only
      rw [hclock]
      exact h.loops l hl
    · have hold := h.handlers
      rw [hh] at hold
      exact forall_replace (fun u hu => by rw [hclock]; exact hold u hu) hpast
  | @exit k rest hh hpc =>
    refine ⟨hstamped.congr _ fun w => ?_, h.loops, ?_⟩
    · simp [World.unwritten, hh, Handler.unwritten, hpc]
    · intro u hu
      exact h.handlers u (by rw [hh]; exact Multiset.mem_cons_of_mem hu)
  | serve hstep =>
    cases hstep with
    | noWorker hpc | lock hpc hmu | noMemory hpc | memory hpc | noThread hpc | unlock hpc
      | joined hpc hnone => exact h.of_frame rfl rfl rfl rfl
    | @spawn k rest hpc =>
      refine ⟨hstamped.congr _ fun w => ?_, ?_, h.handlers⟩
      · simp [World.unwritten, Loop.unwritten]
      · intro l hl
        rcases Multiset.mem_cons.mp hl with rfl | hl
        · simp [Loop.Past]
        · exact h.loops l hl
  | destroy hpc hstop =>
    obtain ⟨-, hloops, hhandlers, -, hjournal, hclock, -⟩ := hstop.frame
    exact h.of_frame hjournal hclock hloops hhandlers
  | deinit hstep =>
    cases hstep with
    | stop hpc hstop =>
      obtain ⟨-, hloops, hhandlers, -, hjournal, hclock, -⟩ := hstop.frame
      exact h.of_frame hjournal hclock hloops hhandlers
    | stopped hpc | joined hpc hserve | sleep hpc hne hlt | drained hpc hdone | decide hpc
      | tearDown hpc => exact h.of_frame rfl rfl rfl rfl
  | env hstep =>
    cases hstep with
    | @tick now hle hlt =>
      refine ⟨⟨⟨hstamped.range.1.trans hle, hlt⟩, hstamped.spaced, hstamped.slot, ?_,
        hstamped.lines⟩, ?_, ?_⟩
      · intro w
        exact ⟨(hstamped.past w).1, (hstamped.past w).2.trans hle⟩
      · intro l hl fd id pc hpc
        exact (h.loops l hl fd id pc hpc).mono hle
      · intro k hk w pc hpc
        exact (h.handlers k hk w pc hpc).mono hle
    | opens hk | closes hk => exact h.of_frame rfl rfl rfl rfl

theorem noted_start {s : World} (h : Start s) : Noted s := by
  refine ⟨⟨h.clock, ?_, ?_, ?_, ?_⟩, by simp [h.loops], by simp [h.handlers]⟩
  · intro w
    rw [h.claims w]
    trivial
  · intro w
    rw [h.claims w, h.slot w]
    rfl
  · intro w
    rw [h.slot w]
    exact ⟨le_refl _, h.clock.1⟩
  · intro w
    simp [h.claims w, h.lines w, World.unwritten, h.loops, h.handlers]

/-! ## The counters -/

/-- What is counted, and under what. -/
def Act.warn : Act → Option Warn
  | .turned .refused => some .drop
  | .answered .unauthorized => some .auth
  | .answered .methodNotAllowed => some .method
  | _ => none

/-- How many connections came to it. -/
def Net.rejected (n : Net) (w : Warn) : Nat :=
  ∑ id ∈ Finset.range n.conns, (n.hist id).countP fun a => a.warn = some w

def Loop.uncounted (w : Warn) (l : Loop) : Nat :=
  match l.pc with
  | .counting .. => if w = .drop then 1 else 0
  | _ => 0

def Handler.uncounted (w : Warn) (h : Handler) : Nat :=
  match h.pc with
  | .counting v => if w = v then 1 else 0
  | _ => 0

/-- The threads that are about to count. -/
def World.uncounted (s : World) (w : Warn) : Nat :=
  tally (Loop.uncounted w) s.loops + tally (Handler.uncounted w) s.handlers

theorem rejected_accept (n : Net) (fd : Nat) (w : Warn) :
    (n.accept fd).rejected w = n.rejected w := by
  unfold Net.rejected Net.accept
  dsimp only
  rw [Finset.sum_range_succ, Function.update_self]
  have hold : ∀ id ∈ Finset.range n.conns,
      (Function.update n.hist n.conns [.accepted] id).countP (fun a => a.warn = some w) =
        (n.hist id).countP fun a => a.warn = some w := by
    intro id hid
    rw [Function.update_of_ne (Nat.ne_of_lt (Finset.mem_range.mp hid))]
  rw [Finset.sum_congr rfl hold]
  simp [Act.warn]

theorem rejected_act {n : Net} {fd id : Nat} (hfd : n.fds fd = some (.conn id))
    (hid : id < n.conns) (a : Act) (w : Warn) :
    (n.act fd a).rejected w = n.rejected w + if a.warn = some w then 1 else 0 := by
  rw [Net.act_conn hfd]
  unfold Net.rejected
  dsimp only
  have hmem := Finset.mem_range.mpr hid
  have hnew := Finset.add_sum_erase (Finset.range n.conns) (fun i =>
    (Function.update n.hist id (n.hist id ++ [a]) i).countP fun a => a.warn = some w) hmem
  have hold := Finset.add_sum_erase (Finset.range n.conns) (fun i =>
    (n.hist i).countP fun a => a.warn = some w) hmem
  have hsame : ∀ i ∈ (Finset.range n.conns).erase id,
      (Function.update n.hist id (n.hist id ++ [a]) i).countP (fun a => a.warn = some w) =
        (n.hist i).countP fun a => a.warn = some w := by
    intro i hi
    rw [Function.update_of_ne (Finset.ne_of_mem_erase hi)]
  rw [Finset.sum_congr rfl hsame] at hnew
  simp only [Function.update_self, List.countP_append, List.countP_singleton,
    decide_eq_true_eq] at hnew
  omega

theorem rejected_close {n : Net} {fd id : Nat} (hfd : n.fds fd = some (.conn id))
    (hid : id < n.conns) (w : Warn) : (n.close fd).rejected w = n.rejected w := by
  have hsame : (n.close fd).rejected w = (n.act fd .closed).rejected w := rfl
  rw [hsame, rejected_act hfd hid]
  simp [Act.warn]

theorem bump_count (j : Journal) (w v : Warn) :
    (j.bump w).count v % 2 ^ 64 = (j.count v + if v = w then 1 else 0) % 2 ^ 64 := by
  unfold Journal.bump
  dsimp only
  by_cases hv : v = w
  · subst hv
    rw [Function.update_self, if_pos rfl]
    omega
  · rw [Function.update_of_ne hv, if_neg hv]
    rfl

theorem WarnStep.count {w : Warn} {clock : Int} {j j' : Journal} {pc pc' : WarnPc}
    (h : WarnStep w clock j pc j' pc') : j'.count = j.count := by
  cases h <;> rfl

/-- What a step adds to the connections that were rejected is counted, or about to be. -/
theorem counted_loop {g g' : Shared} {l l' : Loop} {rest : Multiset Holding} {n : Nat} {w : Warn}
    (hstep : LoopStep g l g' l') (hconns : Conns g.net (l.held + rest))
    (h : (g.journal.count w + (l.uncounted w + n)) % 2 ^ 64 = g.net.rejected w % 2 ^ 64) :
    (g'.journal.count w + (l'.uncounted w + n)) % 2 ^ 64 = g'.net.rejected w % 2 ^ 64 := by
  have hown : ∀ x, l.held = {x} → g.net.fds x.fd = some (.conn x.id) ∧ x.id < g.net.conns := by
    intro x hx
    rw [hx, Multiset.singleton_add] at hconns
    have hown := hconns.own x (Multiset.mem_cons_self _ _)
    exact ⟨hown.1, hown.2.2⟩
  cases hstep with
  | enter hpc | stopped hpc | unusable hpc | retry hpc | claim hpc hlt | exceed hpc hge | warned hpc
    | unclaim hpc => simpa [Loop.uncounted, hpc] using h
  | fail hpc => cases g.running <;> simpa [Loop.uncounted, hpc] using h
  | accept hpc hfd =>
    dsimp only
    rw [rejected_accept]
    simpa [Loop.uncounted, hpc] using h
  | @undo fd id hpc =>
    obtain ⟨hfd, hid⟩ := hown ⟨fd, id, [.accepted]⟩ (by simp [Loop.held, hpc])
    dsimp only
    rw [rejected_act hfd hid, Shared.fetchSub_journal]
    simp only [Loop.uncounted, hpc, Act.warn, Option.some.injEq] at h ⊢
    cases w <;> simp at h ⊢ <;> omega
  | @count fd id hpc =>
    have hbump := bump_count g.journal .drop w
    simp only [Loop.uncounted, hpc] at h ⊢
    omega
  | warn hpc hwarn =>
    dsimp only
    rw [hwarn.count]
    simpa [Loop.uncounted, hpc] using h
  | @noThread fd id hpc =>
    obtain ⟨hfd, hid⟩ := hown ⟨fd, id, [.accepted]⟩ (by simp [Loop.held, hpc])
    dsimp only
    rw [rejected_act hfd hid]
    simpa [Loop.uncounted, hpc, Act.warn] using h
  | @close fd id why hpc =>
    obtain ⟨hfd, hid⟩ := hown ⟨fd, id, [.accepted, .turned why]⟩ (by simp [Loop.held, hpc])
    dsimp only
    rw [rejected_close hfd hid]
    simpa [Loop.uncounted, hpc] using h

theorem counted_handler {g g' : Shared} {k k' : Handler} {rest : Multiset Holding} {n : Nat}
    {w : Warn} (hstep : HandlerStep sha256 psk g k g' k') (hconns : Conns g.net (k.held + rest))
    (h : (g.journal.count w + (k.uncounted w + n)) % 2 ^ 64 = g.net.rejected w % 2 ^ 64) :
    (g'.journal.count w + (k'.uncounted w + n)) % 2 ^ 64 = g'.net.rejected w % 2 ^ 64 := by
  have hown : g.net.fds k.fd = some (.conn k.id) ∧ k.id < g.net.conns := by
    unfold Handler.held at hconns
    rw [Multiset.singleton_add] at hconns
    have hown := hconns.own _ (Multiset.mem_cons_self _ _)
    exact ⟨hown.1, hown.2.2⟩
  cases hstep with
  | @answer head r hpc hr =>
    dsimp only
    rw [rejected_act hown.1 hown.2]
    simp only [Handler.uncounted, hpc] at h ⊢
    cases r <;> cases w <;> simp [afterAnswer, Act.warn] at h ⊢ <;> omega
  | noHead hpc =>
    dsimp only
    rw [rejected_act hown.1 hown.2]
    simpa [Handler.uncounted, hpc, Act.warn] using h
  | @count v hpc =>
    have hbump := bump_count g.journal v w
    simp only [Handler.uncounted, hpc] at h ⊢
    omega
  | warn hpc hwarn =>
    dsimp only
    rw [hwarn.count]
    simpa [Handler.uncounted, hpc] using h
  | warned hpc | replied hpc | release hpc => simpa [Handler.uncounted, hpc] using h

/-- The counters are exact. -/
def Counted (s : World) : Prop :=
  ∀ w, (s.g.journal.count w + s.uncounted w) % 2 ^ 64 = s.g.net.rejected w % 2 ^ 64

theorem counted_frame {s s' : World} (h : Counted s) (hjournal : s'.g.journal = s.g.journal)
    (hnet : ∀ w, s'.g.net.rejected w = s.g.net.rejected w) (hloops : s'.loops = s.loops)
    (hhandlers : s'.handlers = s.handlers) : Counted s' := by
  intro w
  unfold World.uncounted
  rw [hjournal, hnet, hloops, hhandlers]
  exact h w

theorem rejected_stop {who : Locker} {s s' : World} {pc pc' : StopPc} (h : Kept s)
    (hstep : StopStep who s pc s' pc') (hown : s.closing who = pc.rest) (w : Warn) :
    s'.g.net.rejected w = s.g.net.rejected w := by
  cases hstep with
  | store | lock hfree | unlock => rfl
  | @close k rest =>
    have hopen := (h.listening.closes who (k :: rest) hown).2.2 k List.mem_cons_self
    simp [Net.rejected, Net.close, Net.act, hopen]

/-- **The counters, step by step.** -/
theorem counted_step {s s' : World} (hkept : Kept s) (h : Counted s)
    (hstep : Step sha256 psk s s') : Counted s' := by
  have hconns := hkept.conns
  unfold World.held at hconns
  cases hstep with
  | @loop l l' g' rest hl hstep =>
    rw [hl, pooled_cons, add_assoc] at hconns
    intro w
    have hold := h w
    simp only [World.uncounted, hl, tally_cons, Nat.add_assoc] at hold ⊢
    exact counted_loop hstep hconns hold
  | @spawn l fd id rest hl hpc =>
    rw [hl, pooled_cons, add_assoc] at hconns
    have hheld : l.held = {⟨fd, id, [.accepted]⟩} := by simp [Loop.held, hpc]
    rw [hheld, Multiset.singleton_add] at hconns
    obtain ⟨hfd, -, hid⟩ := hconns.own _ (Multiset.mem_cons_self _ _)
    intro w
    have hold := h w
    simp only [World.uncounted, hl, tally_cons, Loop.uncounted, Handler.uncounted, hpc] at hold ⊢
    rw [rejected_act hfd hid]
    simpa [Act.warn] using hold
  | @leave l rest hl hpc =>
    intro w
    have hold := h w
    simp only [World.uncounted, hl, tally_cons, Loop.uncounted, hpc] at hold ⊢
    simpa using hold
  | @handler k k' g' rest hh hstep =>
    rw [hh, pooled_cons, add_left_comm] at hconns
    intro w
    have hold := h w
    unfold World.uncounted at hold ⊢
    rw [hh, tally_cons] at hold
    rw [tally_cons]
    have hnew := counted_handler sha256 psk (w := w) (n := tally (Loop.uncounted w) s.loops +
      tally (Handler.uncounted w) rest) hstep hconns (by omega)
    dsimp only
    omega
  | @exit k rest hh hpc =>
    rw [hh, pooled_cons, add_left_comm] at hconns
    unfold Handler.held at hconns
    rw [Multiset.singleton_add] at hconns
    obtain ⟨hfd, -, hid⟩ := hconns.own _ (Multiset.mem_cons_self _ _)
    intro w
    have hold := h w
    simp only [World.uncounted, hh, tally_cons, Handler.uncounted, hpc, zero_add] at hold ⊢
    rw [rejected_close hfd hid]
    exact hold
  | serve hstep =>
    cases hstep with
    | noWorker hpc | lock hpc hmu | noMemory hpc | memory hpc | noThread hpc | unlock hpc
      | joined hpc hnone => exact h
    | @spawn k rest hpc =>
      intro w
      have hold := h w
      simpa [World.uncounted, Loop.uncounted] using hold
  | destroy hpc hstop =>
    obtain ⟨-, hloops, hhandlers, -, hjournal, -, -⟩ := hstop.frame
    have hnet := rejected_stop hkept hstop (closing_destroy hpc)
    exact counted_frame h hjournal hnet hloops hhandlers
  | deinit hstep =>
    cases hstep with
    | stop hpc hstop =>
      obtain ⟨-, hloops, hhandlers, -, hjournal, -, -⟩ := hstop.frame
      have hnet := rejected_stop hkept hstop (closing_deinit hpc)
      exact counted_frame h hjournal hnet hloops hhandlers
    | stopped hpc | joined hpc hserve | sleep hpc hne hlt | drained hpc hdone | decide hpc
      | tearDown hpc => exact h
  | env hstep =>
    cases hstep with
    | tick hle hlt | opens hk | closes hk => exact h

theorem counted_start {s : World} (h : Start s) : Counted s := by
  intro w
  simp [h.count, World.uncounted, h.loops, h.handlers, Net.rejected, h.conns]

/-- **The journal and the counters.** A window of time has one line of a kind for each second of it
and one more at most, and a second passed for each line since the clock began; what the lines are
about is counted every time. -/
theorem journal_bounded {s t : World} (hstart : Start s) (h : Reaches sha256 psk s t) (w : Warn) :
    (∀ a b, a ≤ b → authWarnMinGapMs * ((t.g.journal.lines w).filter fun now =>
        a ≤ now ∧ now ≤ b).card ≤ b - a + authWarnMinGapMs) ∧
      authWarnMinGapMs * (t.g.journal.lines w).card ≤ t.g.clock ∧
      (t.g.journal.count w + t.uncounted w) % 2 ^ 64 = t.g.net.rejected w % 2 ^ 64 := by
  have hgap : 0 < authWarnMinGapMs := by decide
  have hnoted := @Run.invariant _ _ _ Noted
    (fun _ _ hinv hstep _ => noted_step sha256 psk hinv hstep) _ _ (noted_start hstart) h
  have hboth := @Run.invariant _ _ _ (fun u => Kept u ∧ Counted u)
    (fun _ _ hinv hstep _ => ⟨kept_step sha256 psk hinv.1 hstep,
      counted_step sha256 psk hinv.1 hinv.2 hstep⟩) _ _ ⟨kept_start hstart, counted_start hstart⟩ h
  have hstamped := hnoted.stamped
  have hlines : t.g.journal.lines w ≤ (t.g.journal.claims w : Multiset Int) := by
    rw [hstamped.lines w]
    exact Multiset.le_add_right _ _
  refine ⟨fun a b hab => ?_, ?_, hboth.2 w⟩
  · exact (hstamped.spaced w).lines hgap hlines (by omega)
  · have hslot := hstamped.slot w
    have hall := (hstamped.spaced w).all hgap hlines hstamped.range.1
      (by rw [← hslot]; exact (hstamped.past w).2)
    simpa using hall

theorem journal_bounded_refused :
    refused.g.journal.lines .drop = {5000} ∧
    (∀ a b, a ≤ b → authWarnMinGapMs * ((refused.g.journal.lines .drop).filter fun now =>
        a ≤ now ∧ now ≤ b).card ≤ b - a + authWarnMinGapMs) ∧
      authWarnMinGapMs * (refused.g.journal.lines .drop).card ≤ refused.g.clock ∧
      (refused.g.journal.count .drop + refused.uncounted .drop) % 2 ^ 64 =
        refused.g.net.rejected .drop % 2 ^ 64 :=
  ⟨rfl, journal_bounded _ _ start_idle run_refused .drop⟩

/-! ## The end -/

/-- The loop may still get a connection without looking at `running`. -/
def Loop.awaits (l : Loop) : Nat :=
  match l.pc with
  | .accepting true => 1
  | _ => 0

def World.awaits (s : World) : Nat := tally Loop.awaits s.loops

theorem awaits_loop {g g' : Shared} {l l' : Loop} (hstep : LoopStep g l g' l')
    (h : g.running = false) : g'.running = false ∧
      g'.net.conns + l'.awaits ≤ g.net.conns + l.awaits := by
  have hact : ∀ fd a, (g.net.act fd a).conns = g.net.conns := by
    intro fd a
    unfold Net.act
    split <;> rfl
  cases hstep with
  | enter hpc hrunning =>
    rw [h] at hrunning
    cases hrunning
  | stopped hpc | unusable hpc | retry hpc | claim hpc hlt | exceed hpc hge | count hpc
    | warn hpc hwarn | warned hpc | unclaim hpc => exact ⟨h, by simp [Loop.awaits]⟩
  | accept hpc hfd => exact ⟨h, by simp [Loop.awaits, hpc, Net.accept]⟩
  | fail hpc => exact ⟨h, by simp [Loop.awaits, h]⟩
  | undo hpc | noThread hpc => exact ⟨h, by simp [Loop.awaits, hact]⟩
  | close hpc => exact ⟨h, by simp [Loop.awaits, Net.close, hact]⟩

theorem StopStep.conns {who : Locker} {s s' : World} {pc pc' : StopPc}
    (h : StopStep who s pc s' pc') : s'.g.net.conns = s.g.net.conns ∧
      (s.g.running = false → s'.g.running = false) := by
  cases h with
  | store => exact ⟨rfl, fun _ => rfl⟩
  | lock hfree | unlock => exact ⟨rfl, id⟩
  | close =>
    refine ⟨?_, id⟩
    simp only [Net.close, Net.act]
    split <;> rfl

theorem awaits_step {s s' : World} (hstep : Step sha256 psk s s') (h : s.g.running = false) :
    s'.g.running = false ∧ s'.g.net.conns + s'.awaits ≤ s.g.net.conns + s.awaits := by
  have hact : ∀ fd a, (s.g.net.act fd a).conns = s.g.net.conns := by
    intro fd a
    unfold Net.act
    split <;> rfl
  cases hstep with
  | @loop l l' g' rest hl hstep =>
    obtain ⟨hrunning, hle⟩ := awaits_loop hstep h
    refine ⟨hrunning, ?_⟩
    unfold World.awaits
    rw [hl, tally_cons, tally_cons]
    dsimp only
    omega
  | @spawn l fd id rest hl hpc =>
    refine ⟨h, ?_⟩
    simp [World.awaits, hl, Loop.awaits, hact]
  | @leave l rest hl hpc =>
    refine ⟨h, ?_⟩
    simp [World.awaits, hl]
  | @handler k k' g' rest hh hstep =>
    cases hstep with
    | answer head hpc hr | noHead hpc => exact ⟨h, by simp [World.awaits, hact]⟩
    | count hpc | warn hpc hwarn | warned hpc | replied hpc | release hpc => exact ⟨h, le_refl _⟩
  | exit hh hpc => exact ⟨h, by simp [World.awaits, Net.close, hact]⟩
  | serve hstep =>
    cases hstep with
    | noWorker hpc | lock hpc hmu | noMemory hpc | memory hpc | noThread hpc | unlock hpc
      | joined hpc hnone => exact ⟨h, le_refl _⟩
    | spawn hpc => exact ⟨h, by simp [World.awaits, Loop.awaits]⟩
  | destroy hpc hstop =>
    obtain ⟨-, hloops, -⟩ := hstop.frame
    refine ⟨hstop.conns.2 h, ?_⟩
    simp [World.awaits, hloops, hstop.conns.1]
  | deinit hstep =>
    cases hstep with
    | stop hpc hstop =>
      obtain ⟨-, hloops, -⟩ := hstop.frame
      refine ⟨hstop.conns.2 h, ?_⟩
      simp [World.awaits, hloops, hstop.conns.1]
    | stopped hpc | joined hpc hserve | sleep hpc hne hlt | drained hpc hdone | decide hpc
      | tearDown hpc => exact ⟨h, le_refl _⟩
  | env hstep =>
    cases hstep with
    | tick hle hlt | opens hk | closes hk => exact ⟨h, le_refl _⟩

/-- **After `stop`.** Once nothing runs, no more is accepted than by the loops that were in `accept`
already, once each. -/
theorem stop_accepts {s t : World} (hstopped : s.g.running = false) (h : Reaches sha256 psk s t) :
    t.g.running = false ∧ t.g.net.conns + t.awaits ≤ s.g.net.conns + s.awaits := by
  apply @Run.invariant _ _ _ (fun u => u.g.running = false ∧
    u.g.net.conns + u.awaits ≤ s.g.net.conns + s.awaits) ?_ _ _ ⟨hstopped, le_refl _⟩ h
  intro u u' hinv hstep _
  obtain ⟨hrunning, hle⟩ := awaits_step sha256 psk hstep hinv.1
  exact ⟨hrunning, hle.trans hinv.2⟩

/-- A loop was in `accept` when `stop` came. -/
def stopping : World :=
  { idle with
    g.running := false
    loops := {⟨3, false, .accepting true⟩} }

theorem stop_accepts_one : ∃ t, Goes stopping t ∧ t.g.net.conns = 1 ∧ t.g.running = false ∧
    t.g.net.conns + t.awaits ≤ stopping.g.net.conns + stopping.awaits := by
  have h := Goes.loop (Run.refl stopping) rfl (@LoopStep.accept _ _ 4 rfl rfl)
  exact ⟨_, h, rfl, stop_accepts _ _ rfl h⟩

/-- `deinit` has joined the workers. -/
def DeinitPc.pastJoin : DeinitPc → Prop
  | .stopping _ | .joining => False
  | .draining _ | .deciding | .ended _ | .tornDown .. => True

/-- What threads use is freed, or some of it. -/
def DeinitPc.freed : DeinitPc → Prop
  | .ended freed => freed = true
  | .tornDown freed destroyed => freed = true ∨ destroyed = true
  | _ => False

theorem DeinitPc.freed.joined {pc : DeinitPc} (h : pc.freed) : pc.pastJoin := by
  cases pc with
  | stopping pc | joining | draining waited | deciding => cases h
  | ended freed | tornDown freed destroyed => trivial

structure Retired (s : World) : Prop where
  none : s.serve = .waiting ∨ s.serve = .locked ∨ s.serve = .returned → s.loops = 0
  joined : s.deinit.pastJoin → s.serve = .returned
  drained : s.deinit.freed → tally Handler.admitted s.handlers = 0

theorem Retired.of_frame {s s' : World} (h : Retired s) (hserve : s'.serve = s.serve)
    (hdeinit : s'.deinit = s.deinit) (hloops : s'.loops = s.loops)
    (hhandlers : s'.handlers = s.handlers) : Retired s' := by
  obtain ⟨hnone, hjoined, hdrained⟩ := h
  constructor
  · rw [hserve, hloops]
    exact hnone
  · rw [hdeinit, hserve]
    exact hjoined
  · rw [hdeinit, hhandlers]
    exact hdrained

/-- A loop that is there can only be while `serve` spawns or joins. -/
theorem Retired.working {s : World} (h : Retired s) {l : Loop} {rest : Multiset Loop}
    (hl : s.loops = l ::ₘ rest) :
    ¬ (s.serve = .waiting ∨ s.serve = .locked ∨ s.serve = .returned) ∧ ¬ s.deinit.freed := by
  have hserve : ¬ (s.serve = .waiting ∨ s.serve = .locked ∨ s.serve = .returned) := by
    intro hidle
    have hnone := h.none hidle
    rw [hl] at hnone
    exact Multiset.cons_ne_zero hnone
  exact ⟨hserve, fun hfreed => hserve (Or.inr (Or.inr (h.joined hfreed.joined)))⟩

theorem retired_serve {s s' : World} (h : Retired s) (hstep : ServeStep s s') : Retired s' := by
  have hactive : s.serve ≠ .returned → ¬ s.deinit.pastJoin := fun hne hpast => hne (h.joined hpast)
  cases hstep with
  | noWorker hpc => exact ⟨fun _ => h.none (by simp [hpc]), fun _ => rfl, h.drained⟩
  | lock hpc hmu =>
    exact ⟨fun _ => h.none (by simp [hpc]), fun hpast => absurd hpast (hactive (by simp [hpc])),
      h.drained⟩
  | noMemory hpc => exact ⟨fun _ => h.none (by simp [hpc]), fun _ => rfl, h.drained⟩
  | memory hpc | spawn hpc | noThread hpc | unlock hpc =>
    exact ⟨by simp, fun hpast => absurd hpast (hactive (by simp [hpc])), h.drained⟩
  | joined hpc hnone => exact ⟨fun _ => hnone, fun _ => rfl, h.drained⟩

theorem retired_deinit {s s' : World} (hcapped : Capped s) (h : Retired s)
    (hstep : DeinitStep s s') : Retired s' := by
  have hdrained : s.g.inflight = 0 → tally Handler.admitted s.handlers = 0 := by
    intro hzero
    have hcount := hcapped.count
    unfold World.admitted at hcount
    omega
  cases hstep with
  | stop hpc hstop =>
    obtain ⟨-, hloops, hhandlers, hserve, -, -, -⟩ := hstop.frame
    refine ⟨?_, False.elim, False.elim⟩
    dsimp only
    rw [hserve, hloops]
    exact h.none
  | stopped hpc => exact ⟨h.none, False.elim, False.elim⟩
  | joined hpc hserve => exact ⟨h.none, fun _ => hserve, False.elim⟩
  | sleep hpc hne hlt | drained hpc hdone =>
    exact ⟨h.none, fun _ => h.joined (by simp [hpc, DeinitPc.pastJoin]), False.elim⟩
  | decide hpc =>
    refine ⟨h.none, fun _ => h.joined (by simp [hpc, DeinitPc.pastJoin]), ?_⟩
    intro hfreed
    exact hdrained (by simpa [DeinitPc.freed] using hfreed)
  | @tearDown freed hpc =>
    refine ⟨h.none, fun _ => h.joined (by simp [hpc, DeinitPc.pastJoin]), ?_⟩
    intro hfreed
    rcases hfreed with hstore | hstate
    · exact h.drained (by simpa [hpc, DeinitPc.freed] using hstore)
    · exact hdrained (by simpa using hstate)

theorem retired_step {s s' : World} (hcapped : Capped s) (h : Retired s)
    (hstep : Step sha256 psk s s') : Retired s' := by
  cases hstep with
  | @loop l l' g' rest hl hstep | @spawn l fd id rest hl hpc =>
    obtain ⟨hserve, hfreed⟩ := h.working hl
    exact ⟨fun hidle => absurd hidle hserve, h.joined, fun hdone => absurd hdone hfreed⟩
  | @leave l rest hl hpc =>
    obtain ⟨hserve, hfreed⟩ := h.working hl
    exact ⟨fun hidle => absurd hidle hserve, h.joined, h.drained⟩
  | @handler k k' g' rest hh hstep =>
    refine ⟨h.none, h.joined, fun hfreed => ?_⟩
    have hold := h.drained hfreed
    rw [hh, tally_cons] at hold
    have hk : k.admitted ≤ s.g.inflight := by omega
    obtain ⟨-, hle⟩ := hstep.inflight sha256 psk hk
    dsimp only
    rw [tally_cons]
    omega
  | @exit k rest hh hpc =>
    refine ⟨h.none, h.joined, fun hfreed => ?_⟩
    have hold := h.drained hfreed
    rw [hh, tally_cons] at hold
    exact Nat.eq_zero_of_add_eq_zero_left hold
  | serve hstep => exact retired_serve h hstep
  | destroy hpc hstop =>
    obtain ⟨-, hloops, hhandlers, hserve, -, -, -⟩ := hstop.frame
    have hdeinit := hstop.callers.2
    exact h.of_frame hserve hdeinit hloops hhandlers
  | deinit hstep => exact retired_deinit hcapped h hstep
  | env hstep =>
    cases hstep with
    | tick hle hlt | opens hk | closes hk => exact h.of_frame rfl rfl rfl rfl

/-- **Who is left.** Once `deinit` has freed the store, or `teardownMount` the state, no loop is
there, and each handler that is there has only its descriptor to close. -/
theorem freed_unused {s t : World} (hstart : Start s) (h : Reaches sha256 psk s t)
    (hfreed : t.deinit.freed) : t.loops = 0 ∧ ∀ k ∈ t.handlers, k.pc = .closing := by
  have hinit : Retired s := by
    refine ⟨fun _ => hstart.loops, ?_, ?_⟩
    · intro hpast
      rw [hstart.deinit] at hpast
      cases hpast
    · intro hdone
      rw [hstart.deinit] at hdone
      cases hdone
  have hboth := @Run.invariant _ _ _ (fun u => Capped u ∧ Retired u)
    (fun _ _ hinv hstep _ => ⟨capped_step sha256 psk hinv.1 hstep,
      retired_step sha256 psk hinv.1 hinv.2 hstep⟩) _ _ ⟨capped_start hstart, hinit⟩ h
  obtain ⟨-, hretired⟩ := hboth
  constructor
  · by_contra hne
    obtain ⟨l, hl⟩ := Multiset.exists_mem_of_ne_zero hne
    obtain ⟨rest, hrest⟩ := Multiset.exists_cons_of_mem hl
    exact (hretired.working hrest).2 hfreed
  · intro k hk
    have hle := le_tally (f := Handler.admitted) hk
    rw [hretired.drained hfreed] at hle
    unfold Handler.admitted at hle
    split at hle
    · assumption
    · cases hle

/-- The memory is freed while a handler is at its last call. -/
theorem run_freed : ∃ t, Goes idle t ∧ t.deinit.freed ∧ t.handlers.card = 1 := by
  have h6 := (@run_serving 1 (by decide)).then (.serve (.unlock rfl))
  have h7 := h6.then (.deinit (.stop rfl .store))
  have h8 := (h7.then (.deinit (.stop rfl (.lock rfl)))).then (.deinit (.stop rfl .close))
  have h9 : Goes idle _ := h8.then (.deinit (.stop rfl .unlock))
  have hleft := h9.loop rfl (.stopped rfl rfl)
  have h10 := hleft.then (@Step.leave _ _ _ _ _ ⟨3, false, .left⟩ 0 rfl rfl)
  have h11 := (h10.then (.serve (.joined rfl rfl))).then (.deinit (.stopped rfl))
  have h12 := (h11.then (.deinit (.joined rfl rfl))).then
    (@Step.handler _ _ _ _ _ ⟨4, 0, .malformed, .reading⟩ _ _ 0 rfl (.noHead rfl))
  have h13 := h12.then
    (@Step.handler _ _ _ _ _ ⟨4, 0, .malformed, .releasing⟩ _ _ 0 rfl (.release rfl))
  have h14 := (h13.then (.deinit (.drained rfl (Or.inl rfl)))).then (.deinit (.decide rfl))
  exact ⟨_, h14, rfl, rfl⟩

theorem freed_unused_closing : ∃ t, Goes idle t ∧ t.handlers.card = 1 ∧ t.loops = 0 ∧
    ∀ k ∈ t.handlers, k.pc = .closing := by
  obtain ⟨t, h, hfreed, hcard⟩ := run_freed
  exact ⟨t, h, hcard, freed_unused _ _ start_idle h hfreed⟩

end Answers

end PeerServer

end ModelFs
