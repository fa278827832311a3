import ModelFs.PeerRequest
import ModelFs.Lib.Machine
import Mathlib.Data.List.Sort

/-!
# Fetches in flight

Every path of the catalog counts the fetches to its address. `fetchFromCands` adds one before a
fetch and takes one off after it, in both cases on the first path with that address; `refresh`
builds the list anew from the leases and carries the counts of the addresses that stay.

Fetchers run in any number and are interleaved with refreshes. Which candidate `pickBest` takes is
left open, and so is when a fetch ends and how. The measured goodput and the hops of a path are
left out: nothing here reads them.

* `balanced_iff` — what one step does to the counts, exactly.
* `inflight_of_run` — **the counts are right** while an address that is fetched from is listed once
  and does not come back to the list with fetches out.
* `inflight_drifts` — an address that leaves the list and comes back has lost its count.
-/

namespace ModelFs

namespace Discover

open Proto

/-! ## Leases and paths -/

structure LeaseAddr where
  ip : List UInt8
  port : UInt16
  deriving DecidableEq, Repr

structure Lease where
  id : List UInt8
  /-- `until`, in seconds. -/
  untilSec : Int
  addrs : List LeaseAddr

structure Path where
  peerId : List UInt8
  ip : List UInt8
  port : UInt16
  inflight : Nat := 0
  deriving DecidableEq, Repr

/-- What a path is keyed by. -/
abbrev Addr := List UInt8 × UInt16

def Path.addr (p : Path) : Addr := (p.ip, p.port)

/-- `self_id` and `seeds` of the catalog. -/
structure Config where
  selfId : List UInt8
  seeds : List LeaseAddr := []

def maxIdBytes : Nat := 255 - 9

def validId (s : List UInt8) : Bool :=
  if s = [] ∨ maxIdBytes < s.length then false
  else if s.head? = some 46 then false
  else s.all fun ch =>
    if ch.toNat < 32 ∨ 126 < ch.toNat then false else !(ch = 47 ∨ ch = 34 ∨ ch = 92)

def leaseSkewToleranceSecs : Int := 15

/-- The sum saturates. -/
def leaseLive (untilSec nowSec : Int) : Bool :=
  nowSec < min (untilSec + leaseSkewToleranceSecs) (2 ^ 63 - 1)

def isDialableHost (oct : List Nat) : Bool :=
  if oct = [0, 0, 0, 0] then false else if oct = [255, 255, 255, 255] then false else true

/-- An allocation that fails leaves the address out, as if the lease did not name it. -/
def pushPath (list : List Path) (peerId : List UInt8) (addr : LeaseAddr) : List Path :=
  match parseV4 addr.ip with
  | none => list
  | some quad =>
    if addr.port = 0 then list
    else if ¬ isDialableHost quad then list
    else list ++ [{ peerId := peerId, ip := addr.ip, port := addr.port }]

def addrTieLess (a b : Addr) : Bool := a.1 < b.1 ∨ a.1 = b.1 ∧ a.2 < b.2

def pathListLess (a b : Path) : Bool :=
  a.peerId < b.peerId ∨ a.peerId = b.peerId ∧ addrTieLess a.addr b.addr

/-- `Acc.visit`, on one lease. -/
def visit (cfg : Config) (nowSec : Int) (paths : List Path) (lease : Lease) : List Path :=
  if ¬ leaseLive lease.untilSec nowSec then paths
  else if lease.id = cfg.selfId then paths
  else if ¬ validId lease.id then paths
  else lease.addrs.foldl (fun list a => pushPath list lease.id a) paths

/-- A lease that `visit` takes addresses from. -/
def Lease.Counts (cfg : Config) (nowSec : Int) (lease : Lease) : Prop :=
  leaseLive lease.untilSec nowSec = true ∧ lease.id ≠ cfg.selfId ∧ validId lease.id = true

/-- An address that `pushPath` takes. -/
def LeaseAddr.Dialable (addr : LeaseAddr) : Prop :=
  ∃ quad, parseV4 addr.ip = some quad ∧ addr.port ≠ 0 ∧ isDialableHost quad = true

/-- How a walk over the leases ends. -/
inductive LeaseWalk where
  | ok (leases : List Lease)
  | pathTooLong
  | missingDir
  | ioErr

/-- The number of peer ids in the list. -/
def peerCount (paths : List Path) : Nat := (paths.map Path.peerId).dedup.length

/-- The list in its order. The seeds stand in for peers until there is a lease. -/
def ordered (cfg : Config) (listed : List Path) : List Path :=
  let seeded :=
    if listed = [] then cfg.seeds.foldl (fun list s => pushPath list s.ip s) [] else listed
  seeded.insertionSort fun a b => pathListLess b a = false

/-- The list built from a walk; `none` keeps the list there is. -/
def newPaths (cfg : Config) (paths : List Path) (nowSec : Int) (walk : LeaseWalk) :
    Option (List Path) :=
  match walk with
  | .ok leases => some (ordered cfg (leases.foldl (visit cfg nowSec) []))
  | .pathTooLong => none
  | .missingDir => if peerCount paths ≠ 0 then none else some (ordered cfg [])
  | .ioErr => none

/-- The count of the first path of the old list with the address. -/
def carry (paths : List Path) (np : Path) : Path :=
  match paths.find? fun op => op.addr = np.addr with
  | some op => { np with inflight := op.inflight }
  | none => np

def refresh (cfg : Config) (paths : List Path) (nowSec : Int) (walk : LeaseWalk) : List Path :=
  match newPaths cfg paths nowSec walk with
  | none => paths
  | some listed => listed.map (carry paths)

/-! ## The counters -/

/-- What `inflight` leaves in a counter: `fetchAdd` wraps, the other way saturates. -/
def moved (old : Nat) (delta : Int) : Nat :=
  if 0 < delta then (old + delta.toNat) % 2 ^ 32
  else if (-delta).toNat < old then old - (-delta).toNat else 0

/-- The counter's new value and the list; `pathByAddr` finds the first path with the address. -/
def inflight (a : Addr) (delta : Int) : List Path → Nat × List Path
  | [] => (0, [])
  | p :: ps =>
    if p.port = a.2 ∧ p.ip = a.1 then
      (moved p.inflight delta, { p with inflight := moved p.inflight delta } :: ps)
    else ((inflight a delta ps).1, p :: (inflight a delta ps).2)

/-! ## Fetchers -/

structure Cand where
  ip : List UInt8
  port : UInt16
  have_ : Bool

def Cand.addr (c : Cand) : Addr := (c.ip, c.port)

/-- A run of `fetchFromCands`: its candidates, and the one it is fetching from. -/
structure Fetcher where
  remaining : List Cand
  win : Option Nat := none

def Fetcher.target (f : Fetcher) : Option Addr :=
  f.win.bind fun bi => f.remaining[bi]?.map Cand.addr

structure World where
  paths : List Path := []
  fetchers : List Fetcher := []

/-- Fetches that are out to an address. -/
def World.outstanding (s : World) (a : Addr) : Nat :=
  s.fetchers.countP fun f => f.target = some a

/-- How often an address is listed. -/
def listed (a : Addr) (paths : List Path) : Nat := paths.countP fun p => p.addr = a

/-- What a step is about. -/
inductive Action where
  | arrive
  | start (a : Addr)
  | finish (a : Addr)
  | leave
  | refresh (nowSec : Int) (walk : LeaseWalk)

/-- `mu` is held for each change of the list, so these are the steps. -/
inductive Step (cfg : Config) (s : World) : Action → World → Prop where
  | arrive (cands : List Cand) :
    Step cfg s .arrive { s with fetchers := ⟨cands, none⟩ :: s.fetchers }
  | start {before after : List Fetcher} {remaining : List Cand} {bi : Nat} {c : Cand} :
    s.fetchers = before ++ ⟨remaining, none⟩ :: after → remaining[bi]? = some c →
      c.have_ = true →
      Step cfg s (.start c.addr)
        { paths := (inflight c.addr 1 s.paths).2
          fetchers := before ++ ⟨remaining, some bi⟩ :: after }
  | fail {before after : List Fetcher} {remaining : List Cand} {bi : Nat} {c : Cand} :
    s.fetchers = before ++ ⟨remaining, some bi⟩ :: after → remaining[bi]? = some c →
      Step cfg s (.finish c.addr)
        { paths := (inflight c.addr (-1) s.paths).2
          fetchers := before ++ ⟨remaining.set bi { c with have_ := false }, none⟩ :: after }
  | succeed {before after : List Fetcher} {remaining : List Cand} {bi : Nat} {c : Cand} :
    s.fetchers = before ++ ⟨remaining, some bi⟩ :: after → remaining[bi]? = some c →
      Step cfg s (.finish c.addr)
        { paths := (inflight c.addr (-1) s.paths).2
          fetchers := before ++ after }
  | noPeer {before after : List Fetcher} {remaining : List Cand} :
    s.fetchers = before ++ ⟨remaining, none⟩ :: after → (∀ c ∈ remaining, c.have_ = false) →
      Step cfg s .leave { s with fetchers := before ++ after }
  | refresh (nowSec : Int) (walk : LeaseWalk) :
    Step cfg s (.refresh nowSec walk) { s with paths := refresh cfg s.paths nowSec walk }

/-- **Every path counts the fetches to its address.** -/
def Balanced (s : World) : Prop := ∀ p ∈ s.paths, p.inflight = s.outstanding p.addr

/-- The walk finds a live lease of another node, with an address that can be dialled. -/
def Leased (cfg : Config) (nowSec : Int) (leases : List Lease) (a : Addr) : Prop :=
  ∃ lease ∈ leases, lease.Counts cfg nowSec ∧ ∃ la ∈ lease.addrs, la.Dialable ∧ (la.ip, la.port) = a

def Seeded (cfg : Config) (a : Addr) : Prop :=
  ∃ la ∈ cfg.seeds, la.Dialable ∧ (la.ip, la.port) = a

/-- The addresses that a refresh brings: those of the leases, and while there are none the seeds. -/
def Brings (cfg : Config) (paths : List Path) (nowSec : Int) : LeaseWalk → Addr → Prop
  | .ok leases, a => Leased cfg nowSec leases a ∨ (∀ b, ¬ Leased cfg nowSec leases b) ∧ Seeded cfg a
  | .missingDir, a => peerCount paths = 0 ∧ Seeded cfg a
  | .pathTooLong, _ | .ioErr, _ => False

/-- When a step keeps the counts right. -/
def Keeps (cfg : Config) (s : World) : Action → Prop
  | .arrive => True
  | .start a => listed a s.paths ≤ 1 ∧ (listed a s.paths = 1 → s.outstanding a + 1 < 2 ^ 32)
  | .finish a => listed a s.paths ≤ 1
  | .leave => True
  | .refresh nowSec walk => ∀ a, Brings cfg s.paths nowSec walk a → listed a s.paths = 0 →
    s.outstanding a = 0

/-! ## One counter -/

variable {a : Addr} {delta : Int} {paths : List Path} {p : Path}

theorem addr_eq_iff : p.addr = a ↔ p.port = a.2 ∧ p.ip = a.1 := by
  rw [Path.addr, Prod.ext_iff]
  exact And.comm

theorem listed_cons : listed a (p :: paths) = listed a paths + if p.addr = a then 1 else 0 := by
  simp [listed, List.countP_cons]

theorem mem_of_listed (h : 0 < listed a paths) : ∃ p ∈ paths, p.addr = a := by
  obtain ⟨p, hp, haddr⟩ := List.countP_pos_iff.mp h
  exact ⟨p, hp, of_decide_eq_true haddr⟩

theorem listed_pos (h : p ∈ paths) : 0 < listed p.addr paths :=
  List.countP_pos_iff.mpr ⟨p, h, decide_eq_true rfl⟩

/-- A path of another address is as it was. -/
theorem mem_inflight_of_ne (h : p.addr ≠ a) :
    p ∈ (inflight a delta paths).2 ↔ p ∈ paths := by
  induction paths with
  | nil => rfl
  | cons q paths ih =>
    rw [inflight]
    split_ifs with hq
    · have hqa : q.addr = a := addr_eq_iff.mpr hq
      have hp : p ≠ q := fun heq => h (heq ▸ hqa)
      have hp' : p ≠ { q with inflight := moved q.inflight delta } := fun heq => h (heq ▸ hqa)
      simp only [List.mem_cons, hp, hp', false_or]
    · simp only [List.mem_cons, ih]

/-- An address that is listed once has its one counter moved. -/
theorem mem_inflight_of_once (hone : listed a paths ≤ 1) (h : p ∈ (inflight a delta paths).2)
    (hp : p.addr = a) : ∃ q ∈ paths, q.addr = a ∧ p.inflight = moved q.inflight delta := by
  induction paths with
  | nil => cases h
  | cons q paths ih =>
    rw [listed_cons] at hone
    rw [inflight] at h
    split_ifs at h with hq
    · rw [if_pos (addr_eq_iff.mpr hq)] at hone
      rcases List.mem_cons.mp h with rfl | h
      · exact ⟨q, List.mem_cons_self, addr_eq_iff.mpr hq, rfl⟩
      · have hpos := listed_pos h
        rw [hp] at hpos
        omega
    · rcases List.mem_cons.mp h with rfl | h
      · exact absurd (addr_eq_iff.mp hp) hq
      · obtain ⟨q', hq', hrest⟩ := ih (by omega) h
        exact ⟨q', List.mem_cons_of_mem _ hq', hrest⟩

/-- The first path of the address gets the moved counter. -/
theorem exists_moved (h : 0 < listed a paths) :
    ∃ p ∈ (inflight a delta paths).2, p.addr = a ∧
      ∃ q ∈ paths, q.addr = a ∧ p.inflight = moved q.inflight delta := by
  induction paths with
  | nil => cases h
  | cons q paths ih =>
    rw [inflight]
    split_ifs with hq
    · have hqa : q.addr = a := addr_eq_iff.mpr hq
      exact ⟨_, List.mem_cons_self, hqa, q, List.mem_cons_self, hqa, rfl⟩
    · rw [listed_cons, if_neg (fun heq => hq (addr_eq_iff.mp heq))] at h
      obtain ⟨p, hp, hpa, q', hq', hrest⟩ := ih (by omega)
      exact ⟨p, List.mem_cons_of_mem _ hp, hpa, q', List.mem_cons_of_mem _ hq', hrest⟩

/-- Of an address listed more than once, one path keeps its counter. -/
theorem exists_unmoved (h : 1 < listed a paths) :
    ∃ p ∈ (inflight a delta paths).2, p.addr = a ∧ p ∈ paths := by
  induction paths with
  | nil => cases h
  | cons q paths ih =>
    rw [listed_cons] at h
    rw [inflight]
    split_ifs with hq
    · rw [if_pos (addr_eq_iff.mpr hq)] at h
      obtain ⟨p, hp, hpa⟩ := mem_of_listed (Nat.lt_of_succ_lt_succ h)
      exact ⟨p, List.mem_cons_of_mem _ hp, hpa, List.mem_cons_of_mem _ hp⟩
    · rw [if_neg (fun heq => hq (addr_eq_iff.mp heq))] at h
      obtain ⟨p, hp, hpa, hmem⟩ := ih h
      exact ⟨p, List.mem_cons_of_mem _ hp, hpa, List.mem_cons_of_mem _ hmem⟩

/-! ## The rebuilt list -/

theorem pushPath_zero {peerId : List UInt8} {addr : LeaseAddr} {list : List Path}
    (h : ∀ p ∈ list, p.inflight = 0) : ∀ p ∈ pushPath list peerId addr, p.inflight = 0 := by
  unfold pushPath
  split
  · exact h
  · split_ifs
    · exact h
    · intro p hp
      rcases List.mem_append.mp hp with hp | hp
      · exact h p hp
      · rw [List.mem_singleton.mp hp]
    · exact h

theorem foldl_zero {α : Type*} {f : List Path → α → List Path}
    (hf : ∀ list x, (∀ p ∈ list, p.inflight = 0) → ∀ p ∈ f list x, p.inflight = 0) (xs : List α)
    {list : List Path} (h : ∀ p ∈ list, p.inflight = 0) :
    ∀ p ∈ xs.foldl f list, p.inflight = 0 := by
  induction xs generalizing list with
  | nil => exact h
  | cons x xs ih => exact ih (hf list x h)

theorem visit_zero {cfg : Config} {nowSec : Int} {list : List Path} {lease : Lease}
    (h : ∀ p ∈ list, p.inflight = 0) : ∀ p ∈ visit cfg nowSec list lease, p.inflight = 0 := by
  unfold visit
  split_ifs
  · exact h
  · exact foldl_zero (fun _ _ => pushPath_zero) _ h
  · exact h
  · exact h

theorem ordered_zero {cfg : Config} {list : List Path} (h : ∀ p ∈ list, p.inflight = 0) :
    ∀ p ∈ ordered cfg list, p.inflight = 0 := by
  intro p hp
  unfold ordered at hp
  rw [List.mem_insertionSort] at hp
  split_ifs at hp
  · exact foldl_zero (fun _ _ => pushPath_zero) _ (fun _ hq => absurd hq List.not_mem_nil) p hp
  · exact h p hp

/-- A rebuilt path starts from zero. -/
theorem newPaths_zero {cfg : Config} {nowSec : Int} {walk : LeaseWalk} {list : List Path}
    (h : newPaths cfg paths nowSec walk = some list) : ∀ p ∈ list, p.inflight = 0 := by
  have hnil : ∀ p ∈ ([] : List Path), p.inflight = 0 := fun _ hp => absurd hp List.not_mem_nil
  unfold newPaths at h
  cases walk with
  | ok leases =>
    obtain rfl := Option.some.inj h
    exact ordered_zero (foldl_zero (fun _ _ => visit_zero) _ hnil)
  | pathTooLong => cases h
  | missingDir =>
    dsimp only at h
    split_ifs at h
    obtain rfl := Option.some.inj h
    exact ordered_zero hnil
  | ioErr => cases h

/-! ## What a refresh brings -/

variable {cfg : Config}

theorem mem_pushPath {list : List Path} {id : List UInt8} {addr : LeaseAddr} :
    p ∈ pushPath list id addr ↔
      p ∈ list ∨ addr.Dialable ∧ p = { peerId := id, ip := addr.ip, port := addr.port } := by
  unfold pushPath LeaseAddr.Dialable
  cases hquad : parseV4 addr.ip with
  | none => simp
  | some quad =>
    dsimp only
    by_cases hport : addr.port = 0
    · simp [hport]
    · by_cases hhost : isDialableHost quad = true
      · simp [hport, hhost]
      · simp [hport, hhost]

/-- The addresses that a fold of `pushPath` brings. -/
theorem addr_foldl_pushPath {id : LeaseAddr → List UInt8} {addrs : List LeaseAddr}
    {list : List Path} :
    (∃ p ∈ addrs.foldl (fun list la => pushPath list (id la) la) list, p.addr = a) ↔
      (∃ p ∈ list, p.addr = a) ∨ ∃ la ∈ addrs, la.Dialable ∧ (la.ip, la.port) = a := by
  induction addrs generalizing list with
  | nil => simp
  | cons la addrs ih =>
    have hpush : (∃ p ∈ pushPath list (id la) la, p.addr = a) ↔
        (∃ p ∈ list, p.addr = a) ∨ la.Dialable ∧ (la.ip, la.port) = a := by
      constructor
      · rintro ⟨p, hp, haddr⟩
        obtain hp | ⟨hdial, rfl⟩ := mem_pushPath.mp hp
        · exact Or.inl ⟨p, hp, haddr⟩
        · exact Or.inr ⟨hdial, haddr⟩
      · rintro (⟨p, hp, haddr⟩ | ⟨hdial, haddr⟩)
        · exact ⟨p, mem_pushPath.mpr (Or.inl hp), haddr⟩
        · exact ⟨_, mem_pushPath.mpr (Or.inr ⟨hdial, rfl⟩), haddr⟩
    rw [List.foldl_cons, ih, hpush, or_assoc, List.exists_mem_cons_iff]

theorem addr_foldl_visit {nowSec : Int} {leases : List Lease} {list : List Path} :
    (∃ p ∈ leases.foldl (visit cfg nowSec) list, p.addr = a) ↔
      (∃ p ∈ list, p.addr = a) ∨ Leased cfg nowSec leases a := by
  induction leases generalizing list with
  | nil => simp [Leased]
  | cons lease leases ih =>
    have hvisit : (∃ p ∈ visit cfg nowSec list lease, p.addr = a) ↔ (∃ p ∈ list, p.addr = a) ∨
        lease.Counts cfg nowSec ∧ ∃ la ∈ lease.addrs, la.Dialable ∧ (la.ip, la.port) = a := by
      unfold visit Lease.Counts
      by_cases hlive : leaseLive lease.untilSec nowSec = true
      · by_cases hself : lease.id = cfg.selfId
        · simp [hlive, hself]
        · by_cases hvalid : validId lease.id = true
          · rw [if_neg (not_not.mpr hlive), if_neg hself, if_neg (not_not.mpr hvalid),
              @addr_foldl_pushPath a fun _ => lease.id]
            simp [hlive, hself, hvalid]
          · simp [hlive, hself, hvalid]
      · simp [hlive]
    rw [List.foldl_cons, ih, hvisit, or_assoc]
    unfold Leased
    rw [List.exists_mem_cons_iff]

theorem addr_ordered {list : List Path} : (∃ p ∈ ordered cfg list, p.addr = a) ↔
    (∃ p ∈ list, p.addr = a) ∨ list = [] ∧ Seeded cfg a := by
  unfold ordered
  simp only [List.mem_insertionSort]
  split_ifs with hnil
  · rw [@addr_foldl_pushPath a LeaseAddr.ip]
    simp [hnil, Seeded]
  · simp [hnil]

/-- **The new list has the addresses that the leases bring.** -/
theorem brings_iff {nowSec : Int} {walk : LeaseWalk} : Brings cfg paths nowSec walk a ↔
    ∃ list, newPaths cfg paths nowSec walk = some list ∧ ∃ p ∈ list, p.addr = a := by
  unfold newPaths
  cases walk with
  | ok leases =>
    have hnone : leases.foldl (visit cfg nowSec) [] = [] ↔ ∀ b, ¬ Leased cfg nowSec leases b := by
      rw [List.eq_nil_iff_forall_not_mem]
      constructor
      · intro hempty b hb
        obtain ⟨p, hp, -⟩ := addr_foldl_visit.mpr (Or.inr hb)
        exact hempty p hp
      · intro hno p hp
        obtain ⟨q, hq, -⟩ | hleased := addr_foldl_visit.mp ⟨p, hp, rfl⟩
        · exact List.not_mem_nil hq
        · exact hno _ hleased
    simp only [Option.some.injEq, exists_eq_left']
    rw [addr_ordered, addr_foldl_visit, hnone]
    simp [Brings]
  | pathTooLong => simp [Brings]
  | missingDir =>
    dsimp only
    split_ifs with hcount
    · simp [Brings, hcount]
    · simp only [Option.some.injEq, exists_eq_left']
      rw [addr_ordered]
      simp [Brings, not_not.mp hcount]
  | ioErr => simp [Brings]

theorem carry_addr : (carry paths p).addr = p.addr := by
  unfold carry
  split <;> rfl

/-- An address that stays keeps a count of the old list, a new one starts from its own. -/
theorem carry_inflight : (∃ q ∈ paths, q.addr = p.addr ∧ (carry paths p).inflight = q.inflight) ∨
    listed p.addr paths = 0 ∧ carry paths p = p := by
  unfold carry
  cases hfind : paths.find? fun op => op.addr = p.addr with
  | some q =>
    have hq := List.find?_some hfind
    exact Or.inl ⟨q, List.mem_of_find?_eq_some hfind, of_decide_eq_true hq, rfl⟩
  | none =>
    have hno := List.find?_eq_none.mp hfind
    exact Or.inr ⟨List.countP_eq_zero.mpr hno, rfl⟩

/-! ## One step -/

variable {s s' : World} {act : Action}

theorem outstanding_append {before after : List Fetcher} {f : Fetcher} {ps : List Path} :
    World.outstanding ⟨ps, before ++ f :: after⟩ a =
      World.outstanding ⟨ps, before ++ after⟩ a + if f.target = some a then 1 else 0 := by
  simp only [World.outstanding, List.countP_append, List.countP_cons, decide_eq_true_iff]
  omega

/-- **A fetch starts or ends**: `s'` differs from `s` by one fetch to `a`, which `delta` counts. -/
theorem balanced_inflight (hbal : Balanced s) (hpaths : s'.paths = (inflight a delta s.paths).2)
    (hother : ∀ b, b ≠ a → s'.outstanding b = s.outstanding b)
    (hdiff : s'.outstanding a ≠ s.outstanding a) :
    Balanced s' ↔ listed a s.paths ≤ 1 ∧
      (listed a s.paths = 1 → moved (s.outstanding a) delta = s'.outstanding a) := by
  constructor
  · intro hbal'
    refine ⟨Nat.not_lt.mp fun htwice => ?_, fun hone => ?_⟩
    · obtain ⟨p, hp, hpa, hold⟩ := @exists_unmoved a delta _ htwice
      have hnew := hbal' p (hpaths ▸ hp)
      have hwas := hbal p hold
      rw [hpa] at hnew hwas
      exact hdiff (hnew.symm.trans hwas)
    · obtain ⟨p, hp, hpa, q, hq, hqa, hcount⟩ := @exists_moved a delta _ (hone ▸ Nat.one_pos)
      have hnew := hbal' p (hpaths ▸ hp)
      have hwas := hbal q hq
      rw [hpa] at hnew
      rw [hqa] at hwas
      rw [← hwas, ← hcount, hnew]
  · rintro ⟨hone, hmoved⟩ p hp
    rw [hpaths] at hp
    by_cases hpa : p.addr = a
    · obtain ⟨q, hq, hqa, hcount⟩ := mem_inflight_of_once hone hp hpa
      have hpos := listed_pos hq
      have hwas := hbal q hq
      rw [hqa] at hpos hwas
      rw [hcount, hwas, hmoved (by omega), hpa]
    · rw [hother _ hpa]
      exact hbal p ((mem_inflight_of_ne hpa).mp hp)

theorem target_of_win {remaining : List Cand} {bi : Nat} {c : Cand}
    (hwin : remaining[bi]? = some c) : Fetcher.target ⟨remaining, some bi⟩ = some c.addr := by
  rw [Fetcher.target, Option.bind_some, hwin, Option.map_some]

theorem moved_up (n : Nat) : moved n 1 = (n + 1) % 2 ^ 32 := if_pos Int.one_pos

theorem moved_down (n : Nat) : moved (n + 1) (-1) = n := by
  unfold moved
  rw [if_neg (by decide)]
  split_ifs <;> omega

/-- **A fetch is over**: its fetcher goes on with `fetchers'` instead. -/
theorem balanced_finish {before after fetchers' : List Fetcher} {f : Fetcher}
    (hbal : Balanced ⟨paths, before ++ f :: after⟩) (hf : f.target = some a)
    (hrest : ∀ b, World.outstanding ⟨(inflight a (-1) paths).2, fetchers'⟩ b =
      World.outstanding ⟨paths, before ++ after⟩ b) :
    Balanced ⟨(inflight a (-1) paths).2, fetchers'⟩ ↔ listed a paths ≤ 1 := by
  have hout := fun b => @outstanding_append b before after f paths
  have hat := hout a
  rw [if_pos hf] at hat
  rw [balanced_inflight hbal rfl]
  · refine and_iff_left fun _ => ?_
    rw [hat, moved_down, hrest]
  · intro b hb
    have hother : ¬ f.target = some b := fun h => hb (Option.some.inj (h.symm.trans hf))
    rw [hrest, hout, if_neg hother, Nat.add_zero]
  · rw [hrest, hat]
    exact Nat.ne_of_lt (Nat.lt_succ_self _)

/-- **The list is built anew.** -/
theorem balanced_refresh {nowSec : Int} {walk : LeaseWalk} {fetchers : List Fetcher}
    (hbal : Balanced ⟨paths, fetchers⟩) :
    Balanced ⟨refresh cfg paths nowSec walk, fetchers⟩ ↔
      Keeps cfg ⟨paths, fetchers⟩ (.refresh nowSec walk) := by
  unfold Keeps refresh
  dsimp only
  cases hnew : newPaths cfg paths nowSec walk with
  | none =>
    refine iff_of_true hbal fun a hbrings => ?_
    obtain ⟨list, hlist, -⟩ := brings_iff.mp hbrings
    exact absurd (hlist.symm.trans hnew) (Option.some_ne_none list)
  | some fresh =>
    have hzero := newPaths_zero hnew
    constructor
    · intro hbal' a hbrings hgone
      obtain ⟨list, hlist, p, hp, rfl⟩ := brings_iff.mp hbrings
      obtain rfl := Option.some.inj (hlist.symm.trans hnew)
      rcases @carry_inflight paths p with ⟨q, hq, hqa, -⟩ | ⟨-, hsame⟩
      · have hpos := listed_pos hq
        rw [hqa, hgone] at hpos
        exact absurd hpos (Nat.lt_irrefl 0)
      · have hcount := hbal' _ (List.mem_map_of_mem hp)
        rw [hsame, hzero p hp] at hcount
        exact hcount.symm
    · intro hkeeps p' hp'
      obtain ⟨p, hp, rfl⟩ := List.mem_map.mp hp'
      rw [carry_addr]
      rcases @carry_inflight paths p with ⟨q, hq, hqa, hcount⟩ | ⟨hgone, hsame⟩
      · rw [hcount, ← hqa]
        exact hbal q hq
      · rw [hsame, hzero p hp]
        exact (hkeeps p.addr (brings_iff.mpr ⟨fresh, hnew, p, hp, rfl⟩) hgone).symm

/-- **What one step does to the counts, exactly.** -/
theorem balanced_iff (hbal : Balanced s) (hstep : Step cfg s act s') :
    Balanced s' ↔ Keeps cfg s act := by
  obtain ⟨paths, fetchers⟩ := s
  cases hstep with
  | arrive cands =>
    have hsame : ∀ b, World.outstanding ⟨paths, ⟨cands, none⟩ :: fetchers⟩ b =
        World.outstanding ⟨paths, fetchers⟩ b := fun b =>
      (@outstanding_append b [] fetchers ⟨cands, none⟩ paths).trans (Nat.add_zero _)
    exact iff_of_true (fun p hp => (hbal p hp).trans (hsame _).symm) trivial
  | @noPeer before after remaining hmem hnone =>
    dsimp only at hmem
    subst hmem
    have hsame := fun b => @outstanding_append b before after ⟨remaining, none⟩ paths
    exact iff_of_true (fun p hp => (hbal p hp).trans (hsame _)) trivial
  | @start before after remaining bi c hmem hwin _ =>
    dsimp only at hmem
    subst hmem
    have hidle := fun b => @outstanding_append b before after ⟨remaining, none⟩ paths
    have hbusy := fun b => @outstanding_append b before after ⟨remaining, some bi⟩
      (inflight c.addr 1 paths).2
    have hnone : ∀ b, ¬ Fetcher.target ⟨remaining, none⟩ = some b := fun b => nofun
    rw [balanced_inflight hbal rfl]
    · unfold Keeps
      refine and_congr_right fun _ => imp_congr_right fun _ => ?_
      rw [hbusy, if_pos (target_of_win hwin), moved_up, hidle, if_neg (hnone _)]
      exact ⟨fun h => h ▸ Nat.mod_lt _ (by decide), fun h => Nat.mod_eq_of_lt h⟩
    · intro b hb
      have hother : ¬ Fetcher.target ⟨remaining, some bi⟩ = some b := fun h =>
        hb (Option.some.inj (h.symm.trans (target_of_win hwin)))
      rw [hbusy, hidle, if_neg hother, if_neg (hnone b)]
      rfl
    · rw [hbusy, hidle, if_pos (target_of_win hwin), if_neg (hnone _)]
      exact Nat.succ_ne_self _
  | @fail before after remaining bi c hmem hwin =>
    dsimp only at hmem
    subst hmem
    exact balanced_finish hbal (target_of_win hwin) fun b =>
      @outstanding_append b before after ⟨_, none⟩ (inflight c.addr (-1) paths).2
  | @succeed before after remaining bi c hmem hwin =>
    dsimp only at hmem
    subst hmem
    exact balanced_finish hbal (target_of_win hwin) fun b => rfl
  | refresh nowSec walk =>
    exact balanced_refresh hbal

/-! ## Runs -/

/-- The steps that keep the counts right. -/
def Kept (cfg : Config) (s s' : World) : Prop := ∃ act, Step cfg s act s' ∧ Keeps cfg s act

/-- **The counts along a run.** They are right in every state that steps with `Keeps` lead to, and
there a step leaves them right just if it has `Keeps` too. -/
theorem inflight_of_run (hrun : Run (Kept cfg) Always {} s) :
    Balanced s ∧ ∀ act s', Step cfg s act s' → (Balanced s' ↔ Keeps cfg s act) := by
  have hinit : Balanced {} := fun p hp => absurd hp List.not_mem_nil
  have hkeep : ∀ s₁ s₂, Balanced s₁ → Kept cfg s₁ s₂ → Always s₁ s₂ → Balanced s₂ := by
    rintro s₁ s₂ hbal ⟨act, hstep, hkeeps⟩ -
    exact (balanced_iff hbal hstep).mpr hkeeps
  have hbal := hrun.invariant hkeep hinit
  exact ⟨hbal, fun act s' hstep => balanced_iff hbal hstep⟩

/-! ## A peer that comes and goes -/

/-- A node without seeds, and the lease of another. -/
def nodeA : Config := ⟨ascii "a", []⟩

def leaseB : Lease := ⟨ascii "b", 100, [⟨ascii "10.0.0.2", 9000⟩]⟩

def candB : Cand := ⟨ascii "10.0.0.2", 9000, true⟩

/-- The path of the other node, with `n` fetches counted. -/
def pathB (n : Nat) : Path := ⟨ascii "b", ascii "10.0.0.2", 9000, n⟩

/-- One fetch is out to it. -/
def fetching : World := ⟨[pathB 1], [⟨[candB], some 0⟩]⟩

theorem refresh_leaseB : refresh nodeA [] 0 (.ok [leaseB]) = [pathB 0] := by decide

theorem step_leaseB (fetchers : List Fetcher) :
    Step nodeA ⟨[], fetchers⟩ (.refresh 0 (.ok [leaseB])) ⟨[pathB 0], fetchers⟩ := by
  have hstep := @Step.refresh nodeA ⟨[], fetchers⟩ 0 (.ok [leaseB])
  rwa [refresh_leaseB] at hstep

theorem run_fetching : Run (Kept nodeA) Always {} fetching := by
  have hlist : Kept nodeA {} ⟨[pathB 0], []⟩ :=
    ⟨_, step_leaseB [], fun _ _ _ => rfl⟩
  have harrive : Kept nodeA ⟨[pathB 0], []⟩ ⟨[pathB 0], [⟨[candB], none⟩]⟩ :=
    ⟨_, Step.arrive [candB], trivial⟩
  have hstart : Kept nodeA ⟨[pathB 0], [⟨[candB], none⟩]⟩ fetching :=
    ⟨_, @Step.start nodeA ⟨[pathB 0], [⟨[candB], none⟩]⟩ [] [] [candB] 0 candB rfl rfl rfl,
      by decide, fun _ => by decide⟩
  exact (((Run.refl _).then hlist).then harrive).then hstart

theorem inflight_of_run_fetching :
    Balanced fetching ∧
      ∀ act s', Step nodeA fetching act s' → (Balanced s' ↔ Keeps nodeA fetching act) :=
  inflight_of_run run_fetching

/-- **A peer whose lease is gone for one refresh has lost its count.** -/
theorem inflight_drifts : ¬ ∀ (cfg : Config) (s : World),
    Run (fun s s' => ∃ act, Step cfg s act s') Always {} s → Balanced s := by
  intro hall
  have hrun : Run (fun s s' => ∃ act, Step nodeA s act s') Always {} fetching :=
    Relation.ReflTransGen.mono (fun _ _ h => ⟨h.1.imp fun _ => And.left, trivial⟩) _ _ run_fetching
  have hgone : ∃ act, Step nodeA fetching act ⟨[], fetching.fetchers⟩ :=
    ⟨_, Step.refresh 0 (.ok [])⟩
  have hback : ∃ act, Step nodeA ⟨[], fetching.fetchers⟩ act ⟨[pathB 0], fetching.fetchers⟩ :=
    ⟨_, step_leaseB _⟩
  have hcount := hall nodeA _ ((hrun.then hgone).then hback) (pathB 0) List.mem_cons_self
  exact absurd hcount (by decide)

end Discover

end ModelFs
