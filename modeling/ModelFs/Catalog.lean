import ModelFs.Inflight
import ModelFs.Lib.StableSort

/-!
# The catalog, with its numbers

`refresh` and `pickBest` again, with what `ModelFs.Inflight` leaves out: the goodput that a lease
offers or that was measured, and the hops. A lease is a file in a directory, and what a directory
lists comes in any order.

Goodputs are of a type `F` that stands for `f64`; the offers of leases are whole numbers of bytes a
second, below `2 ^ 53`. Scores are of a linear order: `pathScore` is never NaN.

* `refresh_toPath` — without its numbers this is the refresh of `ModelFs.Inflight`.
* `filter_visit` — what one lease adds under one key.
* `orderFree_iff` — **when the order of the leases does not matter**.
* `order_matters` — two leases with one id and address, and two goodputs.
-/

namespace ModelFs

namespace Catalog

open Proto

/-! ## Leases and paths -/

structure LeaseAddr extends Discover.LeaseAddr where
  mbps : UInt32 := 0
  deriving DecidableEq

structure Lease where
  id : List UInt8
  /-- `until`, in seconds. -/
  untilSec : Int
  addrs : List LeaseAddr

structure Path (F : Type) extends Discover.Path where
  ewmaBps : F
  hops : Nat
  deriving DecidableEq

structure Config where
  selfId : List UInt8
  seeds : List LeaseAddr := []
  localIps : List (List UInt8) := []

/-- What a path is sorted by. -/
abbrev Key := List UInt8 × Discover.Addr

variable {F : Type}

def Path.key (p : Path F) : Key := (p.peerId, p.addr)

/-- The same /24 is no hop away. -/
def hopsBetween (localIp remoteIp : List UInt8) : Nat :=
  match parseV4 localIp, parseV4 remoteIp with
  | some a, some b => if a.take 3 = b.take 3 then 0 else 1
  | _, _ => 1

def hopsTo (cfg : Config) (ip : List UInt8) : Nat :=
  cfg.localIps.foldl (fun hops lip => min hops (hopsBetween lip ip)) 1

/-- Bytes a second; without an offer, a neutral prior. -/
def priorBps (mbps : UInt32) : Nat := if mbps = 0 then 100000000 else mbps.toNat * 1000000 / 8

section Refresh

variable (ofNat : Nat → F) (cfg : Config) (nowSec : Int)

def pushPath (list : List (Path F)) (peerId : List UInt8) (addr : LeaseAddr) : List (Path F) :=
  match parseV4 addr.ip with
  | none => list
  | some quad =>
    if addr.port = 0 then list
    else if ¬ Discover.isDialableHost quad then list
    else list ++ [{
      peerId := peerId
      ip := addr.ip
      port := addr.port
      ewmaBps := ofNat (priorBps addr.mbps)
      hops := hopsTo cfg addr.ip }]

/-- `Acc.visit`, on one lease. -/
def visit (paths : List (Path F)) (lease : Lease) : List (Path F) :=
  if ¬ Discover.leaseLive lease.untilSec nowSec then paths
  else if lease.id = cfg.selfId then paths
  else if ¬ Discover.validId lease.id then paths
  else lease.addrs.foldl (fun list a => pushPath ofNat cfg list lease.id a) paths

/-- How a walk over the leases ends. -/
inductive LeaseWalk where
  | ok (leases : List Lease)
  | pathTooLong
  | missingDir
  | ioErr

/-- `pathListLess`, the other way round and not. -/
def NotAfter (a b : Path F) : Prop := Discover.pathListLess b.toPath a.toPath = false

instance : DecidableRel (NotAfter (F := F)) := fun a b =>
  inferInstanceAs (Decidable (Discover.pathListLess b.toPath a.toPath = false))

/-- The list in its order. The seeds stand in for peers until there is a lease. -/
def ordered (listed : List (Path F)) : List (Path F) :=
  let seeded :=
    if listed.isEmpty then cfg.seeds.foldl (fun list s => pushPath ofNat cfg list s.ip s) []
    else listed
  seeded.insertionSort NotAfter

def peerCount (paths : List (Path F)) : Nat := Discover.peerCount (paths.map Path.toPath)

/-- The list built from a walk; `none` keeps the list there is. -/
def newPaths (paths : List (Path F)) : LeaseWalk → Option (List (Path F))
  | .ok leases => some (ordered ofNat cfg (leases.foldl (visit ofNat cfg nowSec) []))
  | .pathTooLong => none
  | .missingDir => if peerCount paths ≠ 0 then none else some (ordered ofNat cfg [])
  | .ioErr => none

end Refresh

/-- The numbers of the first path of the old list with the address. -/
def carry (paths : List (Path F)) (np : Path F) : Path F :=
  match paths.find? fun op => op.addr = np.addr with
  | some op => { np with ewmaBps := op.ewmaBps, inflight := op.inflight }
  | none => np

def refresh (ofNat : Nat → F) (cfg : Config) (paths : List (Path F)) (nowSec : Int)
    (walk : LeaseWalk) : List (Path F) :=
  match newPaths ofNat cfg nowSec paths walk with
  | none => paths
  | some listed => listed.map (carry paths)

/-! ## Candidates -/

structure PathCand (F : Type) where
  ip : List UInt8
  port : UInt16
  ewmaBps : F
  hops : Nat
  inflight : Nat
  have_ : Bool
  deriving DecidableEq

def candOf (p : Path F) (have_ : Bool) : PathCand F :=
  ⟨p.ip, p.port, p.ewmaBps, p.hops, p.inflight, have_⟩

section Pick

variable {S : Type} [LinearOrder S] (pathScore : F → Nat → Nat → S)

def PathCand.score (c : PathCand F) : S := pathScore c.ewmaBps c.hops c.inflight

def candTieLess (a b : PathCand F) : Bool := Discover.addrTieLess (a.ip, a.port) (b.ip, b.port)

/-- The loop of `pickBest`, from candidate `i` on. -/
def pickFrom : List (PathCand F) → Nat → Option (Nat × PathCand F) → Option (Nat × PathCand F)
  | [], _, best => best
  | cand :: cands, i, best =>
    if ¬ cand.have_ then pickFrom cands (i + 1) best
    else
      match best with
      | none => pickFrom cands (i + 1) (some (i, cand))
      | some (j, b) =>
        if b.score pathScore < cand.score pathScore ∨
            cand.score pathScore = b.score pathScore ∧ candTieLess cand b then
          pickFrom cands (i + 1) (some (i, cand))
        else pickFrom cands (i + 1) (some (j, b))

def pickBest (cands : List (PathCand F)) : Option Nat :=
  (pickFrom pathScore cands 0 none).map Prod.fst

end Pick

/-! ## Without the numbers -/

def Lease.toLease (lease : Lease) : Discover.Lease :=
  ⟨lease.id, lease.untilSec, lease.addrs.map LeaseAddr.toLeaseAddr⟩

def Config.toConfig (cfg : Config) : Discover.Config :=
  ⟨cfg.selfId, cfg.seeds.map LeaseAddr.toLeaseAddr⟩

def LeaseWalk.toWalk : LeaseWalk → Discover.LeaseWalk
  | .ok leases => .ok (leases.map Lease.toLease)
  | .pathTooLong => .pathTooLong
  | .missingDir => .missingDir
  | .ioErr => .ioErr

variable {ofNat : Nat → F} {cfg : Config} {nowSec : Int}

theorem pushPath_toPath (list : List (Path F)) (peerId : List UInt8) (addr : LeaseAddr) :
    (pushPath ofNat cfg list peerId addr).map Path.toPath =
      Discover.pushPath (list.map Path.toPath) peerId addr.toLeaseAddr := by
  unfold pushPath Discover.pushPath
  cases parseV4 addr.ip with
  | none => rfl
  | some quad =>
    dsimp only
    split_ifs
    · rfl
    · rw [List.map_append, List.map_cons, List.map_nil]
    · rfl

theorem foldl_pushPath_toPath (addrs : List LeaseAddr) (id : LeaseAddr → List UInt8)
    (id' : Discover.LeaseAddr → List UInt8) (hid : ∀ a, id a = id' a.toLeaseAddr)
    (list : List (Path F)) :
    (addrs.foldl (fun list a => pushPath ofNat cfg list (id a) a) list).map Path.toPath =
      (addrs.map LeaseAddr.toLeaseAddr).foldl (fun list a => Discover.pushPath list (id' a) a)
        (list.map Path.toPath) := by
  induction addrs generalizing list with
  | nil => rfl
  | cons a addrs ih =>
    rw [List.foldl_cons, ih, pushPath_toPath, List.map_cons, List.foldl_cons, hid]

theorem visit_toPath (list : List (Path F)) (lease : Lease) :
    (visit ofNat cfg nowSec list lease).map Path.toPath =
      Discover.visit cfg.toConfig nowSec (list.map Path.toPath) lease.toLease := by
  have hpush := @foldl_pushPath_toPath F ofNat cfg lease.addrs (fun _ => lease.id)
    (fun _ => lease.id) (fun _ => rfl) list
  unfold visit Discover.visit
  rw [apply_ite (List.map Path.toPath), apply_ite (List.map Path.toPath),
    apply_ite (List.map Path.toPath), hpush]
  rfl

theorem foldl_visit_toPath (leases : List Lease) (list : List (Path F)) :
    (leases.foldl (visit ofNat cfg nowSec) list).map Path.toPath =
      (leases.map Lease.toLease).foldl (Discover.visit cfg.toConfig nowSec)
        (list.map Path.toPath) := by
  induction leases generalizing list with
  | nil => rfl
  | cons lease leases ih => rw [List.foldl_cons, ih, visit_toPath, List.map_cons, List.foldl_cons]

theorem ordered_toPath (list : List (Path F)) :
    (ordered ofNat cfg list).map Path.toPath =
      Discover.ordered cfg.toConfig (list.map Path.toPath) := by
  have hseeds := @foldl_pushPath_toPath F ofNat cfg cfg.seeds (fun s => s.ip)
    (fun s => s.ip) (fun _ => rfl) []
  have hsort : ∀ l : List (Path F), (l.insertionSort NotAfter).map Path.toPath =
      (l.map Path.toPath).insertionSort fun a b => Discover.pathListLess b a = false := fun l =>
    List.map_insertionSort _ _ _ l fun a _ b _ => Iff.rfl
  unfold ordered Discover.ordered
  dsimp only
  rw [hsort]
  congr 1
  cases list with
  | nil => exact hseeds
  | cons p list => rfl

theorem carry_toPath (paths : List (Path F)) (np : Path F) :
    (carry paths np).toPath = Discover.carry (paths.map Path.toPath) np.toPath := by
  unfold carry Discover.carry
  rw [List.find?_map]
  have hsame : ((fun op : Discover.Path => decide (op.addr = np.toPath.addr)) ∘ Path.toPath) =
      fun op : Path F => decide (op.addr = np.addr) := rfl
  rw [hsame]
  cases paths.find? fun op => decide (op.addr = np.addr) with
  | none => rfl
  | some op => rfl

/-- **Without its numbers** this is the refresh of `ModelFs.Inflight`. -/
theorem refresh_toPath (paths : List (Path F)) (walk : LeaseWalk) :
    (refresh ofNat cfg paths nowSec walk).map Path.toPath =
      Discover.refresh cfg.toConfig (paths.map Path.toPath) nowSec walk.toWalk := by
  have hcarry : ∀ listed : List (Path F), (listed.map (carry paths)).map Path.toPath =
      (listed.map Path.toPath).map (Discover.carry (paths.map Path.toPath)) := by
    intro listed
    rw [List.map_map, List.map_map]
    exact List.map_congr_left fun np _ => carry_toPath paths np
  unfold refresh Discover.refresh
  cases walk with
  | ok leases =>
    dsimp only [newPaths, Discover.newPaths, LeaseWalk.toWalk]
    rw [hcarry, ordered_toPath, foldl_visit_toPath]
    rfl
  | pathTooLong => rfl
  | missingDir =>
    dsimp only [newPaths, Discover.newPaths, LeaseWalk.toWalk]
    by_cases hcount : Discover.peerCount (paths.map Path.toPath) ≠ 0
    · rw [if_pos hcount, if_pos (show peerCount paths ≠ 0 from hcount)]
    · rw [if_neg hcount, if_neg (show ¬ peerCount paths ≠ 0 from hcount)]
      dsimp only
      rw [hcarry, ordered_toPath]
      rfl
  | ioErr => rfl

/-! ## The order of paths -/

open StableSort (StrictTotal cls)

theorem strictTotal_bytes : StrictTotal fun a b : List UInt8 => a < b where
  irrefl := List.lt_irrefl
  trans := List.lt_trans
  eq_of_not := Std.Trichotomous.trichotomous _ _

theorem strictTotal_port : StrictTotal fun a b : UInt16 => a < b where
  irrefl := fun _ => UInt16.lt_irrefl _
  trans := UInt16.lt_trans
  eq_of_not := Std.Trichotomous.trichotomous _ _

theorem strictTotal_addr :
    StrictTotal fun a b : Discover.Addr => Discover.addrTieLess a b = true := by
  have hlex := strictTotal_bytes.lex strictTotal_port
  have heq : (fun a b : Discover.Addr => Discover.addrTieLess a b = true) =
      fun a b => a.1 < b.1 ∨ a.1 = b.1 ∧ a.2 < b.2 := by
    funext a b
    exact propext decide_eq_true_iff
  rw [heq]
  exact hlex

/-- The higher score comes first, and the address decides where scores are equal. -/
theorem strictTotal_score {S : Type} [LinearOrder S] : StrictTotal fun a b : S × Discover.Addr =>
    b.1 < a.1 ∨ a.1 = b.1 ∧ Discover.addrTieLess a.2 b.2 = true :=
  StrictTotal.of_gt.lex strictTotal_addr

theorem strictTotal_key : StrictTotal fun a b : Key =>
    a.1 < b.1 ∨ a.1 = b.1 ∧ Discover.addrTieLess a.2 b.2 = true :=
  strictTotal_bytes.lex strictTotal_addr

theorem notAfter_iff {a b : Path F} :
    NotAfter a b ↔ ¬ (b.key.1 < a.key.1 ∨ b.key.1 = a.key.1 ∧
      Discover.addrTieLess b.key.2 a.key.2 = true) := by
  unfold NotAfter Discover.pathListLess
  rw [decide_eq_false_iff_not]
  rfl

theorem notAfter_refl (a : Path F) : NotAfter a a := notAfter_iff.mpr (strictTotal_key.irrefl a.key)

instance : Std.Total (NotAfter (F := F)) where
  total a b := by
    rw [notAfter_iff, notAfter_iff]
    by_contra hno
    obtain ⟨hba, hab⟩ := not_or.mp hno
    exact strictTotal_key.asymm (not_not.mp hab) (not_not.mp hba)

instance : IsTrans (Path F) NotAfter where
  trans a b c hab hbc := by
    rw [notAfter_iff] at hab hbc ⊢
    exact strictTotal_key.not_lt_trans hab hbc

/-- Paths that are equal to the sort have one key. -/
theorem cls_iff {k p : Path F} : cls NotAfter k p = true ↔ p.key = k.key := by
  unfold cls
  rw [Bool.and_eq_true, decide_eq_true_iff, decide_eq_true_iff, notAfter_iff, notAfter_iff]
  constructor
  · rintro ⟨hkp, hpk⟩
    exact strictTotal_key.eq_of_not hpk hkp
  · intro heq
    rw [heq]
    exact ⟨strictTotal_key.irrefl _, strictTotal_key.irrefl _⟩

/-! ## What a lease adds -/

/-- A path that a lease offers. -/
def pathFor (cfg : Config) (key : Key) (e : F) : Path F where
  peerId := key.1
  ip := key.2.1
  port := key.2.2
  ewmaBps := e
  hops := hopsTo cfg key.2.1

/-- An address that is taken into the list. -/
def dialable (addr : LeaseAddr) : Bool :=
  match parseV4 addr.ip with
  | none => false
  | some quad => !decide (addr.port = 0) && Discover.isDialableHost quad

/-- A lease that is taken into the list. -/
def counts (cfg : Config) (nowSec : Int) (lease : Lease) : Bool :=
  Discover.leaseLive lease.untilSec nowSec && !decide (lease.id = cfg.selfId) &&
    Discover.validId lease.id

/-- **The goodputs that a lease offers** for a peer's address, in its order. -/
def offered (ofNat : Nat → F) (cfg : Config) (nowSec : Int) (lease : Lease) (key : Key) : List F :=
  if counts cfg nowSec lease && decide (lease.id = key.1) then
    (lease.addrs.filter fun a => dialable a && decide ((a.ip, a.port) = key.2)).map fun a =>
      ofNat (priorBps a.mbps)
  else []

theorem pushPath_eq (list : List (Path F)) (id : List UInt8) (a : LeaseAddr) :
    pushPath ofNat cfg list id a = list ++ if dialable a then
      [pathFor cfg (id, a.ip, a.port) (ofNat (priorBps a.mbps))] else [] := by
  unfold pushPath dialable
  cases parseV4 a.ip with
  | none => simp
  | some quad =>
    by_cases hport : a.port = 0
    · simp [hport]
    · by_cases hhost : Discover.isDialableHost quad = true
      · simp [hport, hhost, pathFor]
      · simp [hport, hhost]

theorem foldl_pushPath (addrs : List LeaseAddr) (id : List UInt8) (list : List (Path F)) :
    addrs.foldl (fun list a => pushPath ofNat cfg list id a) list =
      list ++ (addrs.filter dialable).map fun a =>
        pathFor cfg (id, a.ip, a.port) (ofNat (priorBps a.mbps)) := by
  induction addrs generalizing list with
  | nil => rw [List.foldl_nil, List.filter_nil, List.map_nil, List.append_nil]
  | cons a addrs ih =>
    rw [List.foldl_cons, ih, pushPath_eq, List.filter_cons]
    split_ifs <;> simp

/-- What one lease adds, to whatever list. -/
theorem visit_eq (list : List (Path F)) (lease : Lease) :
    visit ofNat cfg nowSec list lease =
      list ++ if counts cfg nowSec lease then
        (lease.addrs.filter dialable).map fun a =>
          pathFor cfg (lease.id, a.ip, a.port) (ofNat (priorBps a.mbps))
      else [] := by
  unfold visit counts
  rw [foldl_pushPath]
  cases Discover.leaseLive lease.untilSec nowSec with
  | false => simp
  | true =>
    by_cases hself : lease.id = cfg.selfId
    · simp [hself]
    · cases Discover.validId lease.id <;> simp [hself]

theorem visit_append (list : List (Path F)) (lease : Lease) :
    visit ofNat cfg nowSec list lease = list ++ visit ofNat cfg nowSec [] lease := by
  rw [visit_eq, visit_eq [], List.nil_append]

theorem foldl_visit (leases : List Lease) (list : List (Path F)) :
    leases.foldl (visit ofNat cfg nowSec) list =
      list ++ leases.flatMap (visit ofNat cfg nowSec []) := by
  induction leases generalizing list with
  | nil => rw [List.foldl_nil, List.flatMap_nil, List.append_nil]
  | cons lease leases ih =>
    rw [List.foldl_cons, ih, visit_append, List.flatMap_cons, List.append_assoc]

/-- **What one lease adds under one key.** -/
theorem filter_visit (lease : Lease) (key : Key) :
    (visit ofNat cfg nowSec [] lease).filter (fun p => decide (p.key = key)) =
      (offered ofNat cfg nowSec lease key).map (pathFor cfg key) := by
  rw [visit_eq, List.nil_append]
  unfold offered
  cases counts cfg nowSec lease with
  | false => rfl
  | true =>
    rw [if_pos rfl, Bool.true_and, List.filter_map, List.filter_filter]
    by_cases hid : lease.id = key.1
    · have hsame : (fun a : LeaseAddr => dialable a && decide ((a.ip, a.port) = key.2)) =
          fun a => ((fun p : Path F => decide (p.key = key)) ∘ fun a : LeaseAddr =>
            pathFor cfg (lease.id, a.ip, a.port) (ofNat (priorBps a.mbps))) a && dialable a := by
        funext a
        rw [Bool.and_comm, Function.comp_apply]
        congr 1
        exact decide_eq_decide.mpr ⟨fun h => Prod.ext hid h, fun h => congrArg Prod.snd h⟩
      rw [decide_eq_true hid, if_pos rfl, hsame, List.map_map]
      refine List.map_congr_left fun a ha => ?_
      have hkey := of_decide_eq_true (Bool.and_eq_true_iff.mp (List.mem_filter.mp ha).2).1
      rw [Function.comp_apply, ← hkey]
      rfl
    · rw [decide_eq_false hid, if_neg Bool.false_ne_true, List.map_nil, List.map_eq_nil_iff,
        List.filter_eq_nil_iff]
      intro a _ ha
      have hkey := of_decide_eq_true (Bool.and_eq_true_iff.mp ha).1
      exact hid (congrArg Prod.fst hkey)

/-! ## The order of the leases -/

section Order

variable {S : Type} [LinearOrder S]

/-- **The leases in any order**: the list that a refresh builds from them, and the winner of any of
its candidates. -/
def OrderFree (ofNat : Nat → F) (pathScore : F → Nat → Nat → S) (cfg : Config)
    (paths : List (Path F)) (nowSec : Int) (leases : List Lease) : Prop :=
  ∀ leases', leases'.Perm leases →
    refresh ofNat cfg paths nowSec (.ok leases') = refresh ofNat cfg paths nowSec (.ok leases) ∧
      ∀ have_ : Path F → Bool,
        pickBest pathScore ((refresh ofNat cfg paths nowSec (.ok leases')).map fun p =>
          candOf p (have_ p)) =
        pickBest pathScore ((refresh ofNat cfg paths nowSec (.ok leases)).map fun p =>
          candOf p (have_ p))

/-- What two leases offer for a peer's address that is new to the list comes to the same in either
order. -/
def Agree (ofNat : Nat → F) (cfg : Config) (paths : List (Path F)) (nowSec : Int)
    (a b : Lease) : Prop :=
  ∀ key : Key, (∀ p ∈ paths, p.addr ≠ key.2) →
    offered ofNat cfg nowSec a key ++ offered ofNat cfg nowSec b key =
      offered ofNat cfg nowSec b key ++ offered ofNat cfg nowSec a key

/-- The paths of one key that a lease adds, with the numbers of the old list. -/
def carried (ofNat : Nat → F) (cfg : Config) (paths : List (Path F)) (nowSec : Int) (k : Path F)
    (lease : Lease) : List (Path F) :=
  (offered ofNat cfg nowSec lease k.key).map fun e => carry paths (pathFor cfg k.key e)

variable {paths : List (Path F)}

theorem key_carry (np : Path F) : (carry paths np).key = np.key := by
  unfold carry
  split <;> rfl

theorem carry_of_new {key : Key} (hnew : ∀ p ∈ paths, p.addr ≠ key.2) (e : F) :
    carry paths (pathFor cfg key e) = pathFor cfg key e := by
  have hnone : paths.find? (fun op => decide (op.addr = (pathFor cfg key e).addr)) = none := by
    refine List.find?_eq_none.mpr fun p hp => ?_
    rw [decide_eq_true_iff]
    exact hnew p hp
  unfold carry
  rw [hnone]

/-- An address that stays has its own numbers, whatever is offered for it. -/
theorem carry_of_old {key : Key} (hold : ∃ p ∈ paths, p.addr = key.2) (e e' : F) :
    carry paths (pathFor cfg key e) = carry paths (pathFor cfg key e') := by
  have hsome : (paths.find? fun op => decide (op.addr = key.2)).isSome = true := by
    obtain ⟨p, hp, haddr⟩ := hold
    exact List.find?_isSome.mpr ⟨p, hp, decide_eq_true haddr⟩
  obtain ⟨op, hop⟩ := Option.isSome_iff_exists.mp hsome
  have hfind : ∀ e : F,
      paths.find? (fun op => decide (op.addr = (pathFor cfg key e).addr)) = some op := fun _ => hop
  unfold carry
  rw [hfind e, hfind e']
  rfl

theorem pathFor_injective (cfg : Config) (key : Key) :
    Function.Injective (pathFor cfg key (F := F)) := fun _ _ h => congrArg Path.ewmaBps h

/-- Leases agree if what they add comes to the same in either order. -/
theorem agree_iff {a b : Lease} :
    (∀ k : Path F, carried ofNat cfg paths nowSec k a ++ carried ofNat cfg paths nowSec k b =
      carried ofNat cfg paths nowSec k b ++ carried ofNat cfg paths nowSec k a) ↔
      Agree ofNat cfg paths nowSec a b := by
  unfold carried Agree
  constructor
  · intro h key hnew
    have hk := h (pathFor cfg key (ofNat 0))
    have hkey : (pathFor cfg key (ofNat 0)).key = key := rfl
    rw [hkey, ← List.map_append, ← List.map_append] at hk
    refine List.map_injective_iff.mpr (pathFor_injective cfg key) ?_
    have hsame : ∀ l : List F, l.map (fun e => carry paths (pathFor cfg key e)) =
        l.map (pathFor cfg key) := fun l => List.map_congr_left fun e _ => carry_of_new hnew e
    rwa [hsame, hsame] at hk
  · intro h k
    rw [← List.map_append, ← List.map_append]
    by_cases hold : ∃ p ∈ paths, p.addr = k.key.2
    · have hconst : ∀ l : List F, l.map (fun e => carry paths (pathFor cfg k.key e)) =
          List.replicate l.length (carry paths (pathFor cfg k.key (ofNat 0))) := fun l =>
        List.eq_replicate_iff.mpr ⟨List.length_map .., fun x hx => by
          obtain ⟨e, -, rfl⟩ := List.mem_map.mp hx
          exact carry_of_old hold e _⟩
      rw [hconst, hconst, List.length_append, List.length_append, Nat.add_comm]
    · rw [h k.key fun p hp heq => hold ⟨p, hp, heq⟩]

/-- The classes of a refreshed list, lease by lease. -/
theorem filter_refreshed (leases : List Lease) (k : Path F) :
    (((leases.flatMap (visit ofNat cfg nowSec [])).insertionSort NotAfter).map
      (carry paths)).filter (cls NotAfter k) =
        leases.flatMap (carried ofNat cfg paths nowSec k) := by
  have hcls : (cls NotAfter k ∘ carry paths) = fun p : Path F => decide (p.key = k.key) := by
    funext p
    rw [Function.comp_apply, Bool.eq_iff_iff, cls_iff, key_carry, decide_eq_true_iff]
  have hequal : ∀ a b : Path F, decide (a.key = k.key) = true → decide (b.key = k.key) = true →
      NotAfter a b := by
    intro a b ha hb
    rw [notAfter_iff, of_decide_eq_true ha, of_decide_eq_true hb]
    exact strictTotal_key.irrefl _
  rw [List.filter_map, hcls, StableSort.filter_insertionSort hequal, List.filter_flatMap,
    List.map_flatMap]
  unfold carried
  refine congrArg (fun f => leases.flatMap f) (funext fun lease => ?_)
  rw [filter_visit, List.map_map]
  rfl

/-- A refresh whose leases add something. -/
theorem refresh_ok {leases : List Lease} (hne : leases.flatMap (visit ofNat cfg nowSec []) ≠ []) :
    refresh ofNat cfg paths nowSec (.ok leases) =
      ((leases.flatMap (visit ofNat cfg nowSec [])).insertionSort NotAfter).map (carry paths) := by
  have hfalse : (leases.flatMap (visit ofNat cfg nowSec [])).isEmpty = false := by
    simpa using hne
  unfold refresh newPaths ordered
  dsimp only
  rw [foldl_visit, List.nil_append, hfalse, if_neg Bool.false_ne_true]

/-- And one whose leases add nothing. -/
theorem refresh_nil {leases : List Lease} (hnil : leases.flatMap (visit ofNat cfg nowSec []) = []) :
    refresh ofNat cfg paths nowSec (.ok leases) = refresh ofNat cfg paths nowSec (.ok []) := by
  unfold refresh newPaths
  dsimp only
  rw [foldl_visit, List.nil_append, hnil]
  rfl

theorem sorted_refreshed (list : List (Path F)) :
    ((list.insertionSort NotAfter).map (carry paths)).Pairwise NotAfter := by
  refine List.pairwise_map.mpr ((List.pairwise_insertionSort NotAfter list).imp fun h => ?_)
  rw [notAfter_iff] at h ⊢
  rwa [key_carry, key_carry]

/-- **When the order of the leases does not matter**: exactly if any two of them agree on what is
new to the list. -/
theorem orderFree_iff (ofNat : Nat → F) (pathScore : F → Nat → Nat → S) (cfg : Config)
    (paths : List (Path F)) (nowSec : Int) (leases : List Lease) :
    OrderFree ofNat pathScore cfg paths nowSec leases ↔
      leases.Pairwise (Agree ofNat cfg paths nowSec) := by
  have hpick : OrderFree ofNat pathScore cfg paths nowSec leases ↔
      ∀ leases', leases'.Perm leases → refresh ofNat cfg paths nowSec (.ok leases') =
        refresh ofNat cfg paths nowSec (.ok leases) := by
    constructor
    · exact fun h leases' hperm => (h leases' hperm).1
    · exact fun h leases' hperm => ⟨h leases' hperm, fun have_ => by rw [h leases' hperm]⟩
  have hclasses : (∀ leases', leases'.Perm leases → refresh ofNat cfg paths nowSec (.ok leases') =
      refresh ofNat cfg paths nowSec (.ok leases)) ↔
        ∀ leases' : List Lease, leases'.Perm leases → ∀ k : Path F,
          leases'.flatMap (carried ofNat cfg paths nowSec k) =
            leases.flatMap (carried ofNat cfg paths nowSec k) := by
    refine forall_congr' fun leases' => imp_congr_right fun hperm => ?_
    have hadded := hperm.flatMap_right (visit ofNat cfg nowSec [])
    by_cases hnil : leases.flatMap (visit ofNat cfg nowSec []) = []
    · -- nothing is added, in whatever order
      have hnil' : leases'.flatMap (visit ofNat cfg nowSec []) = [] := by
        rw [hnil] at hadded
        exact hadded.eq_nil
      refine ⟨fun _ k => ?_, fun _ => by rw [refresh_nil hnil, refresh_nil hnil']⟩
      rw [← @filter_refreshed F ofNat cfg nowSec paths leases,
        ← @filter_refreshed F ofNat cfg nowSec paths leases', hnil, hnil']
    · have hnil' : leases'.flatMap (visit ofNat cfg nowSec []) ≠ [] := by
        intro hnone
        rw [hnone] at hadded
        exact hnil hadded.symm.eq_nil
      rw [refresh_ok hnil, refresh_ok hnil']
      constructor
      · intro heq k
        rw [← @filter_refreshed F ofNat cfg nowSec paths leases, ← @filter_refreshed F ofNat cfg
          nowSec paths leases', heq]
      · intro hk
        refine StableSort.eq_of_classes notAfter_refl (sorted_refreshed _) (sorted_refreshed _) ?_
        intro k
        rw [filter_refreshed, filter_refreshed, hk k]
  rw [hpick, hclasses, StableSort.flatMap_perm_iff]
  have hagree : (fun a b : Lease => ∀ k : Path F,
      carried ofNat cfg paths nowSec k a ++ carried ofNat cfg paths nowSec k b =
        carried ofNat cfg paths nowSec k b ++ carried ofNat cfg paths nowSec k a) =
      Agree ofNat cfg paths nowSec := by
    funext a b
    exact propext agree_iff
  rw [hagree]

/-! ## Two leases of one node -/

/-- Node `b` at one address, by a lease that offers `mbps`. -/
def leaseOf (mbps : UInt32) : Lease := ⟨ascii "b", 100, [⟨⟨ascii "10.0.0.2", 9000⟩, mbps⟩]⟩

/-- `pathScore`, in fractions. -/
def scoreOf (ewmaBps hops inflight : Nat) : ℚ := max ewmaBps 1 / (1 + hops) / (1 + inflight)

/-- **The order of two leases with one id matters**: the path that comes first is the one that comes
first in the directory. -/
theorem order_matters :
    ¬ OrderFree (fun n => n) scoreOf ⟨ascii "a", [], []⟩ [] 0 [leaseOf 100, leaseOf 200] := by
  intro h
  have hsame := (h [leaseOf 200, leaseOf 100] (List.Perm.swap ..)).1
  exact absurd hsame (by decide)

end Order

end Catalog

end ModelFs
