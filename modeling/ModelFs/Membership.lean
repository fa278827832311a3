import ModelFs.LeaseDoc
import ModelFs.Lib.Machine

/-!
# Who is in the cluster

Every ten seconds a node publishes its lease in `.cluster` under the origin and then makes its list
of paths anew from the leases it finds there, both by one reading of its own clock. Leases are files
that are put in place by a rename; the directory is read name by name while other nodes publish,
sweep and crash. A lease that cannot be read is passed over, and so is one that has expired, with
15 seconds of grace for clocks that differ.

Clocks are off by `skew` at most. Other tenants of the origin may put any files beside the leases,
short of a lease in the name of a node, and leave `.cluster` in place.

* `Sound` — the invariant: what is in the directory, and what a walk has got of it.
* `membership` — **a list has the nodes that have published in the last 45 seconds, and no others**,
  up to twice the skew.
-/

namespace ModelFs

namespace Membership

open Catalog (Lease LeaseAddr Path Config refresh visit counts dialable carry pathFor)
open Inodes (pathMax)
open LeaseDoc (publish Calls Published walkLeases ClusterDir leaseAt leaseFileMax parseLease untilOf
  seedPaths)
open Proto

/-! ## The cluster -/

/-- The nodes: where the origin is mounted, and what each publishes. -/
structure Cluster (ι : Type) where
  origin : ι → List UInt8
  id : ι → List UInt8
  addrs : ι → List LeaseAddr
  seeds : ι → List LeaseAddr
  localIps : ι → List (List UInt8)
  valid : ∀ i, Discover.validId (id i) = true
  inj : Function.Injective id

variable {ι : Type}

/-- The name of a lease. -/
def Cluster.name (cl : Cluster ι) (i : ι) : List UInt8 := cl.id i ++ ascii ".json"

def Cluster.cfg (cl : Cluster ι) (i : ι) : Config := ⟨cl.id i, cl.seeds i, cl.localIps i⟩

/-- What a clock says, and when. -/
structure Stamp where
  clock : Int
  time : Int

/-- A clock that is off by `skew` at most, and far from the ends of its type. -/
structure Stamp.Ok (skew : Int) (st : Stamp) : Prop where
  near : |st.clock - st.time| ≤ skew
  range : |st.clock| ≤ 2 ^ 62

/-- A walk over the leases. `floor` is history: when each node had stamped the lease that was in
place when the directory was opened. -/
structure Walk (ι : Type) where
  stamp : Stamp
  floor : ι → Option Int
  got : List (List UInt8 × Option (List UInt8)) := []

/-- Where a node is in its tick. -/
inductive Pc (ι : Type) where
  | idle
  | publishing (st : Stamp)
  | opening (st : Stamp)
  | walking (w : Walk ι) (left : List (List UInt8))

structure Node (ι F : Type) where
  pc : Pc ι
  paths : List (Path F)
  /-- The last walk that came to its end. -/
  refreshed : Option (Walk ι)
  /-- What it has found to be stale and is about to unlink. -/
  sweeping : Option (List UInt8)

/-- A node that has just been started. -/
def Node.fresh {ι F : Type} : Node ι F := ⟨.idle, [], none, none⟩

/-- `files` is `.cluster`, once it is `made`. `installs` is history: what each node has put in
place, the last one first. -/
structure World (ι F : Type) where
  now : Int
  made : Bool
  files : List UInt8 → Option (List UInt8)
  mtime : List UInt8 → Int
  installs : ι → List Stamp
  nodes : ι → Node ι F

def sweepMinAgeSecs : Int := 300

section Steps

variable {F : Type} (cl : Cluster ι) (skew : Int) (ofFloat : List UInt8 → Option Int)
  (ofNat : Nat → F)

/-- A file is put in place. -/
def World.put (s : World ι F) (name doc : List UInt8) : World ι F :=
  { s with
    made := true
    files := Function.update s.files name (some doc)
    mtime := Function.update s.mtime name s.now }

/-- When the lease of each node that is in place was stamped. -/
def World.floor (s : World ι F) (b : ι) : Option Int :=
  if (s.files (cl.name b)).isSome then (s.installs b).head?.map Stamp.time else none

/-- A file that is no lease of a node. -/
def Foreign (doc : List UInt8) : Prop :=
  ∀ lease, parseLease ofFloat (doc.take leaseFileMax) = some lease → ∀ i, lease.id ≠ cl.id i

variable [DecidableEq ι]

def World.setNode (s : World ι F) (i : ι) (n : Node ι F) : World ι F :=
  { s with nodes := Function.update s.nodes i n }

inductive Step (s : World ι F) : World ι F → Prop where
  | pass {dt : Int} : 0 ≤ dt → Step s { s with now := s.now + dt }
  | tick {i : ι} {clock : Int} : (s.nodes i).pc = .idle → Stamp.Ok skew ⟨clock, s.now⟩ →
      Step s (s.setNode i { s.nodes i with pc := .publishing ⟨clock, s.now⟩ })
  | install {i : ι} {st : Stamp} {calls : Calls} {name doc : List UInt8} :
      (s.nodes i).pc = .publishing st →
      publish (cl.origin i) (cl.id i) (cl.addrs i) st.clock calls = .installed name doc →
      Step s { (s.put name doc).setNode i { s.nodes i with pc := .opening st } with
        installs := Function.update s.installs i (st :: s.installs i) }
  | unpublished {i : ι} {st : Stamp} : (s.nodes i).pc = .publishing st →
      Step s (s.setNode i { s.nodes i with pc := .opening st })
  /-- The walk ends before a name is read. -/
  | noWalk {i : ι} {st : Stamp} {dir : ClusterDir} : (s.nodes i).pc = .opening st →
      dir = .ioErr ∨ dir = .missing ∧ s.made = false ∨
        joinZ pathMax (cl.origin i) clusterDir = none →
      Step s (s.setNode i { s.nodes i with
        pc := .idle
        paths := refresh ofNat (cl.cfg i) (s.nodes i).paths st.clock
          (walkLeases ofFloat (cl.origin i) dir) })
  /-- All names that are there are listed, and perhaps others. -/
  | openDir {i : ι} {st : Stamp} {names : List (List UInt8)} : (s.nodes i).pc = .opening st →
      s.made = true → joinZ pathMax (cl.origin i) clusterDir ≠ none →
      (∀ name, (s.files name).isSome → name ∈ names) →
      Step s (s.setNode i { s.nodes i with pc := .walking ⟨st, s.floor cl, []⟩ names })
  | read {i : ι} {w : Walk ι} {name : List UInt8} {left : List (List UInt8)} {ok : Bool} :
      (s.nodes i).pc = .walking w (name :: left) →
      Step s (s.setNode i { s.nodes i with
        pc := .walking ⟨w.stamp, w.floor, w.got ++ [(name, if ok then s.files name else none)]⟩
          left })
  | close {i : ι} {w : Walk ι} : (s.nodes i).pc = .walking w [] →
      Step s (s.setNode i { s.nodes i with
        pc := .idle
        paths := refresh ofNat (cl.cfg i) (s.nodes i).paths w.stamp.clock
          (walkLeases ofFloat (cl.origin i) (.names w.got))
        refreshed := some w })
  /-- A sweeper looks at a file, by the age of its own lease; then it unlinks. -/
  | look {i : ι} {name : List UInt8} : name ≠ cl.name i →
      s.mtime name ≤ s.mtime (cl.name i) - sweepMinAgeSecs →
      Step s (s.setNode i { s.nodes i with sweeping := some name })
  | unlink {i : ι} {name : List UInt8} : (s.nodes i).sweeping = some name →
      Step s { s.setNode i { s.nodes i with sweeping := none } with
        files := Function.update s.files name none }
  | crash {i : ι} : Step s (s.setNode i Node.fresh)
  /-- A transfer is noted on a path. -/
  | note {i : ι} {paths : List (Path F)} : paths.map Path.key = (s.nodes i).paths.map Path.key →
      Step s (s.setNode i { s.nodes i with paths := paths })
  | plant {name doc : List UInt8} : (∀ i, name ≠ cl.name i) → Foreign cl ofFloat doc →
      Step s (s.put name doc)

end Steps

/-! ## One refresh -/

section Refresh

variable {F : Type} {ofNat : Nat → F} {cfg : Config} {nowSec : Int} {paths : List (Path F)}

theorem mem_visit {lease : Lease} {q : Path F} :
    q ∈ visit ofNat cfg nowSec [] lease ↔ counts cfg nowSec lease = true ∧
      ∃ a ∈ lease.addrs, dialable a = true ∧
        pathFor cfg (lease.id, a.ip, a.port) (ofNat (Catalog.priorBps a.mbps)) = q := by
  rw [Catalog.visit_eq, List.nil_append]
  split
  · next hcounts => simp [hcounts, and_assoc]
  · next hcounts => simp [hcounts]

/-- A path that stands in for a peer has its address for an id. -/
theorem mem_seedPaths {p : Path F} (hp : p ∈ seedPaths ofNat cfg) :
    ∃ sd ∈ cfg.seeds, p.peerId = sd.ip := by
  have hfold : ∀ (seeds : List LeaseAddr) (list : List (Path F)),
      p ∈ seeds.foldl (fun list sd => Catalog.pushPath ofNat cfg list sd.ip sd) list →
        p ∈ list ∨ ∃ sd ∈ seeds, p.peerId = sd.ip := by
    intro seeds
    induction seeds with
    | nil => exact fun list hp => Or.inl hp
    | cons sd seeds ih =>
      intro list hp
      rcases ih _ hp with hp | ⟨sd', hsd', hid⟩
      · dsimp only at hp
        rw [Catalog.pushPath_eq] at hp
        rcases List.mem_append.mp hp with hp | hp
        · exact Or.inl hp
        · split at hp
          · rw [List.mem_singleton.mp hp]
            exact Or.inr ⟨sd, List.mem_cons_self, rfl⟩
          · cases hp
      · exact Or.inr ⟨sd', List.mem_cons_of_mem _ hsd', hid⟩
  exact (hfold cfg.seeds [] hp).resolve_left List.not_mem_nil

theorem carry_peer (np : Path F) : (carry paths np).peerId = np.peerId ∧
    (carry paths np).addr = np.addr := by
  unfold carry
  split
  · exact ⟨rfl, rfl⟩
  · exact ⟨rfl, rfl⟩

/-- **What is listed** comes from a lease, or from the seeds. -/
theorem mem_refresh {leases : List Lease} {p : Path F}
    (hp : p ∈ refresh ofNat cfg paths nowSec (.ok leases)) :
    (∃ lease ∈ leases, counts cfg nowSec lease = true ∧ lease.id = p.peerId) ∨
      ∃ sd ∈ cfg.seeds, p.peerId = sd.ip := by
  by_cases hnil : leases.flatMap (visit ofNat cfg nowSec []) = []
  · right
    rw [Catalog.refresh_nil hnil] at hp
    obtain ⟨q, hq, rfl⟩ := List.mem_map.mp hp
    obtain ⟨sd, hsd, hid⟩ := mem_seedPaths ((List.perm_insertionSort _ _).mem_iff.mp hq)
    exact ⟨sd, hsd, (carry_peer q).1.trans hid⟩
  · left
    rw [Catalog.refresh_ok hnil] at hp
    obtain ⟨q, hq, rfl⟩ := List.mem_map.mp hp
    have hlisted := (List.perm_insertionSort _ _).mem_iff.mp hq
    obtain ⟨lease, hlease, hq⟩ := List.mem_flatMap.mp hlisted
    obtain ⟨hcounts, a, -, -, rfl⟩ := mem_visit.mp hq
    rw [(carry_peer _).1]
    exact ⟨lease, hlease, hcounts, rfl⟩

/-- **What a lease offers** is listed. -/
theorem refresh_mem {leases : List Lease} {lease : Lease} (hlease : lease ∈ leases)
    (hcounts : counts cfg nowSec lease = true) {a : LeaseAddr} (ha : a ∈ lease.addrs)
    (hdial : dialable a = true) : ∃ p ∈ refresh ofNat cfg paths nowSec (.ok leases),
      p.peerId = lease.id ∧ p.addr = (a.ip, a.port) := by
  have hq : pathFor cfg (lease.id, a.ip, a.port) (ofNat (Catalog.priorBps a.mbps)) ∈
      leases.flatMap (visit ofNat cfg nowSec []) :=
    List.mem_flatMap.mpr ⟨lease, hlease, mem_visit.mpr ⟨hcounts, a, ha, hdial, rfl⟩⟩
  rw [Catalog.refresh_ok (List.ne_nil_of_mem hq)]
  exact ⟨_, List.mem_map_of_mem ((List.perm_insertionSort _ _).mem_iff.mpr hq), carry_peer _⟩

theorem mem_of_keys {paths' : List (Path F)} (h : paths.map Path.key = paths'.map Path.key)
    {p : Path F} (hp : p ∈ paths) : ∃ q ∈ paths', q.peerId = p.peerId ∧ q.addr = p.addr := by
  have hkey : p.key ∈ paths'.map Path.key := h ▸ List.mem_map_of_mem hp
  obtain ⟨q, hq, hkeys⟩ := List.mem_map.mp hkey
  exact ⟨q, hq, Prod.mk.inj hkeys⟩

/-- Without a walk the list stays, or is made of seeds. -/
theorem refresh_noWalk {walk : Catalog.LeaseWalk} (hwalk : ∀ leases, walk ≠ .ok leases)
    {p : Path F} (hp : p ∈ refresh ofNat cfg paths nowSec walk) :
    p ∈ paths ∨ ∃ sd ∈ cfg.seeds, p.peerId = sd.ip := by
  unfold refresh at hp
  split at hp
  · exact Or.inl hp
  · next listed hlisted =>
    right
    obtain ⟨q, hq, rfl⟩ := List.mem_map.mp hp
    cases walk with
    | ok leases => exact absurd rfl (hwalk leases)
    | pathTooLong => cases hlisted
    | ioErr => cases hlisted
    | missingDir =>
      unfold Catalog.newPaths at hlisted
      dsimp only at hlisted
      split at hlisted
      · cases hlisted
      · cases hlisted
        obtain ⟨sd, hsd, hid⟩ := mem_seedPaths ((List.perm_insertionSort _ _).mem_iff.mp hq)
        exact ⟨sd, hsd, (carry_peer q).1.trans hid⟩

end Refresh

/-! ## Clocks -/

/-- A lease lives for 45 seconds, 15 of them in grace. -/
theorem leaseLive_untilOf {a b : Int} (hb : |b| ≤ 2 ^ 62) :
    Discover.leaseLive (untilOf b) a = true ↔ a < b + 45 := by
  rw [abs_le] at hb
  have huntil : untilOf b = b + 30 := by
    unfold untilOf LeaseDoc.minI64 LeaseDoc.maxI64 LeaseDoc.leaseTtlSecs
    omega
  rw [huntil]
  unfold Discover.leaseLive Discover.leaseSkewToleranceSecs
  rw [decide_eq_true_iff]
  omega

/-! ## The invariant -/

section Invariants

variable {F : Type} (cl : Cluster ι) (skew : Int) (ofFloat : List UInt8 → Option Int)
  (ofNat : Nat → F)

/-- A document of `b`, as of its clock. -/
def DocOf (b : ι) (st : Stamp) (doc : List UInt8) : Prop :=
  st.Ok skew ∧ ∃ calls, publish (cl.origin b) (cl.id b) (cl.addrs b) st.clock calls =
    .installed (cl.name b) doc

/-- What a walk has got, with `left` before it. -/
structure Got (installs : ι → List Stamp) (w : Walk ι) (left : List (List UInt8)) : Prop where
  stamp : w.stamp.Ok skew
  got : ∀ name doc, (name, some doc) ∈ w.got → Foreign cl ofFloat doc ∨
    ∃ b, name = cl.name b ∧ ∃ st ∈ installs b, DocOf cl skew b st doc
  floor : ∀ b τ, w.floor b = some τ → cl.name b ∈ left ∨ (cl.name b, none) ∈ w.got ∨
    ∃ doc st, (cl.name b, some doc) ∈ w.got ∧ DocOf cl skew b st doc ∧ τ ≤ st.time
  head : ∀ b τ, w.floor b = some τ → ∃ st, (installs b).head? = some st ∧ τ ≤ st.time

/-- What is in the directory. -/
structure Shared (s : World ι F) : Prop where
  stamps : ∀ b, ∀ st ∈ s.installs b, st.Ok skew ∧ st.time ≤ s.now
  files : ∀ b doc, s.files (cl.name b) = some doc →
    ∃ st, (s.installs b).head? = some st ∧ DocOf cl skew b st doc
  foreign : ∀ name doc, s.files name = some doc →
    (∃ b, name = cl.name b) ∨ Foreign cl ofFloat doc

/-- Where a node is. -/
structure NodeOk (installs : ι → List Stamp) (made : Bool) (now : Int) (a : ι) (n : Node ι F) :
    Prop where
  publishing : ∀ st, n.pc = .publishing st → st.Ok skew ∧ st.time ≤ now ∧
    ∀ st' ∈ installs a, st'.time ≤ st.time
  opening : ∀ st, n.pc = .opening st → st.Ok skew
  walking : ∀ w left, n.pc = .walking w left → Got cl skew ofFloat installs w left ∧
    made = true ∧ joinZ pathMax (cl.origin a) clusterDir ≠ none
  refreshed : ∀ w, n.refreshed = some w → Got cl skew ofFloat installs w [] ∧ made = true ∧
    joinZ pathMax (cl.origin a) clusterDir ≠ none ∧ ∃ paths, n.paths.map Path.key =
      (refresh ofNat (cl.cfg a) paths w.stamp.clock
        (walkLeases ofFloat (cl.origin a) (.names w.got))).map Path.key
  seeds : n.refreshed = none → ∀ p ∈ n.paths, ∃ sd ∈ cl.seeds a, p.peerId = sd.ip

structure Sound (s : World ι F) : Prop where
  shared : Shared cl skew ofFloat s
  nodes : ∀ a, NodeOk cl skew ofFloat ofNat s.installs s.made s.now a (s.nodes a)

end Invariants

section Preserved

variable {F : Type} {cl : Cluster ι} {skew : Int} {ofFloat : List UInt8 → Option Int}
  {ofNat : Nat → F} {s : World ι F}

theorem name_inj {a b : ι} (h : cl.name a = cl.name b) : a = b :=
  cl.inj (List.append_cancel_right h)

/-- More is put in place, each time a newer one. -/
theorem Got.install [DecidableEq ι] {installs : ι → List Stamp} {w : Walk ι}
    {left : List (List UInt8)} (h : Got cl skew ofFloat installs w left) {i : ι} {st : Stamp}
    (hnew : ∀ st' ∈ installs i, st'.time ≤ st.time) :
    Got cl skew ofFloat (Function.update installs i (st :: installs i)) w left := by
  refine ⟨h.stamp, fun name doc hmem => ?_, h.floor, fun b τ hτ => ?_⟩
  · rcases h.got name doc hmem with hforeign | ⟨b, hname, st', hst', hdoc⟩
    · exact Or.inl hforeign
    · refine Or.inr ⟨b, hname, st', ?_, hdoc⟩
      by_cases hb : b = i
      · subst hb
        rw [Function.update_self]
        exact List.mem_cons_of_mem _ hst'
      · rwa [Function.update_of_ne hb]
  · obtain ⟨st', hhead, hle⟩ := h.head b τ hτ
    by_cases hb : b = i
    · subst hb
      rw [Function.update_self]
      exact ⟨st, rfl, hle.trans (hnew st' (List.mem_of_mem_head? hhead))⟩
    · rw [Function.update_of_ne hb]
      exact ⟨st', hhead, hle⟩

/-- **A name is read.** -/
theorem Got.read {w : Walk ι} {name : List UInt8} {left : List (List UInt8)}
    (h : Got cl skew ofFloat s.installs w (name :: left)) (hshared : Shared cl skew ofFloat s)
    (ok : Bool) : Got cl skew ofFloat s.installs
      ⟨w.stamp, w.floor, w.got ++ [(name, if ok then s.files name else none)]⟩ left := by
  refine ⟨h.stamp, fun name' doc hmem => ?_, fun b τ hτ => ?_, h.head⟩
  · rcases List.mem_append.mp hmem with hmem | hmem
    · exact h.got name' doc hmem
    · obtain ⟨rfl, hdoc⟩ := Prod.mk.inj (List.mem_singleton.mp hmem)
      cases ok with
      | false => cases hdoc
      | true =>
        rcases hshared.foreign name' doc hdoc.symm with ⟨b, rfl⟩ | hforeign
        · obtain ⟨st, hhead, hof⟩ := hshared.files b doc hdoc.symm
          exact Or.inr ⟨b, rfl, st, List.mem_of_mem_head? hhead, hof⟩
        · exact Or.inl hforeign
  · rcases h.floor b τ hτ with hleft | hnone | ⟨doc, st, hmem, hof, hle⟩
    · rcases List.mem_cons.mp hleft with rfl | hleft
      · -- its own name: what is read of it is the newest
        cases hread : (if ok then s.files (cl.name b) else none) with
        | none => exact Or.inr (Or.inl (by simp))
        | some doc =>
          have hfile : s.files (cl.name b) = some doc := by
            cases ok with
            | false => cases hread
            | true => exact hread
          obtain ⟨st, hhead, hof⟩ := hshared.files b doc hfile
          obtain ⟨st', hhead', hle⟩ := h.head b τ hτ
          rw [hhead] at hhead'
          cases hhead'
          exact Or.inr (Or.inr ⟨doc, st, by simp, hof, hle⟩)
      · exact Or.inl hleft
    · exact Or.inr (Or.inl (List.mem_append_left _ hnone))
    · exact Or.inr (Or.inr ⟨doc, st, List.mem_append_left _ hmem, hof, hle⟩)

/-- A directory is opened. -/
theorem got_open {st : Stamp} (hst : st.Ok skew)
    {names : List (List UInt8)} (hnames : ∀ name, (s.files name).isSome → name ∈ names) :
    Got cl skew ofFloat s.installs ⟨st, s.floor cl, []⟩ names := by
  refine ⟨hst, fun name doc hmem => absurd hmem List.not_mem_nil, fun b τ hτ => ?_,
    fun b τ hτ => ?_⟩
  · unfold World.floor at hτ
    dsimp only at hτ
    split at hτ
    · next hthere => exact Or.inl (hnames _ hthere)
    · cases hτ
  · unfold World.floor at hτ
    dsimp only at hτ
    split at hτ
    · obtain ⟨st', hhead, hτ⟩ := Option.map_eq_some_iff.mp hτ
      exact ⟨st', hhead, hτ.ge⟩
    · cases hτ

section Nodes

variable {installs : ι → List Stamp} {made : Bool} {now : Int} {a : ι} {n : Node ι F}

/-- A node goes on in its tick, its list as it was. -/
theorem NodeOk.go (h : NodeOk cl skew ofFloat ofNat installs made now a n) {pc : Pc ι}
    {sweeping : Option (List UInt8)}
    (hpublishing : ∀ st, pc = .publishing st → st.Ok skew ∧ st.time ≤ now ∧
      ∀ st' ∈ installs a, st'.time ≤ st.time)
    (hopening : ∀ st, pc = .opening st → st.Ok skew)
    (hwalking : ∀ w left, pc = .walking w left → Got cl skew ofFloat installs w left ∧
      made = true ∧ joinZ pathMax (cl.origin a) clusterDir ≠ none) :
    NodeOk cl skew ofFloat ofNat installs made now a
      { n with pc := pc, sweeping := sweeping } :=
  ⟨hpublishing, hopening, hwalking, h.refreshed, h.seeds⟩

/-- What the rest does is nothing to it. -/
theorem NodeOk.later (h : NodeOk cl skew ofFloat ofNat installs made now a n) {now' : Int}
    (hnow : now ≤ now') {made' : Bool} (hmade : made = true → made' = true) :
    NodeOk cl skew ofFloat ofNat installs made' now' a n := by
  refine ⟨fun st hst => ?_, h.opening, fun w left hw => ?_, fun w hw => ?_, h.seeds⟩
  · obtain ⟨hok, hle, hnew⟩ := h.publishing st hst
    exact ⟨hok, hle.trans hnow, hnew⟩
  · obtain ⟨hgot, hthere, hpath⟩ := h.walking w left hw
    exact ⟨hgot, hmade hthere, hpath⟩
  · obtain ⟨hgot, hthere, hpaths⟩ := h.refreshed w hw
    exact ⟨hgot, hmade hthere, hpaths⟩

/-- Another node puts its lease in place. -/
theorem NodeOk.install [DecidableEq ι] (h : NodeOk cl skew ofFloat ofNat installs made now a n)
    {i : ι} (ha : a ≠ i) {st : Stamp} (hnew : ∀ st' ∈ installs i, st'.time ≤ st.time) :
    NodeOk cl skew ofFloat ofNat (Function.update installs i (st :: installs i)) true now a n := by
  refine ⟨fun st' hst' => ?_, h.opening, fun w left hw => ?_, fun w hw => ?_, h.seeds⟩
  · rw [Function.update_of_ne ha]
    exact h.publishing st' hst'
  · obtain ⟨hgot, -, hpath⟩ := h.walking w left hw
    exact ⟨hgot.install hnew, rfl, hpath⟩
  · obtain ⟨hgot, -, hpaths⟩ := h.refreshed w hw
    exact ⟨hgot.install hnew, rfl, hpaths⟩

/-- A node that walks nowhere. -/
theorem NodeOk.noWalk (h : NodeOk cl skew ofFloat ofNat installs made now a n) {st : Stamp}
    {dir : ClusterDir} (hdir : dir = .ioErr ∨ dir = .missing ∧ made = false ∨
      joinZ pathMax (cl.origin a) clusterDir = none) :
    NodeOk cl skew ofFloat ofNat installs made now a { n with
      pc := .idle
      paths := refresh ofNat (cl.cfg a) n.paths st.clock
        (walkLeases ofFloat (cl.origin a) dir) } := by
  refine ⟨nofun, nofun, nofun, fun w hw => ?_, fun hnone p hp => ?_⟩
  · obtain ⟨hgot, hthere, hpath, paths, hpaths⟩ := h.refreshed w hw
    refine ⟨hgot, hthere, hpath, paths, ?_⟩
    obtain ⟨dirz, hdirz⟩ := Option.ne_none_iff_exists'.mp hpath
    rcases hdir with rfl | ⟨-, hmade⟩ | hlong
    · rw [← hpaths]
      simp [walkLeases, hdirz, refresh, Catalog.newPaths]
    · rw [hthere] at hmade
      cases hmade
    · exact absurd hlong hpath
  · have hwalk : ∀ leases, walkLeases ofFloat (cl.origin a) dir ≠ .ok leases := by
      intro leases
      unfold walkLeases
      cases hdirz : joinZ pathMax (cl.origin a) clusterDir with
      | none => nofun
      | some dirz =>
        rcases hdir with rfl | ⟨rfl, -⟩ | hlong
        · nofun
        · nofun
        · rw [hlong] at hdirz
          cases hdirz
    rcases refresh_noWalk hwalk hp with hp | hp
    · exact h.seeds hnone p hp
    · exact hp

end Nodes

/-- Who is listed is as before. -/
theorem NodeOk.note {installs : ι → List Stamp} {made : Bool} {now : Int} {a : ι} {n : Node ι F}
    (h : NodeOk cl skew ofFloat ofNat installs made now a n) {paths : List (Path F)}
    (hkeys : paths.map Path.key = n.paths.map Path.key) :
    NodeOk cl skew ofFloat ofNat installs made now a { n with paths := paths } := by
  refine ⟨h.publishing, h.opening, h.walking, fun w hw => ?_, fun hnone p hp => ?_⟩
  · obtain ⟨hgot, hthere, hpath, prev, hpaths⟩ := h.refreshed w hw
    exact ⟨hgot, hthere, hpath, prev, hkeys.trans hpaths⟩
  · obtain ⟨q, hq, hid, -⟩ := mem_of_keys hkeys hp
    obtain ⟨sd, hsd, hip⟩ := h.seeds hnone q hq
    exact ⟨sd, hsd, hid.symm.trans hip⟩

variable [DecidableEq ι] {s' : World ι F}

theorem Sound.setNode (h : Sound cl skew ofFloat ofNat s) {i : ι} {n : Node ι F}
    (hn : NodeOk cl skew ofFloat ofNat s.installs s.made s.now i n) :
    Sound cl skew ofFloat ofNat (s.setNode i n) := by
  refine ⟨⟨h.shared.stamps, h.shared.files, h.shared.foreign⟩, fun a => ?_⟩
  by_cases ha : a = i
  · subst ha
    simpa [World.setNode] using hn
  · simpa [World.setNode, ha] using h.nodes a

/-- **The invariant, step by step.** -/
theorem Sound.step (h : Sound cl skew ofFloat ofNat s) (hstep : Step cl skew ofFloat ofNat s s') :
    Sound cl skew ofFloat ofNat s' := by
  cases hstep with
  | @pass dt hdt =>
    have hnow : s.now ≤ s.now + dt := by omega
    refine ⟨⟨fun b st hst => ?_, h.shared.files, h.shared.foreign⟩, fun a => ?_⟩
    · obtain ⟨hok, hle⟩ := h.shared.stamps b st hst
      exact ⟨hok, hle.trans hnow⟩
    · exact (h.nodes a).later hnow id
  | @tick i clock hpc hok =>
    apply h.setNode
    refine (h.nodes i).go (fun st hst => ?_) nofun nofun
    cases hst
    exact ⟨hok, le_refl _, fun st' hst' => (h.shared.stamps i st' hst').2⟩
  | @install i st calls name doc hpc hpublish =>
    obtain ⟨hok, hle, hnew⟩ := (h.nodes i).publishing st hpc
    obtain ⟨rfl, -⟩ := LeaseDoc.publish_eq_installed hpublish
    refine ⟨⟨fun b st' hst' => ?_, fun b doc' hdoc' => ?_, fun name' doc' hdoc' => ?_⟩, fun a => ?_⟩
    · by_cases hb : b = i
      · subst hb
        simp only [Function.update_self, List.mem_cons] at hst'
        rcases hst' with rfl | hst'
        · exact ⟨hok, hle⟩
        · exact h.shared.stamps b st' hst'
      · simp only [Function.update_of_ne hb] at hst'
        exact h.shared.stamps b st' hst'
    · by_cases hb : b = i
      · subst hb
        simp only [World.setNode, World.put, Cluster.name, Function.update_self] at hdoc' ⊢
        cases hdoc'
        exact ⟨st, rfl, hok, calls, hpublish⟩
      · have hname : cl.name b ≠ cl.id i ++ ascii ".json" := fun heq => hb (name_inj heq)
        simp only [World.setNode, World.put, Function.update_of_ne hname,
          Function.update_of_ne hb] at hdoc' ⊢
        exact h.shared.files b doc' hdoc'
    · by_cases hname : name' = cl.id i ++ ascii ".json"
      · exact Or.inl ⟨i, hname⟩
      · simp only [World.setNode, World.put, Function.update_of_ne hname] at hdoc'
        exact h.shared.foreign name' doc' hdoc'
    · by_cases ha : a = i
      · subst ha
        simp only [World.setNode, World.put, Function.update_self]
        refine ⟨nofun, fun st' hst' => ?_, nofun, fun w hw => ?_, (h.nodes a).seeds⟩
        · cases hst'
          exact hok
        · obtain ⟨hgot, -, hpaths⟩ := (h.nodes a).refreshed w hw
          exact ⟨hgot.install hnew, rfl, hpaths⟩
      · simp only [World.setNode, World.put, Function.update_of_ne ha]
        exact (h.nodes a).install ha hnew
  | @unpublished i st hpc =>
    apply h.setNode
    refine (h.nodes i).go nofun (fun st' hst' => ?_) nofun
    cases hst'
    exact ((h.nodes i).publishing st hpc).1
  | @noWalk i st dir hpc hdir => exact h.setNode ((h.nodes i).noWalk hdir)
  | @openDir i st names hpc hmade hpath hnames =>
    apply h.setNode
    refine (h.nodes i).go nofun nofun fun w left hw => ?_
    cases hw
    exact ⟨got_open ((h.nodes i).opening st hpc) hnames, hmade, hpath⟩
  | @read i w name left ok hpc =>
    apply h.setNode
    refine (h.nodes i).go nofun nofun fun w' left' hw => ?_
    cases hw
    obtain ⟨hgot, hrest⟩ := (h.nodes i).walking w (name :: left) hpc
    exact ⟨hgot.read h.shared ok, hrest⟩
  | @close i w hpc =>
    apply h.setNode
    obtain ⟨hgot, hmade, hpath⟩ := (h.nodes i).walking w [] hpc
    refine ⟨nofun, nofun, nofun, fun w' hw => ?_, nofun⟩
    cases hw
    exact ⟨hgot, hmade, hpath, _, rfl⟩
  | @look i name hname hstale =>
    apply h.setNode
    exact (h.nodes i).go (h.nodes i).publishing (h.nodes i).opening (h.nodes i).walking
  | @unlink i name hsweep =>
    have hswept : NodeOk cl skew ofFloat ofNat s.installs s.made s.now i
        { s.nodes i with sweeping := none } :=
      (h.nodes i).go (h.nodes i).publishing (h.nodes i).opening (h.nodes i).walking
    have hnode := h.setNode hswept
    refine ⟨⟨hnode.shared.stamps, fun b doc hdoc => ?_, fun name' doc hdoc => ?_⟩, hnode.nodes⟩
    · by_cases hb : cl.name b = name
      · simp [hb] at hdoc
      · simp only [Function.update_of_ne hb] at hdoc
        exact h.shared.files b doc hdoc
    · by_cases hb : name' = name
      · simp [hb] at hdoc
      · simp only [Function.update_of_ne hb] at hdoc
        exact h.shared.foreign name' doc hdoc
  | @crash i =>
    apply h.setNode
    exact ⟨nofun, nofun, nofun, nofun, fun _ p hp => absurd hp List.not_mem_nil⟩
  | @note i paths hkeys => exact h.setNode ((h.nodes i).note hkeys)
  | @plant name doc hname hforeign =>
    refine ⟨⟨h.shared.stamps, fun b doc' hdoc' => ?_, fun name' doc' hdoc' => ?_⟩, fun a => ?_⟩
    · simp only [World.put, Function.update_of_ne (Ne.symm (hname b))] at hdoc'
      exact h.shared.files b doc' hdoc'
    · by_cases hb : name' = name
      · subst hb
        simp only [World.put, Function.update_self] at hdoc'
        cases hdoc'
        exact Or.inr hforeign
      · simp only [World.put, Function.update_of_ne hb] at hdoc'
        exact h.shared.foreign name' doc' hdoc'
    · exact (h.nodes a).later (le_refl _) fun _ => rfl

end Preserved

/-! ## Lists and leases -/

section Lists

variable {F : Type} {cl : Cluster ι} {skew : Int} {ofFloat : List UInt8 → Option Int}

/-- What is read of a name is the lease in its file. -/
theorem leaseAt_eq_some {dirz : List UInt8} {entry : List UInt8 × Option (List UInt8)}
    {lease : Lease} (h : leaseAt ofFloat dirz entry = some lease) :
    ∃ doc, entry.2 = some doc ∧ parseLease ofFloat (doc.take leaseFileMax) = some lease := by
  unfold leaseAt at h
  split at h
  · cases h
  split at h
  · cases h
  split at h
  · cases h
  split at h
  · cases h
  · next doc hdoc => exact ⟨doc, hdoc, h⟩

/-- A document of a node is its lease. -/
theorem DocOf.parse (ofFloat : List UInt8 → Option Int) {b : ι} {st : Stamp} {doc : List UInt8}
    (h : DocOf cl skew b st doc) :
    doc.length ≤ leaseFileMax ∧
      parseLease ofFloat doc = some ⟨cl.id b, untilOf st.clock, cl.addrs b⟩ := by
  obtain ⟨-, calls, hpublish⟩ := h
  obtain ⟨hlen, hparse⟩ := LeaseDoc.parseLease_installed ofFloat hpublish
  exact ⟨hlen.trans (by decide), hparse⟩

/-- A lease that counts was stamped in the last 45 seconds, up to the clocks. -/
theorem time_of_counts {cfg : Config} {st now : Stamp} {id : List UInt8} {addrs : List LeaseAddr}
    (hst : st.Ok skew) (hnow : now.Ok skew)
    (h : counts cfg now.clock ⟨id, untilOf st.clock, addrs⟩ = true) :
    now.time < st.time + 45 + 2 * skew := by
  unfold counts at h
  simp only [Bool.and_eq_true] at h
  have hlive := (leaseLive_untilOf hst.range).mp h.1.1
  have hnear := abs_le.mp hst.near
  have hnear' := abs_le.mp hnow.near
  omega

theorem counts_of_time {a b : ι} (hab : a ≠ b) {st now : Stamp} (hst : st.Ok skew)
    (hnow : now.Ok skew) (h : now.time + 2 * skew < st.time + 45) :
    counts (cl.cfg a) now.clock ⟨cl.id b, untilOf st.clock, cl.addrs b⟩ = true := by
  have hnear := abs_le.mp hst.near
  have hnear' := abs_le.mp hnow.near
  have hlive := (leaseLive_untilOf hst.range).mpr (show now.clock < st.clock + 45 by omega)
  have hself : ¬ cl.id b = (cl.cfg a).selfId := fun heq => hab (cl.inj heq).symm
  unfold counts
  rw [hlive, cl.valid b, decide_eq_false hself]
  rfl

end Lists

section Runs

variable {F : Type} {cl : Cluster ι} {skew : Int} {ofFloat : List UInt8 → Option Int}
  {ofNat : Nat → F} {s : World ι F}

/-- An origin without `.cluster`. -/
def start (t₀ : Int) : World ι F :=
  ⟨t₀, false, fun _ => none, fun _ => t₀, fun _ => [], fun _ => Node.fresh⟩

theorem sound_start (t₀ : Int) : Sound cl skew ofFloat ofNat (start t₀ : World ι F) := by
  refine ⟨⟨fun _ _ hst => absurd hst List.not_mem_nil, nofun, nofun⟩, fun a => ?_⟩
  exact ⟨nofun, nofun, nofun, nofun, fun _ p hp => absurd hp List.not_mem_nil⟩

variable [DecidableEq ι]

/-- **Membership.** In every run of any number of nodes, each with its clock off by `skew` at most,
with publishes that fail, walks that go name by name while the directory changes, sweepers, crashes
and files of other tenants:

A node that is in another's list, and no seed there, had put a lease in place that was stamped less
than `45 + 2 * skew` seconds before the walk that made the list. And a node whose lease was in place
when that walk opened the directory, stamped less than `45 - 2 * skew` seconds before the walk, is
in the list with every address that can be dialed, if its lease has a path there and was read. -/
theorem membership {t₀ : Int}
    (hrun : Run (Step cl skew ofFloat ofNat) Always (start t₀ : World ι F) s) {a b : ι}
    (hab : a ≠ b) :
    ((∀ sd ∈ cl.seeds a, sd.ip ≠ cl.id b) → (∃ p ∈ (s.nodes a).paths, p.peerId = cl.id b) →
      ∃ w, (s.nodes a).refreshed = some w ∧
        ∃ st ∈ s.installs b, w.stamp.time < st.time + 45 + 2 * skew) ∧
    ∀ w τ, (s.nodes a).refreshed = some w → w.floor b = some τ →
      w.stamp.time + 2 * skew < τ + 45 → (cl.name b, none) ∉ w.got →
      (∀ dirz, joinZ pathMax (cl.origin a) clusterDir = some dirz →
        joinZ pathMax dirz (cl.name b) ≠ none) →
      ∀ ad ∈ cl.addrs b, dialable ad = true →
        ∃ p ∈ (s.nodes a).paths, p.peerId = cl.id b ∧ p.addr = (ad.ip, ad.port) := by
  have hsound : Sound cl skew ofFloat ofNat s :=
    @Run.invariant _ _ _ (Sound cl skew ofFloat ofNat) (fun _ _ h hstep _ => h.step hstep) _ _
      (sound_start t₀) hrun
  have hnode := hsound.nodes a
  constructor
  · intro hseeds hlisted
    obtain ⟨p, hp, hid⟩ := hlisted
    cases hw : (s.nodes a).refreshed with
    | none =>
      obtain ⟨sd, hsd, hip⟩ := hnode.seeds hw p hp
      exact absurd (hip.symm.trans hid) (hseeds sd hsd)
    | some w =>
      obtain ⟨hgot, -, hpath, prev, hpaths⟩ := hnode.refreshed w hw
      obtain ⟨dirz, hdirz⟩ := Option.ne_none_iff_exists'.mp hpath
      obtain ⟨q, hq, hqid, -⟩ := mem_of_keys hpaths hp
      simp only [walkLeases, hdirz] at hq
      rcases mem_refresh hq with ⟨lease, hlease, hcounts, hpeer⟩ | ⟨sd, hsd, hip⟩
      · have hlisted := hpeer.trans (hqid.trans hid)
        obtain ⟨entry, hentry, hat⟩ := List.mem_filterMap.mp hlease
        obtain ⟨doc, hdoc, hparse⟩ := leaseAt_eq_some hat
        obtain ⟨name, file⟩ := entry
        cases hdoc
        rcases hgot.got name doc hentry with hforeign | ⟨b', -, st, hst, hof⟩
        · exact absurd hlisted (hforeign lease hparse b)
        · obtain ⟨hlen, hread⟩ := hof.parse ofFloat
          rw [List.take_of_length_le hlen, hread] at hparse
          cases hparse
          obtain rfl : b' = b := cl.inj hlisted
          exact ⟨w, rfl, st, hst, time_of_counts hof.1 hgot.stamp hcounts⟩
      · exact absurd (hip.symm.trans (hqid.trans hid)) (hseeds sd hsd)
  · intro w τ hw hτ htime hread hreach ad had hdial
    obtain ⟨hgot, -, hpath, prev, hpaths⟩ := hnode.refreshed w hw
    obtain ⟨dirz, hdirz⟩ := Option.ne_none_iff_exists'.mp hpath
    rcases hgot.floor b τ hτ with hleft | hnone | ⟨doc, st, hmem, hof, hle⟩
    · cases hleft
    · exact absurd hnone hread
    · obtain ⟨hlen, hparse⟩ := hof.parse ofFloat
      have hat := LeaseDoc.leaseAt_installed ofFloat (cl.valid b) (hreach dirz hdirz) hlen hparse
      have hlease := List.mem_filterMap.mpr ⟨_, hmem, hat⟩
      have hcounts : counts (cl.cfg a) w.stamp.clock ⟨cl.id b, untilOf st.clock, cl.addrs b⟩ =
          true := counts_of_time hab hof.1 hgot.stamp (by omega)
      simp only [walkLeases, hdirz] at hpaths
      obtain ⟨q, hq, hid, haddr⟩ := refresh_mem hlease hcounts had hdial
      obtain ⟨p, hp, hpid, hpaddr⟩ := mem_of_keys hpaths.symm hq
      exact ⟨p, hp, hpid.trans hid, hpaddr.trans haddr⟩

section Pair

open LeaseDoc (twoAddrs freeCalls docB publish_docB)

/-- Node `a`, and node `b` with two addresses. -/
def pair : Cluster Bool where
  origin _ := ascii "/o"
  id i := if i then ascii "b" else ascii "a"
  addrs i := if i then twoAddrs else []
  seeds _ := []
  localIps _ := []
  valid := by decide
  inj := by
    intro i j h
    cases i <;> cases j <;> first | rfl | exact absurd h (by decide)

/-- `b` publishes, and 40 seconds later `a` walks, its clock a second early. -/
theorem pair_run : ∃ s : World Bool Nat,
    Run (Step pair 2 (fun _ => none) id) Always (start 99) s ∧
      ∃ w, (s.nodes false).refreshed = some w ∧ w.stamp.time = 139 ∧ w.floor true = some 99 ∧
        w.got = [(pair.name true, some docB)] := by
  have hname : ascii "b.json" = pair.name true := by decide
  have hb := (Run.refl (start 99)).then
    (@Step.tick _ _ pair 2 (fun _ => none) id _ (start 99) true 100 rfl ⟨by decide, by decide⟩)
  have hput := hb.then (@Step.install _ _ _ _ _ _ _ _ true _ freeCalls _ _ rfl publish_docB)
  have hlater := hput.then (@Step.pass _ _ _ _ _ _ _ _ 40 (by decide))
  have ha := hlater.then (@Step.tick _ _ _ _ _ _ _ _ false 140 rfl ⟨by decide, by decide⟩)
  have hopening := ha.then (@Step.unpublished _ _ _ _ _ _ _ _ false _ rfl)
  have hall : ∀ name, (Function.update (fun _ : List UInt8 => none) (ascii "b.json") (some docB)
      name).isSome → name ∈ [pair.name true] := by
    intro name hthere
    by_cases heq : name = ascii "b.json"
    · rw [heq, hname]
      exact List.mem_singleton_self _
    · rw [Function.update_of_ne heq] at hthere
      cases hthere
  have hopen := hopening.then (@Step.openDir _ _ _ _ _ _ _ _ false _ [pair.name true] rfl rfl
    (by decide +kernel) hall)
  have hread := hopen.then (@Step.read _ _ _ _ _ _ _ _ false _ _ _ true rfl)
  have hclose := hread.then (@Step.close _ _ _ _ _ _ _ _ false _ rfl)
  have hfile : Function.update (fun _ : List UInt8 => none) (ascii "b.json") (some docB)
      (pair.name true) = some docB := by
    rw [hname, Function.update_self]
  have hfloor : (if (Function.update (fun _ : List UInt8 => none) (ascii "b.json") (some docB)
      (pair.name true)).isSome then some (99 : Int) else none) = some 99 := by
    rw [hfile]
    rfl
  refine ⟨_, hclose, _, rfl, rfl, hfloor, ?_⟩
  exact congrArg (fun file => [(pair.name true, file)]) hfile

/-- `b` is listed, and it has been there. -/
theorem membership_pair : ∃ s : World Bool Nat,
    (∃ p ∈ (s.nodes false).paths, p.peerId = ascii "b" ∧ p.addr = (ascii "10.0.0.2", 9000)) ∧
      ∃ st ∈ s.installs true, (139 : Int) < st.time + 49 := by
  obtain ⟨s, hrun, w, hw, htime, hfloor, hgot⟩ := pair_run
  obtain ⟨hsound, hlisted⟩ := membership hrun (show false ≠ true by decide)
  have hpath : ∀ dirz, joinZ pathMax (pair.origin false) clusterDir = some dirz →
      joinZ pathMax dirz (pair.name true) ≠ none := by
    intro dirz hdirz
    have hcluster : joinZ pathMax (pair.origin false) clusterDir = some (ascii "/o/.cluster") := by
      decide +kernel
    rw [hcluster] at hdirz
    cases hdirz
    decide +kernel
  obtain ⟨p, hp, hid, haddr⟩ := hlisted w 99 hw hfloor (by rw [htime]; decide)
    (by rw [hgot]; simp) hpath _ List.mem_cons_self (by decide +kernel)
  obtain ⟨w', hw', st, hst, hlt⟩ := hsound (fun sd hsd => absurd hsd List.not_mem_nil) ⟨p, hp, hid⟩
  rw [hw] at hw'
  cases hw'
  rw [htime] at hlt
  exact ⟨s, ⟨p, hp, hid, haddr⟩, st, hst, by omega⟩

end Pair

end Runs

end Membership

end ModelFs
