import ModelFs.Inodes
import ModelFs.Lib.PutAll
import Mathlib.Data.List.Sort

/-!
# The inode table across a handover

A daemon that is replaced writes its tables into the handover blob, and its successor builds its own
from it: `snapNodes` and `snapOpens` list the nodes and the open handles by number, `restoreMaps`
puts them back. The reverse index is not in the blob. It is filled while the nodes are put back, so
where two nodes have one path, the larger number gets it.

* `handover_of_run` — **nodes, handles and counters come back, and the index does just if every
  node's path belongs to a number no smaller than the node's** (`Latest`).
* `latest_of_run` — so it is while renames land on free names.
* `handover_displaced` — after a rename onto a name the kernel holds, the path changes hands.
-/

namespace ModelFs

namespace Inodes

/-! ## Snapshots -/

/-- `handover.NodeSnap`. -/
structure NodeSnap where
  ino : Nat
  path : List UInt8
  nlookup : Nat
  deriving DecidableEq

/-- `handover.OpenSnap`. -/
structure OpenSnap where
  fh : Nat
  path : List UInt8
  deriving DecidableEq

/-- `order` is the order in which the map gives its nodes. -/
def snapNodes (s : Tables) (order : List Nat) : List NodeSnap :=
  (order.filterMap fun ino => (s.nodes ino).map fun node =>
    (⟨ino, node.path, node.nlookup⟩ : NodeSnap)).insertionSort fun a b => a.ino ≤ b.ino

def snapOpens (s : Tables) (order : List Nat) : List OpenSnap :=
  (order.filterMap fun fh => (s.opens fh).map fun path =>
    (⟨fh, path⟩ : OpenSnap)).insertionSort fun a b => a.fh ≤ b.fh

/-- The tables of the successor, from what the blob has. -/
def restoreMaps (nodes : List NodeSnap) (opens : List OpenSnap) (nextIno nextFh : Nat) : Tables where
  nodes := putAll NodeSnap.ino (fun n => ⟨n.path, n.nlookup⟩) nodes
  paths := putAll NodeSnap.path NodeSnap.ino nodes
  opens := putAll OpenSnap.fh OpenSnap.path opens
  nextIno := nextIno
  nextFh := nextFh

/-- The same for the open handles. -/
def OpenOrder (s : Tables) (order : List Nat) : Prop :=
  order.Nodup ∧ ∀ fh, fh ∈ order ↔ (s.opens fh).isSome = true

/-- A call that changes the tables. -/
inductive Call (Allowed : Tables → List UInt8 → List UInt8 → Fails → Prop) (s : Tables) :
    Tables → Prop where
  | table {s' : Tables} (h : Step Allowed s s') : Call Allowed s s'
  | openHandle (path : List UInt8) (alloc : Bool) : Call Allowed s (rememberOpen s path alloc).2
  | release (fh : Nat) : Call Allowed s (forgetOpen s fh)

/-- The path of a node belongs to a number no smaller than the node's. -/
def Latest (s : Tables) : Prop :=
  ∀ i node, s.nodes i = some node → ∃ j, s.paths node.path = some j ∧ i ≤ j

variable {s s' : Tables} {order fhs : List Nat}

/-! ## What a snapshot lists -/

theorem mem_snapNodes (horder : Order s order) {n : NodeSnap} :
    n ∈ snapNodes s order ↔ s.nodes n.ino = some ⟨n.path, n.nlookup⟩ := by
  unfold snapNodes
  rw [List.mem_insertionSort, List.mem_filterMap]
  constructor
  · rintro ⟨ino, -, hino⟩
    obtain ⟨node, hnode, rfl⟩ := Option.map_eq_some_iff.mp hino
    exact hnode
  · intro hnode
    refine ⟨n.ino, (horder.2 n.ino).mpr (by rw [hnode]; rfl), ?_⟩
    rw [hnode]
    rfl

theorem mem_snapOpens (horder : OpenOrder s fhs) {o : OpenSnap} :
    o ∈ snapOpens s fhs ↔ s.opens o.fh = some o.path := by
  unfold snapOpens
  rw [List.mem_insertionSort, List.mem_filterMap]
  constructor
  · rintro ⟨fh, -, hfh⟩
    obtain ⟨path, hpath, rfl⟩ := Option.map_eq_some_iff.mp hfh
    exact hpath
  · intro hpath
    refine ⟨o.fh, (horder.2 o.fh).mpr (by rw [hpath]; rfl), ?_⟩
    rw [hpath]
    rfl

/-- Sorting a list with distinct numbers makes them ascend. -/
theorem ascending_insertionSort {α : Type*} {f : α → Nat} {l : List α} (hne : (l.map f).Nodup) :
    (l.insertionSort fun a b => f a ≤ f b).Pairwise fun a b => f a < f b := by
  have hsorted := List.pairwise_insertionSort (fun a b => f a ≤ f b) l
  have hdistinct : (l.insertionSort fun a b => f a ≤ f b).Pairwise fun a b => f a ≠ f b :=
    List.pairwise_map.mp (((List.perm_insertionSort _ l).map f).nodup_iff.mpr hne)
  exact (hsorted.and hdistinct).imp fun h => Nat.lt_of_le_of_ne h.1 h.2

/-- A walk that picks a record for some of its numbers names each number once. -/
theorem nodup_filterMap {α β : Type*} {g : Nat → Option α} {r : Nat → α → β} {f : β → Nat}
    (hf : ∀ i a, f (r i a) = i) {l : List Nat} (hl : l.Nodup) :
    ((l.filterMap fun i => (g i).map (r i)).map f).Nodup := by
  have hfilter : (l.filterMap fun i => (g i).map (r i)).map f =
      l.filter fun i => (g i).isSome := by
    rw [List.map_filterMap, ← List.filterMap_eq_filter]
    refine List.filterMap_congr fun i _ => ?_
    cases hg : g i with
    | none => simp [Option.guard, hg]
    | some a => simp [Option.guard, hg, hf]
  rw [hfilter]
  exact hl.filter _

theorem snapNodes_ascending (horder : Order s order) :
    (snapNodes s order).Pairwise fun a b => a.ino < b.ino :=
  ascending_insertionSort (nodup_filterMap
    (r := fun ino (node : Node) => (⟨ino, node.path, node.nlookup⟩ : NodeSnap)) (fun _ _ => rfl)
    horder.1)

theorem snapOpens_ascending (horder : OpenOrder s fhs) :
    (snapOpens s fhs).Pairwise fun a b => a.fh < b.fh :=
  ascending_insertionSort (nodup_filterMap
    (r := fun fh path => (⟨fh, path⟩ : OpenSnap)) (fun _ _ => rfl) horder.1)

/-! ## What comes back -/

theorem nodes_restoreMaps (horder : Order s order) (opens : List OpenSnap) (nextIno nextFh : Nat) :
    (restoreMaps (snapNodes s order) opens nextIno nextFh).nodes = s.nodes := by
  have hnodup : ((snapNodes s order).map NodeSnap.ino).Nodup :=
    List.pairwise_map.mpr ((snapNodes_ascending horder).imp fun h => Nat.ne_of_lt h)
  funext i
  refine Option.ext fun node => (putAll_eq_some hnodup).trans ?_
  constructor
  · rintro ⟨n, hn, rfl, rfl⟩
    exact (mem_snapNodes horder).mp hn
  · intro hnode
    exact ⟨⟨i, node.path, node.nlookup⟩, (mem_snapNodes horder).mpr hnode, rfl, rfl⟩

theorem opens_restoreMaps (hopens : OpenOrder s fhs) (nodes : List NodeSnap)
    (nextIno nextFh : Nat) :
    (restoreMaps nodes (snapOpens s fhs) nextIno nextFh).opens = s.opens := by
  have hnodup : ((snapOpens s fhs).map OpenSnap.fh).Nodup :=
    List.pairwise_map.mpr ((snapOpens_ascending hopens).imp fun h => Nat.ne_of_lt h)
  funext fh
  refine Option.ext fun path => (putAll_eq_some hnodup).trans ?_
  constructor
  · rintro ⟨o, ho, rfl, rfl⟩
    exact (mem_snapOpens hopens).mp ho
  · intro hpath
    exact ⟨⟨fh, path⟩, (mem_snapOpens hopens).mpr hpath, rfl, rfl⟩

/-- **A path goes to the largest number that has it.** -/
theorem paths_restoreMaps (horder : Order s order) (opens : List OpenSnap) (nextIno nextFh : Nat)
    {p : List UInt8} {i : Nat} :
    (restoreMaps (snapNodes s order) opens nextIno nextFh).paths p = some i ↔
      (∃ node, s.nodes i = some node ∧ node.path = p) ∧
        ∀ k node, s.nodes k = some node → node.path = p → k ≤ i := by
  have hasc := snapNodes_ascending horder
  have hle : ∀ {j : Nat}, putAll NodeSnap.path NodeSnap.ino (snapNodes s order) p = some j →
      ∀ k node, s.nodes k = some node → node.path = p → k ≤ j := by
    intro j hj k node hk hp
    have hmem : (⟨k, node.path, node.nlookup⟩ : NodeSnap) ∈ snapNodes s order :=
      (mem_snapNodes horder).mpr hk
    exact le_of_putAll hasc hmem (hp.symm ▸ hj)
  have hnode : ∀ {j : Nat}, putAll NodeSnap.path NodeSnap.ino (snapNodes s order) p = some j →
      ∃ node, s.nodes j = some node ∧ node.path = p := by
    intro j hj
    obtain ⟨n, hn, hp, rfl⟩ := mem_of_putAll hj
    exact ⟨_, (mem_snapNodes horder).mp hn, hp⟩
  constructor
  · exact fun hi => ⟨hnode hi, hle hi⟩
  · rintro ⟨⟨node, hi, hp⟩, hlast⟩
    have hmem : (⟨i, node.path, node.nlookup⟩ : NodeSnap) ∈ snapNodes s order :=
      (mem_snapNodes horder).mpr hi
    obtain ⟨j, hj⟩ := @putAll_isSome _ _ _ _ NodeSnap.path NodeSnap.ino _ _ hmem
    have hj' : putAll NodeSnap.path NodeSnap.ino (snapNodes s order) p = some j := hp ▸ hj
    obtain ⟨node', hnode', hp'⟩ := hnode hj'
    have hij : i = j := Nat.le_antisymm (hle hj' i node hi hp) (hlast j node' hnode' hp')
    rw [hij]
    exact hj'

/-- **The index comes back exactly when every path belongs to its last number.** -/
theorem paths_eq_iff (hconsistent : Consistent s) (horder : Order s order)
    (opens : List OpenSnap) (nextIno nextFh : Nat) :
    (restoreMaps (snapNodes s order) opens nextIno nextFh).paths = s.paths ↔ Latest s := by
  have hspec := fun p i => @paths_restoreMaps s order horder opens nextIno nextFh p i
  constructor
  · intro heq i node hnode
    have hmem : (⟨i, node.path, node.nlookup⟩ : NodeSnap) ∈ snapNodes s order :=
      (mem_snapNodes horder).mpr hnode
    obtain ⟨j, hj⟩ := @putAll_isSome _ _ _ _ NodeSnap.path NodeSnap.ino _ _ hmem
    refine ⟨j, heq ▸ hj, ((hspec _ j).mp hj).2 i node hnode rfl⟩
  · intro hlatest
    funext p
    refine Option.ext fun i => (hspec p i).trans ?_
    constructor
    · rintro ⟨⟨node, hnode, rfl⟩, hlast⟩
      obtain ⟨j, hj, hij⟩ := hlatest i node hnode
      obtain ⟨node', hnode', hp⟩ := hconsistent.named _ j hj
      rw [hj, Nat.le_antisymm (hlast j node' hnode' hp) hij]
    · intro hi
      refine ⟨hconsistent.named p i hi, fun k node hk hp => ?_⟩
      obtain ⟨j, hj, hkj⟩ := hlatest k node hk
      rw [hp, hi] at hj
      exact (Option.some.inj hj) ▸ hkj

/-! ## Runs -/

/-- What the counters are ahead of. -/
structure Ahead (s : Tables) : Prop extends Consistent s where
  root : rootIno < s.nextIno
  handles : ∀ fh, s.nextFh ≤ fh → s.opens fh = none

variable {Allowed : Tables → List UInt8 → List UInt8 → Fails → Prop}

/-- No step gives a number back or opens a handle. -/
theorem Step.counters (hstep : Step Allowed s s') :
    s.nextIno ≤ s'.nextIno ∧ s'.nextFh = s.nextFh ∧
      ∀ fh, s.opens fh = none → s'.opens fh = none := by
  cases hstep with
  | internPath hcall =>
    rcases internPath_cases hcall with ⟨-, -, rfl⟩ | ⟨-, -, rfl⟩ | ⟨-, -, -, rfl⟩
    · exact ⟨Nat.le_refl _, rfl, fun _ h => h⟩
    · exact ⟨Nat.le_refl _, rfl, fun _ h => h⟩
    · exact ⟨Nat.le_succ _, rfl, fun _ h => h⟩
  | dropLookup ino n =>
    rcases dropLookup_cases s ino n with ⟨heq, -⟩ | ⟨node, -, -, ⟨-, heq⟩ | ⟨-, heq⟩⟩ <;> rw [heq]
    · exact ⟨Nat.le_refl _, rfl, fun _ h => h⟩
    · exact ⟨Nat.le_refl _, rfl, fun _ h => h⟩
    · exact ⟨Nat.le_refl _, rfl, fun _ h => h⟩
  | @renameNodes order old new fails _ _ _ =>
    obtain ⟨hino, hfh, hopens⟩ := next_renameNodes s order old new fails
    refine ⟨hino.ge, hfh, fun fh hnone => ?_⟩
    rw [hopens]
    exact Option.map_eq_none_iff.mpr hnone

theorem Ahead.call (h : Ahead s) (hcall : Call Allowed s s') : Ahead s' := by
  cases hcall with
  | table hstep =>
    obtain ⟨hino, hfh, hopens⟩ := hstep.counters
    exact ⟨h.toConsistent.step hstep, lt_of_lt_of_le h.root hino, fun fh hge =>
      hopens fh (h.handles fh (hfh ▸ hge))⟩
  | openHandle path alloc =>
    cases alloc with
    | false => exact h
    | true =>
      refine ⟨⟨h.named, h.fresh⟩, h.root, fun fh hge => ?_⟩
      have hge' : s.nextFh + 1 ≤ fh := hge
      exact (Function.update_of_ne (by omega) ..).trans (h.handles fh (by omega))
  | release fh =>
    unfold forgetOpen
    split_ifs with hzero
    · exact h
    · refine ⟨⟨h.named, h.fresh⟩, h.root, fun k hge => ?_⟩
      dsimp only
      rw [Function.update_apply]
      split_ifs
      · rfl
      · exact h.handles k hge

theorem ahead_empty : Ahead {} := ⟨consistent_empty, by decide, fun _ _ => rfl⟩

/-- **A handover.** Nodes and handles come back as they were, with counters past every number in
use, and the index comes back just if every path belongs to its last number. -/
theorem handover_of_run (hrun : Run (Call Any) Always {} s) (horder : Order s order)
    (hopens : OpenOrder s fhs) :
    let s' := restoreMaps (snapNodes s order) (snapOpens s fhs) s.nextIno s.nextFh
    s'.nodes = s.nodes ∧ s'.opens = s.opens ∧
      (rootIno < s'.nextIno ∧ ∀ i node, s'.nodes i = some node → i < s'.nextIno) ∧
      (∀ fh path, s'.opens fh = some path → fh < s'.nextFh) ∧
      (s'.paths = s.paths ↔ Latest s) := by
  have hkeep : ∀ s₁ s₂, Ahead s₁ → Call Any s₁ s₂ → Always s₁ s₂ → Ahead s₂ :=
    fun _ _ h hcall _ => h.call hcall
  have hahead := hrun.invariant hkeep ahead_empty
  have hnodes := nodes_restoreMaps horder (snapOpens s fhs) s.nextIno s.nextFh
  have hfhs := opens_restoreMaps hopens (snapNodes s order) s.nextIno s.nextFh
  refine ⟨hnodes, hfhs, ⟨hahead.root, fun i node hnode => ?_⟩, fun fh path hpath => ?_,
    paths_eq_iff hahead.toConsistent horder _ _ _⟩
  · rw [hnodes] at hnode
    exact hahead.lt_next hnode
  · rw [hfhs] at hpath
    by_contra hge
    rw [hahead.handles fh (Nat.not_lt.mp hge)] at hpath
    cases hpath

theorem Exact.call (h : Exact s) (hcall : Call Clear s s') : Exact s' := by
  cases hcall with
  | table hstep => exact h.step hstep
  | openHandle path alloc =>
    cases alloc with
    | false => exact h
    | true => exact ⟨⟨h.named, h.fresh⟩, h.owned, h.rootless, h.root, h.next⟩
  | release fh =>
    unfold forgetOpen
    split_ifs
    · exact h
    · exact ⟨⟨h.named, h.fresh⟩, h.owned, h.rootless, h.root, h.next⟩

/-- **Every path belongs to its last number** while the renames have the memory they need and land
on free names. -/
theorem latest_of_run (hrun : Run (Call Clear) Always {} s) : Latest s := by
  have hkeep : ∀ s₁ s₂, Exact s₁ → Call Clear s₁ s₂ → Always s₁ s₂ → Exact s₂ :=
    fun _ _ h hcall _ => h.call hcall
  have hexact := hrun.invariant hkeep exact_empty
  exact fun i node hnode => ⟨i, hexact.owned i node hnode, Nat.le_refl i⟩

/-! ## A displaced node -/

theorem call_of_run (hrun : Run (Step Allowed) Always {} s) : Run (Call Allowed) Always {} s :=
  Relation.ReflTransGen.mono (fun _ _ h => ⟨Call.table h.1, trivial⟩) _ _ hrun

theorem handover_of_run_two :
    let s' := restoreMaps (snapNodes twoFiles [3, 2]) (snapOpens twoFiles []) 4 1
    s'.nodes = twoFiles.nodes ∧ s'.opens = twoFiles.opens ∧
      (rootIno < s'.nextIno ∧ ∀ i node, s'.nodes i = some node → i < s'.nextIno) ∧
      (∀ fh path, s'.opens fh = some path → fh < s'.nextFh) ∧
      (s'.paths = twoFiles.paths ↔ Latest twoFiles) :=
  handover_of_run (call_of_run run_twoFiles)
    (order_twoFiles rfl (by decide) (by simp [or_comm]) rfl) ⟨List.nodup_nil, by simp [twoFiles]⟩

/-- **After `/a` was renamed to `/b`**, the number of `/b` is 2 before the handover and 3, the
displaced node's, after it. -/
theorem handover_displaced : ¬ ∀ (s : Tables) (order fhs : List Nat),
    Run (Call Any) Always {} s → Order s order → OpenOrder s fhs →
      (restoreMaps (snapNodes s order) (snapOpens s fhs) s.nextIno s.nextFh).paths = s.paths := by
  intro hall
  have horder : Order landed [2, 3] := order_twoFiles nodes_landed (by decide) (by simp) rfl
  have hnone : ∀ fh, landed.opens fh = none := by
    intro fh
    rw [landed, (next_renameNodes twoFiles [2, 3] pathA pathB {}).2.2]
    rfl
  have hopens : OpenOrder landed [] := ⟨List.nodup_nil, fun fh => by simp [hnone]⟩
  have hsame := hall landed [2, 3] [] (call_of_run run_landed) horder hopens
  have hlatest := (paths_eq_iff (consistent_of_run run_landed) horder _ _ _).mp hsame
  obtain ⟨j, hj, hle⟩ := hlatest 3 ⟨pathB, 1⟩ (by rw [nodes_landed]; rfl)
  have htwo : landed.paths pathB = some 2 := rfl
  rw [htwo] at hj
  obtain rfl := Option.some.inj hj
  exact absurd hle (by decide)

end Inodes

end ModelFs
