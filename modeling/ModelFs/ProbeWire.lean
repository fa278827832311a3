import ModelFs.HaveExchange
import ModelFs.Outages
import ModelFs.PeerServer

/-!
# Probes on the wire

What the cache has not answered goes to the wire. `probeSlots` starts up to sixteen workers over
the groups without an answer. A worker takes the next group from a counter and asks its addresses
best first until one answers; the answer goes to the cache, to the table of outages, and to the
slot of the group. Workers run in any order, beside the fills of other files, which use the same
two tables and the same count of errors.

A socket answers what it likes: `answer` is any function of the peer and the address, so an address
that is listed twice does not answer in two ways. The slots are any that the cache has left.

* `Told`, `Split`, `Tables.Sound` — the invariants: who has which group, what was asked, and what
  became of it.
* `probe_run` — **in every order the slots end as one walk after the other would have them**, no
  address is asked twice, every failure is counted, and the workers come to an end.
* `probed_best` — **a candidate has the piece iff the best address of its peer that answers says
  so**.
-/

namespace ModelFs

namespace ProbeWire

open Catalog HaveExchange
open PeerServer (maxInflight)

variable {F : Type}

/-! ## The tables -/

/-- What is shared with the fills of other files. -/
structure Tables where
  cache : List HaveEntry
  outages : Outages

inductive CatOp where
  | put (p : Put) (mem : PutMem)
  | down (op : DownOp)

def Tables.apply (t : Tables) : CatOp → Tables
  | .put p mem => { t with cache := havePut t.cache p mem }
  | .down op => { t with outages := op.apply t.outages }

/-- Both tables are as their operations keep them. -/
structure Tables.Sound (t : Tables) : Prop where
  cache : HaveTable t.cache
  outages : Edges t.outages

theorem Tables.Sound.apply {t : Tables} (h : t.Sound) (op : CatOp) : (t.apply op).Sound := by
  cases op with
  | put p mem => exact ⟨h.cache.put p mem, h.outages⟩
  | down op => exact ⟨h.cache, h.outages.apply op⟩

/-! ## The workers -/

inductive Worker (F : Type) where
  | taking
  /-- `tried` is behind it. -/
  | walking (gi : Nat) (tried rest : List (Path F))
  | failing (gi : Nat) (tried : List (Path F)) (p : Path F) (rest : List (Path F))
  | noting (gi : Nat) (tried : List (Path F)) (p : Path F) (rest : List (Path F))
  | telling (gi : Nat) (tried : List (Path F)) (p : Path F) (ops : List CatOp) (rep : HaveBits)
  | done

/-- What the workers share. `finished`, `asked` and `others` are history: the groups that are done
with, the paths that were asked, and the errors of other fills. -/
structure Wire (F : Type) where
  next : Nat
  slots : List (Option Bool)
  tables : Tables
  probeErr : UInt64
  finished : Multiset Nat := 0
  asked : Multiset (Path F) := 0
  others : Nat := 0

/-- A `fetchAdd` of a `u32`. -/
def Wire.fetchAdd (w : Wire F) : Wire F := { w with next := (w.next + 1) % 2 ^ 32 }

def Wire.countErr (w : Wire F) : Wire F := { w with probeErr := w.probeErr + 1 }

def Wire.ask (w : Wire F) (p : Path F) : Wire F := { w with asked := p ::ₘ w.asked }

def Wire.apply (w : Wire F) (op : CatOp) : Wire F := { w with tables := w.tables.apply op }

def Wire.finish (w : Wire F) (gi : Nat) : Wire F := { w with finished := gi ::ₘ w.finished }

/-- The groups without an answer, in their order. -/
def todo (slots : List (Option Bool)) : List Nat :=
  (List.range slots.length).filter fun gi => slots[gi]? = some none

section Walks

variable (ask : Ask) (answer : Key → Except HaveError HaveBits)

/-- What a path answers, if it does. -/
def reply (p : Path F) : Option HaveBits := cached ask.localPieceSize (answer p.key)

/-- What is done with an answer before the slot gets it. A miss is put first, bits last. -/
def tellOps (p : Path F) (mem : PutMem) (rep : HaveBits) : List CatOp :=
  let put := CatOp.put ⟨ask.rel, p.ip, p.port, rep.bits, rep.pieceSize, ask.nowMs⟩ mem
  match answer p.key with
  | .error _ => [put, .down (.clear p.addr)]
  | .ok _ => [.down (.clear p.addr), put]

variable (groups : List (List (Path F))) (slots₀ : List (Option Bool))

/-- The paths of a group. -/
def pathsOf (gi : Nat) : List (Path F) := groups.getD gi []

/-- A worker goes on. -/
inductive WorkerStep (w : Wire F) : Worker F → Wire F → Worker F → Prop where
  | take {gi : Nat} : (todo slots₀)[w.next]? = some gi →
      WorkerStep w .taking w.fetchAdd (.walking gi [] (pathsOf groups gi))
  | leave : (todo slots₀).length ≤ w.next → WorkerStep w .taking w.fetchAdd .done
  | unanswered {gi : Nat} {tried : List (Path F)} :
      WorkerStep w (.walking gi tried []) (w.finish gi) .taking
  | failed {gi : Nat} {tried rest : List (Path F)} {p : Path F} : reply ask answer p = none →
      WorkerStep w (.walking gi tried (p :: rest)) (w.ask p) (.failing gi tried p rest)
  | count {gi : Nat} {tried rest : List (Path F)} {p : Path F} :
      WorkerStep w (.failing gi tried p rest) w.countErr (.noting gi tried p rest)
  | note {gi : Nat} {tried rest : List (Path F)} {p : Path F} (mem : DownMem) :
      WorkerStep w (.noting gi tried p rest) (w.apply (.down (.note p.addr mem)))
        (.walking gi (tried ++ [p]) rest)
  | answered {gi : Nat} {tried rest : List (Path F)} {p : Path F} {rep : HaveBits} (mem : PutMem) :
      reply ask answer p = some rep → WorkerStep w (.walking gi tried (p :: rest)) (w.ask p)
        (.telling gi tried p (tellOps ask answer p mem rep) rep)
  | tell {gi : Nat} {tried : List (Path F)} {p : Path F} {op : CatOp} {ops : List CatOp}
      {rep : HaveBits} :
      WorkerStep w (.telling gi tried p (op :: ops) rep) (w.apply op) (.telling gi tried p ops rep)
  | slot {gi : Nat} {tried : List (Path F)} {p : Path F} {rep : HaveBits} :
      WorkerStep w (.telling gi tried p [] rep)
        { w.finish gi with
          slots := w.slots.set gi (some (rep.hasPiece ask.idx ask.localPieceSize)) } .taking

/-! ## Steps of a fill -/

structure World (F : Type) where
  wire : Wire F
  workers : Multiset (Worker F)

/-- A worker of this fill goes on. -/
inductive Own (s : World F) : World F → Prop where
  | step {t t' : Worker F} {rest : Multiset (Worker F)} {w' : Wire F} : s.workers = t ::ₘ rest →
      WorkerStep ask answer groups slots₀ s.wire t w' t' → Own s ⟨w', t' ::ₘ rest⟩

/-- Another fill does something. -/
inductive Other (s : World F) : World F → Prop where
  | apply (op : CatOp) : Other s { s with wire := s.wire.apply op }
  | count : Other s { s with wire := { s.wire.countErr with others := s.wire.others + 1 } }

def Step (s s' : World F) : Prop := Own ask answer groups slots₀ s s' ∨ Other s s'

/-- `probeSlots`, behind the cache. -/
def start (tables : Tables) (probeErr : UInt64) : World F where
  wire := { next := 0, slots := slots₀, tables := tables, probeErr := probeErr }
  workers := Multiset.replicate (min (todo slots₀).length maxInflight) .taking

/-! ## One walk after the other -/

/-- What a walk over a group comes to. -/
def walk (g : List (Path F)) : Option Bool :=
  g.findSome? fun p =>
    (reply ask answer p).map fun rep => rep.hasPiece ask.idx ask.localPieceSize

/-- The paths it asks. -/
def dialled : List (Path F) → List (Path F)
  | [] => []
  | p :: rest => p :: if (reply ask answer p).isSome then [] else dialled rest

/-- How many of them fail. -/
def failures (g : List (Path F)) : Nat :=
  (dialled ask answer g).countP fun p => (reply ask answer p).isNone

end Walks

section Dialled

variable {ask : Ask} {answer : Key → Except HaveError HaveBits} {tried rest : List (Path F)}
  {p : Path F}

/-- What did not answer is passed by. -/
theorem walk_append (h : ∀ q ∈ tried, reply ask answer q = none) :
    walk ask answer (tried ++ rest) = walk ask answer rest := by
  induction tried with
  | nil => rfl
  | cons q tried ih =>
    have hq := h q List.mem_cons_self
    have htried := ih fun q' hq' => h q' (List.mem_cons_of_mem q hq')
    simp only [walk] at htried
    simp [walk, hq, htried]

theorem dialled_append (h : ∀ q ∈ tried, reply ask answer q = none) :
    dialled ask answer (tried ++ rest) = tried ++ dialled ask answer rest := by
  induction tried with
  | nil => rfl
  | cons q tried ih =>
    have hq := h q List.mem_cons_self
    have htried := ih fun q' hq' => h q' (List.mem_cons_of_mem q hq')
    simp [dialled, hq, htried]

theorem failures_append (h : ∀ q ∈ tried, reply ask answer q = none) :
    failures ask answer (tried ++ rest) = tried.length + failures ask answer rest := by
  have hall : tried.countP (fun q => (reply ask answer q).isNone) = tried.length :=
    List.countP_eq_length.mpr fun q hq => by simp [h q hq]
  simp [failures, dialled_append h, hall]

theorem dialled_sublist (g : List (Path F)) : (dialled ask answer g).Sublist g := by
  induction g with
  | nil => exact List.Sublist.refl _
  | cons p g ih =>
    rw [dialled]
    apply List.Sublist.cons_cons
    split
    · exact List.nil_sublist g
    · exact ih

end Dialled

theorem mem_todo {slots : List (Option Bool)} {gi : Nat} :
    gi ∈ todo slots ↔ slots[gi]? = some none := by
  simp only [todo, List.mem_filter, List.mem_range, decide_eq_true_eq, and_iff_right_iff_imp]
  intro h
  exact (List.getElem?_eq_some_iff.mp h).1

theorem nodup_todo (slots : List (Option Bool)) : (todo slots).Nodup :=
  List.nodup_range.filter _

/-! ## Who has which group -/

namespace Worker

/-- The group in hand. -/
@[simp] def group : Worker F → Multiset Nat
  | taking => 0
  | walking gi _ _ => {gi}
  | failing gi _ _ _ => {gi}
  | noting gi _ _ _ => {gi}
  | telling gi _ _ _ _ => {gi}
  | done => 0

@[simp] def isDone : Worker F → Nat
  | done => 1
  | _ => 0

/-- The paths of it that were asked. -/
@[simp] def asked : Worker F → Multiset (Path F)
  | taking => 0
  | walking _ tried _ => tried
  | failing _ tried p _ => p ::ₘ (tried : Multiset (Path F))
  | noting _ tried p _ => p ::ₘ (tried : Multiset (Path F))
  | telling _ tried p _ _ => p ::ₘ (tried : Multiset (Path F))
  | done => 0

/-- The failures that were counted. -/
@[simp] def counted : Worker F → Nat
  | taking => 0
  | walking _ tried _ => tried.length
  | failing _ tried _ _ => tried.length
  | noting _ tried _ _ => tried.length + 1
  | telling _ tried _ _ _ => tried.length
  | done => 0

/-- How far it is from its next group. -/
@[simp] def left : Worker F → Nat
  | taking => 1
  | walking _ _ rest => 4 * rest.length + 2
  | failing _ _ _ rest => 4 * rest.length + 5
  | noting _ _ _ rest => 4 * rest.length + 4
  | telling _ _ _ ops _ => ops.length + 2
  | done => 0

theorem isDone_le (t : Worker F) : t.isDone ≤ 1 := by
  cases t <;> simp

end Worker

/-- How many steps the workers have before them, at most. -/
def left (groups : List (List (Path F))) (slots₀ : List (Option Bool)) (s : World F) : Nat :=
  tally Worker.left s.workers + tally (fun gi => 4 * (pathsOf groups gi).length + 2)
    ((todo slots₀).drop s.wire.next : Multiset Nat)

section Invariants

variable (ask : Ask) (answer : Key → Except HaveError HaveBits)
  (groups : List (List (Path F))) (slots₀ : List (Option Bool)) (probeErr₀ : UInt64)

/-- Where a worker stands in its group: none of those behind it answered. -/
def Worker.At : Worker F → Prop
  | .taking => True
  | .walking gi tried rest =>
    pathsOf groups gi = tried ++ rest ∧ ∀ q ∈ tried, reply ask answer q = none
  | .failing gi tried p rest => pathsOf groups gi = tried ++ p :: rest ∧
    (∀ q ∈ tried, reply ask answer q = none) ∧ reply ask answer p = none
  | .noting gi tried p rest => pathsOf groups gi = tried ++ p :: rest ∧
    (∀ q ∈ tried, reply ask answer q = none) ∧ reply ask answer p = none
  | .telling gi tried p _ rep => (∃ rest, pathsOf groups gi = tried ++ p :: rest) ∧
    (∀ q ∈ tried, reply ask answer q = none) ∧ reply ask answer p = some rep
  | .done => True

/-- The groups that were handed out are the finished ones and those in hand. -/
structure Split (s : World F) : Prop where
  card : s.workers.card = min (todo slots₀).length maxInflight
  next : s.wire.next ≤ (todo slots₀).length + tally Worker.isDone s.workers
  done : .done ∈ s.workers → (todo slots₀).length < s.wire.next
  taken : ((todo slots₀).take s.wire.next : Multiset Nat) =
    s.wire.finished + pooled Worker.group s.workers

/-- What was asked, and what became of it. -/
structure Told (s : World F) : Prop where
  at_ : ∀ t ∈ s.workers, t.At ask answer groups
  asked : s.wire.asked =
    (s.wire.finished.bind fun gi => (dialled ask answer (pathsOf groups gi) : Multiset (Path F))) +
      pooled Worker.asked s.workers
  errors : s.wire.probeErr = probeErr₀ + .ofNat (s.wire.others +
    tally (fun gi => failures ask answer (pathsOf groups gi)) s.wire.finished +
      tally Worker.counted s.workers)
  slots : ∀ gi, s.wire.slots[gi]? = if gi ∈ s.wire.finished
    then some (walk ask answer (pathsOf groups gi)) else slots₀[gi]?

end Invariants

section Steps

variable {ask : Ask} {answer : Key → Except HaveError HaveBits} {groups : List (List (Path F))}
  {slots₀ : List (Option Bool)} {probeErr₀ : UInt64} {s s' : World F}

/-- A worker that takes is not done, so there is room to count. -/
theorem Split.fetch (h : Split slots₀ s) (hwrap : (todo slots₀).length + maxInflight < 2 ^ 32)
    {rest : Multiset (Worker F)} (hworkers : s.workers = .taking ::ₘ rest) :
    s.wire.fetchAdd.next = s.wire.next + 1 := by
  have hdone := tally_le_card Worker.isDone_le rest
  have hcard := h.card
  have hnext := h.next
  rw [hworkers] at hcard hnext
  simp only [Multiset.card_cons, tally_cons, Worker.isDone] at hcard hnext
  apply Nat.mod_eq_of_lt
  omega

/-- Nothing of the counter or the groups moves. -/
theorem Split.stay (h : Split slots₀ s) {t t' : Worker F} {rest : Multiset (Worker F)}
    {w' : Wire F} (hworkers : s.workers = t ::ₘ rest) (hnext : w'.next = s.wire.next)
    (hfinished : w'.finished + t'.group = s.wire.finished + t.group)
    (ht : t.isDone = 0) (ht' : t' ≠ .done) : Split slots₀ ⟨w', t' ::ₘ rest⟩ := by
  have hdone' : t'.isDone = 0 := by cases t' <;> simp_all
  have hcard := h.card
  have hle := h.next
  have htaken := h.taken
  rw [hworkers] at hcard hle htaken
  rw [tally_cons, ht, Nat.zero_add] at hle
  constructor
  · simpa using hcard
  · rw [hnext]
    simpa [hdone'] using hle
  · intro hmem
    rw [hnext]
    apply h.done
    rw [hworkers]
    rcases Multiset.mem_cons.mp hmem with heq | hmem
    · exact absurd heq.symm ht'
    · exact Multiset.mem_cons_of_mem hmem
  · rw [hnext, htaken]
    simp only [pooled_cons]
    rw [← add_assoc, ← add_assoc, hfinished]

theorem finish_add (w : Wire F) (gi : Nat) : (w.finish gi).finished + 0 = w.finished + {gi} := by
  rw [add_zero, add_comm]
  rfl

/-- **Groups, step by step.** -/
theorem Split.own (h : Split slots₀ s) (hwrap : (todo slots₀).length + maxInflight < 2 ^ 32)
    (hstep : Own ask answer groups slots₀ s s') : Split slots₀ s' := by
  cases hstep with
  | step hworkers hstep =>
    cases hstep with
    | take hat =>
      have hfetch := h.fetch hwrap hworkers
      obtain ⟨hlt, hget⟩ := List.getElem?_eq_some_iff.mp hat
      have hcard := h.card
      have htaken := h.taken
      rw [hworkers] at hcard htaken
      constructor
      · simpa using hcard
      · rw [hfetch]
        exact Nat.le_add_right_of_le hlt
      · intro hmem
        have hdone := h.done
        rw [hworkers] at hdone
        rcases Multiset.mem_cons.mp hmem with heq | hmem
        · cases heq
        · exact absurd (hdone (Multiset.mem_cons_of_mem hmem)) (Nat.lt_asymm hlt)
      · rw [hfetch, List.take_succ_eq_append_getElem hlt, hget, ← Multiset.coe_add, htaken]
        simp [Wire.fetchAdd, add_comm, add_left_comm]
    | leave hle =>
      have hfetch := h.fetch hwrap hworkers
      have hcard := h.card
      have hnext := h.next
      have htaken := h.taken
      rw [hworkers] at hcard hnext htaken
      have hall : ∀ k, (todo slots₀).length ≤ k → (todo slots₀).take k = todo slots₀ := fun k hk =>
        List.take_of_length_le hk
      rw [hall _ hle] at htaken
      constructor
      · simpa using hcard
      · rw [hfetch]
        simp only [tally_cons, Worker.isDone] at hnext ⊢
        omega
      · intro _
        rw [hfetch]
        omega
      · rw [hfetch, hall _ (Nat.le_succ_of_le hle), htaken]
        simp [Wire.fetchAdd]
    | unanswered => exact h.stay hworkers rfl (finish_add s.wire _) rfl (by simp)
    | failed hno => exact h.stay hworkers rfl rfl rfl (by simp)
    | count => exact h.stay hworkers rfl rfl rfl (by simp)
    | note mem => exact h.stay hworkers rfl rfl rfl (by simp)
    | answered mem hrep => exact h.stay hworkers rfl rfl rfl (by simp)
    | tell => exact h.stay hworkers rfl rfl rfl (by simp)
    | slot => exact h.stay hworkers rfl (finish_add s.wire _) rfl (by simp)

/-- A group in hand had no answer in the cache, and is not finished. -/
theorem Split.in_hand (h : Split slots₀ s) {t : Worker F} (ht : t ∈ s.workers) {gi : Nat}
    (hgi : gi ∈ t.group) : slots₀[gi]? = some none ∧ gi ∉ s.wire.finished := by
  have hpooled : gi ∈ pooled Worker.group s.workers := Multiset.mem_bind.mpr ⟨t, ht, hgi⟩
  have hnodup : ((todo slots₀).take s.wire.next : Multiset Nat).Nodup :=
    (nodup_todo slots₀).sublist (List.take_sublist _ _)
  have hmem : gi ∈ ((todo slots₀).take s.wire.next : Multiset Nat) := by
    rw [h.taken]
    exact Multiset.mem_add.mpr (Or.inr hpooled)
  constructor
  · exact mem_todo.mp (List.mem_of_mem_take (Multiset.mem_coe.mp hmem))
  · rw [h.taken] at hnodup
    intro hfinished
    exact Multiset.disjoint_left.mp (Multiset.nodup_add.mp hnodup).2.2 hfinished hpooled

/-- A worker asks a path, or counts an error, or neither. -/
theorem Told.stay (h : Told ask answer groups slots₀ probeErr₀ s) {t t' : Worker F}
    {rest : Multiset (Worker F)} {w' : Wire F} (p : Multiset (Path F)) (k : Nat)
    (hworkers : s.workers = t ::ₘ rest) (hat : t.At ask answer groups → t'.At ask answer groups)
    (hasked : w'.asked = p + s.wire.asked ∧ t'.asked = p + t.asked)
    (herr : w'.probeErr = s.wire.probeErr + .ofNat k ∧ t'.counted = t.counted + k)
    (hsame : w'.finished = s.wire.finished ∧ w'.slots = s.wire.slots ∧ w'.others = s.wire.others) :
    Told ask answer groups slots₀ probeErr₀ ⟨w', t' ::ₘ rest⟩ := by
  obtain ⟨hfinished, hslots, hothers⟩ := hsame
  have hat' := h.at_
  have hask := h.asked
  have herrors := h.errors
  rw [hworkers] at hat' hask herrors
  constructor
  · exact forall_replace hat' (hat (hat' t (Multiset.mem_cons_self t rest)))
  · rw [hasked.1, hask, hfinished, pooled_cons, pooled_cons, hasked.2]
    ac_rfl
  · rw [herr.1, herrors, hfinished, hothers, UInt64.add_assoc, ← UInt64.ofNat_add]
    simp only [tally_cons, herr.2]
    congr 2
    omega
  · rw [hfinished, hslots]
    exact h.slots

/-- A worker finishes its group. -/
theorem Told.finish (h : Told ask answer groups slots₀ probeErr₀ s) {t : Worker F}
    {rest : Multiset (Worker F)} {w' : Wire F} {gi : Nat} (hworkers : s.workers = t ::ₘ rest)
    (hasked : w'.asked = s.wire.asked ∧
      (dialled ask answer (pathsOf groups gi) : Multiset (Path F)) = t.asked)
    (herr : w'.probeErr = s.wire.probeErr ∧ failures ask answer (pathsOf groups gi) = t.counted)
    (hfinished : w'.finished = gi ::ₘ s.wire.finished) (hothers : w'.others = s.wire.others)
    (hslots : ∀ gi', w'.slots[gi']? = if gi' = gi
      then some (walk ask answer (pathsOf groups gi)) else s.wire.slots[gi']?) :
    Told ask answer groups slots₀ probeErr₀ ⟨w', .taking ::ₘ rest⟩ := by
  have hat := h.at_
  have hask := h.asked
  have herrors := h.errors
  rw [hworkers] at hat hask herrors
  constructor
  · exact forall_replace hat trivial
  · rw [hasked.1, hask, hfinished, Multiset.cons_bind, pooled_cons, pooled_cons, hasked.2]
    simp only [Worker.asked]
    ac_rfl
  · rw [herr.1, herrors, hfinished, hothers, tally_cons, tally_cons, tally_cons, herr.2]
    simp only [Worker.counted]
    congr 2
    omega
  · intro gi'
    rw [hslots, hfinished, h.slots]
    by_cases hgi : gi' = gi
    · simp [hgi]
    · simp [hgi]

/-- **What was asked, step by step.** -/
theorem Told.own (h : Told ask answer groups slots₀ probeErr₀ s) (hsplit : Split slots₀ s)
    (hstep : Own ask answer groups slots₀ s s') : Told ask answer groups slots₀ probeErr₀ s' := by
  cases hstep with
  | @step t t' rest w' hworkers hstep =>
    have hmem : t ∈ s.workers := by
      rw [hworkers]
      exact Multiset.mem_cons_self t rest
    have hat := h.at_ t hmem
    cases hstep with
    | take hnext =>
      exact h.stay 0 0 hworkers (fun _ => ⟨rfl, by simp⟩) ⟨by simp [Wire.fetchAdd], by simp⟩
        ⟨by simp [Wire.fetchAdd], rfl⟩ ⟨rfl, rfl, rfl⟩
    | leave hle =>
      exact h.stay 0 0 hworkers id ⟨by simp [Wire.fetchAdd], rfl⟩ ⟨by simp [Wire.fetchAdd], rfl⟩
        ⟨rfl, rfl, rfl⟩
    | @unanswered gi tried =>
      obtain ⟨hpaths, hno⟩ := hat
      obtain ⟨hnone, hnot⟩ := hsplit.in_hand hmem (Multiset.mem_singleton_self gi)
      refine h.finish hworkers ⟨rfl, ?_⟩ ⟨rfl, ?_⟩ rfl rfl fun gi' => ?_
      · rw [hpaths, dialled_append hno]
        simp [dialled]
      · rw [hpaths, failures_append hno]
        simp [failures, dialled]
      · split
        · next heq =>
          rw [heq, hpaths, walk_append hno]
          show s.wire.slots[gi]? = some none
          rw [h.slots, if_neg hnot, hnone]
        · rfl
    | failed hno =>
      exact h.stay {_} 0 hworkers (fun hat => ⟨hat.1, hat.2, hno⟩) ⟨rfl, rfl⟩
        ⟨by simp [Wire.ask], rfl⟩ ⟨rfl, rfl, rfl⟩
    | count =>
      exact h.stay 0 1 hworkers id ⟨by simp [Wire.countErr], by simp⟩ ⟨rfl, rfl⟩ ⟨rfl, rfl, rfl⟩
    | @note gi tried rest p mem =>
      refine h.stay 0 0 hworkers (fun hat => ⟨?_, ?_⟩) ⟨by simp [Wire.apply], ?_⟩
        ⟨by simp [Wire.apply], by simp⟩ ⟨rfl, rfl, rfl⟩
      · rw [hat.1, List.append_assoc]
        rfl
      · intro q hq
        rcases List.mem_append.mp hq with hq | hq
        · exact hat.2.1 q hq
        · rw [List.mem_singleton.mp hq]
          exact hat.2.2
      · simp [Multiset.coe_eq_coe, List.perm_append_singleton]
    | answered mem hrep =>
      exact h.stay {_} 0 hworkers (fun hat => ⟨⟨_, hat.1⟩, hat.2, hrep⟩) ⟨rfl, rfl⟩
        ⟨by simp [Wire.ask], rfl⟩ ⟨rfl, rfl, rfl⟩
    | tell =>
      exact h.stay 0 0 hworkers id ⟨by simp [Wire.apply], by simp⟩ ⟨by simp [Wire.apply], rfl⟩
        ⟨rfl, rfl, rfl⟩
    | @slot gi tried p rep =>
      obtain ⟨⟨rest', hpaths⟩, hno, hrep⟩ := hat
      obtain ⟨hnone, hnot⟩ := hsplit.in_hand hmem (Multiset.mem_singleton_self gi)
      have hget : s.wire.slots[gi]? = some none := by rw [h.slots, if_neg hnot, hnone]
      refine h.finish hworkers ⟨rfl, ?_⟩ ⟨rfl, ?_⟩ rfl rfl fun gi' => ?_
      · rw [hpaths, dialled_append hno]
        simp [dialled, hrep]
      · rw [hpaths, failures_append hno]
        simp [failures, dialled, hrep]
      · have hlt := (List.getElem?_eq_some_iff.mp hget).1
        rw [hpaths, walk_append hno]
        by_cases hgi : gi' = gi
        · simp [hgi, walk, hrep, hlt]
        · simp [hgi, Ne.symm hgi]

theorem Told.other (h : Told ask answer groups slots₀ probeErr₀ s) (hstep : Other s s') :
    Told ask answer groups slots₀ probeErr₀ s' := by
  cases hstep with
  | apply op => exact ⟨h.at_, h.asked, h.errors, h.slots⟩
  | count =>
    refine ⟨h.at_, h.asked, ?_, h.slots⟩
    simp only [Wire.countErr, h.errors]
    rw [UInt64.add_assoc, show (1 : UInt64) = .ofNat 1 from rfl, ← UInt64.ofNat_add]
    congr 2
    omega

theorem Split.other (h : Split slots₀ s) (hstep : Other s s') : Split slots₀ s' := by
  cases hstep with
  | apply op => exact ⟨h.card, h.next, h.done, h.taken⟩
  | count => exact ⟨h.card, h.next, h.done, h.taken⟩

theorem sound_step (h : s.wire.tables.Sound) (hstep : Step ask answer groups slots₀ s s') :
    s'.wire.tables.Sound := by
  rcases hstep with hstep | hstep
  · cases hstep with
    | step hworkers hstep =>
      cases hstep with
      | @note gi tried rest p mem => exact h.apply (.down (.note p.addr mem))
      | @tell gi tried p op ops rep => exact h.apply op
      | take hat => exact h
      | leave hle => exact h
      | unanswered => exact h
      | failed hno => exact h
      | count => exact h
      | answered mem hrep => exact h
      | slot => exact h
  · cases hstep with
    | apply op => exact h.apply op
    | count => exact h

/-! ## The end -/

/-- A worker moves in its group. -/
theorem left_stay {t t' : Worker F} {rest : Multiset (Worker F)} {w' : Wire F}
    (hworkers : s.workers = t ::ₘ rest) (hnext : w'.next = s.wire.next) (hlt : t'.left < t.left) :
    left groups slots₀ ⟨w', t' ::ₘ rest⟩ < left groups slots₀ s := by
  simp only [left, hworkers, hnext, tally_cons]
  omega

/-- **A step of a worker brings the end nearer.** -/
theorem left_own (h : Split slots₀ s) (hwrap : (todo slots₀).length + maxInflight < 2 ^ 32)
    (hstep : Own ask answer groups slots₀ s s') :
    left groups slots₀ s' < left groups slots₀ s := by
  cases hstep with
  | @step t t' rest w' hworkers hstep =>
    cases hstep with
    | @take gi hat =>
      have hfetch := h.fetch hwrap hworkers
      obtain ⟨hlt, hget⟩ := List.getElem?_eq_some_iff.mp hat
      simp only [left, hworkers, hfetch, List.drop_eq_getElem_cons hlt, hget, ← Multiset.cons_coe,
        tally_cons, Worker.left]
      omega
    | leave hle =>
      have hfetch := h.fetch hwrap hworkers
      simp only [left, hworkers, hfetch, List.drop_of_length_le hle,
        List.drop_of_length_le (Nat.le_succ_of_le hle), tally_cons, Worker.left]
      omega
    | unanswered => exact left_stay hworkers rfl (by simp)
    | failed hno => exact left_stay hworkers rfl (by simp; omega)
    | count => exact left_stay hworkers rfl (by simp)
    | note mem => exact left_stay hworkers rfl (by simp)
    | @answered gi tried rest p rep mem hrep =>
      apply left_stay hworkers rfl
      unfold tellOps
      cases answer p.key with
      | error err =>
        simp
        omega
      | ok rep' =>
        simp
        omega
    | tell => exact left_stay hworkers rfl (by simp)
    | slot => exact left_stay hworkers rfl (by simp)

theorem left_other (hstep : Other s s') : left groups slots₀ s' = left groups slots₀ s := by
  cases hstep with
  | apply op => rfl
  | count => rfl

/-- A worker that is not done can go on. -/
theorem own_of_not_done {t : Worker F} (ht : t ∈ s.workers) (hnot : t ≠ .done) :
    ∃ s', Own ask answer groups slots₀ s s' := by
  obtain ⟨rest, hworkers⟩ := Multiset.exists_cons_of_mem ht
  cases t with
  | taking =>
    rcases Nat.lt_or_ge s.wire.next (todo slots₀).length with hlt | hle
    · exact ⟨_, .step hworkers (.take (List.getElem?_eq_getElem hlt))⟩
    · exact ⟨_, .step hworkers (.leave hle)⟩
  | walking gi tried rest =>
    cases rest with
    | nil => exact ⟨_, .step hworkers .unanswered⟩
    | cons p rest =>
      cases hrep : reply ask answer p with
      | none => exact ⟨_, .step hworkers (.failed hrep)⟩
      | some rep => exact ⟨_, .step hworkers (.answered {} hrep)⟩
  | failing gi tried p rest => exact ⟨_, .step hworkers .count⟩
  | noting gi tried p rest => exact ⟨_, .step hworkers (.note {})⟩
  | telling gi tried p ops rep =>
    cases ops with
    | nil => exact ⟨_, .step hworkers .slot⟩
    | cons op ops => exact ⟨_, .step hworkers .tell⟩
  | done => exact absurd rfl hnot

/-- When all are done, all groups are. -/
theorem Split.finished (h : Split slots₀ s) (hdone : ∀ t ∈ s.workers, t = .done) :
    s.wire.finished = (todo slots₀ : Multiset Nat) := by
  have hall : (todo slots₀).take s.wire.next = todo slots₀ := by
    apply List.take_of_length_le
    rcases Multiset.empty_or_exists_mem s.workers with hnone | ⟨t, ht⟩
    · have hcard := h.card
      rw [hnone, Multiset.card_zero, eq_comm, Nat.min_eq_zero_iff] at hcard
      rcases hcard with hzero | hzero
      · rw [hzero]
        exact Nat.zero_le _
      · cases hzero
    · exact (h.done (hdone t ht ▸ ht)).le
  have htaken := h.taken
  rw [hall, pooled_eq_zero fun t ht => by rw [hdone t ht]; rfl, add_zero] at htaken
  exact htaken.symm

/-- **Nothing is asked but what the walks ask.** -/
theorem Told.asked_le (h : Told ask answer groups slots₀ probeErr₀ s) (hsplit : Split slots₀ s) :
    s.wire.asked ≤ ((todo slots₀ : Multiset Nat).bind fun gi =>
      (dialled ask answer (pathsOf groups gi) : Multiset (Path F))) := by
  have hworker : ∀ t ∈ s.workers, t.asked ≤ t.group.bind fun gi =>
      (dialled ask answer (pathsOf groups gi) : Multiset (Path F)) := by
    intro t ht
    have hat := h.at_ t ht
    cases t with
    | taking => exact Multiset.zero_le _
    | done => exact Multiset.zero_le _
    | walking gi tried rest =>
      simp [hat.1, dialled_append hat.2, ← Multiset.coe_add]
    | failing gi tried p rest =>
      simp [hat.1, dialled_append hat.2.1, dialled, ← Multiset.coe_add, ← Multiset.cons_coe]
    | noting gi tried p rest =>
      simp [hat.1, dialled_append hat.2.1, dialled, ← Multiset.coe_add, ← Multiset.cons_coe]
    | telling gi tried p ops rep =>
      obtain ⟨⟨rest, hpaths⟩, hno, -⟩ := hat
      simp [hpaths, dialled_append hno, dialled, ← Multiset.coe_add, ← Multiset.cons_coe]
  have htake : ((todo slots₀).take s.wire.next : Multiset Nat) ≤ (todo slots₀ : Multiset Nat) :=
    Multiset.coe_le.mpr (List.take_sublist _ _).subperm
  obtain ⟨more, hmore⟩ := Multiset.le_iff_exists_add.mp htake
  rw [h.asked, hmore, hsplit.taken, Multiset.add_bind, Multiset.add_bind]
  apply le_trans (add_le_add_right (pooled_le hworker) _)
  rw [pooled, pooled, Multiset.bind_assoc]
  exact Multiset.le_add_right _ _

/-- The invariants hold along every run. -/
theorem run_sound {tables : Tables} (hwrap : (todo slots₀).length + maxInflight < 2 ^ 32)
    (hsound : tables.Sound)
    (hrun : Run (Step ask answer groups slots₀) Always (start slots₀ tables probeErr₀) s) :
    Split slots₀ s ∧ Told ask answer groups slots₀ probeErr₀ s ∧ s.wire.tables.Sound := by
  refine @Run.invariant _ _ _ (fun s => Split slots₀ s ∧
    Told ask answer groups slots₀ probeErr₀ s ∧ s.wire.tables.Sound) ?_ _ _ ?_ hrun
  · intro s s' h hstep _
    obtain ⟨hsplit, htold, hsound⟩ := h
    refine ⟨?_, ?_, sound_step hsound hstep⟩
    · rcases hstep with hstep | hstep
      · exact hsplit.own hwrap hstep
      · exact hsplit.other hstep
    · rcases hstep with hstep | hstep
      · exact htold.own hsplit hstep
      · exact htold.other hstep
  · have htaking : ∀ t ∈ (start (F := F) slots₀ tables probeErr₀).workers, t = .taking :=
      fun t ht => Multiset.eq_of_mem_replicate ht
    refine ⟨⟨by simp [start], Nat.zero_le _, fun hdone => ?_, ?_⟩, ⟨?_, ?_, ?_, ?_⟩, hsound⟩
    · cases htaking _ hdone
    · rw [pooled_eq_zero fun t ht => by rw [htaking t ht]; rfl]
      simp [start]
    · intro t ht
      rw [htaking t ht]
      trivial
    · rw [pooled_eq_zero fun t ht => by rw [htaking t ht]; rfl]
      simp [start]
    · have hcounted : tally Worker.counted (start (F := F) slots₀ tables probeErr₀).workers = 0 :=
        tally_eq_zero fun t ht => by rw [htaking t ht]; rfl
      rw [hcounted]
      simp [start]
    · intro gi
      simp [start]

/-- What a fill leaves: the slots that the walks come to, one after the other, the paths they ask,
and the errors they meet. -/
structure Probed (ask : Ask) (answer : Key → Except HaveError HaveBits)
    (groups : List (List (Path F))) (slots₀ : List (Option Bool)) (probeErr₀ : UInt64)
    (w : Wire F) : Prop where
  slots : w.slots = slots₀.mapIdx fun gi slot => slot.or (walk ask answer (pathsOf groups gi))
  asked : w.asked = ((todo slots₀).flatMap fun gi => dialled ask answer (pathsOf groups gi) :
    Multiset (Path F))
  errors : w.probeErr = probeErr₀ + .ofNat (w.others +
    ((todo slots₀).map fun gi => failures ask answer (pathsOf groups gi)).sum)

theorem Told.probed (h : Told ask answer groups slots₀ probeErr₀ s) (hsplit : Split slots₀ s)
    (hdone : ∀ t ∈ s.workers, t = .done) :
    Probed ask answer groups slots₀ probeErr₀ s.wire := by
  have hfinished := hsplit.finished hdone
  constructor
  · apply List.ext_getElem?
    intro gi
    rw [h.slots, hfinished, List.getElem?_mapIdx]
    by_cases hgi : gi ∈ (todo slots₀ : Multiset Nat)
    · rw [if_pos hgi, mem_todo.mp hgi]
      rfl
    · rw [if_neg hgi]
      cases hslot : slots₀[gi]? with
      | none => rfl
      | some slot =>
        cases slot with
        | none => exact absurd (mem_todo.mpr hslot) hgi
        | some has => rfl
  · rw [h.asked, hfinished, pooled_eq_zero fun t ht => by rw [hdone t ht]; rfl, add_zero,
      Multiset.coe_bind]
  · have hcounted : tally Worker.counted s.workers = 0 :=
      tally_eq_zero fun t ht => by rw [hdone t ht]; rfl
    rw [h.errors, hfinished, hcounted]
    simp [tally]

/-- **Probes on the wire.** In every order of the workers' steps, beside any other fills: the two
tables are kept; the workers have ever fewer steps before them, whatever the others do; nothing is
asked that the walks would not ask; and when no worker can go on, the slots are what the walks come
to one after the other, every path of theirs was asked, and each failure counted. -/
theorem probe_run {tables : Tables} (hwrap : (todo slots₀).length + maxInflight < 2 ^ 32)
    (hsound : tables.Sound)
    (hrun : Run (Step ask answer groups slots₀) Always (start slots₀ tables probeErr₀) s) :
    s.wire.tables.Sound ∧
      (∀ s', Own ask answer groups slots₀ s s' →
        left groups slots₀ s' < left groups slots₀ s) ∧
      (∀ s', Other s s' → left groups slots₀ s' = left groups slots₀ s) ∧
      s.wire.asked ≤ ((todo slots₀).flatMap fun gi => dialled ask answer (pathsOf groups gi) :
        Multiset (Path F)) ∧
      ((∃ s', Own ask answer groups slots₀ s s') ∨
        Probed ask answer groups slots₀ probeErr₀ s.wire) := by
  obtain ⟨hsplit, htold, htables⟩ := run_sound hwrap hsound hrun
  refine ⟨htables, fun s' => left_own hsplit hwrap, fun s' => left_other, ?_, ?_⟩
  · rw [← Multiset.coe_bind]
    exact htold.asked_le hsplit
  · by_cases hdone : ∀ t ∈ s.workers, t = .done
    · exact Or.inr (htold.probed hsplit hdone)
    · push Not at hdone
      obtain ⟨t, ht, hnot⟩ := hdone
      exact Or.inl (own_of_not_done ht hnot)

end Steps

/-! ## The candidates -/

section Candidates

variable {S : Type} [LinearOrder S] (pathScore : F → Nat → Nat → S)

/-- The slot of a peer, by way of `group_of`. -/
def slotOf (groups : List (List UInt8 × List (Path F))) (slots : List (Option Bool))
    (peerId : List UInt8) : Option Bool :=
  ((groups.findIdx? fun g => g.1 = peerId).bind fun gi => slots[gi]?).join

/-- `probeCandidates`, behind the probes. -/
def probedCands (groups : List (List UInt8 × List (Path F))) (slots : List (Option Bool))
    (paths : List (Path F)) : List (PathCand F) :=
  paths.map fun p => candOf p ((slotOf groups slots p.peerId).getD false)

/-- What the best path of a peer that answers says. -/
def BestReply (ask : Ask) (answer : Key → Except HaveError HaveBits) (paths : List (Path F))
    (peerId : List UInt8) (rep : HaveBits) : Prop :=
  ∃ q ∈ paths, q.peerId = peerId ∧ reply ask answer q = some rep ∧
    ∀ q' ∈ paths, q'.peerId = peerId → (reply ask answer q').isSome = true →
      probeOrderLess pathScore q' q = false

variable {pathScore} {ask : Ask} {answer : Key → Except HaveError HaveBits}
  {paths : List (Path F)} {peerId : List UInt8}

theorem bestReply_unique {rep rep' : HaveBits}
    (h : BestReply pathScore ask answer paths peerId rep)
    (h' : BestReply pathScore ask answer paths peerId rep') : rep = rep' := by
  obtain ⟨q, hq, hid, hrep, hall⟩ := h
  obtain ⟨q', hq', hid', hrep', hall'⟩ := h'
  have hlt := hall q' hq' hid' (by rw [hrep']; rfl)
  have hlt' := hall' q hq hid (by rw [hrep]; rfl)
  rw [probeOrderLess_iff] at hlt hlt'
  have haddr : q'.addr = q.addr := congrArg Prod.snd (strictTotal_score.eq_of_not hlt hlt')
  have hkey : q'.key = q.key := by rw [Path.key, Path.key, hid, hid', haddr]
  rw [reply, hkey, ← reply, hrep] at hrep'
  exact Option.some.inj hrep'

/-- The walk over a group ends with its best path that answers. -/
theorem walk_best (has : Bool) :
    walk ask answer (groupOf (groupPathsByPeerId pathScore paths) peerId) = some has ↔
      ∃ rep, BestReply pathScore ask answer paths peerId rep ∧
        rep.hasPiece ask.idx ask.localPieceSize = has := by
  have hbest := @bestFirst_groupOf F S _ pathScore paths peerId
  have hfirst : ∀ rep, (groupOf (groupPathsByPeerId pathScore paths) peerId).findSome?
      (reply ask answer) = some rep → BestReply pathScore ask answer paths peerId rep := by
    intro rep hrep
    obtain ⟨before, q, after, hgroup, hq, hbefore⟩ := List.findSome?_eq_some_iff.mp hrep
    obtain ⟨hpath, hid⟩ := (@mem_groupOf F paths peerId S _ pathScore q).mp (by simp [hgroup])
    refine ⟨q, hpath, hid, hq, ?_⟩
    intro q' hq' hid' hsome
    have hmem : q' ∈ before ++ q :: after := hgroup ▸ mem_groupOf.mpr ⟨hq', hid'⟩
    rcases List.mem_append.mp hmem with hmem | hmem
    · simp [hbefore q' hmem] at hsome
    · rcases List.mem_cons.mp hmem with rfl | hmem
      · exact probe_irrefl q'
      · rw [hgroup, BestFirst, List.pairwise_append] at hbest
        exact (List.pairwise_cons.mp hbest.2.1).1 q' hmem
  have hwalk : walk ask answer (groupOf (groupPathsByPeerId pathScore paths) peerId) =
      ((groupOf (groupPathsByPeerId pathScore paths) peerId).findSome? (reply ask answer)).map
        fun rep => rep.hasPiece ask.idx ask.localPieceSize := List.map_findSome?.symm
  rw [hwalk, Option.map_eq_some_iff]
  constructor
  · rintro ⟨rep, hrep, hhas⟩
    exact ⟨rep, hfirst rep hrep, hhas⟩
  · rintro ⟨rep, hrep, hhas⟩
    obtain ⟨q, hq, hid, hsome, -⟩ := id hrep
    have hfound : ((groupOf (groupPathsByPeerId pathScore paths) peerId).findSome?
        (reply ask answer)).isSome = true :=
      List.findSome?_isSome_iff.mpr ⟨q, mem_groupOf.mpr ⟨hq, hid⟩, by rw [hsome]; rfl⟩
    obtain ⟨rep', hrep'⟩ := Option.isSome_iff_exists.mp hfound
    exact ⟨rep, bestReply_unique (hfirst rep' hrep') hrep ▸ hrep', hhas⟩

/-- The groups have the paths between them. -/
theorem groups_flatten (paths : List (Path F)) :
    ((groupPathsByPeerId pathScore paths).map Prod.snd).flatten.Perm paths := by
  have hadd : ∀ (groups : List (List UInt8 × List (Path F))) (p : Path F), Grouped groups →
      ((addToGroups pathScore groups p).map Prod.snd).flatten.Perm
        ((groups.map Prod.snd).flatten ++ [p]) := by
    intro groups p hgrouped
    unfold addToGroups
    split
    · next hany =>
      obtain ⟨g, hg, hid⟩ := List.any_eq_true.mp hany
      obtain ⟨l₁, l₂, rfl⟩ := List.append_of_mem hg
      have hid := of_decide_eq_true hid
      have hothers : ∀ g' ∈ l₁ ++ l₂, g'.1 ≠ p.peerId := by
        have hnodup := hgrouped.nodup
        rw [List.map_append, List.map_cons, List.nodup_middle, ← List.map_append, hid] at hnodup
        intro g' hg' heq
        exact (List.nodup_cons.mp hnodup).1 (heq ▸ List.mem_map_of_mem hg')
      have hsame : ∀ l : List (List UInt8 × List (Path F)), (∀ g' ∈ l, g'.1 ≠ p.peerId) →
          l.map (fun g => if g.1 = p.peerId then (g.1, intoGroup pathScore g.2 p) else g) = l := by
        intro l hl
        refine (List.map_congr_left fun g' hg' => ?_).trans (List.map_id l)
        rw [if_neg (hl g' hg')]
        rfl
      rw [List.map_append, List.map_cons, hsame l₁ fun g' hg' => hothers g' (by simp [hg']),
        hsame l₂ fun g' hg' => hothers g' (by simp [hg']), if_pos hid]
      simp only [List.map_append, List.map_cons, List.flatten_append, List.flatten_cons,
        List.append_assoc]
      apply List.Perm.append_left
      rw [← List.append_assoc]
      refine ((intoGroup_perm g.2 p).append_right _).trans ?_
      exact (List.perm_append_singleton p _).symm
    · simp
  have hfold : ∀ (list : List (Path F)) (groups : List (List UInt8 × List (Path F))),
      Grouped groups → ((list.foldl (addToGroups pathScore) groups).map Prod.snd).flatten.Perm
        ((groups.map Prod.snd).flatten ++ list) := by
    intro list
    induction list with
    | nil => simp
    | cons p list ih =>
      intro groups hgrouped
      refine (ih _ (hgrouped.addToGroups p)).trans ?_
      simpa using (hadd groups p hgrouped).append_right list
  refine (((groups_perm paths).map Prod.snd).flatten).trans ?_
  simpa using hfold paths [] ⟨List.nodup_nil, nofun⟩

/-- A path of the list has a group, and a slot if every group has one. -/
theorem slot_of_path {slots : List (Option Bool)} {p : Path F} (hp : p ∈ paths)
    (hlen : slots.length = (groupPathsByPeerId pathScore paths).length) :
    ∃ gi slot, slots[gi]? = some slot ∧
      pathsOf ((groupPathsByPeerId pathScore paths).map Prod.snd) gi =
        groupOf (groupPathsByPeerId pathScore paths) p.peerId ∧
      ∀ slots' : List (Option Bool), slotOf (groupPathsByPeerId pathScore paths) slots' p.peerId =
        slots'[gi]?.join := by
  have hmem : p ∈ groupOf (groupPathsByPeerId pathScore paths) p.peerId :=
    mem_groupOf.mpr ⟨hp, rfl⟩
  have hgrouped := @grouped_paths F S _ pathScore paths
  cases hfind : (groupPathsByPeerId pathScore paths).find? fun g => g.1 = p.peerId with
  | none => simp [groupOf, hfind] at hmem
  | some g =>
    have hg : g ∈ groupPathsByPeerId pathScore paths := List.mem_of_find?_eq_some hfind
    have hid : g.1 = p.peerId := by simpa using List.find?_some hfind
    have hsome : ((groupPathsByPeerId pathScore paths).findIdx? fun g =>
        g.1 = p.peerId).isSome = true := by
      rw [List.findIdx?_isSome]
      exact List.any_eq_true.mpr ⟨g, hg, by simp [hid]⟩
    obtain ⟨gi, hgi⟩ := Option.isSome_iff_exists.mp hsome
    obtain ⟨hlt, hat, -⟩ := List.findIdx?_eq_some_iff_getElem.mp hgi
    have hslot : gi < slots.length := hlen ▸ hlt
    refine ⟨gi, slots[gi], List.getElem?_eq_getElem hslot, ?_, fun slots' => ?_⟩
    · have hsame := hgrouped.find_eq (List.getElem_mem hlt) (of_decide_eq_true hat)
      simp [pathsOf, groupOf, hsame, hlt]
    · rw [slotOf, hgi]
      rfl

/-- **The candidates of a fill.** When its workers are done, in whatever order they ran, a peer
that the cache did not answer for has the piece iff the best of its addresses that answers says so,
by the order that the paths are scored by; and no path was asked twice. -/
theorem probed_best {slots₀ : List (Option Bool)} {tables : Tables} {probeErr₀ : UInt64}
    {s : World F} (hlen : slots₀.length = (groupPathsByPeerId pathScore paths).length)
    (hwrap : (todo slots₀).length + maxInflight < 2 ^ 32) (hsound : tables.Sound)
    (hrun : Run (Step ask answer ((groupPathsByPeerId pathScore paths).map Prod.snd) slots₀) Always
      (start slots₀ tables probeErr₀) s) :
    s.wire.asked ≤ (paths : Multiset (Path F)) ∧
      ((∀ t ∈ s.workers, t = .done) → ∃ has : List UInt8 → Bool,
        probedCands (groupPathsByPeerId pathScore paths) s.wire.slots paths =
          paths.map (fun p => candOf p (has p.peerId)) ∧
        ∀ p ∈ paths, has p.peerId = true ↔
          match slotOf (groupPathsByPeerId pathScore paths) slots₀ p.peerId with
          | some known => known = true
          | none => ∃ rep, BestReply pathScore ask answer paths p.peerId rep ∧
            rep.hasPiece ask.idx ask.localPieceSize = true) := by
  obtain ⟨hsplit, htold, -⟩ := run_sound hwrap hsound hrun
  constructor
  · -- every group is asked once, and the groups have every path once
    have hgroups : (List.range slots₀.length).flatMap
        (pathsOf ((groupPathsByPeerId pathScore paths).map Prod.snd)) =
          ((groupPathsByPeerId pathScore paths).map Prod.snd).flatten := by
      rw [List.flatMap_def]
      congr 1
      apply List.ext_getElem
      · simp [hlen]
      · intro gi hlt hlt'
        have hgi : gi < (groupPathsByPeerId pathScore paths).length := by simpa using hlt'
        simp [pathsOf, hgi]
    have hsub : ((todo slots₀).flatMap fun gi => dialled ask answer
        (pathsOf ((groupPathsByPeerId pathScore paths).map Prod.snd) gi)).Sublist
          ((groupPathsByPeerId pathScore paths).map Prod.snd).flatten := by
      rw [← hgroups]
      exact (List.Sublist.flatMap_right _ fun gi _ => dialled_sublist _).trans
        (List.filter_sublist.flatMap _)
    apply (htold.asked_le hsplit).trans
    rw [Multiset.coe_bind]
    exact Multiset.coe_le.mpr (hsub.subperm.trans (groups_flatten paths).subperm)
  · intro hdone
    have hprobed := htold.probed hsplit hdone
    refine ⟨fun id => (slotOf (groupPathsByPeerId pathScore paths) s.wire.slots id).getD false,
      rfl, fun p hp => ?_⟩
    obtain ⟨gi, slot, hslot, hpaths, hslotOf⟩ := slot_of_path hp hlen
    dsimp only
    rw [hslotOf, hslotOf, hprobed.slots, List.getElem?_mapIdx, hslot]
    cases slot with
    | some known => simp
    | none =>
      have hbest := @walk_best F S _ pathScore ask answer paths p.peerId true
      rw [← hbest, hpaths]
      cases walk ask answer (groupOf (groupPathsByPeerId pathScore paths) p.peerId) with
      | none => simp
      | some has => simp

end Candidates

/-! ### Two workers, and an address that fails -/

section Two

/-- The better address of the first peer, its other one, and the second peer. -/
def nearPath : Path Nat := { peerId := [97], ip := [49], port := 7, ewmaBps := 2, hops := 0 }

def farPath : Path Nat := { peerId := [97], ip := [50], port := 7, ewmaBps := 1, hops := 0 }

def nextPath : Path Nat := { peerId := [98], ip := [51], port := 7, ewmaBps := 1, hops := 0 }

def firstAsk : Ask := ⟨[102], 0, 0, 0⟩

/-- The better address does not answer, the other one has the piece, and the second peer has no such
file. -/
def twoAnswer (k : Key) : Except HaveError HaveBits :=
  if k = nearPath.key then .error (.fetch .connectTimeout)
  else if k = farPath.key then .ok ⟨[1], 0⟩
  else .error .peerMiss

def byGoodput (ewmaBps _hops _inflight : Nat) : Nat := ewmaBps

def twoPaths : List (Path Nat) := [farPath, nextPath, nearPath]

def twoGroups : List (List (Path Nat)) := [[nearPath, farPath], [nextPath]]

theorem groups_two : groupPathsByPeerId byGoodput twoPaths =
    [([97], [nearPath, farPath]), ([98], [nextPath])] := by
  decide

/-- The second worker is through with its group while the first is at an address that fails. -/
theorem two_run : ∃ s, Run (Step firstAsk twoAnswer twoGroups [none, none]) Always
    (start [none, none] ⟨[], ⟨[], []⟩⟩ 0) s ∧ (∀ t ∈ s.workers, t = .done) ∧
      s.wire.slots = [some true, some false] := by
  have hfirst : ∀ {w w' : Wire Nat} {t t' u : Worker Nat},
      WorkerStep firstAsk twoAnswer twoGroups [none, none] w t w' t' →
        Step firstAsk twoAnswer twoGroups [none, none] ⟨w, t ::ₘ u ::ₘ 0⟩ ⟨w', t' ::ₘ u ::ₘ 0⟩ :=
    fun h => Or.inl (.step rfl h)
  have hsecond : ∀ {w w' : Wire Nat} {t t' u : Worker Nat},
      WorkerStep firstAsk twoAnswer twoGroups [none, none] w t w' t' →
        Step firstAsk twoAnswer twoGroups [none, none] ⟨w, u ::ₘ t ::ₘ 0⟩ ⟨w', u ::ₘ t' ::ₘ 0⟩ := by
    intro w w' t t' u h
    rw [Multiset.cons_swap u t, Multiset.cons_swap u t']
    exact hfirst h
  have htake := (Run.refl _).then (@hfirst _ _ _ _ .taking (@WorkerStep.take _ _ _ _ _
    (start [none, none] ⟨[], ⟨[], []⟩⟩ 0).wire 0 rfl))
  have hboth := htake.then (hsecond (@WorkerStep.take _ _ _ _ _ _ 1 rfl))
  have hfailed := hboth.then (hfirst (.failed rfl))
  have hmiss := hfailed.then (hsecond (.answered {} rfl))
  have hcounted := (hmiss.then (hfirst .count)).then (hsecond .tell)
  have hnoted := (hcounted.then (hfirst (.note {}))).then (hsecond .tell)
  have hanswered := (hnoted.then (hfirst (.answered {} rfl))).then (hsecond .slot)
  have htold := (hanswered.then (hfirst .tell)).then (hfirst .tell)
  have hleft := (htold.then (hsecond (.leave (by decide)))).then (hfirst .slot)
  have hdone := hleft.then (hfirst (.leave (by decide)))
  exact ⟨_, hdone, by simp, rfl⟩

theorem probe_run_two : ∃ s : World Nat, s.wire.tables.Sound ∧
    s.wire.slots = [some true, some false] ∧
      Probed firstAsk twoAnswer twoGroups [none, none] 0 s.wire := by
  obtain ⟨s, hrun, hdone, hslots⟩ := two_run
  obtain ⟨htables, -, -, -, hend⟩ :=
    probe_run (by decide) ⟨haveTable_nil, edges_start⟩ hrun
  refine ⟨s, htables, hslots, hend.resolve_left ?_⟩
  rintro ⟨s', hstep⟩
  cases hstep with
  | step hworkers hstep =>
    obtain rfl := hdone _ (by rw [hworkers]; exact Multiset.mem_cons_self ..)
    cases hstep

/-- The better address has failed, so the other one is asked. -/
theorem probed_best_two : ∃ s : World Nat, s.wire.asked ≤ (twoPaths : Multiset (Path Nat)) ∧
    ∃ has : List UInt8 → Bool,
      probedCands [([97], [nearPath, farPath]), ([98], [nextPath])] s.wire.slots twoPaths =
        twoPaths.map (fun p => candOf p (has p.peerId)) ∧
      has [97] = true := by
  obtain ⟨s, hrun, hdone, -⟩ := two_run
  have hbest := @probed_best Nat Nat _ byGoodput firstAsk twoAnswer twoPaths [none, none]
    ⟨[], ⟨[], []⟩⟩ 0 s
  rw [groups_two] at hbest
  obtain ⟨hasked, hcands⟩ := hbest rfl (by decide) ⟨haveTable_nil, edges_start⟩ hrun
  obtain ⟨has, hcands, hiff⟩ := hcands hdone
  refine ⟨s, hasked, has, hcands, (hiff farPath (by decide)).mpr ?_⟩
  refine ⟨⟨[1], 0⟩, ⟨farPath, by decide, rfl, rfl, ?_⟩, rfl⟩
  intro q hq hid hsome
  obtain rfl | rfl | rfl : q = farPath ∨ q = nextPath ∨ q = nearPath := by
    simpa [twoPaths] using hq
  · exact probe_irrefl farPath
  · cases hid
  · cases hsome

end Two

end ProbeWire

end ModelFs
