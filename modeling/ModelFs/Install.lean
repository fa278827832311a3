import ModelFs.Lib.Machine
import ModelFs.ManifestCodec
import ModelFs.Wire

/-!
# Installing a manifest

`publishManifest` writes its blob to a temporary name next to the manifest's and renames it. The
directory is shared by every node of the cluster, each publish of each node goes through its own
steps, and a restart of a node drops its publishes where they are. The temporary name has the
node's process id and its publish ordinal in it.

A directory maps names to files, and a descriptor goes on naming its file whatever happens to the
name. The steps are those of one manifest; other manifests have names of their own.

* `Sound.step` — what the steps keep as long as no temporary name is opened by two publishes at
  once (`Alone`).
* `install_of_run` — **in such runs the manifest is absent or one whole blob.**
* `tmpName_inj` — the name tells process ids and ordinals apart, and nothing else.
* `install_torn` — two nodes with one process id install an empty file.
-/

namespace ModelFs

namespace Install

open Proto

/-! ## Publishers and the directory -/

/-- The suffix of a publish. It is printed into 32 bytes. -/
def tmpExt (pid seq : Nat) : List UInt8 :=
  let ext := ascii ".tmp." ++ decimal pid ++ ascii "." ++ decimal seq
  if 32 < ext.length then ascii ".tmp" else ext

def tmpName (name : List UInt8) (pid seq : Nat) : List UInt8 := name ++ tmpExt pid seq

/-- A process: its id, and `manifest_seq`. -/
structure Node where
  pid : Nat
  seq : Nat := 0

/-- Where a publish is. -/
inductive Pc where
  | opening
  /-- `off` bytes of the blob went to the file behind the descriptor. -/
  | writing (ino off : Nat)
  /-- The rename is next. -/
  | complete
  /-- The write or the rename failed. -/
  | unlinking
  deriving DecidableEq

/-- A call of `publishManifest` past its sections. -/
structure Publisher (ν : Type) where
  node : ν
  tmp : List UInt8
  blob : List UInt8
  pc : Pc

structure World (ν τ : Type) where
  /-- The directory: the file of each name. -/
  names : List UInt8 → Option Nat := fun _ => none
  data : Nat → List UInt8 := fun _ => []
  nextIno : Nat := 0
  nodes : ν → Node
  pubs : τ → Option (Publisher ν) := fun _ => none
  /-- The blobs that were encoded so far. -/
  encoded : List (List UInt8) := []

/-- `write(2)` of a chunk at an offset. -/
def writeAt (data : List UInt8) (off : Nat) (chunk : List UInt8) : List UInt8 :=
  (data ++ List.replicate (off - data.length) 0).take off ++ chunk ++ data.drop (off + chunk.length)

variable {ν τ : Type} [DecidableEq τ]

def World.moveTo (s : World ν τ) (t : τ) (p : Option (Publisher ν)) : World ν τ :=
  { s with pubs := Function.update s.pubs t p }

/-- `open(O_CREAT | O_TRUNC)`: the file, and the world with it. -/
def World.openTmp (s : World ν τ) (tmp : List UInt8) : Nat × World ν τ :=
  match s.names tmp with
  | some ino => (ino, { s with data := Function.update s.data ino [] })
  | none => (s.nextIno, { s with
      names := Function.update s.names tmp (some s.nextIno)
      data := Function.update s.data s.nextIno []
      nextIno := s.nextIno + 1 })

def World.unlink (s : World ν τ) (tmp : List UInt8) : World ν τ :=
  { s with names := Function.update s.names tmp none }

/-- The descriptor is open, or the file is complete and waits for its rename. -/
def Pc.holds : Pc → Bool
  | .writing .. | .complete => true
  | _ => false

/-- No other publish is between its open of `t`'s temporary name and its rename or unlink. -/
def Alone (s : World ν τ) (t : τ) : Prop :=
  ∀ p u q, s.pubs t = some p → u ≠ t → s.pubs u = some q → q.tmp = p.tmp → q.pc.holds = false

/-- The condition that every open meets. -/
def Any (_ : World ν τ) (_ : τ) : Prop := True

/-- One step. `name` is the manifest's, `Allowed` the condition on an open. -/
inductive Step [DecidableEq ν] (name : List UInt8) (Allowed : World ν τ → τ → Prop)
    (s : World ν τ) : World ν τ → Prop where
  /-- A publish has encoded its blob and takes its ordinal. -/
  | start {t : τ} {n : ν} {m : Manifest Digest} {blob : List UInt8} (hidle : s.pubs t = none)
      (hblob : manifestBlob m = some blob) :
      Step name Allowed s ({ s with
        nodes := Function.update s.nodes n
          ⟨(s.nodes n).pid, ((s.nodes n).seq + 1) % 2 ^ 32⟩
        encoded := blob :: s.encoded }.moveTo t
          (some ⟨n, tmpName name (s.nodes n).pid (s.nodes n).seq, blob, .opening⟩))
  | openOk {t : τ} {p : Publisher ν} (hp : s.pubs t = some p) (hpc : p.pc = .opening)
      (hallowed : Allowed s t) :
      Step name Allowed s ((s.openTmp p.tmp).2.moveTo t
        (some { p with pc := .writing (s.openTmp p.tmp).1 0 }))
  | write {t : τ} {p : Publisher ν} {ino off : Nat} (k : Nat) (hp : s.pubs t = some p)
      (hpc : p.pc = .writing ino off) (hk : 0 < k) (hfit : off + k ≤ p.blob.length) :
      Step name Allowed s ({ s with
        data := Function.update s.data ino
          (writeAt (s.data ino) off ((p.blob.drop off).take k)) }.moveTo t
          (some { p with pc := .writing ino (off + k) }))
  | close {t : τ} {p : Publisher ν} {ino : Nat} (hp : s.pubs t = some p)
      (hpc : p.pc = .writing ino p.blob.length) :
      Step name Allowed s (s.moveTo t (some { p with pc := .complete }))
  | rename {t : τ} {p : Publisher ν} {ino : Nat} (hp : s.pubs t = some p)
      (hpc : p.pc = .complete) (hino : s.names p.tmp = some ino) :
      Step name Allowed s ({ s with
        names := Function.update (Function.update s.names p.tmp none) name (some ino) }.moveTo t none)
  /-- The open, a write, the close or the rename fails, the last also because the name is gone. -/
  | fail {t : τ} {p : Publisher ν} (hp : s.pubs t = some p) (hpc : p.pc ≠ .unlinking) :
      Step name Allowed s (s.moveTo t (some { p with pc := .unlinking }))
  | unlink {t : τ} {p : Publisher ν} (hp : s.pubs t = some p) (hpc : p.pc = .unlinking) :
      Step name Allowed s ((s.unlink p.tmp).moveTo t none)
  /-- A discovery tick of any node removes an old staging file. -/
  | sweep {tmp : List UInt8} (hne : tmp ≠ name) : Step name Allowed s (s.unlink tmp)
  | restart (n : ν) (pid : Nat) :
      Step name Allowed s { s with
        nodes := Function.update s.nodes n ⟨pid, 0⟩
        pubs := fun t => (s.pubs t).filter fun p => p.node ≠ n }

/-- **Absent, or one whole blob.** -/
def Whole (name : List UInt8) (s : World ν τ) : Prop :=
  ∀ ino, s.names name = some ino → s.data ino ∈ s.encoded

/-! ## The invariant -/

variable {name : List UInt8} {s s' : World ν τ}

/-- Nobody has a descriptor of the file. -/
def Closed (s : World ν τ) (ino : Nat) : Prop :=
  ∀ t p off, s.pubs t = some p → p.pc ≠ .writing ino off

structure Sound (name : List UInt8) (s : World ν τ) : Prop where
  /-- A file has one name. -/
  inj : ∀ a b ino, s.names a = some ino → s.names b = some ino → a = b
  fresh : ∀ a ino, s.names a = some ino → ino < s.nextIno
  whole : ∀ ino, s.names name = some ino → s.data ino ∈ s.encoded ∧ Closed s ino
  pub : ∀ t p, s.pubs t = some p → p.blob ∈ s.encoded ∧ p.tmp ≠ name
  writing : ∀ t p ino off, s.pubs t = some p → p.pc = .writing ino off →
    ino < s.nextIno ∧ off ≤ p.blob.length ∧ s.data ino = p.blob.take off ∧
      (∀ j, s.names p.tmp = some j → j = ino) ∧ ∀ a, s.names a = some ino → a = p.tmp
  complete : ∀ t p ino, s.pubs t = some p → p.pc = .complete → s.names p.tmp = some ino →
    s.data ino = p.blob ∧ Closed s ino
  apart : ∀ t u p q, t ≠ u → s.pubs t = some p → s.pubs u = some q → p.pc.holds = true →
    q.pc.holds = true → p.tmp ≠ q.tmp
  single : ∀ t u p q ino off off', t ≠ u → s.pubs t = some p → s.pubs u = some q →
    p.pc = .writing ino off → q.pc ≠ .writing ino off'

theorem tmpName_ne (pid seq : Nat) : tmpName name pid seq ≠ name := by
  intro h
  have hlen := congrArg List.length h
  have hext : (tmpExt pid seq).length ≠ 0 := by
    unfold tmpExt
    dsimp only
    split_ifs
    · decide
    · simp only [List.length_append]
      have hdot : (ascii ".tmp.").length = 5 := by decide
      omega
  rw [tmpName, List.length_append] at hlen
  omega

theorem pubs_moveTo {t u : τ} {q : Option (Publisher ν)} :
    (s.moveTo t q).pubs u = if u = t then q else s.pubs u := by
  exact Function.update_apply ..

omit [DecidableEq τ] in
theorem names_unlink {tmp a : List UInt8} {ino : Nat} (h : (s.unlink tmp).names a = some ino) :
    s.names a = some ino := by
  have h' : Function.update s.names tmp none a = some ino := h
  rw [Function.update_apply] at h'
  split_ifs at h'
  exact h'

theorem holds_writing {pc : Pc} {ino off : Nat} (h : pc = .writing ino off) : pc.holds = true := by
  rw [h]
  rfl

omit [DecidableEq τ] in
/-- **What only takes away.** Names go, publishes leave or give up, new ones have not opened. -/
theorem Sound.narrow (h : Sound name s) (hdata : s'.data = s.data) (hnext : s'.nextIno = s.nextIno)
    (hnames : ∀ a ino, s'.names a = some ino → s.names a = some ino)
    (hencoded : ∀ b ∈ s.encoded, b ∈ s'.encoded)
    (hpubs : ∀ u p, s'.pubs u = some p → s.pubs u = some p ∨
      p.pc.holds = false ∧ p.blob ∈ s'.encoded ∧ p.tmp ≠ name) : Sound name s' := by
  have hheld : ∀ u p, s'.pubs u = some p → p.pc.holds = true → s.pubs u = some p := by
    intro u p hp hholds
    rcases hpubs u p hp with hold | ⟨hfree, -⟩
    · exact hold
    · rw [hfree] at hholds
      cases hholds
  have hclosed : ∀ ino, Closed s ino → Closed s' ino := fun ino hino u p off hp hpc =>
    hino u p off (hheld u p hp (holds_writing hpc)) hpc
  refine ⟨fun a b ino ha hb => h.inj a b ino (hnames a ino ha) (hnames b ino hb),
    fun a ino ha => hnext ▸ h.fresh a ino (hnames a ino ha), fun ino hino => ?_, fun u p hp => ?_,
    fun u p ino off hp hpc => ?_, fun u p ino hp hpc hino => ?_,
    fun t u p q htu hp hq hph hqh =>
      h.apart t u p q htu (hheld t p hp hph) (hheld u q hq hqh) hph hqh,
    fun t u p q ino off off' htu hp hq hpc hpc' => ?_⟩
  · obtain ⟨hmem, hino'⟩ := h.whole ino (hnames _ _ hino)
    exact ⟨hdata ▸ hencoded _ hmem, hclosed ino hino'⟩
  · rcases hpubs u p hp with hold | ⟨-, hnew⟩
    · exact ⟨hencoded _ (h.pub u p hold).1, (h.pub u p hold).2⟩
    · exact hnew
  · obtain ⟨hlt, hoff, hbytes, htmp, hback⟩ :=
      h.writing u p ino off (hheld u p hp (holds_writing hpc)) hpc
    exact ⟨hnext ▸ hlt, hoff, hdata ▸ hbytes, fun j hj => htmp j (hnames _ _ hj),
      fun a ha => hback a (hnames _ _ ha)⟩
  · have hholds : p.pc.holds = true := by
      rw [hpc]
      rfl
    obtain ⟨hbytes, hino'⟩ := h.complete u p ino (hheld u p hp hholds) hpc (hnames _ _ hino)
    exact ⟨hdata ▸ hbytes, hclosed ino hino'⟩
  · exact h.single t u p q ino off off' htu (hheld t p hp (holds_writing hpc))
      (hheld u q hq (holds_writing hpc')) hpc hpc'

/-- A chunk goes behind the bytes that are there. -/
theorem writeAt_take {blob data : List UInt8} {off k : Nat} (hdata : data = blob.take off)
    (hfit : off + k ≤ blob.length) :
    writeAt data off ((blob.drop off).take k) = blob.take (off + k) := by
  have hlen : data.length = off := by
    rw [hdata, List.length_take]
    omega
  have hchunk : ((blob.drop off).take k).length = k := by
    rw [List.length_take, List.length_drop]
    omega
  have hpast : data.drop (off + k) = [] := List.drop_eq_nil_of_le (by omega)
  unfold writeAt
  rw [hlen, hchunk, hpast, Nat.sub_self, List.replicate_zero, List.append_nil, List.append_nil,
    List.take_of_length_le hlen.le, hdata, List.take_add]

/-- A publish moves on with the same name and blob. `old` is where it was; the file it may have
open now, it had open before. -/
theorem Closed.moveTo {t : τ} {p : Publisher ν} {pc : Pc} {data : Nat → List UInt8} {ino : Nat}
    (h : Closed s ino) (hpc : ∀ off, pc ≠ .writing ino off) :
    Closed ({ s with data := data }.moveTo t (some { p with pc := pc })) ino := by
  intro u q off hq
  rw [pubs_moveTo] at hq
  split_ifs at hq with hut
  · obtain rfl := Option.some.inj hq
    exact hpc off
  · exact h u q off hq

/-- **A publish goes on** with the file it has open: `data` differs there only, and holds the bytes
that the new state `pc` says. -/
theorem Sound.goOn (h : Sound name s) {t : τ} {p : Publisher ν} {ino off : Nat}
    {data : Nat → List UInt8} {pc : Pc} (hp : s.pubs t = some p) (hpc : p.pc = .writing ino off)
    (hdata : ∀ i, i ≠ ino → data i = s.data i)
    (hnow : (∃ off', pc = .writing ino off' ∧ off' ≤ p.blob.length ∧ data ino = p.blob.take off') ∨
      pc = .complete ∧ data ino = p.blob) :
    Sound name ({ s with data := data }.moveTo t (some { p with pc := pc })) := by
  obtain ⟨hlt, -, -, htmp, hback⟩ := h.writing t p ino off hp hpc
  have hopen : ∀ i, Closed s i → i ≠ ino := by
    rintro i hi rfl
    exact hi t p off hp hpc
  have hino : ∀ i off', pc = .writing i off' → i = ino := by
    intro i off' hi
    rcases hnow with ⟨off'', hpc', -⟩ | ⟨hpc', -⟩
    · exact (Pc.writing.inj (hi.symm.trans hpc')).1
    · rw [hpc'] at hi
      cases hi
  have hclosed : ∀ i, Closed s i →
      Closed ({ s with data := data }.moveTo t (some { p with pc := pc })) i := fun i hi =>
    hi.moveTo fun off' hpc' => hopen i hi (hino i off' hpc')
  have hcases : ∀ u q, ({ s with data := data }.moveTo t (some { p with pc := pc })).pubs u = some q →
      u = t ∧ q = { p with pc := pc } ∨ u ≠ t ∧ s.pubs u = some q := by
    intro u q hq
    rw [pubs_moveTo] at hq
    split_ifs at hq with hut
    · exact Or.inl ⟨hut, (Option.some.inj hq).symm⟩
    · exact Or.inr ⟨hut, hq⟩
  refine ⟨h.inj, h.fresh, fun i hi => ?_, fun u q hq => ?_, fun u q i off' hq hqc => ?_,
    fun u q i hq hqc hi => ?_, fun u v q r huv hq hr hqh hrh => ?_,
    fun u v q r i off₁ off₂ huv hq hr hqc hrc => ?_⟩
  · obtain ⟨hmem, hi'⟩ := h.whole i hi
    refine ⟨?_, hclosed i hi'⟩
    rw [← hdata i (hopen i hi')] at hmem
    exact hmem
  · rcases hcases u q hq with ⟨rfl, rfl⟩ | ⟨-, hq⟩
    · exact h.pub u p hp
    · exact h.pub u q hq
  · rcases hcases u q hq with ⟨rfl, rfl⟩ | ⟨hut, hq⟩
    · obtain rfl := hino i off' hqc
      rcases hnow with ⟨off'', hpc', hfit, hbytes⟩ | ⟨hpc', -⟩
      · obtain rfl := (Pc.writing.inj (hqc.symm.trans hpc')).2
        exact ⟨hlt, hfit, hbytes, htmp, hback⟩
      · rw [hpc'] at hqc
        cases hqc
    · have hne : i ≠ ino := by
        rintro rfl
        exact h.single u t q p i off' off hut hq hp hqc hpc
      obtain ⟨hlt', hfit', hbytes', hrest⟩ := h.writing u q i off' hq hqc
      exact ⟨hlt', hfit', (hdata i hne).trans hbytes', hrest⟩
  · rcases hcases u q hq with ⟨rfl, rfl⟩ | ⟨-, hq⟩
    · obtain rfl := htmp i hi
      rcases hnow with ⟨off'', hpc', -⟩ | ⟨-, hbytes⟩
      · rw [hpc'] at hqc
        cases hqc
      · refine ⟨hbytes, fun v r off' hr hrc => ?_⟩
        rcases hcases v r hr with ⟨rfl, rfl⟩ | ⟨hvt, hr⟩
        · rw [hqc] at hrc
          cases hrc
        · exact h.single u v p r i off off' hvt.symm hp hr hpc hrc
    · obtain ⟨hbytes', hi'⟩ := h.complete u q i hq hqc hi
      exact ⟨(hdata i (hopen i hi')).trans hbytes', hclosed i hi'⟩
  · rcases hcases u q hq with ⟨rfl, rfl⟩ | ⟨-, hq'⟩
    · rcases hcases v r hr with ⟨rfl, -⟩ | ⟨-, hr'⟩
      · exact absurd rfl huv
      · exact h.apart u v p r huv hp hr' (holds_writing hpc) hrh
    · rcases hcases v r hr with ⟨rfl, rfl⟩ | ⟨-, hr'⟩
      · exact h.apart u v q p huv hq' hp hqh (holds_writing hpc)
      · exact h.apart u v q r huv hq' hr' hqh hrh
  · rcases hcases u q hq with ⟨rfl, rfl⟩ | ⟨-, hq'⟩
    · rcases hcases v r hr with ⟨rfl, -⟩ | ⟨-, hr'⟩
      · exact huv rfl
      · obtain rfl := hino i off₁ hqc
        exact h.single u v p r i off off₂ huv hp hr' hpc hrc
    · rcases hcases v r hr with ⟨rfl, rfl⟩ | ⟨-, hr'⟩
      · obtain rfl := hino i off₂ hrc
        exact h.single u v q p i off₁ off huv hq' hp hqc hpc
      · exact h.single u v q r i off₁ off₂ huv hq' hr' hqc hrc

/-- What an open does to the directory and the files. -/
structure Opened (s s' : World ν τ) (tmp : List UInt8) (ino : Nat) : Prop where
  name : s'.names tmp = some ino
  others : ∀ a, a ≠ tmp → s'.names a = s.names a
  empty : s'.data ino = []
  kept : ∀ i, i ≠ ino → s'.data i = s.data i
  fresh : ino < s'.nextIno
  grows : s.nextIno ≤ s'.nextIno
  pubs : s'.pubs = s.pubs
  encoded : s'.encoded = s.encoded
  /-- The file is new, or had this name. -/
  cases : s.nextIno ≤ ino ∨ s.names tmp = some ino

omit [DecidableEq τ] in
theorem opened (h : Sound name s) (tmp : List UInt8) :
    Opened s (s.openTmp tmp).2 tmp (s.openTmp tmp).1 := by
  unfold World.openTmp
  cases hino : s.names tmp with
  | some ino =>
    exact ⟨hino, fun _ _ => rfl, Function.update_self .., fun i hi => Function.update_of_ne hi ..,
      h.fresh tmp ino hino, Nat.le_refl _, rfl, rfl, Or.inr hino⟩
  | none =>
    exact ⟨Function.update_self .., fun a ha => Function.update_of_ne ha .., Function.update_self ..,
      fun i hi => Function.update_of_ne hi .., Nat.lt_succ_self _, Nat.le_succ _, rfl, rfl,
      Or.inl (Nat.le_refl _)⟩

/-- **An open of a name that no other publish holds.** -/
theorem Sound.openOk (h : Sound name s) {t : τ} {p : Publisher ν} (hp : s.pubs t = some p)
    (halone : Alone s t) {ino : Nat} (ho : Opened s s' p.tmp ino) :
    Sound name (s'.moveTo t (some { p with pc := .writing ino 0 })) := by
  -- neither another name nor another descriptor has the file
  have hback : ∀ a, s.names a = some ino → a = p.tmp := by
    intro a ha
    rcases ho.cases with hnew | hold
    · exact absurd (h.fresh a ino ha) (Nat.not_lt.mpr hnew)
    · exact h.inj a p.tmp ino ha hold
  have hother : ∀ u q, u ≠ t → s.pubs u = some q → q.pc.holds = true → q.tmp ≠ p.tmp := by
    intro u q hut hq hholds heq
    rw [halone p u q hp hut hq heq] at hholds
    cases hholds
  have hclosed : ∀ u q off, u ≠ t → s.pubs u = some q → q.pc ≠ .writing ino off := by
    intro u q off hut hq hqc
    obtain ⟨hlt, -, -, -, hnames⟩ := h.writing u q ino off hq hqc
    rcases ho.cases with hnew | hold
    · exact absurd hlt (Nat.not_lt.mpr hnew)
    · exact hother u q hut hq (holds_writing hqc) (hnames _ hold).symm
  have hcases : ∀ u q, (s'.moveTo t (some { p with pc := .writing ino 0 })).pubs u = some q →
      u = t ∧ q = { p with pc := .writing ino 0 } ∨ u ≠ t ∧ s.pubs u = some q := by
    intro u q hq
    rw [pubs_moveTo, ho.pubs] at hq
    split_ifs at hq with hut
    · exact Or.inl ⟨hut, (Option.some.inj hq).symm⟩
    · exact Or.inr ⟨hut, hq⟩
  have hstays : ∀ i, i ≠ ino → Closed s i →
      Closed (s'.moveTo t (some { p with pc := .writing ino 0 })) i := by
    intro i hi hclosed' u q off hq hqc
    rcases hcases u q hq with ⟨-, rfl⟩ | ⟨-, hq⟩
    · exact hi (Pc.writing.inj hqc).1.symm
    · exact hclosed' u q off hq hqc
  have hnames : ∀ a i, a ≠ p.tmp → s'.names a = some i → s.names a = some i := fun a i ha hi =>
    (ho.others a ha).symm.trans hi
  have htmp : ∀ i, s'.names p.tmp = some i → i = ino := fun i hi =>
    (Option.some.inj (ho.name.symm.trans hi)).symm
  have hne := (h.pub t p hp).2
  refine ⟨fun a b i ha hb => ?_, fun a i ha => ?_, fun i hi => ?_, fun u q hq => ?_,
    fun u q i off hq hqc => ?_, fun u q i hq hqc hi => ?_, fun u v q r huv hq hr hqh hrh => ?_,
    fun u v q r i off₁ off₂ huv hq hr hqc hrc => ?_⟩
  · by_cases hat : a = p.tmp <;> by_cases hbt : b = p.tmp
    · exact hat.trans hbt.symm
    · subst hat
      obtain rfl := htmp i ha
      exact (hback b (hnames b i hbt hb)).symm
    · subst hbt
      obtain rfl := htmp i hb
      exact hback a (hnames a i hat ha)
    · exact h.inj a b i (hnames a i hat ha) (hnames b i hbt hb)
  · by_cases hat : a = p.tmp
    · subst hat
      exact htmp i ha ▸ ho.fresh
    · exact lt_of_lt_of_le (h.fresh a i (hnames a i hat ha)) ho.grows
  · have hold := hnames name i hne.symm hi
    have hi' : i ≠ ino := fun heq => hne (hback name (heq ▸ hold)).symm
    obtain ⟨hmem, hclosed'⟩ := h.whole i hold
    refine ⟨?_, hstays i hi' hclosed'⟩
    rw [← ho.kept i hi', ← ho.encoded] at hmem
    exact hmem
  · rcases hcases u q hq with ⟨rfl, rfl⟩ | ⟨-, hq⟩
    · exact ⟨ho.encoded.symm ▸ (h.pub u p hp).1, hne⟩
    · exact ⟨ho.encoded.symm ▸ (h.pub u q hq).1, (h.pub u q hq).2⟩
  · rcases hcases u q hq with ⟨-, rfl⟩ | ⟨hut, hq⟩
    · obtain ⟨rfl, rfl⟩ := Pc.writing.inj hqc
      refine ⟨ho.fresh, Nat.zero_le _, ho.empty, htmp, fun a ha => ?_⟩
      by_contra hat
      exact hat (hback a (hnames a _ hat ha))
    · have hi' : i ≠ ino := fun heq => hclosed u q off hut hq (heq ▸ hqc)
      have hqt := hother u q hut hq (holds_writing hqc)
      obtain ⟨hlt, hoff, hbytes, htmp', hback'⟩ := h.writing u q i off hq hqc
      refine ⟨lt_of_lt_of_le hlt ho.grows, hoff, (ho.kept i hi').trans hbytes,
        fun j hj => htmp' j (hnames _ _ hqt hj), fun a ha => ?_⟩
      by_cases hat : a = p.tmp
      · subst hat
        exact absurd (htmp i ha) hi'
      · exact hback' a (hnames a i hat ha)
  · rcases hcases u q hq with ⟨-, rfl⟩ | ⟨hut, hq⟩
    · cases hqc
    · have hholds : q.pc.holds = true := by
        rw [hqc]
        rfl
      have hqt := hother u q hut hq hholds
      have hold := hnames _ _ hqt hi
      have hi' : i ≠ ino := fun heq => hqt (hback _ (heq ▸ hold))
      obtain ⟨hbytes, hclosed'⟩ := h.complete u q i hq hqc hold
      exact ⟨(ho.kept i hi').trans hbytes, hstays i hi' hclosed'⟩
  · rcases hcases u q hq with ⟨rfl, rfl⟩ | ⟨hut, hq'⟩
    · rcases hcases v r hr with ⟨rfl, -⟩ | ⟨hvt, hr'⟩
      · exact absurd rfl huv
      · exact (hother v r hvt hr' hrh).symm
    · rcases hcases v r hr with ⟨rfl, rfl⟩ | ⟨-, hr'⟩
      · exact hother u q hut hq' hqh
      · exact h.apart u v q r huv hq' hr' hqh hrh
  · rcases hcases u q hq with ⟨rfl, rfl⟩ | ⟨hut, hq'⟩
    · rcases hcases v r hr with ⟨rfl, -⟩ | ⟨hvt, hr'⟩
      · exact huv rfl
      · obtain rfl := (Pc.writing.inj hqc).1
        exact hclosed v r off₂ hvt hr' hrc
    · rcases hcases v r hr with ⟨rfl, rfl⟩ | ⟨-, hr'⟩
      · obtain rfl := (Pc.writing.inj hrc).1
        exact hclosed u q off₁ hut hq' hqc
      · exact h.single u v q r i off₁ off₂ huv hq' hr' hqc hrc

/-- **The rename** of a complete file. -/
theorem Sound.rename (h : Sound name s) {t : τ} {p : Publisher ν} {ino : Nat}
    (hp : s.pubs t = some p) (hpc : p.pc = .complete) (hino : s.names p.tmp = some ino) :
    Sound name ({ s with
        names := Function.update (Function.update s.names p.tmp none) name (some ino) }.moveTo t none)
    := by
  have hne := (h.pub t p hp).2
  obtain ⟨hbytes, hclosed⟩ := h.complete t p ino hp hpc hino
  -- the directory: the manifest's name has the file, the temporary name is gone
  have hnames : ∀ a i, Function.update (Function.update s.names p.tmp none) name (some ino) a =
      some i → a = name ∧ i = ino ∨ a ≠ name ∧ a ≠ p.tmp ∧ s.names a = some i := by
    intro a i ha
    rw [Function.update_apply, Function.update_apply] at ha
    split_ifs at ha with hname htmp
    · exact Or.inl ⟨hname, (Option.some.inj ha).symm⟩
    · exact Or.inr ⟨hname, htmp, ha⟩
  have hcases : ∀ u q, ({ s with
      names := Function.update (Function.update s.names p.tmp none) name (some ino) }.moveTo t
        none).pubs u = some q → s.pubs u = some q := by
    intro u q hq
    rw [pubs_moveTo] at hq
    split_ifs at hq
    exact hq
  have hkeep : ∀ i, Closed s i → Closed ({ s with
      names := Function.update (Function.update s.names p.tmp none) name (some ino) }.moveTo t
        none) i := fun i hi u q off hq => hi u q off (hcases u q hq)
  refine ⟨fun a b i ha hb => ?_, fun a i ha => ?_, fun i hi => ?_, fun u q hq =>
    h.pub u q (hcases u q hq), fun u q i off hq hqc => ?_, fun u q i hq hqc hi => ?_,
    fun u v q r huv hq hr => h.apart u v q r huv (hcases u q hq) (hcases v r hr),
    fun u v q r i off₁ off₂ huv hq hr =>
      h.single u v q r i off₁ off₂ huv (hcases u q hq) (hcases v r hr)⟩
  · rcases hnames a i ha with ⟨haname, hai⟩ | ⟨-, hat, ha'⟩ <;>
      rcases hnames b i hb with ⟨hbname, hbi⟩ | ⟨-, hbt, hb'⟩
    · exact haname.trans hbname.symm
    · exact absurd (h.inj b p.tmp i hb' (hai ▸ hino)) hbt
    · exact absurd (h.inj a p.tmp i ha' (hbi ▸ hino)) hat
    · exact h.inj a b i ha' hb'
  · rcases hnames a i ha with ⟨-, rfl⟩ | ⟨-, -, ha⟩
    · exact h.fresh p.tmp i hino
    · exact h.fresh a i ha
  · rcases hnames name i hi with ⟨-, rfl⟩ | ⟨hno, -, -⟩
    · exact ⟨hbytes.symm ▸ (h.pub t p hp).1, hkeep i hclosed⟩
    · exact absurd rfl hno
  · have hq' := hcases u q hq
    obtain ⟨hlt, hoff, hdata, htmp, hback⟩ := h.writing u q i off hq' hqc
    refine ⟨hlt, hoff, hdata, fun j hj => ?_, fun a ha => ?_⟩
    · rcases hnames q.tmp j hj with ⟨hname, -⟩ | ⟨-, -, hj⟩
      · exact absurd hname (h.pub u q hq').2
      · exact htmp j hj
    · rcases hnames a i ha with ⟨-, rfl⟩ | ⟨-, -, ha⟩
      · exact absurd hqc (hclosed u q off hq')
      · exact hback a ha
  · have hq' := hcases u q hq
    rcases hnames q.tmp i hi with ⟨hname, -⟩ | ⟨-, -, hi⟩
    · exact absurd hname (h.pub u q hq').2
    · obtain ⟨hdata, hi'⟩ := h.complete u q i hq' hqc hi
      exact ⟨hdata, hkeep i hi'⟩

/-- **A step keeps the invariant**, if it opens no name that another publish holds. -/
theorem Sound.step [DecidableEq ν] (h : Sound name s) (hstep : Step name Alone s s') :
    Sound name s' := by
  cases hstep with
  | @start t n m blob hidle hblob =>
    refine h.narrow rfl rfl (fun _ _ ha => ha) (fun b hb => List.mem_cons_of_mem _ hb) ?_
    intro u p hp
    rw [pubs_moveTo] at hp
    split_ifs at hp
    · obtain rfl := Option.some.inj hp
      exact Or.inr ⟨rfl, List.mem_cons_self, tmpName_ne _ _⟩
    · exact Or.inl hp
  | openOk hp hpc hallowed => exact h.openOk hp hallowed (opened h _)
  | write k hp hpc hk hfit =>
    have hbytes := (h.writing _ _ _ _ hp hpc).2.2.1
    refine h.goOn hp hpc (fun i hi => Function.update_of_ne hi ..) (Or.inl ⟨_, rfl, hfit, ?_⟩)
    rw [Function.update_self, writeAt_take hbytes hfit]
  | close hp hpc =>
    have hbytes := (h.writing _ _ _ _ hp hpc).2.2.1
    rw [List.take_length] at hbytes
    exact h.goOn hp hpc (fun _ _ => rfl) (Or.inr ⟨rfl, hbytes⟩)
  | rename hp hpc hino => exact h.rename hp hpc hino
  | @fail t p hp hpc =>
    refine h.narrow rfl rfl (fun _ _ ha => ha) (fun _ hb => hb) ?_
    intro u q hq
    rw [pubs_moveTo] at hq
    split_ifs at hq
    · obtain rfl := Option.some.inj hq
      exact Or.inr ⟨rfl, h.pub t p hp⟩
    · exact Or.inl hq
  | @unlink t p hp hpc =>
    refine h.narrow rfl rfl (fun a ino ha => names_unlink ha) (fun _ hb => hb) fun u q hq => ?_
    rw [pubs_moveTo] at hq
    split_ifs at hq
    exact Or.inl hq
  | @sweep tmp hne =>
    exact h.narrow rfl rfl (fun a ino ha => names_unlink ha) (fun _ hb => hb) fun _ _ hq => Or.inl hq
  | restart n pid =>
    refine h.narrow rfl rfl (fun _ _ ha => ha) (fun _ hb => hb) fun u q hq => ?_
    exact Or.inl (Option.filter_eq_some_iff.mp hq).1

/-! ## Runs -/

/-- Nobody publishes, and there is no manifest. -/
def start (nodes : ν → Node) : World ν τ := { nodes := nodes }

omit [DecidableEq τ] in
theorem sound_start (nodes : ν → Node) : Sound name (start nodes : World ν τ) :=
  ⟨nofun, nofun, nofun, nofun, nofun, nofun, nofun, nofun⟩

/-- **In runs where no temporary name is opened by two publishes at once the manifest is absent or
one whole blob.** -/
theorem install_of_run [DecidableEq ν] {nodes : ν → Node}
    (hrun : Run (Step name Alone) Always (start nodes) s) : Whole name s := by
  have hkeep : ∀ s₁ s₂ : World ν τ, Sound name s₁ → Step name Alone s₁ s₂ → Always s₁ s₂ →
      Sound name s₂ := fun _ _ h hstep _ => h.step hstep
  have hsound := hrun.invariant hkeep (sound_start nodes)
  exact fun ino hino => (hsound.whole ino hino).1

/-! ## Two processes with one id -/

theorem decimal_inj {n k : Nat} (hn : n ≤ maxU64) (hk : k ≤ maxU64) (h : decimal n = decimal k) :
    n = k := by
  have hread := parseU64Fast_decimal hn
  rw [h, parseU64Fast_decimal hk] at hread
  exact (Option.some.inj hread).symm

/-- **A temporary name tells process ids and ordinals apart**, and nothing else. -/
theorem tmpName_inj {pid pid' : Nat} {seq seq' : UInt32} (hpid : pid < 2 ^ 31)
    (hpid' : pid' < 2 ^ 31) (h : tmpName name pid seq.toNat = tmpName name pid' seq'.toNat) :
    pid = pid' ∧ seq = seq' := by
  have hext : ∀ (p : Nat) (q : UInt32), p < 2 ^ 31 →
      tmpExt p q.toNat = ascii ".tmp." ++ (decimal p ++ 46 :: decimal q.toNat) := by
    intro p q hp
    have hlenp : (decimal p).length ≤ 10 := length_decimal_le (by decide) (by omega)
    have hlenq : (decimal q.toNat).length ≤ 10 :=
      length_decimal_le (by decide) (lt_trans q.toNat_lt (by decide))
    have htmp : (ascii ".tmp.").length = 5 := by decide
    have hdot : ascii "." = [46] := by decide
    unfold tmpExt
    dsimp only
    rw [if_neg (by simp only [List.length_append, htmp, hdot, List.length_singleton]; omega), hdot,
      List.append_assoc, List.append_assoc, List.singleton_append]
  rw [tmpName, tmpName, List.append_cancel_left_eq, hext _ _ hpid, hext _ _ hpid',
    List.append_cancel_left_eq] at h
  have hdot : ∀ n : Nat, (46 : UInt8) ∉ decimal n := fun n => not_mem_decimal (Or.inl (by decide))
  have hlen : (decimal pid).length = (decimal pid').length := by
    have hfind := @findScalar_append 46 _ (decimal seq.toNat) (hdot pid)
    rw [h, findScalar_append (hdot pid')] at hfind
    exact (Option.some.inj hfind).symm
  obtain ⟨hp, hq⟩ := List.append_inj h hlen
  have hfits : ∀ k : Nat, k < 2 ^ 32 → k ≤ maxU64 := fun k hk => hk.le.trans (by decide)
  refine ⟨decimal_inj (hfits _ (by omega)) (hfits _ (by omega)) hp, UInt32.toNat_inj.mp ?_⟩
  exact decimal_inj (hfits _ seq.toNat_lt) (hfits _ seq'.toNat_lt) (List.cons.inj hq).2

/-- A manifest with one digest, and its name. -/
def manifestA : Manifest Digest := ⟨4096, 4096, [⟨0, digestA⟩], none⟩

def nameA : List UInt8 := manifestName (fun _ => digestA) (ascii "a")

/-- The first process of a container. -/
def nodeOne : Bool → Node := fun _ => { pid := 1 }

/-- Two processes of one host. -/
def nodeTwo : Bool → Node := fun n => { pid := if n then 2 else 1 }

theorem exists_blobA : ∃ blob, manifestBlob manifestA = some blob ∧ 0 < blob.length :=
  ⟨_, rfl, by decide⟩

section Publishes

variable (pid ino : Nat) (s : World Bool Bool) (n : Bool) (blob : List UInt8)

/-- A publish of the process, at its first ordinal. -/
def pubA (pc : Pc) : Publisher Bool := ⟨n, tmpName nameA pid 0, blob, pc⟩

/-- The first publish of a node that did not publish yet. -/
def startA : World Bool Bool :=
  { s with
    nodes := Function.update s.nodes n ⟨pid, 1⟩
    encoded := blob :: s.encoded }.moveTo n (some (pubA pid n blob .opening))

/-- The temporary name is opened. -/
def openedA : World Bool Bool :=
  (s.openTmp (tmpName nameA pid 0)).2.moveTo n (some (pubA pid n blob (.writing ino 0)))

/-- The whole blob is written. -/
def fullA : World Bool Bool :=
  { openedA pid ino s n blob with
    data := Function.update (openedA pid ino s n blob).data ino
      (writeAt ((openedA pid ino s n blob).data ino) 0 (blob.take blob.length))
    }.moveTo n (some (pubA pid n blob (.writing ino (0 + blob.length))))

/-- The file is closed. -/
def writtenA : World Bool Bool :=
  (fullA pid ino s n blob).moveTo n (some (pubA pid n blob .complete))

end Publishes

section Publishes

variable {Allowed : World Bool Bool → Bool → Prop} {pid ino : Nat} {s : World Bool Bool} {n : Bool}
  {blob : List UInt8}

theorem step_openedA (hpub : s.pubs n = some (pubA pid n blob .opening)) (hallowed : Allowed s n)
    (hino : (s.openTmp (tmpName nameA pid 0)).1 = ino) :
    Step nameA Allowed s (openedA pid ino s n blob) := by
  have hopen := @Step.openOk Bool Bool _ _ nameA _ s n _ hpub rfl hallowed
  rwa [show (s.openTmp (pubA pid n blob .opening).tmp).1 = ino from hino] at hopen

theorem names_renamed {names : List UInt8 → Option Nat} {t : Bool} :
    ({ s with names := Function.update names nameA (some ino) }.moveTo t none).names nameA =
      some ino := by
  show Function.update names nameA (some ino) nameA = some ino
  rw [Function.update_self]

theorem run_writtenA (hpub : s.pubs n = some (pubA pid n blob .opening)) (hallowed : Allowed s n)
    (hino : (s.openTmp (tmpName nameA pid 0)).1 = ino) (hpos : 0 < blob.length) :
    Run (Step nameA Allowed) Always s (writtenA pid ino s n blob) := by
  have hwrite := @Step.write Bool Bool _ _ nameA Allowed (openedA pid ino s n blob) n
    (pubA pid n blob (.writing ino 0)) ino 0 blob.length (Function.update_self ..) rfl hpos
    (Nat.zero_add _).le
  have hfull : (fullA pid ino s n blob).pubs n =
      some (pubA pid n blob (.writing ino (0 + blob.length))) := Function.update_self ..
  have hclose := @Step.close Bool Bool _ _ nameA Allowed (fullA pid ino s n blob) n _ ino hfull
    (congrArg (Pc.writing ino) (Nat.zero_add _))
  exact (((Run.refl s).then (step_openedA hpub hallowed hino)).then hwrite).then hclose

end Publishes

/-- Two publishes, of which the second opens its file before the first is renamed: under different
names they do not meet. -/
theorem install_of_run_two : ∃ s : World Bool Bool, s.names nameA = some 0 ∧
    (∃ p, s.pubs true = some p ∧ p.pc = .writing 1 0) ∧ Whole nameA s := by
  obtain ⟨blob, hblob, hpos⟩ := exists_blobA
  have hne : tmpName nameA 2 0 ≠ tmpName nameA 1 0 := by
    intro heq
    have hpids := @tmpName_inj nameA 2 1 0 0 (by decide) (by decide) heq
    exact absurd hpids.1 (by decide)
  -- both have started, and the first has written its file
  have hstart : Run (Step nameA Alone) Always (start nodeTwo)
      (startA 2 (startA 1 (start nodeTwo) false blob) true blob) :=
    ((Run.refl _).then (Step.start rfl hblob)).then (Step.start rfl hblob)
  let both := startA 2 (startA 1 (start nodeTwo) false blob) true blob
  have halone : Alone both false := by
    intro p u q _ hu hq _
    obtain rfl : u = true := Bool.eq_true_of_not_eq_false hu
    obtain rfl : pubA 2 true blob .opening = q := Option.some.inj hq
    rfl
  have hwritten : Run (Step nameA Alone) Always (start nodeTwo) (writtenA 1 0 both false blob) :=
    Relation.ReflTransGen.trans hstart (run_writtenA rfl halone rfl hpos)
  let written := writtenA 1 0 both false blob
  have halone' : Alone written true := by
    intro p u q hp hu hq heq
    obtain rfl : u = false := Bool.eq_false_of_not_eq_true hu
    obtain rfl : pubA 2 true blob .opening = p := Option.some.inj hp
    obtain rfl : pubA 1 false blob .complete = q := Option.some.inj hq
    exact absurd heq.symm hne
  -- the second has a file of its own
  have hnone : written.names (tmpName nameA 2 0) = none :=
    Function.update_of_ne hne (some 0) fun _ => none
  let opened : World Bool Bool := { written with
    names := Function.update written.names (tmpName nameA 2 0) (some 1)
    data := Function.update written.data 1 []
    nextIno := 2 }
  have hopen : written.openTmp (tmpName nameA 2 0) = (1, opened) := by
    rw [World.openTmp, hnone]
    rfl
  have hopened := @step_openedA Alone 2 1 written true blob rfl halone' (congrArg Prod.fst hopen)
  rw [openedA, hopen] at hopened
  have hwritten' : written.names (tmpName nameA 1 0) = some 0 := by
    show Function.update (fun _ => none) (tmpName nameA 1 0) (some 0) (tmpName nameA 1 0) = some 0
    exact Function.update_self ..
  have hname : opened.names (tmpName nameA 1 0) = some 0 :=
    (Function.update_of_ne hne.symm (some 1) written.names).trans hwritten'
  have hrename := @Step.rename Bool Bool _ _ nameA Alone
    (opened.moveTo true (some (pubA 2 true blob (.writing 1 0)))) false
    (pubA 1 false blob .complete) 0 rfl rfl hname
  exact ⟨_, names_renamed, ⟨_, rfl, rfl⟩, install_of_run ((hwritten.then hopened).then hrename)⟩

/-- **Two nodes with one process id.** The second opens the temporary name between the close and the
rename of the first, and the manifest is an empty file. -/
theorem install_torn : ¬ ∀ (name : List UInt8) (nodes : Bool → Node) (s : World Bool Bool),
    Run (Step name Any) Always (start nodes) s → Whole name s := by
  intro hall
  obtain ⟨blob, hblob, hpos⟩ := exists_blobA
  have hfirst : Run (Step nameA Any) Always (start nodeOne) (startA 1 (start nodeOne) false blob) :=
    (Run.refl _).then (Step.start rfl hblob)
  have hsecond : Run (Step nameA Any) Always (start nodeOne)
      (startA 1 (startA 1 (start nodeOne) false blob) true blob) :=
    hfirst.then (Step.start rfl hblob)
  have hwritten : Run (Step nameA Any) Always (start nodeOne)
      (writtenA 1 0 (startA 1 (startA 1 (start nodeOne) false blob) true blob) false blob) :=
    Relation.ReflTransGen.trans hsecond (run_writtenA rfl trivial rfl hpos)
  have hopened := hwritten.then (@step_openedA Any 1 0 _ true blob rfl trivial rfl)
  have hrename := @Step.rename Bool Bool _ _ nameA Any
    (openedA 1 0 (writtenA 1 0 (startA 1 (startA 1 (start nodeOne) false blob) true blob) false blob)
      true blob) false (pubA 1 false blob .complete) 0 rfl rfl rfl
  have hwhole := hall nameA nodeOne _ (hopened.then hrename) 0 names_renamed
  have hempty : ([] : List UInt8) ∈ [blob, blob] := hwhole
  have hblobs : [] = blob := by simpa using hempty
  rw [← hblobs] at hpos
  exact absurd hpos (Nat.lt_irrefl 0)

end Install

end ModelFs
