import ModelFs.Lib.Machine

/-!
# The buffers of reads

A read is answered out of one of sixteen buffers. `claimReadBuf` takes the lowest one that is clear
in the mask `read_taken`, by a compare and exchange in a loop, and fills the slot on its first use;
`release` clears the bit. Without a free slot, or without memory for one, the buffer comes from the
allocator.

A load, a compare and exchange and a `fetchAnd` of the mask are one step each, and so is each look
at `read_bufs` and each write there. Threads are any in number, and a buffer may be released by
another thread than the one that claimed it.

* `slots_step` — a bit of the mask is set just while one claimer or one buffer has the slot.
* `read_buffers` — **what holds of the slots in every run**.
-/

namespace ModelFs.ReadSlots

/-! ## The mask -/

def readSlotBytes : Nat := 1 <<< 20

def readSlots : Nat := 16

/-- The bits that are clear, as a `u32`. -/
def freeBits (cur : BitVec 16) : BitVec 32 :=
  let mask : BitVec 32 := (1#32 <<< readSlots) - 1#32
  ~~~cur.setWidth 32 &&& mask

def lowest (cur : BitVec 16) : Nat := (freeBits cur).ctz.toNat

def bitOf (i : Nat) : BitVec 16 := 1#16 <<< i

theorem getLsbD_freeBits (cur : BitVec 16) (i : Nat) :
    (freeBits cur).getLsbD i = (decide (i < 16) && !cur.getLsbD i) := by
  have hmask : (1#32 <<< readSlots) - 1#32 = BitVec.ofNat 32 (2 ^ 16 - 1) := rfl
  unfold freeBits
  dsimp only
  rw [hmask, BitVec.getLsbD_and, BitVec.getLsbD_not, BitVec.getLsbD_setWidth,
    BitVec.getLsbD_ofNat, Nat.testBit_two_pow_sub_one]
  by_cases hi : i < 16
  · have hwide : i < 32 := by omega
    simp [hi, hwide]
  · simp [hi]

/-- The slot that is tried: it is one of the sixteen, and it was clear. -/
theorem lowest_free {cur : BitVec 16} (h : freeBits cur ≠ 0) :
    lowest cur < 16 ∧ cur.getLsbD (lowest cur) = false := by
  have hbit := BitVec.getLsbD_true_ctz_of_ne_zero h
  rw [getLsbD_freeBits] at hbit
  simpa [lowest] using hbit

theorem lowest_eq {cur : BitVec 16} {k : Nat} (hk : k < 16)
    (hcur : ∀ j < 16, cur.getLsbD j = decide (j < k)) : freeBits cur ≠ 0 ∧ lowest cur = k := by
  have hfree : (freeBits cur).getLsbD k = true := by
    rw [getLsbD_freeBits, hcur k hk]
    simpa using hk
  have hne : freeBits cur ≠ 0 := by
    intro hzero
    rw [hzero] at hfree
    simp at hfree
  obtain ⟨hlt, hclear⟩ := lowest_free hne
  have hge : k ≤ lowest cur := by
    rw [hcur _ hlt] at hclear
    simpa using hclear
  refine ⟨hne, le_antisymm ?_ hge⟩
  by_contra hover
  have hfalse := BitVec.getLsbD_false_of_lt_ctz (Nat.not_le.mp hover)
  rw [hfree] at hfalse
  cases hfalse

theorem getLsbD_or_bitOf (x : BitVec 16) {i : Nat} (hi : i < 16) (j : Nat) :
    (x ||| bitOf i).getLsbD j = (x.getLsbD j || decide (j = i)) := by
  have hbit : bitOf i = BitVec.twoPow 16 i := rfl
  rw [hbit, BitVec.getLsbD_or, BitVec.getLsbD_twoPow, decide_eq_true hi, Bool.true_and]
  simp only [eq_comm]

theorem getLsbD_and_bitOf (x : BitVec 16) {i : Nat} (hi : i < 16) (j : Nat) :
    (x &&& ~~~bitOf i).getLsbD j = (x.getLsbD j && !decide (j = i)) := by
  have hbit : bitOf i = BitVec.twoPow 16 i := rfl
  rw [hbit, BitVec.getLsbD_and, BitVec.getLsbD_not, BitVec.getLsbD_twoPow, decide_eq_true hi,
    Bool.true_and]
  by_cases hj : j < 16
  · simp [hj, eq_comm]
  · simp [hj, BitVec.getLsbD_of_ge x j (Nat.not_lt.mp hj)]

/-! ## Claims and releases -/

/-- Memory from the allocator, or the front of it: where it begins, and how long it is. -/
structure Bytes where
  base : Nat
  len : Nat
deriving DecidableEq, Repr

structure ReadBuf where
  slot : Option Nat
  bytes : Bytes
deriving DecidableEq, Repr

/-- A buffer that was returned and not released, and how many bytes were asked for. -/
structure Loan where
  buf : ReadBuf
  want : Nat

/-- Where a thread is in `claimReadBuf`. -/
inductive Phase where
  | idle
  /-- At the head of the loop, with what it read. -/
  | looking (want : Nat) (cur : BitVec 16)
  /-- The exchange went through. -/
  | claimed (want i : Nat)
  /-- The slot was empty. -/
  | filling (want i : Nat)
  | returning (want i : Nat)
  /-- There was no memory. -/
  | givingBack (want i : Nat)
  | heap (want : Nat)
deriving DecidableEq, Repr

/-- The slot that a claimer has. -/
def Phase.slot : Phase → Option Nat
  | idle | looking .. | heap _ => none
  | claimed _ i | filling _ i | returning _ i | givingBack _ i => some i

structure State (ι : Type*) where
  taken : BitVec 16
  bufs : Nat → Option Bytes
  phase : ι → Phase
  /-- By any number, each for one buffer. -/
  live : Nat → Option Loan
  /-- What the allocator gave out so far. -/
  next : Nat
  /-- The slots that were written, the last one first. -/
  writes : List Nat

variable {ι : Type*}

def initial : State ι where
  taken := 0
  bufs _ := none
  phase _ := .idle
  live _ := none
  next := 0
  writes := []

variable [DecidableEq ι]

def State.goto (s : State ι) (t : ι) (p : Phase) : State ι :=
  { s with phase := Function.update s.phase t p }

def State.setLive (s : State ι) (id : Nat) (loan : Option Loan) : State ι :=
  { s with live := Function.update s.live id loan }

/-- One step. The exchange may fail for no reason, and so may an allocation. -/
inductive Step (s : State ι) : State ι → Prop where
  | load {t : ι} {want : Nat} : s.phase t = .idle → want ≤ readSlotBytes →
      Step s (s.goto t (.looking want s.taken))
  | large {t : ι} {want : Nat} : s.phase t = .idle → readSlotBytes < want →
      Step s (s.goto t (.heap want))
  | full {t : ι} {want : Nat} {cur : BitVec 16} : s.phase t = .looking want cur →
      freeBits cur = 0 → Step s (s.goto t (.heap want))
  | exchange {t : ι} {want : Nat} {cur : BitVec 16} : s.phase t = .looking want cur →
      freeBits cur ≠ 0 → s.taken = cur →
      Step s ({ s with taken := cur ||| bitOf (lowest cur) }.goto t (.claimed want (lowest cur)))
  | retry {t : ι} {want : Nat} {cur : BitVec 16} : s.phase t = .looking want cur →
      freeBits cur ≠ 0 → Step s (s.goto t (.looking want s.taken))
  | filled {t : ι} {want i : Nat} : s.phase t = .claimed want i → s.bufs i ≠ none →
      Step s (s.goto t (.returning want i))
  | empty {t : ι} {want i : Nat} : s.phase t = .claimed want i → s.bufs i = none →
      Step s (s.goto t (.filling want i))
  | fill {t : ι} {want i : Nat} : s.phase t = .filling want i →
      Step s ({ s with bufs := Function.update s.bufs i (some ⟨s.next, readSlotBytes⟩),
                       next := s.next + 1, writes := i :: s.writes }.goto t (.returning want i))
  | noMemory {t : ι} {want i : Nat} : s.phase t = .filling want i →
      Step s (s.goto t (.givingBack want i))
  | giveBack {t : ι} {want i : Nat} : s.phase t = .givingBack want i →
      Step s ({ s with taken := s.taken &&& ~~~bitOf i }.goto t (.heap want))
  | ret {t : ι} {want i id : Nat} {b : Bytes} : s.phase t = .returning want i →
      s.bufs i = some b → want ≤ b.len → s.live id = none →
      Step s ((s.setLive id (some ⟨⟨some i, { b with len := want }⟩, want⟩)).goto t .idle)
  | heapRet {t : ι} {want id : Nat} : s.phase t = .heap want → s.live id = none →
      Step s (({ s with next := s.next + 1 }.setLive id
        (some ⟨⟨none, ⟨s.next, want⟩⟩, want⟩)).goto t .idle)
  | heapFail {t : ι} {want : Nat} : s.phase t = .heap want → Step s (s.goto t .idle)
  | release {id i : Nat} {loan : Loan} : s.live id = some loan → loan.buf.slot = some i →
      Step s ({ s with taken := s.taken &&& ~~~bitOf i }.setLive id none)
  | free {id : Nat} {loan : Loan} : s.live id = some loan → loan.buf.slot = none →
      Step s (s.setLive id none)

/-! ## Who has a slot -/

/-- Claimers and buffers, and the slots they have. -/
def State.holder (s : State ι) : ι ⊕ Nat → Option Nat
  | .inl t => (s.phase t).slot
  | .inr id => (s.live id).bind fun loan => loan.buf.slot

theorem holder_goto (s : State ι) (t : ι) (p : Phase) :
    (s.goto t p).holder = Function.update s.holder (.inl t) p.slot := by
  funext h
  cases h with
  | inl u =>
    by_cases hu : u = t
    · subst hu
      simp [State.holder, State.goto]
    · simp [State.holder, State.goto, hu]
  | inr id => simp [State.holder, State.goto]

theorem holder_setLive (s : State ι) (id : Nat) (loan : Option Loan) :
    (s.setLive id loan).holder =
      Function.update s.holder (.inr id) (loan.bind fun l => l.buf.slot) := by
  funext h
  cases h with
  | inl u => simp [State.holder, State.setLive]
  | inr j =>
    by_cases hj : j = id
    · subst hj
      simp [State.holder, State.setLive]
    · simp [State.holder, State.setLive, hj]

/-- One slot is had by one at a time, and its bit says whether it is. -/
def SlotOk (taken : BitVec 16) (holder : ι ⊕ Nat → Option Nat) (i : Nat) : Prop :=
  Claimed (fun r : Option Nat => r == some i) (taken.getLsbD i) holder

section Slots

variable {taken : BitVec 16} {holder : ι ⊕ Nat → Option Nat} {u : ι ⊕ Nat} {k : Nat}

omit [DecidableEq ι] in
/-- There are sixteen slots. -/
theorem lt_of_holder (h : ∀ i, SlotOk taken holder i) (hu : holder u = some k) : k < 16 := by
  by_contra hk
  have hset := (h k).set.mpr ⟨u, by simp [hu]⟩
  rw [BitVec.getLsbD_of_ge _ _ (Nat.not_lt.mp hk)] at hset
  cases hset

theorem slotOk_same (h : ∀ i, SlotOk taken holder i) {r : Option Nat} (hr : r = holder u)
    (i : Nat) : SlotOk taken (Function.update holder u r) i := by
  rw [hr, Function.update_eq_self]
  exact h i

/-- **A slot that was clear is taken.** -/
theorem slotOk_take (h : ∀ i, SlotOk taken holder i) (hu : holder u = none) (hk : k < 16)
    (hclear : taken.getLsbD k = false) (i : Nat) :
    SlotOk (taken ||| bitOf k) (Function.update holder u (some k)) i := by
  unfold SlotOk
  rw [getLsbD_or_bitOf taken hk]
  have hi := h i
  unfold SlotOk at hi
  by_cases hik : i = k
  · subst hik
    rw [hclear] at hi
    rw [decide_eq_true rfl, Bool.or_true]
    exact hi.take (beq_self_eq_true _)
  · rw [decide_eq_false hik, Bool.or_false]
    refine hi.move ?_
    simp [hu, Ne.symm hik]

/-- **The one that has a slot gives it up.** -/
theorem slotOk_drop (h : ∀ i, SlotOk taken holder i) (hu : holder u = some k) (i : Nat) :
    SlotOk (taken &&& ~~~bitOf k) (Function.update holder u none) i := by
  unfold SlotOk
  rw [getLsbD_and_bitOf taken (lt_of_holder h hu)]
  have hi := h i
  unfold SlotOk at hi
  by_cases hik : i = k
  · subst hik
    rw [decide_eq_true rfl, Bool.not_true, Bool.and_false]
    exact hi.release (by simp [hu]) rfl
  · rw [decide_eq_false hik, Bool.not_false, Bool.and_true]
    refine hi.move ?_
    simp [hu, Ne.symm hik]

/-- **It hands the slot on.** -/
theorem slotOk_pass (h : ∀ i, SlotOk taken holder i) (hu : holder u = some k) {v : ι ⊕ Nat}
    (hv : holder v = none) (hne : v ≠ u) (i : Nat) :
    SlotOk taken (Function.update (Function.update holder v (some k)) u none) i := by
  have hi := h i
  unfold SlotOk at hi ⊢
  rw [Function.update_comm hne]
  by_cases hik : i = k
  · subst hik
    have hset := hi.set.mpr ⟨u, by simp [hu]⟩
    rw [hset] at hi ⊢
    exact (hi.release (p := none) (by simp [hu]) rfl).take (beq_self_eq_true _)
  · have hfirst := hi.move (t := u) (p := none) (by simp [hu, Ne.symm hik])
    refine hfirst.move ?_
    rw [Function.update_of_ne hne, hv]
    simp [Ne.symm hik]

end Slots

theorem slots_goto {s : State ι} (h : ∀ i, SlotOk s.taken s.holder i) {t : ι} {p : Phase}
    (hp : p.slot = (s.phase t).slot) (i : Nat) : SlotOk s.taken (s.goto t p).holder i := by
  rw [holder_goto]
  exact slotOk_same h hp i

/-- **Slots, step by step.** -/
theorem slots_step {s s' : State ι} (h : ∀ i, SlotOk s.taken s.holder i) (hstep : Step s s')
    (i : Nat) : SlotOk s'.taken s'.holder i := by
  cases hstep with
  | load hp hwant => exact slots_goto h (by rw [hp]; rfl) i
  | large hp hwant => exact slots_goto h (by rw [hp]; rfl) i
  | full hp hfull => exact slots_goto h (by rw [hp]; rfl) i
  | exchange hp hfree hcur =>
    obtain ⟨hlt, hclear⟩ := lowest_free hfree
    subst hcur
    rw [holder_goto]
    exact slotOk_take h (by simp [State.holder, hp, Phase.slot]) hlt hclear i
  | retry hp hfree => exact slots_goto h (by rw [hp]; rfl) i
  | filled hp hb => exact slots_goto h (by rw [hp]; rfl) i
  | empty hp hb => exact slots_goto h (by rw [hp]; rfl) i
  | fill hp => exact slots_goto h (by rw [hp]; rfl) i
  | noMemory hp => exact slots_goto h (by rw [hp]; rfl) i
  | giveBack hp =>
    rw [holder_goto]
    exact slotOk_drop h (by simp [State.holder, hp, Phase.slot]) i
  | ret hp hb hwant hid =>
    rw [holder_goto, holder_setLive]
    exact slotOk_pass h (by simp [State.holder, hp, Phase.slot]) (by simp [State.holder, hid])
      (by simp) i
  | @heapRet t want id hp hid =>
    rw [holder_goto, holder_setLive]
    have hmid : ∀ j, SlotOk s.taken (Function.update s.holder (.inr id) none) j :=
      slotOk_same h (by simp [State.holder, hid])
    exact slotOk_same hmid (by simp [State.holder, hp, Phase.slot]) i
  | heapFail hp => exact slots_goto h (by rw [hp]; rfl) i
  | release hid hslot =>
    rw [holder_setLive]
    exact slotOk_drop h (by simp [State.holder, hid, hslot]) i
  | free hid hslot =>
    rw [holder_setLive]
    exact slotOk_same h (by simp [State.holder, hid, hslot]) i

/-! ## What a claimer knows -/

def PhaseOk (bufs : Nat → Option Bytes) : Phase → Prop
  | .idle | .heap _ | .givingBack .. => True
  | .looking want _ | .claimed want _ => want ≤ readSlotBytes
  | .filling want i => want ≤ readSlotBytes ∧ bufs i = none
  | .returning want i => want ≤ readSlotBytes ∧ bufs i ≠ none

theorem phases_update {bufs : Nat → Option Bytes} {phase : ι → Phase}
    (h : ∀ u, PhaseOk bufs (phase u)) {t : ι} {p : Phase} (hp : PhaseOk bufs p) :
    ∀ u, PhaseOk bufs (Function.update phase t p u) := by
  intro u
  by_cases hu : u = t
  · subst hu
    rw [Function.update_self]
    exact hp
  · rw [Function.update_of_ne hu]
    exact h u

/-- A slot is filled, and those who have other slots see what they saw. -/
theorem PhaseOk.fill {bufs : Nat → Option Bytes} {p : Phase} (h : PhaseOk bufs p) {i : Nat}
    (hi : p.slot ≠ some i) (b : Bytes) : PhaseOk (Function.update bufs i (some b)) p := by
  cases p with
  | idle | heap want | givingBack want j => trivial
  | looking want cur | claimed want j => exact h
  | filling want j =>
    have hj : j ≠ i := fun heq => hi (congrArg some heq)
    exact ⟨h.1, by rw [Function.update_of_ne hj]; exact h.2⟩
  | returning want j =>
    have hj : j ≠ i := fun heq => hi (congrArg some heq)
    exact ⟨h.1, by rw [Function.update_of_ne hj]; exact h.2⟩

theorem phases_step {s s' : State ι} (hslots : ∀ i, SlotOk s.taken s.holder i)
    (h : ∀ u, PhaseOk s.bufs (s.phase u)) (hstep : Step s s') :
    ∀ u, PhaseOk s'.bufs (s'.phase u) := by
  have hat : ∀ {t p}, s.phase t = p → PhaseOk s.bufs p := fun hp => hp ▸ h _
  cases hstep with
  | load hp hwant => exact phases_update h hwant
  | large hp hwant => exact phases_update h trivial
  | full hp hfull => exact phases_update h trivial
  | exchange hp hfree hcur => exact phases_update h (hat hp :)
  | retry hp hfree => exact phases_update h (hat hp :)
  | filled hp hb => exact phases_update h ⟨hat hp, hb⟩
  | empty hp hb => exact phases_update h ⟨hat hp, hb⟩
  | @fill t want i hp =>
    have hwant : want ≤ readSlotBytes := (hat hp).1
    intro u
    by_cases hu : u = t
    · subst hu
      simp only [State.goto, Function.update_self]
      exact ⟨hwant, by rw [Function.update_self]; simp⟩
    · simp only [State.goto, Function.update_of_ne hu]
      refine (h u).fill (fun hslot => hu ?_) _
      -- another thread would have the slot too
      have hone := (hslots i).one (.inl u) (.inl t) (by simp [State.holder, hslot])
        (by simp [State.holder, hp, Phase.slot])
      exact Sum.inl.inj hone
  | noMemory hp => exact phases_update h trivial
  | giveBack hp => exact phases_update h trivial
  | ret hp hb hwant hid => exact phases_update h trivial
  | heapRet hp hid => exact phases_update h trivial
  | heapFail hp => exact phases_update h trivial
  | release hid hslot => exact h
  | free hid hslot => exact h

/-! ## Memory -/

/-- Where the slots and the buffers lie. -/
structure MemOk (bufs : Nat → Option Bytes) (live : Nat → Option Loan) (next : Nat) : Prop where
  slots : ∀ i b, bufs i = some b → b.len = readSlotBytes ∧ b.base < next
  apart : ∀ i j b c, bufs i = some b → bufs j = some c → b.base = c.base → i = j
  exact : ∀ id loan, live id = some loan → loan.buf.bytes.len = loan.want
  inside : ∀ id loan i, live id = some loan → loan.buf.slot = some i →
    ∃ b, bufs i = some b ∧ b.base = loan.buf.bytes.base ∧ loan.want ≤ b.len
  outside : ∀ id loan, live id = some loan → loan.buf.slot = none → loan.buf.bytes.base < next ∧
    ∀ i b, bufs i = some b → b.base ≠ loan.buf.bytes.base
  heap : ∀ id id' loan loan', live id = some loan → live id' = some loan' → loan.buf.slot = none →
    loan'.buf.slot = none → loan.buf.bytes.base = loan'.buf.bytes.base → id = id'

section Memory

variable {bufs : Nat → Option Bytes} {live : Nat → Option Loan} {next : Nat}

theorem MemOk.fill (h : MemOk bufs live next) {i : Nat} (hi : bufs i = none) :
    MemOk (Function.update bufs i (some ⟨next, readSlotBytes⟩)) live (next + 1) where
  slots j b hb := by
    by_cases hj : j = i
    · subst hj
      rw [Function.update_self, Option.some_inj] at hb
      subst hb
      exact ⟨rfl, Nat.lt_succ_self next⟩
    · rw [Function.update_of_ne hj] at hb
      exact ⟨(h.slots j b hb).1, Nat.lt_succ_of_lt (h.slots j b hb).2⟩
  apart j k b c hb hc heq := by
    by_cases hj : j = i <;> by_cases hk : k = i
    · rw [hj, hk]
    · subst hj
      rw [Function.update_self, Option.some_inj] at hb
      rw [Function.update_of_ne hk] at hc
      have hlt := (h.slots k c hc).2
      rw [← heq, ← hb] at hlt
      exact absurd hlt (Nat.lt_irrefl _)
    · subst hk
      rw [Function.update_self, Option.some_inj] at hc
      rw [Function.update_of_ne hj] at hb
      have hlt := (h.slots j b hb).2
      rw [heq, ← hc] at hlt
      exact absurd hlt (Nat.lt_irrefl _)
    · rw [Function.update_of_ne hj] at hb
      rw [Function.update_of_ne hk] at hc
      exact h.apart j k b c hb hc heq
  exact := h.exact
  inside id loan j hid hslot := by
    obtain ⟨b, hb, hbase, hlen⟩ := h.inside id loan j hid hslot
    have hj : j ≠ i := by
      rintro rfl
      rw [hi] at hb
      cases hb
    exact ⟨b, by rw [Function.update_of_ne hj, hb], hbase, hlen⟩
  outside id loan hid hslot := by
    obtain ⟨hlt, hapart⟩ := h.outside id loan hid hslot
    refine ⟨Nat.lt_succ_of_lt hlt, fun j b hb => ?_⟩
    by_cases hj : j = i
    · subst hj
      rw [Function.update_self, Option.some_inj] at hb
      subst hb
      exact fun heq => absurd hlt (Nat.not_lt.mpr heq.le)
    · rw [Function.update_of_ne hj] at hb
      exact hapart j b hb
  heap := h.heap

/-- What holds of the loans holds with one more. -/
theorem forall_update {P : Nat → Loan → Prop} {id : Nat} {loan : Loan}
    (h : ∀ j l, live j = some l → P j l) (hnew : P id loan) (j : Nat) (l : Loan)
    (hl : Function.update live id (some loan) j = some l) : P j l := by
  by_cases hj : j = id
  · subst hj
    rw [Function.update_self, Option.some_inj] at hl
    exact hl ▸ hnew
  · rw [Function.update_of_ne hj] at hl
    exact h j l hl

theorem MemOk.lend (h : MemOk bufs live next) {i id want : Nat} {b : Bytes} (hb : bufs i = some b)
    (hwant : want ≤ b.len) :
    MemOk bufs (Function.update live id (some ⟨⟨some i, { b with len := want }⟩, want⟩)) next where
  slots := h.slots
  apart := h.apart
  exact := forall_update h.exact rfl
  inside j l k hl := by
    refine forall_update (P := fun _ l => l.buf.slot = some k →
      ∃ b, bufs k = some b ∧ b.base = l.buf.bytes.base ∧ l.want ≤ b.len)
      (fun j l => h.inside j l k) ?_ j l hl
    rintro ⟨⟩
    exact ⟨b, hb, rfl, hwant⟩
  outside := by
    refine forall_update h.outside ?_
    rintro ⟨⟩
  heap j k l m hl hm hlslot hmslot heq := by
    by_cases hj : j = id
    · subst hj
      rw [Function.update_self, Option.some_inj] at hl
      subst hl
      cases hlslot
    · by_cases hk : k = id
      · subst hk
        rw [Function.update_self, Option.some_inj] at hm
        subst hm
        cases hmslot
      · rw [Function.update_of_ne hj] at hl
        rw [Function.update_of_ne hk] at hm
        exact h.heap j k l m hl hm hlslot hmslot heq

theorem MemOk.alloc (h : MemOk bufs live next) (id want : Nat) :
    MemOk bufs (Function.update live id (some ⟨⟨none, ⟨next, want⟩⟩, want⟩)) (next + 1) where
  slots j b hb := ⟨(h.slots j b hb).1, Nat.lt_succ_of_lt (h.slots j b hb).2⟩
  apart := h.apart
  exact := forall_update h.exact rfl
  inside j l k hl := by
    refine forall_update (P := fun _ l => l.buf.slot = some k →
      ∃ b, bufs k = some b ∧ b.base = l.buf.bytes.base ∧ l.want ≤ b.len)
      (fun j l => h.inside j l k) ?_ j l hl
    rintro ⟨⟩
  outside := by
    refine forall_update (fun j l hl hslot => ?_) fun _ => ⟨Nat.lt_succ_self next, fun i b hb => ?_⟩
    · obtain ⟨hlt, hapart⟩ := h.outside j l hl hslot
      exact ⟨Nat.lt_succ_of_lt hlt, hapart⟩
    · exact (h.slots i b hb).2.ne
  heap j k l m hl hm hlslot hmslot heq := by
    by_cases hj : j = id <;> by_cases hk : k = id
    · rw [hj, hk]
    · subst hj
      rw [Function.update_self, Option.some_inj] at hl
      rw [Function.update_of_ne hk] at hm
      have hlt := (h.outside k m hm hmslot).1
      rw [← heq, ← hl] at hlt
      exact absurd hlt (Nat.lt_irrefl _)
    · subst hk
      rw [Function.update_self, Option.some_inj] at hm
      rw [Function.update_of_ne hj] at hl
      have hlt := (h.outside j l hl hlslot).1
      rw [heq, ← hm] at hlt
      exact absurd hlt (Nat.lt_irrefl _)
    · rw [Function.update_of_ne hj] at hl
      rw [Function.update_of_ne hk] at hm
      exact h.heap j k l m hl hm hlslot hmslot heq

theorem MemOk.drop (h : MemOk bufs live next) (id : Nat) :
    MemOk bufs (Function.update live id none) next := by
  have hkept : ∀ j l, Function.update live id none j = some l → live j = some l := by
    intro j l hl
    by_cases hj : j = id
    · subst hj
      rw [Function.update_self] at hl
      cases hl
    · rwa [Function.update_of_ne hj] at hl
  exact ⟨h.slots, h.apart, fun j l hl => h.exact j l (hkept j l hl),
    fun j l i hl => h.inside j l i (hkept j l hl), fun j l hl => h.outside j l (hkept j l hl),
    fun j k l m hl hm => h.heap j k l m (hkept j l hl) (hkept k m hm)⟩

end Memory

theorem mem_step {s s' : State ι} (hphases : ∀ u, PhaseOk s.bufs (s.phase u))
    (h : MemOk s.bufs s.live s.next) (hstep : Step s s') : MemOk s'.bufs s'.live s'.next := by
  cases hstep with
  | load hp hwant | large hp hwant | full hp hfull | exchange hp hfree hcur | retry hp hfree
  | filled hp hb | empty hp hb | noMemory hp | giveBack hp | heapFail hp => exact h
  | @fill t want i hp =>
    have hphase := hphases t
    rw [hp] at hphase
    exact h.fill hphase.2
  | ret hp hb hwant hid => exact h.lend hb hwant
  | heapRet hp hid => exact h.alloc _ _
  | release hid hslot => exact h.drop _
  | free hid hslot => exact h.drop _

/-! ## Runs -/

/-- What a step does to the slots' memory: nothing, or it fills a slot that its thread has. -/
theorem writes_step {s s' : State ι} (hstep : Step s s') :
    s'.bufs = s.bufs ∧ s'.writes = s.writes ∨
    ∃ t want i b, s.phase t = .filling want i ∧ s'.bufs = Function.update s.bufs i (some b) ∧
      s'.writes = i :: s.writes := by
  cases hstep with
  | @fill t want i hp => exact .inr ⟨t, want, i, _, hp, rfl, rfl⟩
  | _ => exact .inl ⟨rfl, rfl⟩

structure Inv (s : State ι) : Prop where
  slots : ∀ i, SlotOk s.taken s.holder i
  phases : ∀ t, PhaseOk s.bufs (s.phase t)
  mem : MemOk s.bufs s.live s.next
  once : s.writes.Nodup
  written : ∀ i, i ∈ s.writes ↔ s.bufs i ≠ none

omit [DecidableEq ι] in
theorem inv_initial : Inv (initial : State ι) where
  slots i := by
    have hzero : (initial : State ι).taken.getLsbD i = false := BitVec.getLsbD_zero
    unfold SlotOk
    rw [hzero]
    refine Claimed.of_free fun h => ?_
    cases h <;> rfl
  phases _ := trivial
  mem := by constructor <;> intros <;> contradiction
  once := List.nodup_nil
  written i := by simp [initial]

theorem inv_step {s s' : State ι} (h : Inv s) (hstep : Step s s') : Inv s' := by
  have hslots := slots_step h.slots hstep
  have hphases := phases_step h.slots h.phases hstep
  have hmem := mem_step h.phases h.mem hstep
  obtain ⟨hbufs, hwrites⟩ | ⟨t, want, i, b, hp, hbufs, hwrites⟩ := writes_step hstep
  · refine ⟨hslots, hphases, hmem, hwrites ▸ h.once, ?_⟩
    rw [hbufs, hwrites]
    exact h.written
  · have hphase := h.phases t
    rw [hp] at hphase
    have hnew : i ∉ s.writes := fun hmem => (h.written i).mp hmem hphase.2
    refine ⟨hslots, hphases, hmem, ?_, ?_⟩
    · rw [hwrites]
      exact List.nodup_cons.mpr ⟨hnew, h.once⟩
    · intro j
      rw [hwrites, hbufs, List.mem_cons]
      by_cases hj : j = i
      · subst hj
        simp
      · rw [Function.update_of_ne hj, or_iff_right hj]
        exact h.written j

theorem inv_run {s s' : State ι} (h : Inv s) (hrun : Run Step Always s s') : Inv s' :=
  hrun.invariant (fun s _ (hinv : Inv s) hstep _ => inv_step hinv hstep) h

/-! ## Claims that go through -/

/-- The exchange of a claimer that nobody disturbs. -/
theorem take_alone {s : State ι} {t : ι} (ht : s.phase t = .idle) (hfree : freeBits s.taken ≠ 0) :
    ∃ s', Run Step Always s s' ∧ s'.phase t = .claimed 0 (lowest s.taken) ∧
      s'.taken = s.taken ||| bitOf (lowest s.taken) ∧ s'.live = s.live := by
  have hload : Step s (s.goto t (.looking 0 s.taken)) := .load ht (Nat.zero_le _)
  have hlooking : (s.goto t (.looking 0 s.taken)).phase t = .looking 0 s.taken :=
    Function.update_self ..
  have hwon := Step.exchange hlooking hfree rfl
  exact ⟨_, ((Run.refl s).then hload).then hwon, Function.update_self .., rfl, rfl⟩

/-- With memory to be had, its slot is filled. -/
theorem fill_alone {s : State ι} {t : ι} {i : Nat} (ht : s.phase t = .claimed 0 i) :
    ∃ s', Run Step Always s s' ∧ s'.phase t = .returning 0 i ∧ s'.taken = s.taken ∧
      s'.live = s.live := by
  cases hbuf : s.bufs i with
  | none =>
    have hempty := Step.empty ht hbuf
    have hfilling : (s.goto t (.filling 0 i)).phase t = .filling 0 i := Function.update_self ..
    have hfill := Step.fill hfilling
    exact ⟨_, ((Run.refl s).then hempty).then hfill, Function.update_self .., rfl, rfl⟩
  | some b =>
    have hfilled := Step.filled ht (by rw [hbuf]; simp)
    exact ⟨_, (Run.refl s).then hfilled, Function.update_self .., rfl, rfl⟩

/-- **A claimer that nobody disturbs**, with memory to be had, gets the lowest slot that is
clear. -/
theorem claim_alone {s : State ι} {t : ι} (h : Inv s) (ht : s.phase t = .idle)
    (hfree : freeBits s.taken ≠ 0) {id : Nat} (hid : s.live id = none) :
    ∃ s' loan, Run Step Always s s' ∧ s'.phase t = .idle ∧
      s'.taken = s.taken ||| bitOf (lowest s.taken) ∧
      s'.live = Function.update s.live id (some loan) ∧
      loan.buf.slot = some (lowest s.taken) := by
  obtain ⟨s₁, hrun₁, hp₁, htaken₁, hlive₁⟩ := take_alone ht hfree
  obtain ⟨s₂, hrun₂, hp₂, htaken₂, hlive₂⟩ := fill_alone hp₁
  have hrun : Run Step Always s s₂ := hrun₁.trans hrun₂
  have hinv := inv_run h hrun
  have hphase := hinv.phases t
  rw [hp₂] at hphase
  obtain ⟨b, hb⟩ := Option.ne_none_iff_exists'.mp hphase.2
  have hret := Step.ret hp₂ hb (Nat.zero_le _) (by rw [hlive₂, hlive₁, hid])
  refine ⟨_, ⟨⟨some (lowest s.taken), { b with len := 0 }⟩, 0⟩, hrun.then hret,
    Function.update_self .., htaken₂.trans htaken₁, ?_, rfl⟩
  rw [← hlive₁, ← hlive₂]
  rfl

/-- **When everything was released**, a thread can claim the slots one after the other. -/
theorem claim_all {s : State ι} (h : Inv s) (hlive : ∀ id, s.live id = none)
    (hslots : ∀ u, (s.phase u).slot = none) {t : ι} (ht : s.phase t = .idle) {k : Nat}
    (hk : k ≤ 16) :
    ∃ s', Run Step Always s s' ∧ s'.phase t = .idle ∧
      (∀ j < 16, s'.taken.getLsbD j = decide (j < k)) ∧ (∀ id, k ≤ id → s'.live id = none) ∧
      ∀ i < k, ∃ loan, s'.live i = some loan ∧ loan.buf.slot = some i := by
  induction k with
  | zero =>
    refine ⟨s, Run.refl s, ht, fun j _ => ?_, fun id _ => hlive id, fun i hi => absurd hi (by simp)⟩
    rw [Bool.eq_iff_iff, (h.slots j).set]
    simp only [Nat.not_lt_zero, decide_false, Bool.false_eq_true, iff_false, not_exists]
    intro u
    cases u with
    | inl u => simp [State.holder, hslots u]
    | inr id => simp [State.holder, hlive id]
  | succ k ih =>
    obtain ⟨s₁, hrun, ht₁, htaken, hfree, hheld⟩ := ih (by omega)
    have hinv := inv_run h hrun
    obtain ⟨hne, hlowest⟩ := lowest_eq (by omega) htaken
    obtain ⟨s₂, loan, hrun₂, ht₂, htaken₂, hlive₂, hslot⟩ :=
      claim_alone hinv ht₁ hne (hfree k le_rfl)
    rw [hlowest] at htaken₂ hslot
    refine ⟨s₂, hrun.trans hrun₂, ht₂, ?_, ?_, ?_⟩
    · intro j hj
      rw [htaken₂, getLsbD_or_bitOf _ (by omega), htaken j hj, ← Bool.decide_or, decide_eq_decide]
      omega
    · intro id hid
      rw [hlive₂, Function.update_of_ne (by omega)]
      exact hfree id (by omega)
    · intro i hi
      rw [hlive₂]
      by_cases hik : i = k
      · subst hik
        exact ⟨loan, Function.update_self .., hslot⟩
      · rw [Function.update_of_ne hik]
        exact hheld i (by omega)

/-! ## What holds in every run -/

/-- **The slots and the buffers** of a state. -/
structure Sound (s : State ι) : Prop where
  /-- No two buffers have one slot. -/
  exclusive : ∀ id id' loan loan' i, s.live id = some loan → s.live id' = some loan' →
    loan.buf.slot = some i → loan'.buf.slot = some i → id = id'
  /-- Nor do two of the claimers and buffers. -/
  one : ∀ u v i, s.holder u = some i → s.holder v = some i → u = v
  bit : ∀ i, s.taken.getLsbD i = true ↔ ∃ u, s.holder u = some i
  /-- After the last release every slot can be claimed, and all of them at once. -/
  again : (∀ id, s.live id = none) → (∀ t, (s.phase t).slot = none) →
    s.taken = 0 ∧ ∀ t, s.phase t = .idle → ∃ s', Run Step Always s s' ∧
      ∀ i < readSlots, ∃ id loan, s'.live id = some loan ∧ loan.buf.slot = some i
  /-- What is written is a slot that its writer has. -/
  writer : ∀ s', Step s s' → s'.bufs = s.bufs ∧ s'.writes = s.writes ∨
    ∃ t i b, s.holder (.inl t) = some i ∧ s.taken.getLsbD i = true ∧ s.bufs i = none ∧
      s'.bufs = Function.update s.bufs i (some b) ∧ s'.writes = i :: s.writes
  once : s.writes.Nodup
  /-- The slice that is returned is one of a slot that was filled, and it fits. -/
  slice : ∀ t want i, s.phase t = .returning want i → ∃ b, s.bufs i = some b ∧ want ≤ b.len
  exact : ∀ id loan, s.live id = some loan → loan.buf.bytes.len = loan.want
  /-- Two buffers do not overlap. -/
  apart : ∀ id id' loan loan', s.live id = some loan → s.live id' = some loan' →
    loan.buf.bytes.base = loan'.buf.bytes.base → id = id'

omit [DecidableEq ι] in
theorem one_of_slots {s : State ι} (h : ∀ i, SlotOk s.taken s.holder i) {u v : ι ⊕ Nat} {i : Nat}
    (hu : s.holder u = some i) (hv : s.holder v = some i) : u = v :=
  (h i).one u v (by simp [hu]) (by simp [hv])

omit [DecidableEq ι] in
theorem bit_of_slots {s : State ι} (h : ∀ i, SlotOk s.taken s.holder i) (i : Nat) :
    s.taken.getLsbD i = true ↔ ∃ u, s.holder u = some i :=
  (h i).set.trans (exists_congr fun _ => beq_iff_eq)

omit [DecidableEq ι] in
theorem holder_live {s : State ι} {id : Nat} {loan : Loan} (h : s.live id = some loan) :
    s.holder (.inr id) = loan.buf.slot := by
  simp [State.holder, h]

omit [DecidableEq ι] in
/-- **Two buffers lie apart**: two slots do, and so do two allocations. -/
theorem apart_of_inv {s : State ι} (h : Inv s) {id id' : Nat} {loan loan' : Loan}
    (hid : s.live id = some loan) (hid' : s.live id' = some loan')
    (heq : loan.buf.bytes.base = loan'.buf.bytes.base) : id = id' := by
  cases hslot : loan.buf.slot with
  | none =>
    cases hslot' : loan'.buf.slot with
    | none => exact h.mem.heap id id' loan loan' hid hid' hslot hslot' heq
    | some j =>
      obtain ⟨b, hb, hbase, -⟩ := h.mem.inside id' loan' j hid' hslot'
      exact absurd (hbase.trans heq.symm) ((h.mem.outside id loan hid hslot).2 j b hb)
  | some i =>
    obtain ⟨b, hb, hbase, -⟩ := h.mem.inside id loan i hid hslot
    cases hslot' : loan'.buf.slot with
    | none => exact absurd (hbase.trans heq) ((h.mem.outside id' loan' hid' hslot').2 i b hb)
    | some j =>
      obtain ⟨c, hc, hbase', -⟩ := h.mem.inside id' loan' j hid' hslot'
      have hij : i = j := h.mem.apart i j b c hb hc (hbase.trans (heq.trans hbase'.symm))
      subst hij
      have hone := one_of_slots h.slots ((holder_live hid).trans hslot)
        ((holder_live hid').trans hslot')
      exact Sum.inr.inj hone

/-- **The slots in every run** of claims and releases, by any threads in any order, whatever
exchanges and allocations fail. -/
theorem read_buffers {s : State ι} (h : Run Step Always initial s) : Sound s where
  exclusive id id' loan loan' i hid hid' hslot hslot' :=
    Sum.inr.inj (one_of_slots (inv_run inv_initial h).slots ((holder_live hid).trans hslot)
      ((holder_live hid').trans hslot'))
  one _ _ _ hu hv := one_of_slots (inv_run inv_initial h).slots hu hv
  bit := bit_of_slots (inv_run inv_initial h).slots
  again hlive hslots := by
    have hinv := inv_run inv_initial h
    constructor
    · refine BitVec.eq_of_getLsbD_eq fun i _ => ?_
      have hzero : (0 : BitVec 16).getLsbD i = false := BitVec.getLsbD_zero
      rw [hzero, Bool.eq_false_iff, ne_eq, bit_of_slots hinv.slots i]
      rintro ⟨u | id, hu⟩
      · exact absurd ((hslots u).symm.trans hu) (by simp)
      · simp [State.holder, hlive id] at hu
    · intro t ht
      obtain ⟨s', hrun, -, -, -, hheld⟩ := claim_all hinv hlive hslots ht le_rfl
      exact ⟨s', hrun, fun i hi => ⟨i, hheld i hi⟩⟩
  writer s' hstep := by
    have hinv := inv_run inv_initial h
    obtain hsame | ⟨t, want, i, b, hp, hbufs, hwrites⟩ := writes_step hstep
    · exact .inl hsame
    · have hphase := hinv.phases t
      rw [hp] at hphase
      have hheld : s.holder (.inl t) = some i := by simp [State.holder, hp, Phase.slot]
      exact .inr ⟨t, i, b, hheld, (bit_of_slots hinv.slots i).mpr ⟨_, hheld⟩, hphase.2, hbufs,
        hwrites⟩
  once := (inv_run inv_initial h).once
  slice t want i hp := by
    have hinv := inv_run inv_initial h
    have hphase := hinv.phases t
    rw [hp] at hphase
    obtain ⟨b, hb⟩ := Option.ne_none_iff_exists'.mp hphase.2
    exact ⟨b, hb, (hinv.mem.slots i b hb).1 ▸ hphase.1⟩
  exact := (inv_run inv_initial h).mem.exact
  apart _ _ _ _ hid hid' heq := apart_of_inv (inv_run inv_initial h) hid hid' heq

/-- Two threads load the same mask. One claims the first slot, the other tries again and claims the
second. -/
theorem read_buffers_race : ∃ s : State Bool, Run Step Always initial s ∧ Sound s ∧
    s.taken = 3 ∧ s.phase true = .claimed 10 0 ∧ s.phase false = .claimed 5 1 := by
  have h₁ : Run Step Always initial ((initial : State Bool).goto true (.looking 10 0)) :=
    (Run.refl _).then (.load rfl (by decide +kernel))
  have h₂ := h₁.then (@Step.load _ _ _ false 5 rfl (by decide +kernel))
  have h₃ := h₂.then (@Step.exchange _ _ _ true 10 0 rfl (by decide +kernel) rfl)
  have h₄ := h₃.then (@Step.retry _ _ _ false 5 0 rfl (by decide +kernel))
  have h₅ := h₄.then (@Step.exchange _ _ _ false 5 1 (by decide +kernel) (by decide +kernel)
    (by decide +kernel))
  exact ⟨_, h₅, read_buffers h₅, by decide +kernel, by decide +kernel, by decide +kernel⟩

end ModelFs.ReadSlots
