import ModelFs.HaveCache

/-!
# Outages, once each

An address that does not answer a probe, or fails a fetch, is named in the journal when it first
fails and again when it recovers. What was named is kept in a table of 32 addresses, by
`noteAddrDown` and `clearAddrDown`; one that does not fit pushes out the least that is there, which
is then named again should it still be down. Workers call the two in any order, each under
`have_mu`.

* `note_cases`, `clear_cases` — what the two do to the table.
* `edges_run` — **a failure is named only of an address that is not named as down, and a recovery
  only of one that is**; an address is forgotten only for want of room, and then it is the least.
* `edges_quiet` — with no more than 32 addresses, none is forgotten.
-/

namespace ModelFs

namespace Catalog

open Discover (Addr addrTieLess)
open Select (scanBest)
open StableSort (StrictTotal)

/-! ## The operations -/

def addrDownCap : Nat := 32

/-- Which allocations succeed. -/
structure DownMem where
  ip : Bool := true
  line : Bool := true

def downAddrVictim (items : List Addr) : Nat :=
  ((scanBest (fun _ => true) addrTieLess items 0 none).map Prod.fst).getD 0

/-- The table after it, and whether the failure is named. -/
def noteAddrDown (list : List Addr) (a : Addr) (mem : DownMem) : List Addr × Bool :=
  if list.any fun e => e.2 = a.2 ∧ e.1 = a.1 then (list, false)
  else
    let list := if addrDownCap ≤ list.length then list.eraseIdx (downAddrVictim list) else list
    if mem.ip && mem.line then (list ++ [a], true) else (list, false)

/-- The table after it, and whether the recovery is named. -/
def clearAddrDown (list : List Addr) (a : Addr) : List Addr × Bool :=
  match list.findIdx? fun e => e.2 = a.2 ∧ e.1 = a.1 with
  | some i => (list.eraseIdx i, true)
  | none => (list, false)

/-! ## The table -/

/-- Each address once, and no more than there is room for. -/
structure DownTable (list : List Addr) : Prop where
  nodup : list.Nodup
  cap : list.length ≤ addrDownCap

theorem addr_eq_iff (e a : Addr) : (e.2 = a.2 ∧ e.1 = a.1) ↔ e = a := by
  rw [Prod.ext_iff, and_comm]

theorem downAddrVictim_spec {items : List Addr} (hne : items ≠ []) :
    ∃ v, items[downAddrVictim items]? = some v ∧ ∀ e ∈ items, addrTieLess e v = false := by
  have hholds := @Select.scanBest_spec _ _ _ (fun a : Addr => a) (fun _ => true) addrTieLess
    strictTotal_addr (fun _ _ => Iff.rfl) items
  unfold downAddrVictim
  cases hscan : scanBest (fun _ => true) addrTieLess items 0 none with
  | none =>
    rw [hscan] at hholds
    obtain ⟨e, he⟩ := List.exists_mem_of_ne_nil items hne
    exact absurd (hholds e he) (Bool.noConfusion)
  | some jb =>
    rw [hscan] at hholds
    obtain ⟨j, v⟩ := jb
    exact ⟨v, hholds.at_place, fun e he => hholds.best e he rfl⟩

/-- The address that goes to make room for a new one. -/
def forgotten (list : List Addr) (a : Addr) : Option Addr :=
  if a ∈ list ∨ list.length < addrDownCap then none else list[downAddrVictim list]?

/-- **What a note does**: nothing, or it adds the address, in place of another where the table is
full, and only if there is memory. -/
theorem note_cases (list : List Addr) (a : Addr) (mem : DownMem) :
    (a ∈ list ∧ forgotten list a = none ∧ noteAddrDown list a mem = (list, false)) ∨
      a ∉ list ∧ ∃ l₁ l₂, (list = l₁ ++ l₂ ∧ list.length < addrDownCap ∧ forgotten list a = none ∨
          ∃ v, list = l₁ ++ v :: l₂ ∧ addrDownCap ≤ list.length ∧ forgotten list a = some v ∧
            ∀ e ∈ list, addrTieLess e v = false) ∧
        noteAddrDown list a mem =
          if mem.ip && mem.line then (l₁ ++ l₂ ++ [a], true) else (l₁ ++ l₂, false) := by
  have hany : (list.any fun e => decide (e.2 = a.2 ∧ e.1 = a.1)) = true ↔ a ∈ list := by
    simp only [List.any_eq_true, decide_eq_true_eq, addr_eq_iff]
    exact ⟨fun ⟨e, he, heq⟩ => heq ▸ he, fun ha => ⟨a, ha, rfl⟩⟩
  by_cases ha : a ∈ list
  · left
    refine ⟨ha, if_pos (Or.inl ha), ?_⟩
    unfold noteAddrDown
    rw [if_pos (hany.mpr ha)]
  · right
    refine ⟨ha, ?_⟩
    have hnote : noteAddrDown list a mem =
        if mem.ip && mem.line then
          ((if addrDownCap ≤ list.length then list.eraseIdx (downAddrVictim list) else list) ++ [a],
            true)
        else (if addrDownCap ≤ list.length then list.eraseIdx (downAddrVictim list) else list,
          false) := by
      unfold noteAddrDown
      rw [if_neg (fun h => ha (hany.mp h))]
    rcases Nat.lt_or_ge list.length addrDownCap with hroom | hfull
    · refine ⟨list, [], Or.inl ⟨by simp, hroom, if_pos (Or.inr hroom)⟩, ?_⟩
      rw [hnote, if_neg (Nat.not_le.mpr hroom), List.append_nil]
    · have hne : list ≠ [] := by
        rintro rfl
        exact absurd hfull (by decide)
      obtain ⟨v, hat, hleast⟩ := downAddrVictim_spec hne
      have hforgot : forgotten list a = some v := by
        unfold forgotten
        rw [if_neg (by simp only [not_or]; exact ⟨ha, Nat.not_lt.mpr hfull⟩), hat]
      obtain ⟨hlt, hget⟩ := List.getElem?_eq_some_iff.mp hat
      refine ⟨list.take (downAddrVictim list), list.drop (downAddrVictim list + 1),
        Or.inr ⟨v, ?_, hfull, hforgot, hleast⟩, ?_⟩
      · rw [← hget, List.getElem_cons_drop, List.take_append_drop]
      · rw [hnote, if_pos hfull, List.eraseIdx_eq_take_drop_succ]

theorem clear_cases (list : List Addr) (a : Addr) :
    (a ∉ list ∧ clearAddrDown list a = (list, false)) ∨
      ∃ l₁ l₂, list = l₁ ++ a :: l₂ ∧ clearAddrDown list a = (l₁ ++ l₂, true) := by
  unfold clearAddrDown
  cases hfind : list.findIdx? fun e => decide (e.2 = a.2 ∧ e.1 = a.1) with
  | none =>
    left
    refine ⟨fun ha => ?_, rfl⟩
    have hno := List.findIdx?_eq_none_iff.mp hfind a ha
    simp at hno
  | some i =>
    right
    obtain ⟨hi, hkey, -⟩ := List.findIdx?_eq_some_iff_getElem.mp hfind
    have hget : list[i] = a := by
      simp only [decide_eq_true_eq, addr_eq_iff] at hkey
      exact hkey
    refine ⟨list.take i, list.drop (i + 1), ?_, ?_⟩
    · rw [← hget, List.getElem_cons_drop, List.take_append_drop]
    · dsimp only
      rw [List.eraseIdx_eq_take_drop_succ]

/-! ## The journal -/

inductive DownOp where
  | note (a : Addr) (mem : DownMem)
  | clear (a : Addr)

/-- What happens to an address: it is named as down, it is named as up, or it makes room. -/
inductive Edge where
  | down (a : Addr)
  | up (a : Addr)
  | forgot (a : Addr)
  deriving DecidableEq

/-- The table and the history. -/
structure Outages where
  table : List Addr
  edges : List Edge

def DownOp.apply (s : Outages) : DownOp → Outages
  | .note a mem =>
    let noted := noteAddrDown s.table a mem
    ⟨noted.1, s.edges ++ (forgotten s.table a).toList.map .forgot ++
      if noted.2 then [.down a] else []⟩
  | .clear a =>
    let cleared := clearAddrDown s.table a
    ⟨cleared.1, s.edges ++ if cleared.2 then [.up a] else []⟩

def Outages.run (s : Outages) (ops : List DownOp) : Outages := ops.foldl DownOp.apply s

/-- Named as down, and neither recovered nor forgotten since. -/
def isDown (a : Addr) : List Edge → Bool → Bool
  | [], on => on
  | e :: rest, on =>
    isDown a rest (if e = .down a then true else if e = .up a ∨ e = .forgot a then false else on)

/-- The edge may come where those addresses are down. -/
def Edge.fits (down : Addr → Bool) : Edge → Prop
  | .down a => down a = false
  | .up a => down a = true
  | .forgot a => down a = true ∧ ∃ others : List Addr, others.Nodup ∧
      others.length = addrDownCap ∧ ∀ b ∈ others, down b = true ∧ addrTieLess b a = false

/-- Each edge fits where those before it have left the addresses. -/
structure Edges (s : Outages) : Prop where
  table : DownTable s.table
  down : ∀ a, a ∈ s.table ↔ isDown a s.edges false = true
  fits : ∀ before e after, s.edges = before ++ e :: after → e.fits fun a => isDown a before false

theorem isDown_append (a : Addr) (l l' : List Edge) (on : Bool) :
    isDown a (l ++ l') on = isDown a l' (isDown a l on) := by
  induction l generalizing on with
  | nil => rfl
  | cons e l ih => exact ih _

theorem isDown_concat (a : Addr) (l : List Edge) (e : Edge) : isDown a (l ++ [e]) false =
    if e = .down a then true else if e = .up a ∨ e = .forgot a then false else isDown a l false := by
  rw [isDown_append]
  rfl

theorem fits_concat {edges : List Edge} {e : Edge}
    (h : ∀ before e after, edges = before ++ e :: after → e.fits fun a => isDown a before false)
    (he : e.fits fun a => isDown a edges false) {before : List Edge} {e' : Edge}
    {after : List Edge} (hsplit : edges ++ [e] = before ++ e' :: after) :
    e'.fits fun a => isDown a before false := by
  rcases List.eq_nil_or_concat after with rfl | ⟨after', last, rfl⟩
  · obtain ⟨rfl, hlast⟩ := List.append_inj' hsplit rfl
    obtain rfl := List.singleton_injective hlast
    exact he
  · rw [List.concat_eq_append, ← List.cons_append, ← List.append_assoc] at hsplit
    obtain ⟨hinit, -⟩ := List.append_inj' hsplit rfl
    exact h before e' after' hinit

section Steps

variable {s : Outages} {a v : Addr} {l₁ l₂ : List Addr}

/-- A failure is named. -/
theorem Edges.name (h : Edges s) (ha : a ∉ s.table) (hroom : s.table.length < addrDownCap) :
    Edges ⟨s.table ++ [a], s.edges ++ [.down a]⟩ := by
  have hfree : isDown a s.edges false = false := by
    rw [Bool.eq_false_iff, Ne, ← h.down]
    exact ha
  refine ⟨⟨?_, by rw [List.length_append]; exact hroom⟩, fun b => ?_, fun _ _ _ hsplit => ?_⟩
  · rw [List.nodup_append]
    refine ⟨h.table.nodup, List.nodup_singleton a, ?_⟩
    intro e he b hb heq
    rw [List.mem_singleton.mp hb] at heq
    exact ha (heq ▸ he)
  · rw [isDown_concat, List.mem_append, List.mem_singleton, h.down]
    by_cases hb : b = a
    · simp [hb]
    · have hne : ¬ Edge.down a = .down b := fun heq => hb (Edge.down.inj heq).symm
      simp [hb, Ne.symm hb]
  · exact fits_concat (e := .down a) h.fits hfree hsplit

/-- An address leaves the table, named or not. -/
theorem Edges.drop (h : Edges s) {e : Edge} (hsplit : s.table = l₁ ++ v :: l₂)
    (he : e = .up v ∨ e = .forgot v) (hfits : e.fits fun a => isDown a s.edges false) :
    Edges ⟨l₁ ++ l₂, s.edges ++ [e]⟩ := by
  have hnodup := h.table.nodup
  rw [hsplit] at hnodup
  have hsub : (l₁ ++ l₂).Sublist (l₁ ++ v :: l₂) :=
    List.Sublist.append_left (List.sublist_cons_self v l₂) l₁
  have hv : v ∉ l₁ ++ l₂ := (List.nodup_middle.mp hnodup |> List.nodup_cons.mp).1
  refine ⟨⟨hnodup.sublist hsub, ?_⟩, fun b => ?_, fun _ _ _ hat => fits_concat h.fits hfits hat⟩
  · have hcap := h.table.cap
    rw [hsplit] at hcap
    exact hsub.length_le.trans hcap
  · rw [isDown_concat]
    by_cases hb : b = v
    · subst hb
      rcases he with rfl | rfl <;> simp [hv]
    · have hmem : b ∈ l₁ ++ l₂ ↔ b ∈ s.table := by
        rw [hsplit]
        simp [hb]
      rw [hmem, h.down]
      rcases he with rfl | rfl <;> simp [Ne.symm hb]

end Steps

/-- **Edges, op by op.** -/
theorem Edges.apply {s : Outages} (h : Edges s) (op : DownOp) : Edges (op.apply s) := by
  cases op with
  | note a mem =>
    unfold DownOp.apply
    dsimp only
    rcases note_cases s.table a mem with ⟨-, hforgot, hnote⟩ | ⟨ha, l₁, l₂, hsplit, hnote⟩
    · rw [hforgot, hnote]
      simpa using h
    · -- the table with room for one more
      have hroom : ∃ edges, Edges ⟨l₁ ++ l₂, edges⟩ ∧ a ∉ l₁ ++ l₂ ∧
          (l₁ ++ l₂).length < addrDownCap ∧
          edges = s.edges ++ (forgotten s.table a).toList.map .forgot := by
        rcases hsplit with ⟨htable, hlt, hforgot⟩ | ⟨v, htable, hfull, hforgot, hleast⟩
        · refine ⟨s.edges, ?_, htable ▸ ha, htable ▸ hlt, by simp [hforgot]⟩
          rw [← htable]
          exact h
        · have hdown : ∀ b ∈ s.table, isDown b s.edges false = true := fun b => (h.down b).mp
          have hlen : s.table.length = addrDownCap := le_antisymm h.table.cap hfull
          have hfits : (Edge.forgot v).fits fun b => isDown b s.edges false :=
            ⟨hdown v (by simp [htable]), s.table, h.table.nodup, hlen,
              fun b hb => ⟨hdown b hb, hleast b hb⟩⟩
          refine ⟨s.edges ++ [.forgot v], h.drop htable (Or.inr rfl) hfits, ?_, ?_,
            by simp [hforgot]⟩
          · intro hmem
            apply ha
            rw [htable]
            rcases List.mem_append.mp hmem with hmem | hmem
            · exact List.mem_append_left _ hmem
            · exact List.mem_append_right _ (List.mem_cons_of_mem _ hmem)
          · rw [htable] at hlen
            simp only [List.length_append, List.length_cons] at hlen ⊢
            omega
      obtain ⟨edges, hedges, hnot, hlt, rfl⟩ := hroom
      rw [hnote]
      split
      · exact hedges.name hnot hlt
      · simpa using hedges
  | clear a =>
    unfold DownOp.apply
    dsimp only
    rcases clear_cases s.table a with ⟨-, hclear⟩ | ⟨l₁, l₂, htable, hclear⟩
    · rw [hclear]
      simpa using h
    · rw [hclear]
      exact h.drop htable (Or.inl rfl) ((h.down a).mp (by simp [htable]))

/-- What is noted is one of a few addresses. -/
def DownOp.within (few : List Addr) : DownOp → Prop
  | .note a _ => a ∈ few
  | .clear _ => True

/-- With room for all, none is forgotten. -/
theorem quiet_apply {s : Outages} (h : Edges s) {few : List Addr} (hfew : few.length ≤ addrDownCap)
    (hin : ∀ a ∈ s.table, a ∈ few) (hquiet : ∀ v, .forgot v ∉ s.edges) {op : DownOp}
    (hop : op.within few) :
    (∀ a ∈ (op.apply s).table, a ∈ few) ∧ ∀ v, .forgot v ∉ (op.apply s).edges := by
  cases op with
  | note a mem =>
    unfold DownOp.apply
    dsimp only
    rcases note_cases s.table a mem with ⟨-, hforgot, hnote⟩ | ⟨ha, l₁, l₂, hsplit, hnote⟩
    · rw [hforgot, hnote]
      exact ⟨hin, by simpa using hquiet⟩
    · rcases hsplit with ⟨htable, hlt, hforgot⟩ | ⟨v, htable, hfull, hforgot, hleast⟩
      · rw [hnote, hforgot, ← htable]
        split
        · refine ⟨fun b hb => ?_, by simpa using hquiet⟩
          rcases List.mem_append.mp hb with hb | hb
          · exact hin b hb
          · rw [List.mem_singleton.mp hb]
            exact hop
        · exact ⟨hin, by simpa using hquiet⟩
      · -- the table and the new address would be one too many
        have hnodup : (a :: s.table).Nodup := List.nodup_cons.mpr ⟨ha, h.table.nodup⟩
        have hsubset : a :: s.table ⊆ few := by
          intro b hb
          rcases List.mem_cons.mp hb with rfl | hb
          · exact hop
          · exact hin b hb
        have hle := (hnodup.subperm hsubset).length_le
        rw [List.length_cons] at hle
        omega
  | clear a =>
    unfold DownOp.apply
    dsimp only
    rcases clear_cases s.table a with ⟨-, hclear⟩ | ⟨l₁, l₂, htable, hclear⟩
    · rw [hclear]
      exact ⟨hin, by simpa using hquiet⟩
    · rw [hclear]
      refine ⟨fun b hb => hin b ?_, by simpa using hquiet⟩
      rw [htable]
      rcases List.mem_append.mp hb with hb | hb
      · exact List.mem_append_left _ hb
      · exact List.mem_append_right _ (List.mem_cons_of_mem _ hb)

theorem edges_start : Edges ⟨[], []⟩ where
  table := ⟨List.nodup_nil, by decide⟩
  down a := by simp [isDown]
  fits before e after hsplit := by simp at hsplit

/-- **Outages.** In every history of failures and recoveries of any addresses, whatever allocations
fail: a failure is named only of an address that is not named as down, and a recovery only of one
that is; the table has just those, 32 at most; and what is forgotten is the least of 32 that are
down, so of no more than 32 addresses none is. -/
theorem edges_run (ops : List DownOp) :
    Edges (Outages.run ⟨[], []⟩ ops) ∧
      ∀ few : List Addr, few.length ≤ addrDownCap → (∀ op ∈ ops, op.within few) →
        ∀ v, .forgot v ∉ (Outages.run ⟨[], []⟩ ops).edges := by
  have hrun : ∀ (s : Outages), Edges s → Edges (s.run ops) := by
    induction ops with
    | nil => exact fun _ h => h
    | cons op ops ih => exact fun s h => ih (op.apply s) (h.apply op)
  refine ⟨hrun _ edges_start, fun few hfew hops => ?_⟩
  have hquiet : ∀ (s : Outages), Edges s → (∀ a ∈ s.table, a ∈ few) → (∀ v, .forgot v ∉ s.edges) →
      ∀ v, .forgot v ∉ (s.run ops).edges := by
    clear hrun
    induction ops with
    | nil => exact fun _ _ _ h => h
    | cons op ops ih =>
      intro s h hin hnone
      obtain ⟨hin', hnone'⟩ := quiet_apply h hfew hin hnone (hops op List.mem_cons_self)
      exact ih (fun op' hop' => hops op' (List.mem_cons_of_mem _ hop')) (op.apply s) (h.apply op)
        hin' hnone'
  exact hquiet _ edges_start (by simp) (by simp)

end Catalog

end ModelFs
