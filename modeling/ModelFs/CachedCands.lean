import ModelFs.Catalog
import ModelFs.Lib.PackedBits
import ModelFs.Lib.PutAll

/-!
# Candidates without the wire

`collectCachedCands` answers a fill from the cache of `/have` lines alone; `probeCandidates` groups
the paths by peer, looks the groups up in the same cache, and goes to the wire for those that have
no line. Both let one line speak for a peer. The first takes the peer's first path in the list that
has one, the second the best path by score.

* `collectCachedCands_eq` — what the first comes to.
* `probeCandidates_eq` — what the second comes to, where every peer has a line.
* `cached_agrees_iff` — **when the two agree**, on the candidates and on the lines.
* `cached_disagrees` — a peer whose two addresses have answered differently.
-/

namespace ModelFs

namespace Catalog

/-! ## The cache -/

structure HaveEntry where
  rel : List UInt8
  ip : List UInt8
  port : UInt16
  bits : List UInt8
  expiresMs : Int
  pieceSize : Nat := 0
  deriving DecidableEq

/-- What a fill asks for, and when: the file and piece, the grid, and the clock. -/
structure Ask where
  rel : List UInt8
  idx : Nat
  localPieceSize : Nat
  nowMs : Int

def haveLookup (cache : List HaveEntry) (rel ip : List UInt8) (port : UInt16) (nowMs : Int) :
    Option HaveEntry :=
  match cache.find? fun e => e.port = port ∧ e.rel = rel ∧ e.ip = ip with
  | none => none
  | some e => if e.expiresMs ≤ nowMs then none else some e

/-- A grid of another size is no answer. -/
def HaveEntry.hasPiece (e : HaveEntry) (idx localPieceSize : Nat) : Bool :=
  if e.pieceSize ≠ 0 ∧ e.pieceSize ≠ localPieceSize then false else bitAt e.bits idx

/-- `Catalog.ip4_text_max`. -/
def ip4TextMax : Nat := 15

variable {F : Type}

section Cache

variable (cache : List HaveEntry) (ask : Ask)

def Path.line (p : Path F) : Option HaveEntry := haveLookup cache ask.rel p.ip p.port ask.nowMs

def haveHas (p : Path F) : Option Bool :=
  (p.line cache ask).map fun e => e.hasPiece ask.idx ask.localPieceSize

/-! ## From the cache -/

/-- The inner loop: the first path of the peer that has a line. -/
def firstAnswer (paths : List (Path F)) (peerId : List UInt8) : Option Bool :=
  paths.findSome? fun q => if q.peerId = peerId then haveHas cache ask q else none

/-- The outer loop, with the last peer and its answer. -/
def collectLoop (paths : List (Path F)) :
    List (Path F) → Option (List UInt8 × Bool) → Option (List (PathCand F))
  | [], _ => some []
  | p :: rest, last =>
    if ip4TextMax < p.ip.length then none
    else
      match last.bind fun l => if l.1 = p.peerId then some l.2 else none with
      | some answered => (collectLoop paths rest last).map (candOf p answered :: ·)
      | none =>
        match firstAnswer cache ask paths p.peerId with
        | none => none
        | some answered =>
          (collectLoop paths rest (some (p.peerId, answered))).map (candOf p answered :: ·)

/-- Into a buffer of `room` candidates and as many addresses. -/
def collectCachedCands (room : Nat) (paths : List (Path F)) : Option (List (PathCand F)) :=
  if room < paths.length then none else collectLoop cache ask paths paths none

end Cache

/-! ## By way of the groups -/

section Groups

variable {S : Type} [LinearOrder S] (pathScore : F → Nat → Nat → S)

def probeOrderLess (a b : Path F) : Bool :=
  let sa := pathScore a.ewmaBps a.hops 0
  let sb := pathScore b.ewmaBps b.hops 0
  if sa ≠ sb then sb < sa else Discover.addrTieLess a.addr b.addr

/-- A path put behind a group and swapped forwards while it is the better one. -/
def intoGroup (g : List (Path F)) (p : Path F) : List (Path F) :=
  (g.reverse.orderedInsert (fun a b => probeOrderLess pathScore a b = false) p).reverse

/-- One round of `groupPathsByPeerId`. A group stands under its peer id, as `group_of` has it. -/
def addToGroups (groups : List (List UInt8 × List (Path F))) (p : Path F) :
    List (List UInt8 × List (Path F)) :=
  if groups.any fun g => g.1 = p.peerId then
    groups.map fun g => if g.1 = p.peerId then (g.1, intoGroup pathScore g.2 p) else g
  else groups ++ [(p.peerId, [p])]

def groupPathsByPeerId (paths : List (Path F)) : List (List UInt8 × List (Path F)) :=
  (paths.foldl (addToGroups pathScore) []).insertionSort fun a b => ¬ b.1 < a.1

variable (cache : List HaveEntry) (ask : Ask)

/-- The slots as the cache answers them. -/
def probeSlots (groups : List (List UInt8 × List (Path F))) : List (List UInt8 × Option Bool) :=
  groups.map fun g => (g.1, g.2.findSome? (haveHas cache ask))

/-- The candidates, where the cache has answered every slot; `none` goes to the wire. -/
def probeCandidates (paths : List (Path F)) : Option (List (PathCand F)) :=
  let slots := probeSlots cache ask (groupPathsByPeerId pathScore paths)
  if slots.any fun s => s.2.isNone then none
  else some (paths.map fun p =>
    candOf p (((slots.find? fun s => s.1 = p.peerId).bind Prod.snd).getD false))

/-! ## The two of them -/

/-- The line that speaks for a peer in the cached candidates. -/
def cachedLine (paths : List (Path F)) (peerId : List UInt8) : Option HaveEntry :=
  paths.findSome? fun q => if q.peerId = peerId then q.line cache ask else none

/-- And in the probed ones. -/
def probedLine (paths : List (Path F)) (peerId : List UInt8) : Option HaveEntry :=
  ((groupPathsByPeerId pathScore paths).find? fun g => g.1 = peerId).bind fun g =>
    g.2.findSome? (Path.line cache ask)

/-- What the cache alone answers is what the groups come to, **candidate by candidate**. -/
def CandsAgree (room : Nat) (paths : List (Path F)) : Prop :=
  ∀ cands, collectCachedCands cache ask room paths = some cands →
    probeCandidates pathScore cache ask paths = some cands

/-- And so are the lines that speak for the peers. -/
def LinesAgree (room : Nat) (paths : List (Path F)) : Prop :=
  ∀ cands, collectCachedCands cache ask room paths = some cands →
    ∀ p ∈ paths, cachedLine cache ask paths p.peerId = probedLine pathScore cache ask paths p.peerId

/-- The list fits, and every peer of it has a line. -/
def Answered (room : Nat) (paths : List (Path F)) : Prop :=
  paths.length ≤ room ∧ ∀ p ∈ paths, p.ip.length ≤ ip4TextMax ∧
    ∃ q ∈ paths, q.peerId = p.peerId ∧ (q.line cache ask).isSome = true

/-- A peer's first path in the list with a line has line `e`. -/
def FirstLine (paths : List (Path F)) (peerId : List UInt8) (e : HaveEntry) : Prop :=
  ∃ before q after, paths = before ++ q :: after ∧ q.peerId = peerId ∧ q.line cache ask = some e ∧
    ∀ q' ∈ before, q'.peerId = peerId → q'.line cache ask = none

/-- A peer's best path with a line has line `e`. -/
def BestLine (paths : List (Path F)) (peerId : List UInt8) (e : HaveEntry) : Prop :=
  ∃ q ∈ paths, q.peerId = peerId ∧ q.line cache ask = some e ∧
    ∀ q' ∈ paths, q'.peerId = peerId → (q'.line cache ask).isSome = true →
      probeOrderLess pathScore q' q = false

/-- Each peer's first line and its best one say the same of the piece. -/
def SameAnswers (paths : List (Path F)) : Prop :=
  ∀ p ∈ paths, ∀ e e', FirstLine cache ask paths p.peerId e →
    BestLine pathScore cache ask paths p.peerId e' →
      e.hasPiece ask.idx ask.localPieceSize = e'.hasPiece ask.idx ask.localPieceSize

/-- Each peer's first line is its best one. -/
def SameLines (paths : List (Path F)) : Prop :=
  ∀ p ∈ paths, ∀ e e', FirstLine cache ask paths p.peerId e →
    BestLine pathScore cache ask paths p.peerId e' → e = e'

end Groups

/-! ## What the cache comes to -/

variable {cache : List HaveEntry} {ask : Ask} {paths : List (Path F)} {peerId : List UInt8}

theorem firstAnswer_eq : firstAnswer cache ask paths peerId =
    (cachedLine cache ask paths peerId).map fun e => e.hasPiece ask.idx ask.localPieceSize := by
  unfold firstAnswer cachedLine haveHas
  induction paths with
  | nil => rfl
  | cons q paths ih =>
    rw [List.findSome?_cons, List.findSome?_cons]
    split_ifs
    · cases q.line cache ask with
      | none => exact ih
      | some e => rfl
    · exact ih

theorem cachedLine_iff {e : HaveEntry} :
    cachedLine cache ask paths peerId = some e ↔ FirstLine cache ask paths peerId e := by
  unfold cachedLine FirstLine
  rw [List.findSome?_eq_some_iff]
  refine exists_congr fun before => exists_congr fun q => exists_congr fun after => ?_
  refine and_congr_right fun _ => ?_
  constructor
  · rintro ⟨hq, hbefore⟩
    split_ifs at hq with hid
    exact ⟨hid, hq, fun q' hq' hid' => by simpa [hid'] using hbefore q' hq'⟩
  · rintro ⟨hid, hq, hbefore⟩
    refine ⟨by rw [if_pos hid, hq], fun q' hq' => ?_⟩
    split_ifs with hid'
    · exact hbefore q' hq' hid'
    · rfl

theorem cachedLine_isSome :
    (cachedLine cache ask paths peerId).isSome = true ↔
      ∃ q ∈ paths, q.peerId = peerId ∧ (q.line cache ask).isSome = true := by
  unfold cachedLine
  rw [List.findSome?_isSome_iff]
  refine exists_congr fun q => and_congr_right fun _ => ?_
  split_ifs with hid <;> simp [hid]

/-- What a candidate of a peer says. -/
def cachedAnswer (cache : List HaveEntry) (ask : Ask) (paths : List (Path F))
    (peerId : List UInt8) : Bool :=
  (firstAnswer cache ask paths peerId).getD false

/-- One round of the loop: the remembered answer is the one that would be looked up. -/
theorem collectLoop_cons {p : Path F} {rest : List (Path F)} {last : Option (List UInt8 × Bool)}
    (hlast : ∀ l ∈ last, firstAnswer cache ask paths l.1 = some l.2) :
    (collectLoop cache ask paths (p :: rest) last = none ∧
        ¬ (p.ip.length ≤ ip4TextMax ∧ (firstAnswer cache ask paths p.peerId).isSome = true)) ∨
      (p.ip.length ≤ ip4TextMax ∧ (firstAnswer cache ask paths p.peerId).isSome = true) ∧
        ∃ last', (∀ l ∈ last', firstAnswer cache ask paths l.1 = some l.2) ∧
          collectLoop cache ask paths (p :: rest) last =
            (collectLoop cache ask paths rest last').map
              (candOf p (cachedAnswer cache ask paths p.peerId) :: ·) := by
  rw [collectLoop]
  by_cases hip : ip4TextMax < p.ip.length
  · rw [if_pos hip]
    exact Or.inl ⟨rfl, fun h => absurd h.1 (Nat.not_le.mpr hip)⟩
  rw [if_neg hip]
  have hle := Nat.not_lt.mp hip
  cases hmemo : last.bind fun l => if l.1 = p.peerId then some l.2 else none with
  | some answered =>
    obtain ⟨l, hl, hid⟩ := Option.bind_eq_some_iff.mp hmemo
    split_ifs at hid with hsame
    have hans := hlast l hl
    rw [hsame, Option.some.inj hid] at hans
    have hcached : cachedAnswer cache ask paths p.peerId = answered := by
      rw [cachedAnswer, hans, Option.getD_some]
    exact Or.inr ⟨⟨hle, by rw [hans]; rfl⟩, last, hlast, by rw [hcached]⟩
  | none =>
    dsimp only
    cases hans : firstAnswer cache ask paths p.peerId with
    | none => exact Or.inl ⟨rfl, fun h => by cases h.2⟩
    | some answered =>
      have hcached : cachedAnswer cache ask paths p.peerId = answered := by
        rw [cachedAnswer, hans, Option.getD_some]
      refine Or.inr ⟨⟨hle, rfl⟩, some (p.peerId, answered), ?_, by rw [hcached]⟩
      rintro l ⟨⟩
      exact hans

/-- The loop, whatever of the list it has passed. -/
theorem collectLoop_eq (rest : List (Path F)) (last : Option (List UInt8 × Bool))
    (hlast : ∀ l ∈ last, firstAnswer cache ask paths l.1 = some l.2) :
    (collectLoop cache ask paths rest last = none ∧ ¬ ∀ p ∈ rest, p.ip.length ≤ ip4TextMax ∧
        (firstAnswer cache ask paths p.peerId).isSome = true) ∨
      (∀ p ∈ rest, p.ip.length ≤ ip4TextMax ∧
        (firstAnswer cache ask paths p.peerId).isSome = true) ∧
      collectLoop cache ask paths rest last =
        some (rest.map fun p => candOf p (cachedAnswer cache ask paths p.peerId)) := by
  induction rest generalizing last with
  | nil => exact Or.inr ⟨nofun, rfl⟩
  | cons p rest ih =>
    rcases @collectLoop_cons _ cache ask paths p rest last hlast with
      ⟨hnone, hno⟩ | ⟨hp, last', hlast', heq⟩
    · exact Or.inl ⟨hnone, fun hall => hno (hall p (List.mem_cons_self ..))⟩
    · rw [heq]
      rcases ih last' hlast' with ⟨hnone, hno⟩ | ⟨hall, hsome⟩
      · rw [hnone]
        exact Or.inl ⟨rfl, fun hall => hno fun q hq => hall q (List.mem_cons_of_mem _ hq)⟩
      · rw [hsome]
        refine Or.inr ⟨fun q hq => ?_, rfl⟩
        rcases List.mem_cons.mp hq with rfl | hq
        · exact hp
        · exact hall q hq

theorem firstAnswer_isSome :
    (firstAnswer cache ask paths peerId).isSome = true ↔
      ∃ q ∈ paths, q.peerId = peerId ∧ (q.line cache ask).isSome = true := by
  rw [firstAnswer_eq, Option.isSome_map, cachedLine_isSome]

/-- **What the cache alone comes to.** -/
theorem collectCachedCands_eq {room : Nat} {cands : List (PathCand F)} :
    collectCachedCands cache ask room paths = some cands ↔
      Answered cache ask room paths ∧
        cands = paths.map fun p => candOf p (cachedAnswer cache ask paths p.peerId) := by
  have hanswered : Answered cache ask room paths ↔ paths.length ≤ room ∧ ∀ p ∈ paths,
      p.ip.length ≤ ip4TextMax ∧ (firstAnswer cache ask paths p.peerId).isSome = true := by
    simp only [Answered, firstAnswer_isSome]
  rw [hanswered]
  unfold collectCachedCands
  by_cases hroom : room < paths.length
  · rw [if_pos hroom]
    exact ⟨nofun, fun h => absurd h.1.1 (Nat.not_le.mpr hroom)⟩
  rw [if_neg hroom]
  rcases @collectLoop_eq _ cache ask paths paths none nofun with ⟨hnone, hno⟩ | ⟨hall, hsome⟩
  · rw [hnone]
    exact ⟨nofun, fun h => absurd h.1.2 hno⟩
  · rw [hsome]
    constructor
    · intro h
      exact ⟨⟨Nat.not_lt.mp hroom, hall⟩, (Option.some.inj h).symm⟩
    · rintro ⟨-, rfl⟩
      rfl

/-! ## What the groups come to -/

section Groups

variable {S : Type} [LinearOrder S] {pathScore : F → Nat → Nat → S}

/-- The group of a peer. -/
def groupOf (groups : List (List UInt8 × List (Path F))) (peerId : List UInt8) : List (Path F) :=
  ((groups.find? fun g => g.1 = peerId).map Prod.snd).getD []

theorem groupOf_addToGroups (groups : List (List UInt8 × List (Path F))) (p : Path F) :
    groupOf (addToGroups pathScore groups p) peerId =
      if p.peerId = peerId then intoGroup pathScore (groupOf groups peerId) p
      else groupOf groups peerId := by
  unfold groupOf addToGroups
  by_cases hany : (groups.any fun g => g.1 = p.peerId) = true
  · -- the peer has a group: every group keeps its id
    have hkeys : ((fun g : List UInt8 × List (Path F) => decide (g.1 = peerId)) ∘ fun g =>
        if g.1 = p.peerId then (g.1, intoGroup pathScore g.2 p) else g) =
          fun g => decide (g.1 = peerId) := by
      funext g
      rw [Function.comp_apply]
      split_ifs <;> rfl
    rw [if_pos hany, List.find?_map, hkeys]
    cases hfind : groups.find? fun g => decide (g.1 = peerId) with
    | none =>
      have hne : p.peerId ≠ peerId := by
        rintro rfl
        obtain ⟨g, hg, hid⟩ := List.any_eq_true.mp hany
        exact absurd hid (List.find?_eq_none.mp hfind g hg)
      rw [if_neg hne]
      rfl
    | some g =>
      have hid : g.1 = peerId := by simpa using List.find?_some hfind
      simp only [Option.map_some, Option.getD_some, hid]
      by_cases hp : p.peerId = peerId
      · rw [if_pos hp.symm, if_pos hp]
      · rw [if_neg (Ne.symm hp), if_neg hp]
  · rw [if_neg hany, List.find?_append]
    have hnone : groups.find? (fun g => decide (g.1 = p.peerId)) = none := by
      refine List.find?_eq_none.mpr fun g hg hid => hany ?_
      exact List.any_eq_true.mpr ⟨g, hg, hid⟩
    by_cases hp : p.peerId = peerId
    · rw [if_pos hp, ← hp, hnone, Option.none_or, List.find?_cons, decide_eq_true rfl]
      rfl
    · rw [if_neg hp, List.find?_cons, decide_eq_false hp]
      dsimp only
      rw [List.find?_nil, Option.or_none]

theorem groupOf_foldl (list : List (Path F)) (groups : List (List UInt8 × List (Path F))) :
    groupOf (list.foldl (addToGroups pathScore) groups) peerId =
      (list.filter fun p => p.peerId = peerId).foldl (intoGroup pathScore)
        (groupOf groups peerId) := by
  induction list generalizing groups with
  | nil => rfl
  | cons p list ih =>
    rw [List.foldl_cons, ih, groupOf_addToGroups]
    by_cases hid : p.peerId = peerId
    · rw [if_pos hid, List.filter_cons, decide_eq_true hid, if_pos rfl, List.foldl_cons]
    · rw [if_neg hid, List.filter_cons, decide_eq_false hid, if_neg Bool.false_ne_true]

theorem intoGroup_perm (g : List (Path F)) (p : Path F) :
    (intoGroup pathScore g p).Perm (p :: g) :=
  (List.reverse_perm _).trans ((List.perm_orderedInsert ..).trans ((List.reverse_perm g).cons p))

theorem foldl_intoGroup_perm (list g : List (Path F)) :
    (list.foldl (intoGroup pathScore) g).Perm (g ++ list) := by
  induction list generalizing g with
  | nil => rw [List.foldl_nil, List.append_nil]
  | cons p list ih =>
    rw [List.foldl_cons]
    exact (ih _).trans (((intoGroup_perm g p).append_right list).trans List.perm_middle.symm)

/-- Every group stands under an id of its own, and has a path. -/
structure Grouped (groups : List (List UInt8 × List (Path F))) : Prop where
  nodup : (groups.map Prod.fst).Nodup
  nonempty : ∀ g ∈ groups, g.2 ≠ []

theorem Grouped.addToGroups {groups : List (List UInt8 × List (Path F))} (h : Grouped groups)
    (p : Path F) : Grouped (addToGroups pathScore groups p) := by
  unfold Catalog.addToGroups
  by_cases hany : (groups.any fun g => g.1 = p.peerId) = true
  · rw [if_pos hany]
    refine ⟨?_, fun g' hg' => ?_⟩
    · have hkeys : (Prod.fst ∘ fun g : List UInt8 × List (Path F) =>
          if g.1 = p.peerId then (g.1, intoGroup pathScore g.2 p) else g) = Prod.fst := by
        funext g
        rw [Function.comp_apply]
        split_ifs <;> rfl
      rw [List.map_map, hkeys]
      exact h.nodup
    · obtain ⟨g, hg, rfl⟩ := List.mem_map.mp hg'
      split_ifs
      · intro hnil
        have hperm := @intoGroup_perm F S _ pathScore g.2 p
        dsimp only at hnil
        rw [hnil] at hperm
        cases hperm.nil_eq
      · exact h.nonempty g hg
  · rw [if_neg hany]
    refine ⟨?_, fun g hg => ?_⟩
    · rw [List.map_append, List.map_cons, List.map_nil, List.nodup_append]
      refine ⟨h.nodup, List.nodup_singleton _, fun id hid id' hid' heq => hany ?_⟩
      obtain ⟨g, hg, rfl⟩ := List.mem_map.mp hid
      rw [List.mem_singleton.mp hid'] at heq
      exact List.any_eq_true.mpr ⟨g, hg, decide_eq_true heq⟩
    · rcases List.mem_append.mp hg with hg | hg
      · exact h.nonempty g hg
      · rw [List.mem_singleton.mp hg]
        exact nofun

theorem grouped_foldl (list : List (Path F)) {groups : List (List UInt8 × List (Path F))}
    (h : Grouped groups) : Grouped (list.foldl (addToGroups pathScore) groups) := by
  induction list generalizing groups with
  | nil => exact h
  | cons p list ih => exact ih (h.addToGroups p)

theorem groups_perm (paths : List (Path F)) :
    (groupPathsByPeerId pathScore paths).Perm (paths.foldl (addToGroups pathScore) []) :=
  List.perm_insertionSort ..

theorem grouped_paths (paths : List (Path F)) : Grouped (groupPathsByPeerId pathScore paths) := by
  have hempty : Grouped ([] : List (List UInt8 × List (Path F))) := ⟨List.nodup_nil, nofun⟩
  have h := @grouped_foldl F S _ pathScore paths _ hempty
  refine ⟨?_, fun g hg => h.nonempty g ((groups_perm paths).mem_iff.mp hg)⟩
  exact (((groups_perm paths).map Prod.fst).nodup_iff).mpr h.nodup

/-- Under an id of its own, a group is found. -/
theorem Grouped.find_eq {groups : List (List UInt8 × List (Path F))} (h : Grouped groups)
    {g : List UInt8 × List (Path F)} (hg : g ∈ groups) (hid : g.1 = peerId) :
    (groups.find? fun g => g.1 = peerId) = some g :=
  (find?_key_eq_some h.nodup).mpr ⟨hg, hid⟩

/-- **The group of a peer**: its paths, each swapped to its place. -/
theorem groupOf_paths (paths : List (Path F)) (peerId : List UInt8) :
    groupOf (groupPathsByPeerId pathScore paths) peerId =
      (paths.filter fun p => p.peerId = peerId).foldl (intoGroup pathScore) [] := by
  have hfold := @groupOf_foldl F peerId S _ pathScore paths []
  have hgrouped := @grouped_paths F S _ pathScore paths
  refine Eq.trans ?_ hfold
  unfold groupOf
  cases hfind : (paths.foldl (Catalog.addToGroups pathScore) []).find? fun g =>
      decide (g.1 = peerId) with
  | some g =>
    have hg := (groups_perm paths).mem_iff.mpr (List.mem_of_find?_eq_some hfind)
    rw [hgrouped.find_eq hg (by simpa using List.find?_some hfind)]
  | none =>
    have hnone : (groupPathsByPeerId pathScore paths).find? (fun g => decide (g.1 = peerId)) =
        none := List.find?_eq_none.mpr fun g hg =>
      List.find?_eq_none.mp hfind g ((groups_perm paths).mem_iff.mp hg)
    rw [hnone]

theorem mem_groupOf {q : Path F} :
    q ∈ groupOf (groupPathsByPeerId pathScore paths) peerId ↔ q ∈ paths ∧ q.peerId = peerId := by
  rw [groupOf_paths, (foldl_intoGroup_perm _ _).mem_iff, List.nil_append, List.mem_filter,
    decide_eq_true_iff]

/-! ### The order of a group -/

open StableSort (StrictTotal)

/-- What a group is sorted by. -/
def rank (pathScore : F → Nat → Nat → S) (p : Path F) : S × Discover.Addr :=
  (pathScore p.ewmaBps p.hops 0, p.addr)

theorem probeOrderLess_iff {a b : Path F} :
    probeOrderLess pathScore a b = false ↔
      ¬ ((rank pathScore b).1 < (rank pathScore a).1 ∨
        (rank pathScore a).1 = (rank pathScore b).1 ∧
          Discover.addrTieLess (rank pathScore a).2 (rank pathScore b).2 = true) := by
  rw [← Bool.not_eq_true, not_iff_not]
  unfold probeOrderLess rank
  dsimp only
  split_ifs with hne
  · rw [decide_eq_true_iff]
    exact ⟨Or.inl, fun h => h.resolve_right fun h => hne h.1⟩
  · have heq := not_not.mp hne
    rw [heq]
    exact ⟨fun h => Or.inr ⟨rfl, h⟩, fun h => (h.resolve_left (lt_irrefl _)).2⟩

theorem probe_irrefl (a : Path F) : probeOrderLess pathScore a a = false :=
  probeOrderLess_iff.mpr (strictTotal_score.irrefl (rank pathScore a))

instance : Std.Total fun a b : Path F => probeOrderLess pathScore a b = false where
  total a b := by
    rw [probeOrderLess_iff, probeOrderLess_iff]
    by_contra hno
    obtain ⟨hab, hba⟩ := not_or.mp hno
    exact strictTotal_score.asymm (not_not.mp hab) (not_not.mp hba)

instance : IsTrans (Path F) fun a b => probeOrderLess pathScore a b = false where
  trans a b c hab hbc := by
    rw [probeOrderLess_iff] at hab hbc ⊢
    exact strictTotal_score.not_lt_trans hbc hab

/-- A group is in its order, best first. -/
def BestFirst (pathScore : F → Nat → Nat → S) (g : List (Path F)) : Prop :=
  g.Pairwise fun a b => probeOrderLess pathScore b a = false

theorem bestFirst_intoGroup {g : List (Path F)} (h : BestFirst pathScore g) (p : Path F) :
    BestFirst pathScore (intoGroup pathScore g p) := by
  have hrev : g.reverse.Pairwise fun a b => probeOrderLess pathScore a b = false :=
    List.pairwise_reverse.mpr h
  exact List.pairwise_reverse.mpr (hrev.orderedInsert p _)

theorem bestFirst_groupOf (paths : List (Path F)) (peerId : List UInt8) :
    BestFirst pathScore (groupOf (groupPathsByPeerId pathScore paths) peerId) := by
  have hfold : ∀ list g : List (Path F), BestFirst pathScore g →
      BestFirst pathScore (list.foldl (intoGroup pathScore) g) := by
    intro list
    induction list with
    | nil => exact fun g hg => hg
    | cons p list ih => exact fun g hg => ih _ (bestFirst_intoGroup hg p)
  rw [groupOf_paths]
  exact hfold _ _ List.Pairwise.nil

theorem probedLine_eq : probedLine pathScore cache ask paths peerId =
    (groupOf (groupPathsByPeerId pathScore paths) peerId).findSome? (Path.line cache ask) := by
  unfold probedLine groupOf
  cases (groupPathsByPeerId pathScore paths).find? fun g => decide (g.1 = peerId) with
  | none => rfl
  | some g => rfl

/-- The line of a group is the one of its best path. -/
theorem bestLine_of_probed {e : HaveEntry}
    (h : probedLine pathScore cache ask paths peerId = some e) :
    BestLine pathScore cache ask paths peerId e := by
  have hbest := @bestFirst_groupOf F S _ pathScore paths peerId
  rw [probedLine_eq, List.findSome?_eq_some_iff] at h
  obtain ⟨before, q, after, hg, hq, hbefore⟩ := h
  have hmem : q ∈ groupOf (groupPathsByPeerId pathScore paths) peerId := by
    rw [hg]
    exact List.mem_append_right _ (List.mem_cons_self ..)
  obtain ⟨hpath, hid⟩ := mem_groupOf.mp hmem
  refine ⟨q, hpath, hid, hq, fun q' hq' hid' hlive => ?_⟩
  have hmem' : q' ∈ before ++ q :: after := hg ▸ mem_groupOf.mpr ⟨hq', hid'⟩
  rcases List.mem_append.mp hmem' with hb | hrest
  · rw [hbefore q' hb] at hlive
    cases hlive
  · rcases List.mem_cons.mp hrest with rfl | ha
    · exact probe_irrefl q'
    · rw [hg, BestFirst, List.pairwise_append] at hbest
      exact (List.pairwise_cons.mp hbest.2.1).1 q' ha

/-- Best paths have one address, so one line. -/
theorem bestLine_unique {e e' : HaveEntry} (h : BestLine pathScore cache ask paths peerId e)
    (h' : BestLine pathScore cache ask paths peerId e') : e = e' := by
  obtain ⟨q, hq, hid, hline, hall⟩ := h
  obtain ⟨q', hq', hid', hline', hall'⟩ := h'
  have hlt := hall q' hq' hid' (by rw [hline']; rfl)
  have hlt' := hall' q hq hid (by rw [hline]; rfl)
  rw [probeOrderLess_iff] at hlt hlt'
  have haddr : q'.addr = q.addr := congrArg Prod.snd (strictTotal_score.eq_of_not hlt hlt')
  have hsame : q'.line cache ask = q.line cache ask := by
    unfold Path.line
    rw [show q'.ip = q.ip from congrArg Prod.fst haddr,
      show q'.port = q.port from congrArg Prod.snd haddr]
  rw [hsame, hline] at hline'
  exact Option.some.inj hline'

theorem probedLine_isSome :
    (probedLine pathScore cache ask paths peerId).isSome = true ↔
      ∃ q ∈ paths, q.peerId = peerId ∧ (q.line cache ask).isSome = true := by
  rw [probedLine_eq, List.findSome?_isSome_iff]
  simp only [mem_groupOf, and_assoc]

/-- **The line of a group is the one of its best path**, and no other. -/
theorem probedLine_iff {e : HaveEntry} :
    probedLine pathScore cache ask paths peerId = some e ↔
      BestLine pathScore cache ask paths peerId e := by
  refine ⟨bestLine_of_probed, fun h => ?_⟩
  obtain ⟨q, hq, hid, hline, -⟩ := id h
  have hsome : (probedLine pathScore cache ask paths peerId).isSome = true :=
    probedLine_isSome.mpr ⟨q, hq, hid, by rw [hline]; rfl⟩
  obtain ⟨e', he'⟩ := Option.isSome_iff_exists.mp hsome
  rw [he', bestLine_unique (bestLine_of_probed he') h]

/-- **What the groups come to**, where every peer has a line. -/
theorem probeCandidates_eq {room : Nat} (h : Answered cache ask room paths) :
    probeCandidates pathScore cache ask paths = some (paths.map fun p => candOf p
      (((probedLine pathScore cache ask paths p.peerId).map fun e =>
        e.hasPiece ask.idx ask.localPieceSize).getD false)) := by
  have hhas : ∀ g : List (Path F), g.findSome? (haveHas cache ask) =
      (g.findSome? (Path.line cache ask)).map fun e => e.hasPiece ask.idx ask.localPieceSize :=
    fun g => List.map_findSome? .. |>.symm
  have hanswered : ((probeSlots cache ask (groupPathsByPeerId pathScore paths)).any fun s =>
      s.2.isNone) = false := by
    refine List.any_eq_false.mpr fun slot hslot hnone => ?_
    obtain ⟨g, hg, rfl⟩ := List.mem_map.mp hslot
    have hgroup : groupOf (groupPathsByPeerId pathScore paths) g.1 = g.2 := by
      unfold groupOf
      rw [(grouped_paths paths).find_eq hg rfl]
      rfl
    obtain ⟨p, hp⟩ := List.exists_mem_of_ne_nil _ ((grouped_paths paths).nonempty g hg)
    obtain ⟨hpath, hid⟩ := mem_groupOf.mp (hgroup ▸ hp)
    have hlive := (h.2 p hpath).2
    rw [hid, ← @probedLine_isSome F cache ask paths g.1 S _ pathScore, probedLine_eq,
      hgroup] at hlive
    rw [hhas, Option.isNone_map, Option.isNone_iff_eq_none] at hnone
    rw [hnone] at hlive
    cases hlive
  have hslot : ∀ peerId : List UInt8,
      ((probeSlots cache ask (groupPathsByPeerId pathScore paths)).find? fun s =>
        s.1 = peerId).bind Prod.snd =
      (probedLine pathScore cache ask paths peerId).map fun e =>
        e.hasPiece ask.idx ask.localPieceSize := by
    intro peerId
    unfold probeSlots probedLine
    rw [List.find?_map]
    have hkeys : ((fun s : List UInt8 × Option Bool => decide (s.1 = peerId)) ∘
        fun g : List UInt8 × List (Path F) => (g.1, g.2.findSome? (haveHas cache ask))) =
          fun g => decide (g.1 = peerId) := rfl
    rw [hkeys]
    cases (groupPathsByPeerId pathScore paths).find? fun g => decide (g.1 = peerId) with
    | none => rfl
    | some g => exact hhas g.2
  unfold probeCandidates
  dsimp only
  rw [hanswered, if_neg Bool.false_ne_true]
  simp only [hslot]

/-! ## When the two agree -/

/-- The lines that speak for a peer, on either side. -/
theorem lines_of_answered {room : Nat} (h : Answered cache ask room paths) {p : Path F}
    (hp : p ∈ paths) :
    ∃ e e', cachedLine cache ask paths p.peerId = some e ∧
      probedLine pathScore cache ask paths p.peerId = some e' := by
  have hlive := (h.2 p hp).2
  obtain ⟨e, he⟩ := Option.isSome_iff_exists.mp (cachedLine_isSome.mpr hlive)
  obtain ⟨e', he'⟩ := Option.isSome_iff_exists.mp
    ((@probedLine_isSome F cache ask paths p.peerId S _ pathScore).mpr hlive)
  exact ⟨e, e', he, he'⟩

theorem candOf_inj {p : Path F} {b b' : Bool} (h : candOf p b = candOf p b') : b = b' :=
  congrArg PathCand.have_ h

/-- **When the two agree**, on the candidates and on the lines: where the cache has an answer at
all, exactly if each peer's first line in the list and its best one by score say the same of the
piece, or are one line. -/
theorem cached_agrees_iff (pathScore : F → Nat → Nat → S) (cache : List HaveEntry) (ask : Ask)
    (room : Nat) (paths : List (Path F)) :
    (CandsAgree pathScore cache ask room paths ↔
      (Answered cache ask room paths → SameAnswers pathScore cache ask paths)) ∧
    (LinesAgree pathScore cache ask room paths ↔
      (Answered cache ask room paths → SameLines pathScore cache ask paths)) := by
  constructor
  · constructor
    · intro hagree hans p hp e e' hfirst hbest
      have hprobe := hagree _ (collectCachedCands_eq.mpr ⟨hans, rfl⟩)
      rw [probeCandidates_eq hans] at hprobe
      have hcand := List.map_inj_left.mp (Option.some.inj hprobe) p hp
      have hsame := candOf_inj hcand
      rw [cachedAnswer, firstAnswer_eq, cachedLine_iff.mpr hfirst,
        probedLine_iff.mpr hbest] at hsame
      exact hsame.symm
    · intro hsame cands hcands
      obtain ⟨hans, rfl⟩ := collectCachedCands_eq.mp hcands
      rw [probeCandidates_eq hans]
      refine congrArg some (List.map_congr_left fun p hp => ?_)
      obtain ⟨e, e', he, he'⟩ := @lines_of_answered F cache ask paths S _ pathScore room hans p hp
      have heq := hsame hans p hp e e' (cachedLine_iff.mp he) (probedLine_iff.mp he')
      rw [cachedAnswer, firstAnswer_eq, he, he']
      exact congrArg (candOf p) heq.symm
  · constructor
    · intro hagree hans p hp e e' hfirst hbest
      have hline := hagree _ (collectCachedCands_eq.mpr ⟨hans, rfl⟩) p hp
      rw [cachedLine_iff.mpr hfirst, probedLine_iff.mpr hbest] at hline
      exact Option.some.inj hline
    · intro hsame cands hcands p hp
      obtain ⟨hans, -⟩ := collectCachedCands_eq.mp hcands
      obtain ⟨e, e', he, he'⟩ := @lines_of_answered F cache ask paths S _ pathScore room hans p hp
      rw [he, he', hsame hans p hp e e' (cachedLine_iff.mp he) (probedLine_iff.mp he')]

end Groups

/-! ## Two addresses, two answers -/

/-- Node `b`, at a slow address and a fast one. -/
def twoHomed : List (Path Nat) :=
  [⟨⟨ascii "b", ascii "10.0.0.1", 9000, 0⟩, 1000, 1⟩,
    ⟨⟨ascii "b", ascii "10.0.0.2", 9000, 0⟩, 2000, 1⟩]

/-- The slow address has answered before the node had the piece, the fast one after. -/
def twoLines : List HaveEntry :=
  [⟨ascii "m", ascii "10.0.0.1", 9000, [0], 2000, 4096⟩,
    ⟨ascii "m", ascii "10.0.0.2", 9000, [1], 2000, 4096⟩]

/-- **A peer whose addresses have answered differently** has the piece by one way and not by the
other. -/
theorem cached_disagrees :
    ¬ (CandsAgree scoreOf twoLines ⟨ascii "m", 0, 4096, 0⟩ 64 twoHomed ∧
      LinesAgree scoreOf twoLines ⟨ascii "m", 0, 4096, 0⟩ 64 twoHomed) := by
  rintro ⟨h, -⟩
  have hcached : collectCachedCands twoLines ⟨ascii "m", 0, 4096, 0⟩ 64 twoHomed =
      some (twoHomed.map fun p => candOf p false) := by decide
  have hprobed : probeCandidates scoreOf twoLines ⟨ascii "m", 0, 4096, 0⟩ twoHomed =
      some (twoHomed.map fun p => candOf p true) := by decide +kernel
  have hagree := h _ hcached
  rw [hprobed] at hagree
  exact absurd hagree (by decide)

end Catalog

end ModelFs
