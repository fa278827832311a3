import ModelFs.Lib.NameCalls

/-!
# A file that lands under its name

A file is made under a stage name, or the file of that name is taken, and a rename gives it its own.
What the paths of other files find then is what they found without the entry that the rename was to
make.

* `Grown.find` — a tree that only grew keeps what its paths find.
* `find_landed` — **the other files**: they are found by the ways that do not use the new name.
* `own_landed`, `stage_landed` — the file itself, and its stage name.
-/

namespace ModelFs

namespace NameTree

namespace Tree

variable {ν : Type} [DecidableEq ν] {host : Host ν} {t t' t'' : Tree ν} {d e i k m : Nat} {b c : ν}
  {p q r : Path ν}

/-! ## Trees that grow -/

/-- `t'` has the names of `t`, for the same files, and more. -/
structure Grown (host : Host ν) (t t' : Tree ν) : Prop where
  root : t'.root = t.root
  cwd : t'.cwd = t.cwd
  next : t.next ≤ t'.next
  nodes : ∀ k < t.next, (t'.nodes k).kind = (t.nodes k).kind
  looks : ∀ x p k, t.look host x p = .ok k → t'.look host x p = .ok k

theorem Grown.refl : Grown host t t := ⟨rfl, rfl, le_rfl, fun _ _ => rfl, fun _ _ _ h => h⟩

theorem Grown.trans (h : Grown host t t') (h' : Grown host t' t'') : Grown host t t'' where
  root := h'.root.trans h.root
  cwd := h'.cwd.trans h.cwd
  next := le_trans h.next h'.next
  nodes := fun k hk => (h'.nodes k (lt_of_lt_of_le hk h.next)).trans (h.nodes k hk)
  looks := fun x p k hk => h'.looks x p k (h.looks x p k hk)

omit [DecidableEq ν] in
/-- What is no file has a number in use. -/
theorem lt_next (h : (t.nodes k).kind ≠ .file) : k < t.next := by
  by_contra hk
  exact h (by rw [t.unused k (Nat.le_of_not_lt hk), Node.kind])

theorem Grown.parentAt (h : Grown host t t') (hp : t.parentAt host p = .ok d) :
    t'.parentAt host p = .ok d := by
  unfold Tree.parentAt at hp ⊢
  rw [h.root, h.cwd]
  exact walk_keep h.root
    (fun x q k hlook hkind => ⟨h.looks x q k hlook, h.nodes k (lt_next hkind)⟩) hp

/-- A path finds in `t'` what it finds in `t` when its directory and its last name do. -/
theorem find_transfer (hparent : ∀ x, t.parentAt host p = .ok x → t'.parentAt host p = .ok x)
    (hlook : ∀ x c, t.look host x (.name c) = .ok k → t'.look host x (.name c) = .ok k)
    (h : t.find host p = .ok k) : t'.find host p = .ok k := by
  cases hlast : p.last with
  | none =>
    unfold Tree.find at h ⊢
    split at h
    · cases h
    · rename_i d hd
      rw [hparent d hd]
      rw [hlast] at h ⊢
      exact h
  | some c =>
    obtain ⟨d, hd, hk⟩ := find_name hlast h
    exact find_eq (hparent d hd) hlast (hlook d c hk)

theorem Grown.find (h : Grown host t t') (hp : t.find host p = .ok k) :
    t'.find host p = .ok k :=
  find_transfer (fun _ hx => h.parentAt hx) (fun x c hk => h.looks x (.name c) k hk) hp

theorem grown_mkdir {mode : Nat} (h : t.mkdir host p mode = .ok t') : Grown host t t' := by
  obtain ⟨d, c, hd, hc, hnone, rfl⟩ := mkdir_eq_ok h
  refine ⟨rfl, rfl, Nat.le_succ _, fun k hk => ?_, fun x q k hlook => ?_⟩
  · rw [kind_bind]
    unfold alloc
    dsimp only
    rw [Function.update_of_ne (Nat.ne_of_lt hk)]
  · have hother : x ≠ d ∨ q ≠ .name c := by
      refine not_and_or.mp ?_
      rintro ⟨rfl, rfl⟩
      rw [hnone] at hlook
      cases hlook
    rw [look_bind_of_ne hother, look_alloc (kind_of_look hlook), hlook]

/-! ## The landing -/

/-- The path's name is no entry any more. -/
def without (host : Host ν) (t : Tree ν) (p : Path ν) : Tree ν :=
  match t.parentAt host p, p.last with
  | .ok d, some c => t.bind d c none
  | _, _ => t

/-- File `m` has the stage name `p`: it had it before, or is new. -/
inductive Staged (host : Host ν) (t : Tree ν) (p : Path ν) (m : Nat) : Tree ν → Prop where
  | taken {c : ν} (h : t.find host p = .ok m) (hc : p.last = some c) (hfile : t.nodes m = .file)
      (hused : m < t.next) : Staged host t p m t
  | made {d : Nat} {c : ν} (hd : t.parentAt host p = .ok d) (hc : p.last = some c)
      (hnone : t.look host d (.name c) = .error .noent) (hm : m = t.next) :
      Staged host t p m ((t.alloc .file).bind d c (some t.next))

/-- `t'` has file `m` under entry `b` of `e`, where `q` leads. The stage name, entry `c` of `d`, is
gone, but a file that had both names keeps them. -/
structure Landed (host : Host ν) (t t' : Tree ν) (p q : Path ν) (m d : Nat) (c : ν) (e : Nat)
    (b : ν) : Prop where
  root : t'.root = t.root
  cwd : t'.cwd = t.cwd
  next : t.next ≤ t'.next
  inUse : m < t'.next
  kinds : ∀ k, (t'.nodes k).kind = (t.nodes k).kind
  file : t.nodes m = .file
  stageDir : t.parentAt host p = .ok d
  stageName : p.last = some c
  ownDir : t.parentAt host q = .ok e
  ownName : q.last = some b
  lands : t'.look host e (.name b) = .ok m
  stage : t.look host d (.name c) = .ok m ∨ t.look host d (.name c) = .error .noent ∧ m = t.next
  leaves : t'.look host d (.name c) = .ok m ∨ t'.look host d (.name c) = .error .noent
  gone : t.look host d (.name c) = .ok m → t.look host e (.name b) ≠ .ok m →
    t'.look host d (.name c) = .error .noent
  others : ∀ x r, (x ≠ d ∨ r ≠ .name c) → (x ≠ e ∨ r ≠ .name b) →
    t'.look host x r = t.look host x r

omit [DecidableEq ν] in
theorem nodes_alloc_file : (t.alloc .file).nodes = t.nodes := by
  unfold alloc
  dsimp only
  rw [← t.unused _ le_rfl, Function.update_eq_self]

theorem look_alloc_file (x : Nat) (r : Part ν) :
    (t.alloc .file).look host x r = t.look host x r := by
  unfold look
  rw [nodes_alloc_file]

theorem Staged.root (h : Staged host t p m t') : t'.root = t.root := by
  cases h <;> rfl

theorem Staged.cwd (h : Staged host t p m t') : t'.cwd = t.cwd := by
  cases h <;> rfl

theorem Staged.next (h : Staged host t p m t') : t.next ≤ t'.next := by
  cases h with
  | taken => exact le_rfl
  | made => exact Nat.le_succ _

theorem Staged.kinds (h : Staged host t p m t') (k : Nat) :
    (t'.nodes k).kind = (t.nodes k).kind := by
  cases h with
  | taken => rfl
  | made => rw [kind_bind, nodes_alloc_file]

theorem Staged.file (h : Staged host t p m t') : t.nodes m = .file := by
  cases h with
  | taken _ _ hfile => exact hfile
  | made _ _ _ hm => rw [hm, t.unused _ le_rfl]

/-- Where a tree leads that has the kinds of `t`, and no entries but its for what is walked
through. -/
theorem parentAt_fewer (hroot : t'.root = t.root) (hcwd : t'.cwd = t.cwd)
    (hkinds : ∀ k, (t'.nodes k).kind = (t.nodes k).kind)
    (hlook : ∀ x r k, t'.look host x r = .ok k → (t.nodes k).kind ≠ .file →
      t.look host x r = .ok k) (h : t'.parentAt host p = .ok d) : t.parentAt host p = .ok d := by
  unfold Tree.parentAt at h ⊢
  rw [← hroot, ← hcwd]
  refine walk_keep hroot.symm (fun x r k hk hkind => ?_) h
  rw [hkinds] at hkind
  exact ⟨hlook x r k hk hkind, (hkinds k).symm⟩

theorem Staged.parentAt_iff (h : Staged host t p m t') :
    t'.parentAt host q = .ok e ↔ t.parentAt host q = .ok e := by
  cases h with
  | taken => exact Iff.rfl
  | @made d c hd hc hnone hm =>
    have hother : ∀ x r, (x ≠ d ∨ r ≠ .name c) →
        ((t.alloc .file).bind d c (some t.next)).look host x r = t.look host x r := by
      intro x r hne
      rw [look_bind_of_ne hne, look_alloc_file]
    have hnew : ((t.alloc .file).bind d c (some t.next)).look host d (.name c) = .ok t.next :=
      look_bind_self ((searches_of_noent hnone).alloc _) _
    have hkinds : ∀ k, (((t.alloc .file).bind d c (some t.next)).nodes k).kind =
        (t.nodes k).kind := fun k => by rw [kind_bind, nodes_alloc_file]
    constructor
    · refine parentAt_fewer rfl rfl hkinds (fun x r k hk hkind => ?_)
      by_cases hentry : x = d ∧ r = .name c
      · obtain ⟨rfl, rfl⟩ := hentry
        rw [hnew] at hk
        obtain rfl := Except.ok.inj hk
        exact absurd (by rw [t.unused _ le_rfl, Node.kind]) hkind
      · rwa [hother x r (not_and_or.mp hentry)] at hk
    · refine parentAt_fewer rfl rfl (fun k => (hkinds k).symm) (fun x r k hk _ => ?_)
      rw [hother x r, hk]
      refine not_and_or.mp ?_
      rintro ⟨rfl, rfl⟩
      rw [hnone] at hk
      cases hk

theorem Staged.others (h : Staged host t p m t') (hd : t.parentAt host p = .ok d)
    (hc : p.last = some c) {x : Nat} {r : Part ν} (hne : x ≠ d ∨ r ≠ .name c) :
    t'.look host x r = t.look host x r := by
  cases h with
  | taken => rfl
  | @made d' c' hd' hc' =>
    obtain rfl := Except.ok.inj (hd.symm.trans hd')
    obtain rfl := Option.some.inj (hc.symm.trans hc')
    rw [look_bind_of_ne hne, look_alloc_file]

/-- The stage name, before and after. -/
theorem Staged.look (h : Staged host t p m t') (hd : t.parentAt host p = .ok d)
    (hc : p.last = some c) :
    t'.look host d (.name c) = .ok m ∧
      (t.look host d (.name c) = .ok m ∧ t' = t ∨
        t.look host d (.name c) = .error .noent ∧ m = t.next) := by
  cases h with
  | taken hfind =>
    obtain ⟨d', hd', hm⟩ := find_name hc hfind
    obtain rfl := Except.ok.inj (hd.symm.trans hd')
    exact ⟨hm, Or.inl ⟨hm, rfl⟩⟩
  | @made d' c' hd' hc' hnone hm =>
    obtain rfl := Except.ok.inj (hd.symm.trans hd')
    obtain rfl := Option.some.inj (hc.symm.trans hc')
    refine ⟨?_, Or.inr ⟨hnone, hm⟩⟩
    rw [hm]
    exact look_bind_self ((searches_of_noent hnone).alloc _) _

theorem look_unbound (x : Nat) (a : ν) : (t.bind x a none).look host x (.name a) ≠ .ok k := by
  unfold Tree.look Tree.bind
  dsimp only
  rw [Function.update_self]
  cases t.nodes x with
  | link => exact fun h => by cases h
  | file => exact fun h => by cases h
  | dir mode parent entries =>
    dsimp only [Node.bind]
    split_ifs
    · exact fun h => by cases h
    · exact fun h => by cases h
    · rw [AList.lookup_erase]
      exact fun h => by cases h

theorem look_of_unbound {x : Nat} {r : Part ν} (h : (t.bind e b none).look host x r = .ok k) :
    t.look host x r = .ok k := by
  rwa [look_bind_of_ne] at h
  refine not_and_or.mp ?_
  rintro ⟨rfl, rfl⟩
  exact look_unbound _ _ h

theorem moved_file (hm : t.isDir m = false) :
    t.moved d c e b m 0 = (t.bind d c none).bind e b (some m) := by
  unfold moved
  dsimp only
  rw [if_neg (by decide), reparent_of_not_dir (by rw [isDir_bind, isDir_bind, hm])]

/-- **The landing**: what a rename of a staged file comes to. -/
theorem landed_of_rename {u : Tree ν} (hstage : Staged host t p m u)
    (h : u.renameat2 host p q 0 = .ok t') : ∃ d c e b, Landed host t t' p q m d c e b := by
  obtain ⟨-, d, c, e, b, hd, hc, he, hb, hentry⟩ := renameat2_eq_ok h
  obtain ⟨i, hren⟩ := renameEntry_eq_ok hentry
  have hd' := hstage.parentAt_iff.mp hd
  obtain ⟨hnew, hold⟩ := hstage.look hd' hc
  obtain rfl : i = m := Except.ok.inj (hren.oldFile.symm.trans hnew)
  have hkind : (u.nodes i).kind = .file := by rw [hstage.kinds, hstage.file, Node.kind]
  have hfile : u.isDir i = false := by
    unfold isDir
    rw [hkind]
  have hused : i < u.next := by
    cases hstage with
    | taken _ _ _ hused => exact hused
    | made _ _ _ hm =>
      rw [hm]
      exact Nat.lt_succ_self _
  refine ⟨d, c, e, b, ?_⟩
  have hresult : t' = u ∧ u.look host e (.name b) = .ok i ∨
      t' = (u.bind d c none).bind e b (some i) ∧ u.look host e (.name b) ≠ .ok i := by
    rcases hren.result with ⟨hsame, heq⟩ | ⟨hne, ⟨hswap, -⟩ | ⟨-, hmoved, -⟩⟩
    · exact Or.inl ⟨heq, hsame⟩
    · exact absurd hswap (by decide)
    · exact Or.inr ⟨hmoved.trans (moved_file hfile), hne⟩
  exact {
    root := by
      rcases hresult with ⟨rfl, -⟩ | ⟨rfl, -⟩
      · exact hstage.root
      · exact hstage.root
    cwd := by
      rcases hresult with ⟨rfl, -⟩ | ⟨rfl, -⟩
      · exact hstage.cwd
      · exact hstage.cwd
    next := by
      rcases hresult with ⟨rfl, -⟩ | ⟨rfl, -⟩
      · exact hstage.next
      · exact hstage.next
    inUse := by
      rcases hresult with ⟨rfl, -⟩ | ⟨rfl, -⟩
      · exact hused
      · exact hused
    kinds := by
      intro k
      rcases hresult with ⟨rfl, -⟩ | ⟨rfl, -⟩
      · exact hstage.kinds k
      · rw [kind_bind, kind_bind, hstage.kinds k]
    file := hstage.file
    stageDir := hd'
    stageName := hc
    ownDir := hstage.parentAt_iff.mp he
    ownName := hb
    lands := hren.lands
    stage := hold.imp_left And.left
    leaves := by
      rcases hresult with ⟨rfl, -⟩ | ⟨rfl, -⟩
      · exact Or.inl hnew
      · by_cases hsame : d = e ∧ c = b
        · obtain ⟨rfl, rfl⟩ := hsame
          exact Or.inl hren.lands
        · have hne : d ≠ e ∨ (.name c : Part ν) ≠ .name b :=
            (not_and_or.mp hsame).imp_right fun hcb heq => hcb (Part.name.inj heq)
          rw [look_bind_of_ne hne]
          exact Or.inr (look_bind_self (searches_of_ok hren.oldFile) none)
    gone := by
      intro htaken hother
      rcases hold with ⟨-, rfl⟩ | ⟨hnone, -⟩
      · rcases hresult with ⟨-, hsame⟩ | ⟨rfl, -⟩
        · exact absurd hsame hother
        · have hne : d ≠ e ∨ (.name c : Part ν) ≠ .name b := by
            refine not_and_or.mp ?_
            rintro ⟨rfl, heq⟩
            exact hother (heq ▸ htaken)
          rw [look_bind_of_ne hne]
          exact look_bind_self (searches_of_ok hren.oldFile) none
      · rw [hnone] at htaken
        cases htaken
    others := by
      intro x r hx hx'
      rcases hresult with ⟨rfl, -⟩ | ⟨rfl, -⟩
      · exact hstage.others hd' hc hx
      · rw [look_bind_of_ne hx', look_bind_of_ne hx, hstage.others hd' hc hx] }

/-! ## What is found -/

namespace Landed

variable (h : Landed host t t' p q m d c e b)

include h

theorem without_eq : t.without host q = t.bind e b none := by
  unfold Tree.without
  rw [h.ownDir, h.ownName]

/-- What is found besides the new entry and the stage name is found alike. -/
theorem look_iff {x : Nat} {r : Part ν} (hk : k ≠ m) :
    t'.look host x r = .ok k ↔ (t.bind e b none).look host x r = .ok k := by
  by_cases hown : x = e ∧ r = .name b
  · obtain ⟨rfl, rfl⟩ := hown
    rw [h.lands]
    exact ⟨fun heq => absurd (Except.ok.inj heq).symm hk, fun heq => absurd heq (look_unbound _ _)⟩
  have hne := not_and_or.mp hown
  rw [look_bind_of_ne hne]
  by_cases hstage : x = d ∧ r = .name c
  · obtain ⟨rfl, rfl⟩ := hstage
    constructor
    · intro heq
      rcases h.leaves with hm | hnone
      · exact absurd (Except.ok.inj (heq.symm.trans hm)) hk
      · rw [hnone] at heq
        cases heq
    · intro heq
      rcases h.stage with hm | ⟨hnone, -⟩
      · exact absurd (Except.ok.inj (heq.symm.trans hm)) hk
      · rw [hnone] at heq
        cases heq
  · rw [h.others x r (not_and_or.mp hstage) hne]

theorem parentAt_iff : t'.parentAt host r = .ok k ↔ (t.bind e b none).parentAt host r = .ok k := by
  have hkinds : ∀ j, (t'.nodes j).kind = ((t.bind e b none).nodes j).kind := fun j => by
    rw [h.kinds, kind_bind]
  have hfile : ((t.bind e b none).nodes m).kind = .file := by rw [kind_bind, h.file, Node.kind]
  constructor
  · refine parentAt_fewer h.root h.cwd hkinds (fun x s j hj hkind => ?_)
    refine (h.look_iff ?_).mp hj
    rintro rfl
    exact hkind hfile
  · refine parentAt_fewer h.root.symm h.cwd.symm (fun j => (hkinds j).symm)
      (fun x s j hj hkind => ?_)
    refine (h.look_iff ?_).mpr hj
    rintro rfl
    exact hkind ((hkinds j).trans hfile)

/-- **The other files** are found by the ways that do not use the new entry. -/
theorem find_iff (hk : k ≠ m) :
    t'.find host r = .ok k ↔ (t.without host q).find host r = .ok k := by
  rw [h.without_eq]
  constructor
  · exact find_transfer (fun x hx => h.parentAt_iff.mp hx) fun x a hlook => (h.look_iff hk).mp hlook
  · exact find_transfer (fun x hx => h.parentAt_iff.mpr hx) fun x a hlook =>
      (h.look_iff hk).mpr hlook

/-- The file itself, where its directory is reached without its own name. -/
theorem find_own (hown : (t.without host q).parentAt host q = t.parentAt host q) :
    t'.find host q = .ok m := by
  rw [h.without_eq, h.ownDir] at hown
  exact find_eq (h.parentAt_iff.mpr hown) h.ownName h.lands

/-- What the stage name finds before is the file. -/
theorem eq_of_find_stage (hfind : t.find host p = .ok k) : k = m := by
  obtain ⟨x, hx, hlook⟩ := find_name h.stageName hfind
  obtain rfl := Except.ok.inj (hx.symm.trans h.stageDir)
  rcases h.stage with hm | ⟨hnone, -⟩
  · exact Except.ok.inj (hlook.symm.trans hm)
  · rw [hnone] at hlook
    cases hlook

/-- A file in use that the stage name does not find. -/
theorem ne_of_stage (hk : k < t.next) (hfind : t.find host p ≠ .ok k) : k ≠ m := by
  rintro rfl
  rcases h.stage with hm | ⟨-, hm⟩
  · exact hfind (find_eq h.stageDir h.stageName hm)
  · exact absurd hm (Nat.ne_of_lt hk)

/-- A way that does without the new entry was there before. -/
theorem find_of_without (hfind : (t.without host q).find host r = .ok k) :
    t.find host r = .ok k := by
  rw [h.without_eq] at hfind
  refine find_transfer (fun x hx => ?_) (fun x a hlook => look_of_unbound hlook) hfind
  refine parentAt_fewer ?_ ?_ (kind_bind none) (fun y s j hj _ => look_of_unbound hj) hx
  · rfl
  · rfl

/-- **The stage name** finds nothing afterwards, where the file did not have both names. -/
theorem stage_missing (hfind : t.find host p = .ok k) (hother : t.find host q ≠ t.find host p)
    (j : Nat) : t'.find host p ≠ .ok j := by
  obtain rfl := h.eq_of_find_stage hfind
  obtain ⟨x, hx, hlook⟩ := find_name h.stageName hfind
  obtain rfl := Except.ok.inj (hx.symm.trans h.stageDir)
  have hne : t.look host e (.name b) ≠ .ok k := by
    intro heq
    exact hother ((find_eq h.ownDir h.ownName heq).trans hfind.symm)
  intro hlater
  obtain ⟨y, hy, hlook'⟩ := find_name h.stageName hlater
  have hsame : t.parentAt host p = .ok y := by
    refine parentAt_fewer h.root h.cwd h.kinds (fun z s i hi hkind => ?_) hy
    refine look_of_unbound ((h.look_iff ?_).mp hi)
    rintro rfl
    exact hkind (by rw [h.file, Node.kind])
  obtain rfl := Except.ok.inj (hsame.symm.trans h.stageDir)
  rw [h.gone hlook hne] at hlook'
  cases hlook'

end Landed

end Tree

end NameTree

end ModelFs
