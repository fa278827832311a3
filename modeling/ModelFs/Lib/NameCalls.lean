import ModelFs.Lib.NameTree

/-!
# Calls on a tree of names, made twice

What `unlink`, `mkdir`, `rmdir` and `renameat2` do to a tree, and what the same call finds there
afterwards. The first three find that there is nothing left to do. A rename does so as well, unless
its paths lead through links: a link may be what was moved, or what was replaced.

* `unlink_again`, `rmdir_again`, `mkdir_again` — **a call that has been made before**.
* `renameEntry_eq_ok`, `Renamed.lands` — **all that a rename can do** to the entries.
* `renameat2_unchanged`, `renameat2_same` — a rename that does nothing.
* `renameat2_missing`, `find_of_renameat2` — what "no such entry" says of a rename.
* `find_moved` — **a moved file**, by paths with no link.
-/

namespace ModelFs

namespace NameTree

namespace Tree

variable {ν : Type} [DecidableEq ν] {host : Host ν} {t t' : Tree ν} {d e i : Nat} {c : ν}

/-! ## A call that has been made before -/

variable {p q : Path ν}

omit [DecidableEq ν] in
theorem refused_eq_ok {r : Request ν} {u : Tree ν} (h : t.refused host r u = .ok t') : t' = u := by
  unfold refused at h
  split at h
  · cases h
  · exact (Except.ok.inj h).symm

/-- What `unlink` took away. -/
theorem unlink_eq_ok (h : t.unlink host p = .ok t') :
    ∃ d c i, t.parentAt host p = .ok d ∧ p.last = some c ∧ t.look host d (.name c) = .ok i ∧
      t.isDir i = false ∧ t' = t.bind d c none := by
  unfold unlink at h
  split at h
  · cases h
  · rename_i d hd
    split at h
    · cases h
    · rename_i c hc
      split at h
      · cases h
      · rename_i i hi
        split_ifs at h with hdir
        exact ⟨d, c, i, hd, hc, hi, Bool.not_eq_true _ ▸ hdir, refused_eq_ok h⟩

theorem rmdir_eq_ok (h : t.rmdir host p = .ok t') :
    ∃ d c i, t.parentAt host p = .ok d ∧ p.last = some c ∧ t.look host d (.name c) = .ok i ∧
      t' = t.bind d c none := by
  unfold rmdir at h
  split at h
  · cases h
  · rename_i d hd
    split at h
    · cases h
    · rename_i c hc
      split at h
      · cases h
      · rename_i i hi
        split_ifs at h
        exact ⟨d, c, i, hd, hc, hi, refused_eq_ok h⟩

theorem mkdir_eq_ok {mode : Nat} (h : t.mkdir host p mode = .ok t') :
    ∃ d c, t.parentAt host p = .ok d ∧ p.last = some c ∧
      t.look host d (.name c) = .error .noent ∧
      t' = (t.alloc (.dir mode d ∅)).bind d c (some t.next) := by
  unfold mkdir at h
  split at h
  · cases h
  · rename_i d hd
    split at h
    · cases h
    · rename_i c hc
      split at h
      · cases h
      · rename_i hnone
        exact ⟨d, c, hd, hc, hnone, refused_eq_ok h⟩
      · cases h

theorem parentAt_erase (hlook : t.look host d (.name c) = .ok i) (p : Path ν) :
    (t.bind d c none).parentAt host p = t.parentAt host p ∨
      (t.bind d c none).parentAt host p = .error .noent :=
  walk_erase maxSymlinks _ p.dirs hlook

/-- Where an entry was taken away, its path is missing. -/
theorem missing_erase (hd : t.parentAt host p = .ok d) (hlook : t.look host d (.name c) = .ok i) :
    (t.bind d c none).parentAt host p = .error .noent ∨
      (t.bind d c none).parentAt host p = .ok d ∧
        (t.bind d c none).look host d (.name c) = .error .noent := by
  rcases parentAt_erase hlook p with hsame | hgone
  · exact Or.inr ⟨hsame.trans hd, look_bind_self (searches_of_ok hlook) none⟩
  · exact Or.inl hgone

theorem unlink_again (h : t.unlink host p = .ok t') : t'.unlink host p = .error .noent := by
  obtain ⟨d, c, i, hd, hc, hi, -, rfl⟩ := unlink_eq_ok h
  unfold unlink
  rcases missing_erase hd hi with hgone | ⟨hsame, hmissing⟩
  · rw [hgone]
  · rw [hsame, hc]
    dsimp only
    rw [hmissing]

theorem rmdir_again (h : t.rmdir host p = .ok t') : t'.rmdir host p = .error .noent := by
  obtain ⟨d, c, i, hd, hc, hi, rfl⟩ := rmdir_eq_ok h
  unfold rmdir
  rcases missing_erase hd hi with hgone | ⟨hsame, hmissing⟩
  · rw [hgone]
  · rw [hsame, hc]
    dsimp only
    rw [hmissing]

/-- The new directory is there. -/
theorem mkdir_again {mode : Nat} (h : t.mkdir host p mode = .ok t') :
    t'.mkdir host p mode = .error .exist ∧ ∃ i, t'.find host p = .ok i ∧ t'.isDir i = true := by
  obtain ⟨d, c, hd, hc, hnone, rfl⟩ := mkdir_eq_ok h
  have hsearch : t.Searches host d c := searches_of_noent hnone
  have hkeep : ∀ x p k, t.look host x p = .ok k → (t.nodes k).kind ≠ .file →
      ((t.alloc (.dir mode d ∅)).bind d c (some t.next)).look host x p = .ok k ∧
        (((t.alloc (.dir mode d ∅)).bind d c (some t.next)).nodes k).kind = (t.nodes k).kind := by
    intro x p k hlook hkind
    have hother : x ≠ d ∨ p ≠ .name c := by
      refine not_and_or.mp ?_
      rintro ⟨rfl, rfl⟩
      rw [hnone] at hlook
      cases hlook
    refine ⟨?_, ?_⟩
    · rw [look_bind_of_ne hother, look_alloc (kind_of_look hlook), hlook]
    · rw [kind_bind, nodes_alloc hkind]
  have hparent : ((t.alloc (.dir mode d ∅)).bind d c (some t.next)).parentAt host p = .ok d :=
    @walk_keep _ _ host t ((t.alloc (.dir mode d ∅)).bind d c (some t.next)) rfl hkeep _ _ _ _ hd
  have hentry : ((t.alloc (.dir mode d ∅)).bind d c (some t.next)).look host d (.name c) =
      .ok t.next := look_bind_self (hsearch.alloc _) _
  refine ⟨?_, t.next, ?_, ?_⟩
  · unfold mkdir
    rw [hparent, hc]
    dsimp only
    rw [hentry]
  · unfold find
    rw [hparent, hc]
    dsimp only
    rw [hentry]
  · rw [isDir_bind]
    unfold isDir alloc
    dsimp only
    rw [Function.update_self]
    rfl

/-! ## Renames -/

variable {b : ν}

/-- The entry that a rename makes. -/
theorem look_moved (flags : UInt32) (h : t.Searches host e b) :
    (t.moved d c e b i flags).look host e (.name b) = .ok i := by
  unfold moved
  dsimp only
  rw [look_reparent]
  split_ifs
  · exact look_bind_self ((h.alloc _).bind ..) _
  · exact look_bind_self (h.bind ..) _

theorem look_exchanged (j : Nat) (h : t.Searches host e b) :
    (t.exchanged d c e b i j).look host e (.name b) = .ok i := by
  unfold exchanged
  rw [look_reparent, look_reparent]
  exact look_bind_self (h.bind ..) _

/-- What the rename of an entry found, and what it made of it. -/
structure Renamed (host : Host ν) (t : Tree ν) (flags : UInt32) (t' : Tree ν) (d : Nat) (c : ν)
    (e : Nat) (b : ν) (i : Nat) : Prop where
  oldFile : t.look host d (.name c) = .ok i
  searches : t.Searches host e b
  fresh : has flags renameNoReplace = true → t.look host e (.name b) = .error .noent
  /-- Nothing for two names of one file, a swap, or a move over nothing or over a file of its kind. -/
  result : t.look host e (.name b) = .ok i ∧ t' = t ∨
    t.look host e (.name b) ≠ .ok i ∧
      ((has flags renameExchange = true ∧ ∃ j, t.look host e (.name b) = .ok j ∧
        t' = t.exchanged d c e b i j) ∨
      has flags renameExchange = false ∧ t' = t.moved d c e b i flags ∧
        ∀ j, t.look host e (.name b) = .ok j → t.isDir j = t.isDir i)

/-- All that a file over another one can come to. -/
theorem replace_eq_ok {o : Option Nat} {flags : UInt32}
    (h : t.replace host d c e b i o flags = .ok t') :
    o = some i ∧ t' = t ∨ o ≠ some i ∧
      ((has flags renameExchange = true ∧ ∃ j, o = some j ∧ t' = t.exchanged d c e b i j) ∨
        (o = none ∨ has flags renameExchange = false) ∧ t' = t.moved d c e b i flags ∧
          ∀ j, o = some j → t.isDir j = t.isDir i) := by
  unfold replace at h
  split at h
  · rename_i hsame
    exact Or.inl ⟨hsame, (Except.ok.inj h).symm⟩
  rename_i hother
  refine Or.inr ⟨hother, ?_⟩
  split at h
  · cases h
  split at h
  · cases h
  cases o with
  | none => exact Or.inr ⟨Or.inl rfl, refused_eq_ok h, nofun⟩
  | some j =>
    dsimp only at h
    split_ifs at h with hswap hnotdir hisdir
    · exact Or.inl ⟨hswap, j, rfl, refused_eq_ok h⟩
    · refine Or.inr ⟨Or.inr (Bool.not_eq_true _ ▸ hswap), refused_eq_ok h, ?_⟩
      rintro k ⟨⟩
      revert hnotdir hisdir
      cases t.isDir i <;> cases t.isDir j <;> simp

/-- **All that a rename can do** to the entries. -/
theorem renameEntry_eq_ok {flags : UInt32} (h : t.renameEntry host d c e b flags = .ok t') :
    ∃ i, Renamed host t flags t' d c e b i := by
  unfold renameEntry at h
  cases hi : t.look host d (.name c) with
  | error err => simp [hi] at h
  | ok i =>
    rw [hi] at h
    dsimp only at h
    refine ⟨i, ?_⟩
    cases hj : t.look host e (.name b) with
    | ok j =>
      rw [hj] at h
      dsimp only at h
      split_ifs at h with hno
      refine ⟨hi, searches_of_ok hj, fun hyes => absurd hyes hno, ?_⟩
      rw [hj]
      rcases replace_eq_ok h with ⟨hsame, rfl⟩ | ⟨hother, hdone⟩
      · exact Or.inl ⟨congrArg Except.ok (Option.some.inj hsame), rfl⟩
      · have hne : (Except.ok j : Except Errno Nat) ≠ .ok i := fun heq =>
          hother (congrArg some (Except.ok.inj heq))
        refine Or.inr ⟨hne, ?_⟩
        rcases hdone with ⟨hswap, k, hk, hex⟩ | ⟨hflag, hmoved, hdir⟩
        · exact Or.inl ⟨hswap, k, congrArg Except.ok (Option.some.inj hk), hex⟩
        · refine Or.inr ⟨hflag.resolve_left (by simp), hmoved, fun k hk => ?_⟩
          exact hdir k (congrArg some (Except.ok.inj hk))
    | error err =>
      rw [hj] at h
      cases err with
      | noent =>
        dsimp only at h
        split_ifs at h with hswap
        refine ⟨hi, searches_of_noent hj, fun _ => hj, ?_⟩
        rw [hj]
        refine Or.inr ⟨by simp, Or.inr ⟨?_, ?_, by simp⟩⟩
        · exact Bool.not_eq_true _ ▸ hswap
        · rcases replace_eq_ok h with ⟨hsome, -⟩ | ⟨-, ⟨-, j, hsome, -⟩ | ⟨-, hmoved, -⟩⟩
          · cases hsome
          · cases hsome
          · exact hmoved
      | _ => cases h

/-- The entry's new name is the file's. -/
theorem Renamed.lands {flags : UInt32} (h : Renamed host t flags t' d c e b i) :
    t'.look host e (.name b) = .ok i := by
  rcases h.result with ⟨hsame, rfl⟩ | ⟨-, ⟨-, j, -, rfl⟩ | ⟨-, rfl, -⟩⟩
  · exact hsame
  · exact look_exchanged j h.searches
  · exact look_moved flags h.searches

/-- Where the two paths of a rename led. -/
theorem renameat2_eq_ok {flags : UInt32} (h : t.renameat2 host p q flags = .ok t') :
    validFlags flags = true ∧ ∃ d c e b, t.parentAt host p = .ok d ∧ p.last = some c ∧
      t.parentAt host q = .ok e ∧ q.last = some b ∧ t.renameEntry host d c e b flags = .ok t' := by
  unfold renameat2 at h
  split at h
  · cases h
  rename_i hvalid
  refine ⟨by simpa using hvalid, ?_⟩
  split at h
  · cases h
  rename_i d hd
  split at h
  · cases h
  rename_i e he
  split at h
  · cases h
  · cases h
  · rename_i c b hc hb
    exact ⟨d, c, e, b, hd, hc, he, hb, h⟩

/-! ## A rename that has been made before -/

omit [DecidableEq ν] in
theorem isDir_iff {k : Nat} : t.isDir k = true ↔ (t.nodes k).kind = .dir := by
  unfold isDir
  cases (t.nodes k).kind <;> simp

theorem walkFrom_dir {follow : Nat → List (Part ν) → Except Errno Nat}
    (hfollow : ∀ x rest r, (t.nodes x).kind = .dir → follow x rest = .ok r →
      (t.nodes r).kind = .dir) {x r : Nat} {ps : List (Part ν)} (hx : (t.nodes x).kind = .dir)
    (h : t.walkFrom host follow x ps = .ok r) : (t.nodes r).kind = .dir := by
  induction ps generalizing x with
  | nil =>
    obtain rfl := Except.ok.inj h
    exact hx
  | cons p rest ih =>
    rw [walkFrom] at h
    split at h
    · cases h
    · split at h
      · rename_i hk
        exact ih hk h
      · refine hfollow _ _ _ ?_ h
        split_ifs
        · exact t.rootDir
        · exact hx
      · cases h

/-- A walk ends at a directory. -/
theorem walk_dir {budget x r : Nat} {ps : List (Part ν)} (hx : (t.nodes x).kind = .dir)
    (h : t.walk host budget x ps = .ok r) : (t.nodes r).kind = .dir := by
  induction budget generalizing x ps r with
  | zero => exact walkFrom_dir (fun _ _ _ _ h => by cases h) hx h
  | succ budget ih => exact walkFrom_dir (fun _ _ _ hx h => ih hx h) hx h

/-- A path to anything else ends in a name. -/
theorem last_of_not_dir {k : Nat} (h : t.find host p = .ok k) (hk : t.isDir k = false) :
    p.last.isSome = true := by
  unfold find at h
  split at h
  · cases h
  · rename_i d hd
    cases hlast : p.last with
    | some c => rfl
    | none =>
      rw [hlast] at h
      obtain rfl := Except.ok.inj h
      have hstart : (t.nodes (if p.absolute then t.root else t.cwd)).kind = .dir := by
        split_ifs
        · exact t.rootDir
        · exact t.cwdDir
      rw [isDir_iff.mpr (walk_dir hstart hd)] at hk
      cases hk

theorem find_eq {k : Nat} (hd : t.parentAt host p = .ok d) (hc : p.last = some c)
    (hk : t.look host d (.name c) = .ok k) : t.find host p = .ok k := by
  unfold find
  rw [hd, hc]
  exact hk

/-- A rename that leaves the tree as it is has two names of one file. -/
theorem renameat2_unchanged {flags : UInt32} (h : t.renameat2 host p q flags = .ok t) :
    ∃ k, t.find host p = .ok k ∧ t.find host q = .ok k ∧ has flags renameNoReplace = false := by
  obtain ⟨-, d, c, e, b, hd, hc, he, hb, hentry⟩ := renameat2_eq_ok h
  obtain ⟨i, hren⟩ := renameEntry_eq_ok hentry
  refine ⟨i, find_eq hd hc hren.oldFile, find_eq he hb hren.lands, ?_⟩
  by_contra hno
  have hfresh := hren.fresh (Bool.not_eq_false _ ▸ hno)
  rw [hren.lands] at hfresh
  cases hfresh

theorem find_name {k : Nat} {c : ν} (hc : p.last = some c) (h : t.find host p = .ok k) :
    ∃ d, t.parentAt host p = .ok d ∧ t.look host d (.name c) = .ok k := by
  unfold find at h
  split at h
  · cases h
  · rename_i d hd
    rw [hc] at h
    exact ⟨d, hd, h⟩

/-- **Two names of one file** stay as they are. -/
theorem renameat2_same {flags : UInt32} {k : Nat} (hvalid : validFlags flags = true)
    (hc : p.last = some c) (hb : q.last = some b) (hp : t.find host p = .ok k)
    (hq : t.find host q = .ok k) (hno : has flags renameNoReplace = false) :
    t.renameat2 host p q flags = .ok t := by
  obtain ⟨d, hd, hi⟩ := find_name hc hp
  obtain ⟨e, he, hj⟩ := find_name hb hq
  unfold renameat2 renameEntry
  rw [hvalid, hd, he, hc, hb]
  dsimp only
  rw [hi, hj]
  dsimp only
  rw [hno]
  unfold replace
  rw [if_neg (by decide), if_neg (by decide), if_pos rfl]

/-- **An old name that is missing**, in front of a new one that is there. -/
theorem renameat2_missing {flags : UInt32} {k : Nat} (hvalid : validFlags flags = true)
    (hb : q.last = some b) (hp : t.find host p = .error .noent) (hq : t.find host q = .ok k) :
    t.renameat2 host p q flags = .error .noent := by
  obtain ⟨e, he, -⟩ := find_name hb hq
  unfold find at hp
  unfold renameat2 renameEntry
  rw [hvalid, if_neg (by decide)]
  cases hd : t.parentAt host p with
  | error err =>
    rw [hd] at hp
    exact congrArg _ (Except.error.inj hp)
  | ok d =>
    rw [hd] at hp
    dsimp only at hp ⊢
    rw [he, hb]
    cases hc : p.last with
    | none =>
      rw [hc] at hp
      cases hp
    | some c =>
      rw [hc] at hp
      dsimp only at hp ⊢
      rw [hp]

omit [DecidableEq ν] in
theorem refused_ne_noent (r : Request ν) (u : Tree ν) : t.refused host r u ≠ .error .noent := by
  unfold refused
  split <;> exact nofun

theorem replace_ne_noent (o : Option Nat) (flags : UInt32) :
    t.replace host d c e b i o flags ≠ .error .noent := by
  unfold replace
  split
  · exact nofun
  split
  · exact nofun
  split
  · split_ifs <;> exact nofun
  cases o with
  | none => exact refused_ne_noent _ _
  | some j =>
    dsimp only
    split_ifs
    · exact refused_ne_noent _ _
    · exact nofun
    · exact nofun
    · exact nofun
    · exact refused_ne_noent _ _

/-- **The converse**: what "no such entry" says of a rename whose new name is there. -/
theorem find_of_renameat2 {flags : UInt32} {k : Nat}
    (h : t.renameat2 host p q flags = .error .noent) (hq : t.find host q = .ok k)
    (hk : t.isDir k = false) :
    validFlags flags = true ∧ t.find host p = .error .noent := by
  obtain ⟨b, hb⟩ := Option.isSome_iff_exists.mp (last_of_not_dir hq hk)
  obtain ⟨e, he, hj⟩ := find_name hb hq
  unfold renameat2 at h
  split at h
  · cases h
  rename_i hvalid
  refine ⟨by simpa using hvalid, ?_⟩
  unfold find
  cases hd : t.parentAt host p with
  | error err =>
    rw [hd] at h
    dsimp only at h ⊢
    obtain rfl := Except.error.inj h
    rfl
  | ok d =>
    rw [hd, he, hb] at h
    dsimp only at h ⊢
    cases hc : p.last with
    | none =>
      rw [hc] at h
      cases h
    | some c =>
      rw [hc] at h
      dsimp only at h ⊢
      unfold renameEntry at h
      rw [hj] at h
      cases hi : t.look host d (.name c) with
      | error err =>
        rw [hi] at h
        dsimp only at h
        obtain rfl := Except.error.inj h
        rfl
      | ok i =>
        rw [hi] at h
        dsimp only at h
        split at h
        · cases h
        · exact absurd h (replace_ne_noent _ _)

/-! ## Renames by directories only -/

/-- No link on the way to the last name. -/
def Plain (host : Host ν) (t : Tree ν) (p : Path ν) : Prop :=
  ∃ d, t.walk host 0 (if p.absolute then t.root else t.cwd) p.dirs = .ok d

/-- A file that is no directory moves by its entries alone. -/
theorem moved_of_file {flags : UInt32} (hwhite : has flags renameWhiteout = false)
    (hfile : t.isDir i = false) :
    t.moved d c e b i flags = (t.bind d c none).bind e b (some i) := by
  unfold moved
  rw [hwhite]
  refine reparent_of_not_dir ?_
  rw [if_neg Bool.false_ne_true, isDir_bind, isDir_bind, hfile]

/-- A walk by directories only does not see such a move. -/
theorem look_moved_dir {flags : UInt32} (hwhite : has flags renameWhiteout = false)
    (hi : t.look host d (.name c) = .ok i) (hfile : t.isDir i = false)
    (hover : ∀ j, t.look host e (.name b) = .ok j → t.isDir j = false) {x k : Nat} {part : Part ν}
    (hlook : t.look host x part = .ok k) (hk : (t.nodes k).kind = .dir) :
    (t.moved d c e b i flags).look host x part = .ok k ∧
      ((t.moved d c e b i flags).nodes k).kind = .dir := by
  have hisDir : t.isDir k = true := isDir_iff.mpr hk
  have hold : x ≠ d ∨ part ≠ .name c := by
    refine not_and_or.mp ?_
    rintro ⟨rfl, rfl⟩
    rw [hi] at hlook
    obtain rfl := Except.ok.inj hlook
    rw [hfile] at hisDir
    cases hisDir
  have hnew : x ≠ e ∨ part ≠ .name b := by
    refine not_and_or.mp ?_
    rintro ⟨rfl, rfl⟩
    rw [hover k hlook] at hisDir
    cases hisDir
  rw [moved_of_file hwhite hfile]
  refine ⟨?_, ?_⟩
  · rw [look_bind_of_ne hnew, look_bind_of_ne hold, hlook]
  · rw [kind_bind, kind_bind, hk]

/-- **Moved**: the old name is missing, and the new one is the file's. -/
theorem find_moved {flags : UInt32} {k : Nat} (h : t.renameat2 host p q flags = .ok t')
    (hp : t.Plain host p) (hq : t.Plain host q) (hk : t.find host p = .ok k)
    (hfile : t.isDir k = false) (hother : t.find host q ≠ .ok k)
    (hswap : has flags renameExchange = false) (hwhite : has flags renameWhiteout = false) :
    t'.find host p = .error .noent ∧ t'.find host q = .ok k ∧ t'.isDir k = false := by
  obtain ⟨-, d, c, e, b, hd, hc, he, hb, hentry⟩ := renameat2_eq_ok h
  obtain ⟨i, hren⟩ := renameEntry_eq_ok hentry
  obtain rfl : i = k := Except.ok.inj ((find_eq hd hc hren.oldFile).symm.trans hk)
  have hne : t.look host e (.name b) ≠ .ok i := fun heq => hother (find_eq he hb heq)
  obtain ⟨rfl, hover⟩ : t' = t.moved d c e b i flags ∧
      ∀ j, t.look host e (.name b) = .ok j → t.isDir j = t.isDir i := by
    rcases hren.result with ⟨hsame, -⟩ | ⟨-, ⟨hyes, -⟩ | ⟨-, hmoved⟩⟩
    · exact absurd hsame hne
    · rw [hswap] at hyes
      cases hyes
    · exact hmoved
  have hmoved := @moved_of_file _ _ t d e i c b flags hwhite hfile
  have hdirs := @look_moved_dir _ _ host t d e i c b flags hwhite hren.oldFile hfile
    fun j hj => (hover j hj).trans hfile
  have hway : ∀ {path : Path ν} {r : Nat}, t.Plain host path → t.parentAt host path = .ok r →
      (t.moved d c e b i flags).parentAt host path = .ok r := by
    rintro path r ⟨r', hwalk⟩ hparent
    have hback : t.parentAt host path = .ok r' :=
      walk_plain rfl (fun x part k hlook hk => ⟨hlook, hk⟩) hwalk maxSymlinks
    obtain rfl := Except.ok.inj (hback.symm.trans hparent)
    have hwalk' := @walk_plain _ _ host t ((t.bind d c none).bind e b (some i)) rfl
      (fun x part k hlook hk => hmoved ▸ hdirs hlook hk) _ _ _ hwalk maxSymlinks
    rw [hmoved]
    exact hwalk'
  have hmissing : (t.moved d c e b i flags).look host d (.name c) = .error .noent := by
    have happart : d ≠ e ∨ (Part.name c : Part ν) ≠ .name b := by
      refine not_and_or.mp ?_
      rintro ⟨rfl, hcb⟩
      obtain rfl := Part.name.inj hcb
      exact hne hren.oldFile
    rw [hmoved, look_bind_of_ne happart]
    exact look_bind_self (searches_of_ok hren.oldFile) none
  refine ⟨?_, find_eq (hway hq he) hb hren.lands, ?_⟩
  · unfold find
    rw [hway hp hd, hc]
    exact hmissing
  · rw [hmoved, isDir_bind, isDir_bind, hfile]

end Tree

end NameTree

end ModelFs
