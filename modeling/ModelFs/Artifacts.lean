import ModelFs.Paths

/-!
# Artifacts in the cache

Each name of the origin has up to three files in the cache: its bytes in `data`, its marks in `meta`
with `.pieces` behind the name, and a marker in `pin`. Two files of the origin never lie one under
the other, so their names do not collide in `data` and `pin`. In `meta` a name is longer than it was,
and `a.pieces` is a name too.

* `prefix_of_ext` — a suffix without a slash does not end a directory.
* `artifacts_apart_iff` — **no artifact of two files is at or under another exactly if neither name
  goes on from the other with `.pieces/`.**
* `artifacts_clash` — the files `a` and `a.pieces/b`.
-/

namespace ModelFs

open Inodes (slash pathMax)

/-- `q` is at `p` or below it. -/
def AtOrBelow (p q : List UInt8) : Prop := p = q ∨ p ++ [slash] <+: q

instance (p q : List UInt8) : Decidable (AtOrBelow p q) := inferInstanceAs (Decidable (_ ∨ _))

/-- Two names that can be regular files of one tree. -/
def FilesApart (rel rel' : List UInt8) : Prop := ¬ AtOrBelow rel rel' ∧ ¬ AtOrBelow rel' rel

instance (rel rel' : List UInt8) : Decidable (FilesApart rel rel') :=
  inferInstanceAs (Decidable (_ ∧ _))

/-- The artifacts of two names are distinct, and none is a directory above another. -/
def ArtifactsApart (roots : Roots) (rel rel' : List UInt8) : Prop :=
  ∀ r ∈ [rel, rel'], ∀ r' ∈ [rel, rel'], ∀ t t' : Tree, t ≠ .origin → t' ≠ .origin →
    (r, t) ≠ (r', t') → ∀ p p', treePath roots pathMax r t = some p →
      treePath roots pathMax r' t' = some p' → ¬ AtOrBelow p p'

/-- A name goes on where the other's sidecar ends. -/
def BelowSidecar (rel rel' : List UInt8) : Prop := rel ++ treeExt .sidecar ++ [slash] <+: rel'

instance (rel rel' : List UInt8) : Decidable (BelowSidecar rel rel') :=
  inferInstanceAs (Decidable (_ <+: _))

/-- Both sidecars have a path. -/
def HaveSidecars (roots : Roots) (rel rel' : List UInt8) : Prop :=
  (treePath roots pathMax rel .sidecar).isSome = true ∧
    (treePath roots pathMax rel' .sidecar).isSome = true

/-! ## Where an artifact is -/

/-- The subdirectory of a tree. -/
def treeSub : Tree → List UInt8
  | .origin => []
  | .data => ascii "data"
  | .sidecar => ascii "meta"
  | .pin => ascii "pin"

theorem slash_not_mem_treeSub (t : Tree) : slash ∉ treeSub t := by
  cases t <;> decide

theorem slash_not_mem_treeExt (t : Tree) : slash ∉ treeExt t := by
  cases t <;> decide

theorem treeSub_inj {t t' : Tree} (h : treeSub t = treeSub t') : t = t' := by
  cases t <;> cases t' <;> first | rfl | exact absurd h (by decide)

theorem edges_of_relOk {rel : List UInt8} (h : relOk rel = true) :
    rel ≠ [] ∧ rel.head? ≠ some slash ∧ rel.getLast? ≠ some slash := by
  obtain ⟨hne, hlead, -, hspell, hsafe⟩ := relOk_components h
  exact ⟨hne, hlead, getLast_ne_slash hspell hsafe⟩

theorem joinZ_eq {size : Nat} {root rel path : List UInt8} (hne : rel ≠ [])
    (hlead : rel.head? ≠ some slash) (htrail : rel.getLast? ≠ some slash)
    (h : joinZ size root rel = some path) : path = rootStem root ++ slash :: rel := by
  rw [joinZ_of_edges hne hlead htrail] at h
  split_ifs at h
  exact (Option.some.inj h).symm

/-- A path that does not end in a slash is its own stem. -/
theorem rootStem_append {root sub : List UInt8} (hne : sub ≠ []) (hsub : slash ∉ sub) :
    rootStem (root ++ slash :: sub) = root ++ slash :: sub := by
  obtain ⟨before, b, rfl⟩ := List.eq_nil_or_concat sub |>.resolve_left hne
  have hb : b ≠ slash := by
    rintro rfl
    exact hsub (by simp)
  refine if_neg fun hlast => hb ?_
  rw [List.concat_eq_append, ← List.cons_append, ← List.append_assoc,
    List.getLast?_concat] at hlast
  exact Option.some.inj hlast

theorem treeRoot_eq {roots : Roots} {root : List UInt8} {t : Tree} (ht : t ≠ .origin)
    (h : treeRoot roots t = some root) : root = rootStem roots.cache ++ slash :: treeSub t := by
  cases t with
  | origin => exact absurd rfl ht
  | data => exact joinZ_eq (by decide) (by decide) (by decide) h
  | sidecar => exact joinZ_eq (by decide) (by decide) (by decide) h
  | pin => exact joinZ_eq (by decide) (by decide) (by decide) h

/-- **An artifact is its tree's directory, the name and the tree's suffix.** -/
theorem artifact_eq {roots : Roots} {rel path : List UInt8} {t : Tree} (hok : relOk rel = true)
    (ht : t ≠ .origin) (h : treePath roots pathMax rel t = some path) :
    path = rootStem roots.cache ++ slash :: (treeSub t ++ slash :: (rel ++ treeExt t)) := by
  obtain ⟨hne, hlead, htrail⟩ := edges_of_relOk hok
  obtain ⟨root, n, base, hroot, hjoin, rfl⟩ := treePath_join h
  have hsub : treeSub t ≠ [] := by
    cases t with
    | origin => exact absurd rfl ht
    | _ => decide
  rw [joinZ_eq hne hlead htrail hjoin, treeRoot_eq ht hroot,
    rootStem_append hsub (slash_not_mem_treeSub t)]
  simp only [List.append_assoc, List.cons_append]

/-! ## Collisions -/

/-- A suffix without a slash does not end a directory. -/
theorem prefix_of_ext {l a ext : List UInt8} (hext : slash ∉ ext) (h : l ++ [slash] <+: a ++ ext) :
    l ++ [slash] <+: a := by
  rcases List.prefix_or_prefix_of_prefix h (List.prefix_append a ext) with hshort | hlong
  · exact hshort
  · obtain ⟨k, hk⟩ := hlong
    have htail : k <+: ext := by
      rw [← hk] at h
      exact (List.prefix_append_right_inj a).mp h
    cases k using List.reverseRecOn with
    | nil => exact ⟨[], by rw [List.append_nil, ← hk, List.append_nil]⟩
    | append_singleton k b =>
      have hend : slash = b := by
        rw [← List.append_assoc] at hk
        exact (List.cons.inj (List.append_inj_right' hk rfl)).1.symm
      exact absurd (htail.subset (List.mem_append_right k (List.mem_singleton.mpr hend))) hext

/-- A common part in front decides nothing. -/
theorem atOrBelow_append (root p q : List UInt8) :
    AtOrBelow (root ++ p) (root ++ q) ↔ AtOrBelow p q := by
  unfold AtOrBelow
  rw [List.append_cancel_left_eq, List.append_assoc, List.prefix_append_right_inj]

theorem atOrBelow_cons (b : UInt8) (p q : List UInt8) :
    AtOrBelow (b :: p) (b :: q) ↔ AtOrBelow p q :=
  atOrBelow_append [b] p q

/-- Artifacts of two trees are under two directories. -/
theorem not_atOrBelow_of_tree_ne {t t' : Tree} (hne : t ≠ t') (x y : List UInt8) :
    ¬ AtOrBelow (treeSub t ++ slash :: x) (treeSub t' ++ slash :: y) := by
  have hbroken : ∀ z : List UInt8, Broken slash (slash :: z) := fun z => Or.inr ⟨z, rfl⟩
  rintro (heq | ⟨rest, heq⟩)
  · exact hne (treeSub_inj (component_unique (slash_not_mem_treeSub t) (slash_not_mem_treeSub t')
      (hbroken x) (hbroken y) heq).1)
  · rw [List.append_assoc, List.append_assoc, List.cons_append] at heq
    exact hne (treeSub_inj (component_unique (slash_not_mem_treeSub t) (slash_not_mem_treeSub t')
      (hbroken _) (hbroken y) heq).1)

/-- In one tree, an artifact at or below another one is one name at or below the other, or the name
goes on where the other's suffix ends. -/
theorem atOrBelow_ext {a b ext : List UInt8} (hext : slash ∉ ext) :
    AtOrBelow (a ++ ext) (b ++ ext) ↔ a = b ∨ a ++ ext ++ [slash] <+: b := by
  unfold AtOrBelow
  rw [List.append_cancel_right_eq]
  refine or_congr Iff.rfl ⟨prefix_of_ext hext, fun h => h.trans (List.prefix_append b ext)⟩

theorem pair_cases {α : Type} {a b r r' : α} (hr : r ∈ [a, b]) (hr' : r' ∈ [a, b])
    (hne : r ≠ r') : r = a ∧ r' = b ∨ r = b ∧ r' = a := by
  rcases List.mem_pair.mp hr with rfl | rfl <;> rcases List.mem_pair.mp hr' with rfl | rfl
  · exact absurd rfl hne
  · exact Or.inl ⟨rfl, rfl⟩
  · exact Or.inr ⟨rfl, rfl⟩
  · exact absurd rfl hne

theorem notBelow_of_files {rel rel' r r' : List UInt8} (h : FilesApart rel rel')
    (hr : r ∈ [rel, rel']) (hr' : r' ∈ [rel, rel']) (hne : r ≠ r') : ¬ AtOrBelow r r' := by
  rcases pair_cases hr hr' hne with ⟨rfl, rfl⟩ | ⟨rfl, rfl⟩
  · exact h.1
  · exact h.2

/-- **Two files' artifacts collide exactly where a name goes on from the other's sidecar.** -/
theorem artifacts_apart_iff {roots : Roots} {rel rel' : List UInt8} (hok : relOk rel = true)
    (hok' : relOk rel' = true) (hfiles : FilesApart rel rel') :
    ArtifactsApart roots rel rel' ↔
      (HaveSidecars roots rel rel' → ¬ BelowSidecar rel rel' ∧ ¬ BelowSidecar rel' rel) := by
  have hokAll : ∀ r ∈ [rel, rel'], relOk r = true := by
    intro r hr
    rcases List.mem_pair.mp hr with rfl | rfl
    · exact hok
    · exact hok'
  have hplace : ∀ r ∈ [rel, rel'], ∀ r' ∈ [rel, rel'], ∀ t t' : Tree, t ≠ .origin → t' ≠ .origin →
      ∀ p p', treePath roots pathMax r t = some p → treePath roots pathMax r' t' = some p' →
        (AtOrBelow p p' ↔ t = t' ∧ (r = r' ∨ r ++ treeExt t ++ [slash] <+: r')) := by
    intro r hr r' hr' t t' ht ht' p p' hp hp'
    rw [artifact_eq (hokAll r hr) ht hp, artifact_eq (hokAll r' hr') ht' hp', atOrBelow_append,
      atOrBelow_cons]
    by_cases htree : t = t'
    · subst htree
      rw [atOrBelow_append, atOrBelow_cons, atOrBelow_ext (slash_not_mem_treeExt t)]
      exact (and_iff_right rfl).symm
    · exact iff_of_false (not_atOrBelow_of_tree_ne htree _ _) fun h => htree h.1
  constructor
  · rintro hapart ⟨hside, hside'⟩
    obtain ⟨p, hp⟩ := Option.isSome_iff_exists.mp hside
    obtain ⟨p', hp'⟩ := Option.isSome_iff_exists.mp hside'
    have hne : rel ≠ rel' := fun heq => hfiles.1 (Or.inl heq)
    have hmem : rel ∈ [rel, rel'] := List.mem_cons_self
    have hmem' : rel' ∈ [rel, rel'] := List.mem_cons_of_mem _ List.mem_cons_self
    refine ⟨fun hbelow => ?_, fun hbelow => ?_⟩
    · exact hapart rel hmem rel' hmem' .sidecar .sidecar (by decide) (by decide)
        (fun heq => hne (Prod.mk.inj heq).1) p p' hp hp'
        ((hplace rel hmem rel' hmem' .sidecar .sidecar (by decide) (by decide) p p' hp hp').mpr
          ⟨rfl, Or.inr hbelow⟩)
    · exact hapart rel' hmem' rel hmem .sidecar .sidecar (by decide) (by decide)
        (fun heq => hne (Prod.mk.inj heq).1.symm) p' p hp' hp
        ((hplace rel' hmem' rel hmem .sidecar .sidecar (by decide) (by decide) p' p hp' hp).mpr
          ⟨rfl, Or.inr hbelow⟩)
  · intro hclear r hr r' hr' t t' ht ht' hne p p' hp hp' hbelow
    obtain ⟨rfl, hnames⟩ := (hplace r hr r' hr' t t' ht ht' p p' hp hp').mp hbelow
    have hdiff : r ≠ r' := fun heq => hne (by rw [heq])
    have hunder := hnames.resolve_left hdiff
    by_cases hside : t = .sidecar
    · subst hside
      have hisSome : (treePath roots pathMax r .sidecar).isSome = true := by rw [hp]; rfl
      have hisSome' : (treePath roots pathMax r' .sidecar).isSome = true := by rw [hp']; rfl
      rcases pair_cases hr hr' hdiff with ⟨rfl, rfl⟩ | ⟨rfl, rfl⟩
      · exact (hclear ⟨hisSome, hisSome'⟩).1 hunder
      · exact (hclear ⟨hisSome', hisSome⟩).2 hunder
    · have hext : treeExt t = [] := by
        cases t with
        | sidecar => exact absurd rfl hside
        | _ => rfl
      rw [hext, List.append_nil] at hunder
      exact notBelow_of_files hfiles hr hr' hdiff (Or.inr hunder)

/-- Two models, each with its sidecar's name free of the other's. -/
theorem artifacts_apart_ab : ArtifactsApart ⟨ascii "/o", ascii "/c"⟩ (ascii "a") (ascii "b") :=
  (artifacts_apart_iff (by decide) (by decide) (by decide)).mpr fun _ => by decide

/-- **`a` and `a.pieces/b` are two files, and the sidecar of one is the directory of the other's.** -/
theorem artifacts_clash : relOk (ascii "a") = true ∧ relOk (ascii "a.pieces/b") = true ∧
    FilesApart (ascii "a") (ascii "a.pieces/b") ∧
    ¬ ArtifactsApart ⟨ascii "/o", ascii "/c"⟩ (ascii "a") (ascii "a.pieces/b") := by
  refine ⟨by decide, by decide, by decide, fun hapart => ?_⟩
  have hfirst : treePath ⟨ascii "/o", ascii "/c"⟩ pathMax (ascii "a") .sidecar =
      some (ascii "/c/meta/a.pieces") := by decide
  have hsecond : treePath ⟨ascii "/o", ascii "/c"⟩ pathMax (ascii "a.pieces/b") .sidecar =
      some (ascii "/c/meta/a.pieces/b.pieces") := by decide
  exact hapart _ List.mem_cons_self _ (List.mem_cons_of_mem _ List.mem_cons_self) .sidecar .sidecar
    (by decide) (by decide) (by decide) _ _ hfirst hsecond (Or.inr (by decide))

end ModelFs
