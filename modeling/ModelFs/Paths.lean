import ModelFs.Control
import ModelFs.Inodes
import ModelFs.Lib.Bytes

/-!
# Which names reach the trees

Every name that comes from outside passes `relOk` and the `.cluster` policy before it is joined to
the origin or to the cache: a FUSE handler through `resolveRel`, a peer request through
`handleConn`. What is joined is a list of components, none of them empty, `.` or `..`.

* `relOk_components` — what the gate admits, component by component.
* `resolveRel_confined` — **a handler's name is confined**.
* `joinZ_confined`, `joinZ_inj` — **a join neither leaves the root nor gives one path to two names**.
-/

namespace ModelFs

open Inodes (slash rootPath pathMax)

def dot : List UInt8 := ascii "."

def dotDot : List UInt8 := ascii ".."

/-- `proto.cluster_dir`. -/
def clusterDir : List UInt8 := ascii ".cluster"

/-! ## The gates -/

def relOk (rel : List UInt8) : Bool :=
  if rel = [] ∨ rel.head? = some slash then false
  else if containsControl rel then false
  else (rel.splitOn slash).all fun seg =>
    if seg = [] then false else if seg = dot ∨ seg = dotDot then false else true

/-- `.cluster` or under it. -/
def relIsCluster (rel : List UInt8) : Bool :=
  rel = clusterDir || (clusterDir ++ [slash]).isPrefixOf rel

/-- One leading slash is not part of the name. -/
def stripSlash (path : List UInt8) : List UInt8 :=
  if path.head? = some slash then path.tail else path

def relFromFuse (path : List UInt8) : Option (List UInt8) :=
  if path = [] ∨ path = rootPath then some []
  else
    let rel := stripSlash path
    if relOk rel then some rel else none

def isCluster (path : List UInt8) : Bool := relIsCluster (stripSlash path)

/-- `-EPERM`. -/
def permDenied : Int := -1

/-- A handler goes on when the code is zero; its name starts out as the root's. -/
def resolveRel (path : List UInt8) (clusterRc : Int) : Int × List UInt8 :=
  if isCluster path then (clusterRc, [])
  else
    match relFromFuse path with
    | none => (permDenied, [])
    | some rel => (0, rel)

/-! ## The joins -/

/-- `sys.joinZ` into a buffer of `size` bytes; `none` is `error.NameTooLong`. -/
def joinZ (size : Nat) (root rel : List UInt8) : Option (List UInt8) :=
  let relBody := stripSlash rel
  let separator := if relBody ≠ [] ∧ (root = [] ∨ root.getLast? ≠ some slash) then [slash] else []
  let rootPart :=
    if relBody = [] ∧ 1 < root.length ∧ root.getLast? = some slash then root.dropLast else root
  let relPart :=
    if relBody ≠ [] ∧ relBody.getLast? = some slash then relBody.dropLast else relBody
  let path := rootPart ++ separator ++ relPart
  if size ≤ path.length then none else some path

/-- `sys.appendExt`. -/
def appendExt (size : Nat) (base ext : List UInt8) : Option (List UInt8) :=
  if size < base.length + ext.length + 1 then none else some (base ++ ext)

/-- The trees a name is joined to. -/
inductive Tree where
  | origin
  | data
  | sidecar
  | pin
  deriving DecidableEq, Repr

/-- The roots of one node. -/
structure Roots where
  origin : List UInt8
  cache : List UInt8

def originPath (roots : Roots) (size : Nat) (rel : List UInt8) : Option (List UInt8) :=
  if rel ≠ [] ∧ ¬ relOk rel then none else joinZ size roots.origin rel

def cacheSubPath (roots : Roots) (size : Nat) (sub rel : List UInt8) : Option (List UInt8) :=
  if rel ≠ [] ∧ ¬ relOk rel then none
  else (joinZ pathMax roots.cache sub).bind fun dir => joinZ size dir rel

def cacheDataPath (roots : Roots) (size : Nat) (rel : List UInt8) : Option (List UInt8) :=
  cacheSubPath roots size (ascii "data") rel

def cacheMetaPath (roots : Roots) (size : Nat) (rel : List UInt8) : Option (List UInt8) :=
  (cacheSubPath roots pathMax (ascii "meta") rel).bind fun base =>
    appendExt size base (ascii ".pieces")

def cachePinPath (roots : Roots) (size : Nat) (rel : List UInt8) : Option (List UInt8) :=
  cacheSubPath roots size (ascii "pin") rel

def treePath (roots : Roots) (size : Nat) (rel : List UInt8) : Tree → Option (List UInt8)
  | .origin => originPath roots size rel
  | .data => cacheDataPath roots size rel
  | .sidecar => cacheMetaPath roots size rel
  | .pin => cachePinPath roots size rel

/-- The directory a tree's names are joined to. -/
def treeRoot (roots : Roots) : Tree → Option (List UInt8)
  | .origin => some roots.origin
  | .data => joinZ pathMax roots.cache (ascii "data")
  | .sidecar => joinZ pathMax roots.cache (ascii "meta")
  | .pin => joinZ pathMax roots.cache (ascii "pin")

/-- What follows the name. -/
def treeExt : Tree → List UInt8
  | .sidecar => ascii ".pieces"
  | _ => []

/-! ## What is admitted -/

/-- One component of a name. -/
def SafeComponent (c : List UInt8) : Prop :=
  c ≠ [] ∧ slash ∉ c ∧ c ≠ dot ∧ c ≠ dotDot

/-- A name below a root: components with a slash between them, and not the control directory. -/
structure Confined (rel : List UInt8) : Prop where
  nonempty : rel ≠ []
  components : ∃ cs, slash :: rel = spell slash cs ∧ ∀ c ∈ cs, SafeComponent c
  noLead : rel.head? ≠ some slash
  noTrail : rel.getLast? ≠ some slash
  noNul : 0 ∉ rel
  notCluster : rel ≠ clusterDir ∧ ¬ clusterDir ++ [slash] <+: rel

theorem ne_nul_of_containsControl {rel : List UInt8} (h : containsControl rel = false) :
    0 ∉ rel := by
  intro hmem
  have hcontrol : containsControl rel = true :=
    containsControl_iff.mpr (Or.inl (Or.inl ⟨0, hmem, Or.inl (by decide)⟩))
  rw [h] at hcontrol
  exact Bool.noConfusion hcontrol

/-- **What `relOk` admits**, component by component. -/
theorem relOk_components {rel : List UInt8} (h : relOk rel = true) :
    rel ≠ [] ∧ rel.head? ≠ some slash ∧ 0 ∉ rel ∧
      slash :: rel = spell slash (rel.splitOn slash) ∧
      ∀ c ∈ rel.splitOn slash, SafeComponent c := by
  unfold relOk at h
  split_ifs at h with hlead hcontrol
  rw [not_or] at hlead
  rw [Bool.not_eq_true] at hcontrol
  refine ⟨hlead.1, hlead.2, ne_nul_of_containsControl hcontrol, (spell_splitOn slash rel).symm,
    fun c hc => ?_⟩
  have hseg := List.all_eq_true.mp h c hc
  split_ifs at hseg with hempty hdots
  rw [not_or] at hdots
  exact ⟨hempty, not_mem_of_mem_splitOn hc, hdots.1, hdots.2⟩

/-- The last component's last byte is the name's. -/
theorem getLast_ne_slash {rel : List UInt8} {cs : List (List UInt8)}
    (hspell : slash :: rel = spell slash cs) (hcs : ∀ c ∈ cs, SafeComponent c) :
    rel.getLast? ≠ some slash := by
  intro hlast
  obtain ⟨before, c, rfl⟩ : ∃ before c, cs = before ++ [c] := by
    cases cs using List.reverseRecOn with
    | nil => cases hspell
    | append_singleton before c => exact ⟨before, c, rfl⟩
  have hc := hcs c (List.mem_append_right _ List.mem_cons_self)
  obtain ⟨rest, hrest⟩ := List.getLast?_eq_some_iff.mp hlast
  obtain ⟨c', b, hcb⟩ := List.eq_nil_or_concat c |>.resolve_left hc.1
  rw [List.concat_eq_append] at hcb
  have hends : slash :: rest ++ [slash] = (spell slash before ++ slash :: c') ++ [b] := by
    rw [List.cons_append, ← hrest, hspell, hcb, spell_append, spell_cons, spell_nil,
      List.append_nil, List.append_assoc, List.cons_append]
  have hlastb : slash = b := (List.cons.inj (List.append_inj_right' hends rfl)).1
  refine hc.2.1 ?_
  rw [hcb, hlastb]
  exact List.mem_append_right _ List.mem_cons_self

theorem confined_of_relOk {rel : List UInt8} (h : relOk rel = true)
    (hcluster : relIsCluster rel = false) : Confined rel := by
  obtain ⟨hne, hlead, hnul, hspell, hsafe⟩ := relOk_components h
  unfold relIsCluster at hcluster
  rw [Bool.or_eq_false_iff, decide_eq_false_iff_not] at hcluster
  refine ⟨hne, ⟨_, hspell, hsafe⟩, hlead, getLast_ne_slash hspell hsafe, hnul, hcluster.1, ?_⟩
  rw [← List.isPrefixOf_iff_prefix, hcluster.2]
  exact Bool.noConfusion

/-- **A handler's name is the root's or confined**, whatever path it was given. -/
theorem resolveRel_confined {path rel : List UInt8} {clusterRc : Int}
    (h : resolveRel path clusterRc = (0, rel)) : rel = [] ∨ Confined rel := by
  unfold resolveRel at h
  split_ifs at h with hcluster
  · exact Or.inl (Prod.mk.inj h).2.symm
  · cases hfuse : relFromFuse path with
    | none =>
      rw [hfuse] at h
      exact absurd (Prod.mk.inj h).1 (by decide)
    | some rel' =>
      rw [hfuse] at h
      obtain rfl : rel' = rel := (Prod.mk.inj h).2
      unfold relFromFuse at hfuse
      dsimp only at hfuse
      split_ifs at hfuse with hroot hok
      · exact Or.inl (Option.some.inj hfuse).symm
      · obtain rfl := Option.some.inj hfuse
        exact Or.inr (confined_of_relOk hok (Bool.not_eq_true _ ▸ hcluster))

/-! ## What is joined -/

/-- The root without its trailing slash. -/
def rootStem (root : List UInt8) : List UInt8 :=
  if root.getLast? = some slash then root.dropLast else root

theorem rootStem_slash {root : List UInt8} (h : root.getLast? = some slash) :
    rootStem root ++ [slash] = root := by
  unfold rootStem
  rw [if_pos h]
  obtain ⟨before, rfl⟩ := List.getLast?_eq_some_iff.mp h
  rw [List.dropLast_concat]

/-- A join that is short enough succeeds. -/
theorem joinZ_isSome {size : Nat} {root rel : List UInt8}
    (h : root.length + 1 + rel.length < size) : (joinZ size root rel).isSome := by
  have hbody : (stripSlash rel).length ≤ rel.length := by
    unfold stripSlash
    split_ifs
    · exact List.length_tail .. ▸ Nat.sub_le ..
    · exact Nat.le_refl _
  have hdrop : ∀ l : List UInt8, l.dropLast.length ≤ l.length := fun l =>
    List.length_dropLast .. ▸ Nat.sub_le ..
  have hroot := hdrop root
  have hrel := hdrop (stripSlash rel)
  unfold joinZ
  dsimp only
  rw [if_neg]
  · rfl
  · simp only [List.length_append]
    split_ifs <;> simp only [List.length_singleton, List.length_nil] <;> omega

/-- A name with no slash at either end, joined to a root. -/
theorem joinZ_of_edges {size : Nat} {root rel : List UInt8} (hne : rel ≠ [])
    (hlead : rel.head? ≠ some slash) (htrail : rel.getLast? ≠ some slash) :
    joinZ size root rel =
      if size ≤ (rootStem root ++ slash :: rel).length then none
      else some (rootStem root ++ slash :: rel) := by
  have hbody : stripSlash rel = rel := if_neg hlead
  have hroot : ¬ (rel = [] ∧ 1 < root.length ∧ root.getLast? = some slash) := fun h =>
    hne h.1
  have hlast : ¬ (rel ≠ [] ∧ rel.getLast? = some slash) := fun h => htrail h.2
  unfold joinZ
  simp only [hbody]
  rw [if_neg hroot, if_neg hlast]
  by_cases hslash : root.getLast? = some slash
  · have hsep : ¬ (rel ≠ [] ∧ (root = [] ∨ root.getLast? ≠ some slash)) := by
      rintro ⟨-, hempty | hno⟩
      · rw [hempty] at hslash
        cases hslash
      · exact hno hslash
    have hjoin : rootStem root ++ slash :: rel = root ++ [] ++ rel := by
      rw [← List.singleton_append, ← List.append_assoc, rootStem_slash hslash, List.append_nil]
    rw [if_neg hsep, hjoin]
  · have hjoin : rootStem root ++ slash :: rel = root ++ [slash] ++ rel := by
      rw [rootStem, if_neg hslash, List.append_assoc, List.singleton_append]
    have hsep : rel ≠ [] ∧ (root = [] ∨ root.getLast? ≠ some slash) :=
      ⟨hne, Or.inr hslash⟩
    rw [if_pos hsep, hjoin]

theorem joinZ_of_confined {size : Nat} {root rel : List UInt8} (hrel : Confined rel) :
    joinZ size root rel =
      if size ≤ (rootStem root ++ slash :: rel).length then none
      else some (rootStem root ++ slash :: rel) :=
  joinZ_of_edges hrel.nonempty hrel.noLead hrel.noTrail

/-- **A join goes one name below the root.** -/
theorem joinZ_confined {size : Nat} {root rel path : List UInt8} (hrel : Confined rel)
    (h : joinZ size root rel = some path) : path = rootStem root ++ slash :: rel := by
  rw [joinZ_of_confined hrel] at h
  split_ifs at h
  exact (Option.some.inj h).symm

/-- The root's own path is no longer than the root. -/
theorem joinZ_root {size : Nat} {root path : List UInt8} (h : joinZ size root [] = some path) :
    path.length ≤ root.length ∧ (path = root ∨ path = rootStem root) := by
  have hbody : stripSlash [] = [] := rfl
  unfold joinZ rootStem at *
  simp only [hbody, ne_eq, not_true_eq_false, false_and, if_false, true_and, List.append_nil] at h
  split_ifs at h with hslash
  · obtain rfl := Option.some.inj h
    rw [if_pos hslash.2]
    exact ⟨List.length_dropLast .. ▸ Nat.sub_le .., Or.inr rfl⟩
  · obtain rfl := Option.some.inj h
    exact ⟨Nat.le_refl _, Or.inl rfl⟩

/-- **Two names give two paths.** -/
theorem joinZ_inj {size size' : Nat} {root rel rel' path : List UInt8}
    (hrel : rel = [] ∨ Confined rel) (hrel' : rel' = [] ∨ Confined rel')
    (h : joinZ size root rel = some path) (h' : joinZ size' root rel' = some path) :
    rel = rel' := by
  have hlong : ∀ {n : Nat} {r : List UInt8}, Confined r → joinZ n root r = some path →
      root.length < path.length := fun hr hj => by
    have hpos := List.length_pos_of_ne_nil hr.nonempty
    rw [joinZ_confined hr hj, List.length_append, List.length_cons]
    unfold rootStem
    split_ifs
    · rw [List.length_dropLast]
      omega
    · omega
  rcases hrel with rfl | hrel
  · rcases hrel' with rfl | hrel'
    · rfl
    · have hshort := (joinZ_root h).1
      have := hlong hrel' h'
      omega
  · rcases hrel' with rfl | hrel'
    · have hshort := (joinZ_root h').1
      have := hlong hrel h
      omega
    · have hsame := (joinZ_confined hrel h).symm.trans (joinZ_confined hrel' h')
      exact (List.cons.inj (List.append_cancel_left hsame)).2

theorem appendExt_eq {size : Nat} {base ext path : List UInt8}
    (h : appendExt size base ext = some path) : path = base ++ ext := by
  unfold appendExt at h
  split_ifs at h
  exact (Option.some.inj h).symm

/-- The part every name of one cache tree is joined to. -/
theorem cacheSubPath_eq {roots : Roots} {size : Nat} {sub rel path : List UInt8}
    (h : cacheSubPath roots size sub rel = some path) :
    ∃ dir, joinZ pathMax roots.cache sub = some dir ∧ joinZ size dir rel = some path := by
  unfold cacheSubPath at h
  split_ifs at h
  exact Option.bind_eq_some_iff.mp h

/-- A path of a tree is a join of the name to the tree's root, and a suffix. -/
theorem treePath_join {roots : Roots} {size : Nat} {tree : Tree} {rel path : List UInt8}
    (h : treePath roots size rel tree = some path) :
    ∃ (root : List UInt8) (n : Nat) (base : List UInt8), treeRoot roots tree = some root ∧
      joinZ n root rel = some base ∧ path = base ++ treeExt tree := by
  cases tree with
  | origin =>
    have horigin : originPath roots size rel = some path := h
    unfold originPath at horigin
    split_ifs at horigin
    exact ⟨_, _, _, rfl, horigin, (List.append_nil _).symm⟩
  | data =>
    obtain ⟨dir, hdir, hjoin⟩ := cacheSubPath_eq h
    exact ⟨_, _, _, hdir, hjoin, (List.append_nil _).symm⟩
  | sidecar =>
    obtain ⟨base, hbase, hext⟩ := Option.bind_eq_some_iff.mp h
    obtain ⟨dir, hdir, hjoin⟩ := cacheSubPath_eq hbase
    exact ⟨_, _, _, hdir, hjoin, appendExt_eq hext⟩
  | pin =>
    obtain ⟨dir, hdir, hjoin⟩ := cacheSubPath_eq h
    exact ⟨_, _, _, hdir, hjoin, (List.append_nil _).symm⟩

/-- **A path of a tree is one name below the tree's root**, or the root's own. -/
theorem treePath_confined {roots : Roots} {size : Nat} {tree : Tree} {rel path : List UInt8}
    (hrel : rel = [] ∨ Confined rel) (h : treePath roots size rel tree = some path) :
    ∃ root, treeRoot roots tree = some root ∧
      (rel = [] ∧ (path = root ++ treeExt tree ∨ path = rootStem root ++ treeExt tree) ∨
        path = rootStem root ++ slash :: rel ++ treeExt tree) := by
  obtain ⟨root, n, base, hroot, hjoin, rfl⟩ := treePath_join h
  refine ⟨root, hroot, ?_⟩
  rcases hrel with rfl | hrel
  · rcases (joinZ_root hjoin).2 with rfl | rfl
    · exact Or.inl ⟨rfl, Or.inl rfl⟩
    · exact Or.inl ⟨rfl, Or.inr rfl⟩
  · rw [joinZ_confined hrel hjoin]
    exact Or.inr rfl

/-- **No aliasing.** In each tree, two names that were admitted have two paths. -/
theorem treePath_inj {roots : Roots} {size size' : Nat} {tree : Tree}
    {rel rel' path : List UInt8}
    (hrel : rel = [] ∨ Confined rel) (hrel' : rel' = [] ∨ Confined rel')
    (h : treePath roots size rel tree = some path)
    (h' : treePath roots size' rel' tree = some path) : rel = rel' := by
  obtain ⟨root, n, base, hroot, hbase, hpath⟩ := treePath_join h
  obtain ⟨root', n', base', hroot', hbase', hpath'⟩ := treePath_join h'
  rw [hpath, List.append_cancel_right_eq] at hpath'
  rw [← Option.some.inj (hroot.symm.trans hroot'), ← hpath'] at hbase'
  exact joinZ_inj hrel hrel' hbase hbase'

end ModelFs
