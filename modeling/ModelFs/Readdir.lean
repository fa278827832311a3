import ModelFs.Paths

/-!
# Reading a directory in several replies

A listing that does not fit one READDIR reply is read on from an offset. `readdirResume` numbers the
entries from 1, `.` and `..` first, passes over those at or below the offset and hands the rest to
`LlDirFiller`, which stages them until one no longer fits. Each entry carries its number, and the
kernel resumes after the last one it was given.

The length of a staged entry is libfuse's, so it is a parameter here; with the length 1 for every
entry, a buffer's length is a number of entries.

* `readdirResume_out` — a call stages the entries above the offset, as far as they fit.
* `calls_listing` — **the calls, one after another, return the listing exactly**: nothing is lost
  and nothing repeated, and from some call on there is nothing left to return.
* `llReaddir_listing` — so do the calls of `ll_readdir`, for the names that the mount shows.
-/

namespace ModelFs

namespace Readdir

abbrev Name := List UInt8

/-! ## The walk -/

/-- `OriginDirNames`: the entries of an origin directory that the mount shows. -/
def originDirNames (hideCluster : Bool) (dirents : List Name) : List Name :=
  dirents.filter fun name =>
    !(name = dot || name = dotDot) && !(hideCluster && name = clusterDir) && relOk name

variable {κ : Type}

/-- The entries from `pos` on, handed to `emit` until it returns false. -/
def walk (emit : Name → Int → κ → Bool × κ) (off : Int) : Int → List Name → κ → κ
  | _, [], sink => sink
  | pos, name :: names, sink =>
    let pos := pos + 1
    if pos ≤ off then walk emit off pos names sink
    else
      match emit name pos sink with
      | (true, sink) => walk emit off pos names sink
      | (false, sink) => sink

/-- `readdirResume`. -/
def readdirResume (emit : Name → Int → κ → Bool × κ) (names : List Name) (off : Int) (sink : κ) :
    κ :=
  walk emit off 0 (dot :: dotDot :: names) sink

/-! ## The reply -/

/-- `namez` of `LlDirFiller.run`. -/
def namezLen : Nat := 256

/-- `readdir_reply_max`. -/
def readdirReplyMax : Nat := 64 * 1024

/-- A reply being staged: the bytes used, and the entries they hold. -/
structure Reply where
  used : Nat := 0
  entries : List (Name × Int) := []
  deriving DecidableEq, Repr

variable (direntry : Name → Nat)

/-- `LlDirFiller.run`. What `fuse_add_direntry` asks for is `direntry`, by name. -/
def fill (bufLen : Nat) (name : Name) (ordinal : Int) (reply : Reply) : Bool × Reply :=
  if namezLen ≤ name.length then (true, reply)
  else
    let left := bufLen - reply.used
    let need := direntry name
    if left < need then (false, reply)
    else (true, ⟨reply.used + need, reply.entries ++ [(name, ordinal)]⟩)

/-- The entries of one reply staged in `bufLen` bytes. -/
def replyOf (bufLen : Nat) (names : List Name) (off : Int) : List (Name × Int) :=
  (readdirResume (fill direntry bufLen) names off {}).entries

/-- What `ll_readdir` replies, once the directory is open. -/
def llReaddir (hideCluster : Bool) (dirents : List Name) (size : Nat) (off : Int) :
    List (Name × Int) :=
  replyOf direntry (min size readdirReplyMax) (originDirNames hideCluster dirents) off

/-! ## What one call stages -/

/-- The entries from `pos` on, numbered. -/
def numbered : Int → List Name → List (Name × Int)
  | _, [] => []
  | pos, name :: names => (name, pos + 1) :: numbered (pos + 1) names

/-- The listing: what can be staged, numbered. -/
def listing (names : List Name) : List (Name × Int) :=
  (numbered 0 (dot :: dotDot :: names)).filter fun entry => entry.1.length < namezLen

/-- The entries above an offset. -/
def above (off : Int) (entries : List (Name × Int)) : List (Name × Int) :=
  entries.filter fun entry => off < entry.2

/-- As many entries as fit, in order. -/
def fitting : Nat → List (Name × Int) → List (Name × Int)
  | _, [] => []
  | left, entry :: entries =>
    if left < direntry entry.1 then []
    else entry :: fitting (left - direntry entry.1) entries

variable {direntry}

theorem walk_entries (bufLen : Nat) (off pos : Int) (names : List Name) (reply : Reply) :
    (walk (fill direntry bufLen) off pos names reply).entries =
      reply.entries ++ fitting direntry (bufLen - reply.used)
        (above off ((numbered pos names).filter fun entry => entry.1.length < namezLen)) := by
  induction names generalizing pos reply with
  | nil => simp [walk, numbered, above, fitting]
  | cons name names ih =>
    rw [walk, numbered]
    by_cases hpast : pos + 1 ≤ off
    · rw [if_pos hpast, ih]
      by_cases hlong : name.length < namezLen
      · rw [List.filter_cons_of_pos (by simpa using hlong), above, above,
          List.filter_cons_of_neg (by simpa using hpast)]
      · rw [List.filter_cons_of_neg (by simpa using hlong)]
    · rw [if_neg hpast]
      by_cases hlong : name.length < namezLen
      · have hhere : above off ((name, pos + 1) ::
            (numbered (pos + 1) names).filter fun entry => entry.1.length < namezLen) =
            (name, pos + 1) :: above off
              ((numbered (pos + 1) names).filter fun entry => entry.1.length < namezLen) :=
          List.filter_cons_of_pos (by simpa using hpast)
        rw [List.filter_cons_of_pos (by simpa using hlong), hhere, fill,
          if_neg (Nat.not_le.mpr hlong), fitting]
        by_cases hfull : bufLen - reply.used < direntry name
        · simp only [if_pos hfull, List.append_nil]
        · simp only [if_neg hfull]
          rw [ih, List.append_assoc, List.singleton_append, Nat.sub_add_eq]
      · rw [List.filter_cons_of_neg (by simpa using hlong), fill,
          if_pos (Nat.not_lt.mp hlong)]
        exact ih _ _

/-- **One call** stages the entries above the offset, as far as they fit. -/
theorem replyOf_eq (bufLen : Nat) (names : List Name) (off : Int) :
    replyOf direntry bufLen names off = fitting direntry bufLen (above off (listing names)) := by
  unfold replyOf readdirResume
  rw [walk_entries]
  rfl

theorem fitting_part (left : Nat) (entries : List (Name × Int)) :
    fitting direntry left entries <+: entries := by
  induction entries generalizing left with
  | nil => exact List.prefix_rfl
  | cons entry entries ih =>
    rw [fitting]
    split
    · exact List.nil_prefix
    · exact List.cons_prefix_cons.mpr ⟨rfl, ih _⟩

/-- A buffer that holds the first entry returns one. -/
theorem fitting_ne_nil {left : Nat} {entry : Name × Int} {entries : List (Name × Int)}
    (h : direntry entry.1 ≤ left) : fitting direntry left (entry :: entries) ≠ [] := by
  rw [fitting, if_neg (Nat.not_lt.mpr h)]
  exact List.cons_ne_nil _ _

/-- A buffer that holds all of them returns all of them. -/
theorem fitting_all {left : Nat} {entries : List (Name × Int)}
    (h : (entries.map fun entry => direntry entry.1).sum ≤ left) :
    fitting direntry left entries = entries := by
  induction entries generalizing left with
  | nil => rfl
  | cons entry entries ih =>
    rw [List.map_cons, List.sum_cons] at h
    rw [fitting, if_neg (by omega), ih (by omega)]

/-! ## The calls one after another -/

/-- Ordinals grow along the listing. -/
theorem numbered_sorted (pos : Int) (names : List Name) :
    ((numbered pos names).map Prod.snd).Pairwise (· < ·) ∧
      ∀ entry ∈ numbered pos names, pos < entry.2 := by
  induction names generalizing pos with
  | nil => simp [numbered]
  | cons name names ih =>
    obtain ⟨hsorted, hlater⟩ := ih (pos + 1)
    rw [numbered]
    refine ⟨?_, ?_⟩
    · rw [List.map_cons, List.pairwise_cons]
      refine ⟨fun o ho => ?_, hsorted⟩
      obtain ⟨entry, hmem, rfl⟩ := List.mem_map.mp ho
      exact hlater entry hmem
    · intro entry hmem
      rcases List.mem_cons.mp hmem with rfl | hmem
      · exact Int.lt_succ pos
      · have := hlater entry hmem
        omega

theorem listing_sorted (names : List Name) :
    (listing names).Pairwise (fun e e' => e.2 < e'.2) ∧ ∀ entry ∈ listing names, 0 < entry.2 := by
  obtain ⟨hsorted, hlater⟩ := numbered_sorted 0 (dot :: dotDot :: names)
  exact ⟨(List.pairwise_map.mp hsorted).filter _,
    fun entry hmem => hlater entry (List.mem_of_mem_filter hmem)⟩

/-- Where the next call resumes: after the last entry that was returned. -/
def resumeAt (off : Int) (page : List (Name × Int)) : Int :=
  match page.getLast? with
  | some entry => entry.2
  | none => off

/-- The calls up to the `k`-th, each with its own buffer: where the next one resumes, and all the
entries returned so far. -/
def calls (direntry : Name → Nat) (bufLen : Nat → Nat) (names : List Name) :
    Nat → Int × List (Name × Int)
  | 0 => (0, [])
  | k + 1 =>
    let before := calls direntry bufLen names k
    let page := replyOf direntry (bufLen k) names before.1
    (resumeAt before.1 page, before.2 ++ page)

/-- After a part of a sorted listing, what is above its last entry is the rest. -/
theorem above_resumeAt {got rest : List (Name × Int)}
    (hsorted : (got ++ rest).Pairwise fun e e' => e.2 < e'.2)
    (hpos : ∀ entry ∈ got ++ rest, 0 < entry.2) :
    above (resumeAt 0 got) (got ++ rest) = rest := by
  obtain ⟨hgot, -, hcross⟩ := List.pairwise_append.mp hsorted
  unfold above
  rw [List.filter_append, List.filter_eq_nil_iff.mpr, List.filter_eq_self.mpr, List.nil_append]
  · intro entry hmem
    rw [decide_eq_true_iff, resumeAt]
    rcases List.eq_nil_or_concat got with rfl | ⟨init, last, rfl⟩
    · exact hpos entry (List.mem_append_right _ hmem)
    · rw [List.concat_eq_append, List.getLast?_concat]
      exact hcross last (by simp) entry hmem
  · intro entry hmem
    rw [decide_eq_true_iff, resumeAt]
    rcases List.eq_nil_or_concat got with rfl | ⟨init, last, rfl⟩
    · cases hmem
    · rw [List.concat_eq_append] at hmem hgot ⊢
      rw [List.getLast?_concat]
      rcases List.mem_append.mp hmem with hinit | hlast
      · exact not_lt.mpr (le_of_lt ((List.pairwise_append.mp hgot).2.2 entry hinit last (by simp)))
      · rw [List.mem_singleton.mp hlast]
        exact lt_irrefl _

theorem resumeAt_append (got page : List (Name × Int)) :
    resumeAt (resumeAt 0 got) page = resumeAt 0 (got ++ page) := by
  rcases List.eq_nil_or_concat page with rfl | ⟨init, last, rfl⟩
  · simp [resumeAt]
  · simp [resumeAt]

section Session

variable {bufLen : Nat → Nat} {names : List Name}

/-- What the calls returned is a part of the listing, and the next one resumes after it. -/
theorem calls_part (k : Nat) :
    ∃ rest, (calls direntry bufLen names k).2 ++ rest = listing names ∧
      (calls direntry bufLen names k).1 = resumeAt 0 (calls direntry bufLen names k).2 ∧
      replyOf direntry (bufLen k) names (calls direntry bufLen names k).1 =
        fitting direntry (bufLen k) rest := by
  have hpage : ∀ (k : Nat) (got rest : List (Name × Int)), got ++ rest = listing names →
      replyOf direntry (bufLen k) names (resumeAt 0 got) = fitting direntry (bufLen k) rest := by
    intro k got rest hparts
    obtain ⟨hsorted, hpos⟩ := listing_sorted names
    rw [← hparts] at hsorted hpos
    rw [replyOf_eq, ← hparts, above_resumeAt hsorted hpos]
  induction k with
  | zero => exact ⟨listing names, rfl, rfl, hpage 0 [] _ rfl⟩
  | succ k ih =>
    obtain ⟨rest, hparts, hoff, hreply⟩ := ih
    obtain ⟨rest', hrest⟩ := @fitting_part direntry (bufLen k) rest
    have hgot : (calls direntry bufLen names (k + 1)).2 =
        (calls direntry bufLen names k).2 ++ fitting direntry (bufLen k) rest := by
      rw [calls, hreply]
    have hnext : (calls direntry bufLen names (k + 1)).1 =
        resumeAt 0 (calls direntry bufLen names (k + 1)).2 := by
      rw [hgot, ← resumeAt_append, ← hoff, calls, hreply]
    have hall : (calls direntry bufLen names (k + 1)).2 ++ rest' = listing names := by
      rw [hgot, List.append_assoc, hrest, hparts]
    exact ⟨rest', hall, hnext, hnext ▸ hpage (k + 1) _ _ hall⟩

/-- A call whose buffer holds an entry returns one while there are any. -/
theorem calls_progress (hquota : ∀ k, ∀ entry ∈ listing names, direntry entry.1 ≤ bufLen k)
    (k : Nat) :
    min k (listing names).length ≤ (calls direntry bufLen names k).2.length := by
  induction k with
  | zero => exact Nat.zero_le _
  | succ k ih =>
    obtain ⟨rest, hparts, -, hreply⟩ := @calls_part direntry bufLen names k
    have hlen := congrArg List.length hparts
    rw [List.length_append] at hlen
    rw [calls, hreply, List.length_append]
    cases rest with
    | nil =>
      rw [List.length_nil] at hlen
      omega
    | cons entry rest =>
      have hmem : entry ∈ listing names := by
        rw [← hparts]
        simp
      have hone : 0 < (fitting direntry (bufLen k) (entry :: rest)).length :=
        List.length_pos_of_ne_nil (fitting_ne_nil (hquota k entry hmem))
      omega

/-- After as many calls as there are entries nothing is left. -/
theorem calls_whole (hquota : ∀ k, ∀ entry ∈ listing names, direntry entry.1 ≤ bufLen k) {k : Nat}
    (hk : (listing names).length ≤ k) : (calls direntry bufLen names k).2 = listing names ∧
      replyOf direntry (bufLen k) names (calls direntry bufLen names k).1 = [] := by
  obtain ⟨rest, hparts, -, hreply⟩ := @calls_part direntry bufLen names k
  have hall := calls_progress hquota k
  have hlen := congrArg List.length hparts
  rw [List.length_append] at hlen
  obtain rfl : rest = [] := List.length_eq_zero_iff.mp (by omega)
  rw [List.append_nil] at hparts
  exact ⟨hparts, hreply⟩

/-- The listing has the names of the directory, in order. -/
theorem listing_names (names : List Name) : (listing names).map Prod.fst =
    (dot :: dotDot :: names).filter fun name => name.length < namezLen := by
  have hnames : ∀ (pos : Int) (all : List Name), (numbered pos all).map Prod.fst = all := by
    intro pos all
    induction all generalizing pos with
    | nil => rfl
    | cons name all ih => rw [numbered, List.map_cons, ih]
  unfold listing
  conv_rhs => rw [← hnames 0 (dot :: dotDot :: names)]
  rw [List.filter_map]
  rfl

/-- **The calls return the listing.** From some call on they have returned all of it and return
nothing more; one call with room for everything returns the same entries, which are the names of the
directory in order, each once. -/
theorem calls_listing (hquota : ∀ k, ∀ entry ∈ listing names, direntry entry.1 ≤ bufLen k) :
    (∀ k, (calls direntry bufLen names k).2 <+: listing names) ∧
    (∀ k, (listing names).length ≤ k →
      (calls direntry bufLen names k).2 = listing names ∧
        replyOf direntry (bufLen k) names (calls direntry bufLen names k).1 = []) ∧
    (∀ unlimited, ((listing names).map fun entry => direntry entry.1).sum ≤ unlimited →
      replyOf direntry unlimited names 0 = listing names) ∧
    (listing names).map Prod.fst =
      (dot :: dotDot :: names).filter fun name => name.length < namezLen := by
  refine ⟨fun k => ?_, fun k => calls_whole hquota, fun unlimited hfits => ?_, listing_names names⟩
  · obtain ⟨rest, hparts, -⟩ := @calls_part direntry bufLen names k
    exact ⟨rest, hparts⟩
  · have hnone : above 0 (listing names) = listing names :=
      List.filter_eq_self.mpr fun entry hmem => by simpa using (listing_sorted names).2 entry hmem
    rw [replyOf_eq, hnone, fitting_all hfits]

/-- libfuse pads an entry to eight bytes; a buffer of 64 takes two short ones. -/
theorem calls_listing_three :
    (calls (fun name => (24 + name.length + 7) / 8 * 8) (fun _ => 64)
      [ascii "one", ascii "two", ascii "three"] 5).2 =
        [(dot, 1), (dotDot, 2), (ascii "one", 3), (ascii "two", 4), (ascii "three", 5)] := by
  have hquota : ∀ entry ∈ listing [ascii "one", ascii "two", ascii "three"],
      (24 + entry.1.length + 7) / 8 * 8 ≤ 64 := by decide
  exact ((@calls_listing _ _ _ fun _ => hquota).2.1 5 (by decide)).1

end Session

/-! ## The calls of `ll_readdir` -/

section Mounted

variable {hideCluster : Bool} {dirents : List Name} {size : Nat → Nat}

/-- As `calls`, with the sizes that the kernel asks for. -/
def llCalls (direntry : Name → Nat) (hideCluster : Bool) (dirents : List Name) (size : Nat → Nat) :
    Nat → Int × List (Name × Int)
  | 0 => (0, [])
  | k + 1 =>
    let before := llCalls direntry hideCluster dirents size k
    let page := llReaddir direntry hideCluster dirents (size k) before.1
    (resumeAt before.1 page, before.2 ++ page)

theorem llCalls_eq (k : Nat) : llCalls direntry hideCluster dirents size k =
    calls direntry (fun k => min (size k) readdirReplyMax) (originDirNames hideCluster dirents)
      k := by
  induction k with
  | zero => rfl
  | succ k ih =>
    rw [llCalls, ih]
    rfl

/-- **What the mount shows is returned, each name once**, when every call has room for an entry; a
directory that holds still is read in as many calls as it has entries, at most. -/
theorem llReaddir_listing
    (hroom : ∀ k, ∀ name ∈ dot :: dotDot :: originDirNames hideCluster dirents,
      direntry name ≤ min (size k) readdirReplyMax) {k : Nat} (hk : dirents.length + 2 ≤ k) :
    (llCalls direntry hideCluster dirents size k).2.map Prod.fst =
        (dot :: dotDot :: originDirNames hideCluster dirents).filter
          (fun name => name.length < namezLen) ∧
      llReaddir direntry hideCluster dirents (size k)
        (llCalls direntry hideCluster dirents size k).1 = [] := by
  have hnames := listing_names (originDirNames hideCluster dirents)
  have hquota : ∀ k, ∀ entry ∈ listing (originDirNames hideCluster dirents),
      direntry entry.1 ≤ min (size k) readdirReplyMax := by
    intro k entry hentry
    have hname := List.mem_map_of_mem (f := Prod.fst) hentry
    rw [hnames] at hname
    exact hroom k _ (List.mem_of_mem_filter hname)
  have hlen : (listing (originDirNames hideCluster dirents)).length ≤ k := by
    have hshown : (originDirNames hideCluster dirents).length ≤ dirents.length :=
      List.length_filter_le _ _
    have hfilter := List.length_filter_le (fun name => decide (name.length < namezLen))
      (dot :: dotDot :: originDirNames hideCluster dirents)
    rw [← hnames, List.length_map, List.length_cons, List.length_cons] at hfilter
    omega
  obtain ⟨hall, hnone⟩ := calls_whole hquota hlen
  rw [llCalls_eq, hall]
  exact ⟨hnames, hnone⟩

end Mounted

end Readdir

end ModelFs
