import ModelFs.Lib.Bytes
import ModelFs.Lib.Sha256

/-!
# What an update trusts

`decide` lets a downloaded binary replace the running one when the asset and the list of checksums
have URLs that `trustedGithubUrl` accepts, and the digest of the asset is in the list. The host is
cut out of the URL by a search for the first slash. A client that follows the grammar of URLs ends
the authority at a question mark or a number sign too.

* `trustedGithubUrl_iff` — the URLs that are accepted, put together from their parts.
* `update_hosts` — **exactly when an accepted URL leads to a host of GitHub**, and what a verdict of
  `replaced` rests on.
-/

namespace ModelFs.Update

/-! ## Versions -/

def isDigit (b : UInt8) : Bool := 48 ≤ b.toNat && b.toNat ≤ 57

def isHex (b : UInt8) : Bool :=
  isDigit b || (65 ≤ b.toNat && b.toNat ≤ 70) || (97 ≤ b.toNat && b.toNat ≤ 102)

def isAlphanumeric (b : UInt8) : Bool :=
  isDigit b || (65 ≤ b.toNat && b.toNat ≤ 90) || (97 ≤ b.toNat && b.toNat ≤ 122)

def maxUsize : Nat := 2 ^ 64 - 1

/-- The loop of `std.fmt.parseUnsigned(usize, _, 10)`, which passes over underscores. -/
def parseUnsignedLoop : List UInt8 → Nat → Option Nat
  | [], acc => some acc
  | c :: s, acc =>
    if c = 95 then parseUnsignedLoop s acc
    else if ¬ isDigit c then none
    else if maxUsize < acc * 10 + (c.toNat - 48) then none
    else parseUnsignedLoop s (acc * 10 + (c.toNat - 48))

def parseUnsigned (s : List UInt8) : Option Nat :=
  if s = [] then none
  else if s.head? = some 95 ∨ s.getLast? = some 95 then none
  else parseUnsignedLoop s 0

/-- `std.SemanticVersion`. -/
structure SemanticVersion where
  major : Nat
  minor : Nat
  patch : Nat
  pre : Option (List UInt8)
  build : Option (List UInt8)

def parseNum (text : List UInt8) : Option Nat :=
  if 1 < text.length ∧ text.head? = some 48 then none else parseUnsigned text

def identifierOk (id : List UInt8) : Bool :=
  !id.isEmpty && id.all fun c => isAlphanumeric c || c == 45

def preIdentifierOk (id : List UInt8) : Bool :=
  identifierOk id && (!id.all isDigit || (parseNum id).isSome)

/-- `std.SemanticVersion.parse`. -/
def SemanticVersion.parse (text : List UInt8) : Option SemanticVersion :=
  let extraIndex := text.findIdx? fun c => c == 45 || c == 43
  let required := text.take (extraIndex.getD text.length)
  match required.splitOn 46 with
  | [major, minor, patch] => do
    let major ← parseNum major
    let minor ← parseNum minor
    let patch ← parseNum patch
    match extraIndex with
    | none => some ⟨major, minor, patch, none, none⟩
    | some i =>
      let extra := text.drop i
      let buildIndex := findScalar 43 extra
      let pre :=
        if extra.head? = some 45 then some ((extra.take (buildIndex.getD extra.length)).drop 1)
        else none
      let build :=
        if extra.head? = some 45 then buildIndex.map fun idx => extra.drop (idx + 1)
        else some (extra.drop 1)
      if ¬ pre.all (fun s => (s.splitOn 46).all preIdentifierOk) then none
      else if ¬ build.all (fun s => (s.splitOn 46).all identifierOk) then none
      else some ⟨major, minor, patch, pre, build⟩
  | _ => none

/-- `std.mem.order`. -/
def memOrder : List UInt8 → List UInt8 → Ordering
  | [], [] => .eq
  | [], _ :: _ => .lt
  | _ :: _, [] => .gt
  | a :: s, b :: t => if a < b then .lt else if b < a then .gt else memOrder s t

/-- The identifiers of two pre-releases, one by one. Those of a parsed version are numbers of a
`usize` or no numbers. -/
def orderPre : List (List UInt8) → List (List UInt8) → Ordering
  | [], _ :: _ => .lt
  | [], [] => .eq
  | _ :: _, [] => .gt
  | lid :: ls, rid :: rs =>
    match parseUnsigned lid, parseUnsigned rid with
    | some _, none => .lt
    | none, some _ => .gt
    | some lnum, some rnum =>
      if lnum < rnum then .lt else if rnum < lnum then .gt else orderPre ls rs
    | none, none =>
      match memOrder lid rid with
      | .eq => orderPre ls rs
      | o => o

/-- `std.SemanticVersion.order`. -/
def SemanticVersion.order (l r : SemanticVersion) : Ordering :=
  if l.major < r.major then .lt
  else if r.major < l.major then .gt
  else if l.minor < r.minor then .lt
  else if r.minor < l.minor then .gt
  else if l.patch < r.patch then .lt
  else if r.patch < l.patch then .gt
  else
    match l.pre, r.pre with
    | some _, none => .lt
    | none, none => .eq
    | none, some _ => .gt
    | some lpre, some rpre => orderPre (lpre.splitOn 46) (rpre.splitOn 46)

def bareTag (tag : List UInt8) : List UInt8 :=
  if (ascii "v").isPrefixOf tag then tag.drop 1 else tag

def sameRelease (running tag : List UInt8) : Bool := running == bareTag tag

def runningIsNewer (running tag : List UInt8) : Bool :=
  match SemanticVersion.parse running with
  | none => false
  | some r =>
    match SemanticVersion.parse (bareTag tag) with
    | none => false
    | some t => r.order t == .gt

/-! ## The gates -/

def hostTrusted (host : List UInt8) : Bool :=
  if host.length = 0 ∨ 253 < host.length then false
  else
    let h := host.map toLower
    if h = ascii "github.com" then true
    else if (ascii ".github.com").isSuffixOf h then true
    else (ascii ".githubusercontent.com").isSuffixOf h

/-- What must not be behind the scheme: an at sign, a backslash, blanks, line ends. -/
def refused : List UInt8 := [64, 92, 32, 9, 13, 10]

def trustedGithubUrl (url : List UInt8) : Bool :=
  if url.length < 8 then false
  else if (url.take 8).map toLower ≠ ascii "https://" then false
  else
    let rest := url.drop 8
    if rest.any (· ∈ refused) then false
    else
      let slash := (findScalar 47 rest).getD rest.length
      let host := rest.take slash
      match findScalar 58 host with
      | some colon =>
        let port := host.drop (colon + 1)
        if port.length = 0 then false
        else if port.any (fun c => !isDigit c) then false
        else hostTrusted (host.take colon)
      | none => hostTrusted host

/-- `std.mem.trimEnd`. -/
def trimEnd (set s : List UInt8) : List UInt8 := s.rdropWhile (· ∈ set)

/-- The loop of `parseChecksum`, over the lines. -/
def checksumIn (asset_name : List UInt8) : List (List UInt8) → Option (List UInt8)
  | [] => none
  | raw_line :: lines =>
    let line := trimEnd [13, 32, 9] raw_line
    if line.length < 66 then checksumIn asset_name lines
    else
      let hex := line.take 64
      if ¬ hex.all isHex then checksumIn asset_name lines
      else
        let sep := (line.drop 64).take 2
        if sep ≠ ascii "  " ∧ sep ≠ ascii " *" then checksumIn asset_name lines
        else if line.drop 66 = asset_name then some hex
        else checksumIn asset_name lines

def parseChecksum (sums_text asset_name : List UInt8) : Option (List UInt8) :=
  checksumIn asset_name (sums_text.splitOn 10)

def hexDigit (n : Nat) : UInt8 := if n < 10 then UInt8.ofNat (48 + n) else UInt8.ofNat (87 + n)

/-- `std.fmt.bytesToHex(_, .lower)`. -/
def bytesToHex (bytes : List UInt8) : List UInt8 :=
  bytes.flatMap fun b => [hexDigit (b.toNat / 16), hexDigit (b.toNat % 16)]

def checksumMatches (asset_bytes expected_hex : List UInt8) : Bool :=
  if expected_hex.length ≠ 64 then false
  else
    let got := bytesToHex (Sha256.hash asset_bytes)
    (expected_hex.zip got).all fun (c, g) => toLower c == g

inductive Verdict
  | current
  | ahead
  | unsupportedTarget
  | missingAsset
  | missingChecksums
  | checksumNotFound
  | untrustedUrl
  | checksumMismatch
  | replaced
deriving DecidableEq, Repr

structure Inputs where
  running : List UInt8
  tag : List UInt8
  asset_name : Option (List UInt8)
  asset_url : Option (List UInt8)
  asset_bytes : Option (List UInt8)
  sums_url : Option (List UInt8)
  sums_bytes : Option (List UInt8)

def decide (i : Inputs) : Verdict :=
  if sameRelease i.running i.tag then .current
  else if runningIsNewer i.running i.tag then .ahead
  else
    match i.asset_name with
    | none => .unsupportedTarget
    | some name =>
      match i.asset_url with
      | none => .missingAsset
      | some a_url =>
        if ¬ trustedGithubUrl a_url then .untrustedUrl
        else
          match i.sums_url with
          | none => .missingChecksums
          | some s_url =>
            if ¬ trustedGithubUrl s_url then .untrustedUrl
            else
              match i.asset_bytes with
              | none => .missingAsset
              | some bytes =>
                match i.sums_bytes with
                | none => .missingChecksums
                | some sums =>
                  match parseChecksum sums name with
                  | none => .checksumNotFound
                  | some expected_hex =>
                    if ¬ checksumMatches bytes expected_hex then .checksumMismatch
                    else .replaced

/-! ## The host of a URL -/

/-- What ends an authority: a slash, a question mark, a number sign. -/
def authorityEnds : List UInt8 := [47, 63, 35]

/-- The authority without the part up to the at sign. -/
def withoutUserinfo (authority : List UInt8) : List UInt8 := authority.rtakeWhile (· ≠ 64)

/-- The authority without a last colon that only digits follow. -/
def withoutPort (authority : List UInt8) : List UInt8 :=
  let port := authority.rtakeWhile (· ≠ 58)
  if 58 ∈ authority ∧ port.all isDigit then authority.take (authority.length - (port.length + 1))
  else authority

/-- The host that a client of the URL connects to, by the grammar of URLs. -/
def connectHost (url : List UInt8) : Option (List UInt8) :=
  if startsWithIgnoreCase url (ascii "https://") then
    some (withoutPort (withoutUserinfo ((url.drop 8).takeWhile (· ∉ authorityEnds))))
  else none

/-- The names below a domain of GitHub. -/
def GithubBelow (host : List UInt8) : Prop :=
  ascii ".github.com" <:+ host.map toLower ∨ ascii ".githubusercontent.com" <:+ host.map toLower

def GithubHost (host : List UInt8) : Prop :=
  host.map toLower = ascii "github.com" ∨ GithubBelow host

def FromGithub (url : List UInt8) : Prop := ∃ host, connectHost url = some host ∧ GithubHost host

def IsScheme (scheme : List UInt8) : Prop := scheme.map toLower = ascii "https://"

def IsPort (port : List UInt8) : Prop :=
  port = [] ∨ ∃ digits, digits ≠ [] ∧ (∀ b ∈ digits, isDigit b) ∧ port = 58 :: digits

/-- The text of a host, from the scheme to the first slash, has a mark in it that ends the
authority, and what follows the mark is below a domain of GitHub, where what stands before it is
not one. -/
def HidesHost (url : List UInt8) : Prop :=
  ∃ scheme host mark tail port rest, url = scheme ++ (host ++ mark :: tail ++ port ++ rest) ∧
    IsScheme scheme ∧ (∀ b ∈ host ++ mark :: tail ++ port ++ rest, b ∉ refused) ∧
    (∀ b ∈ host, b ∉ authorityEnds ∧ b ≠ 58) ∧ (mark = 63 ∨ mark = 35) ∧
    (∀ b ∈ tail, b ≠ 47 ∧ b ≠ 58) ∧ IsPort port ∧ (∀ b ∈ rest.head?, b = 47) ∧
    (host ++ mark :: tail).length ≤ 253 ∧ GithubBelow tail ∧ ¬ GithubHost host

theorem hostTrusted_iff {host : List UInt8} :
    hostTrusted host ↔ host.length ≤ 253 ∧ GithubHost host := by
  unfold hostTrusted GithubHost GithubBelow
  dsimp only
  split_ifs with hlen hname hbelow
  · simp only [false_iff, not_and]
    intro hshort
    have hnil : host = [] := List.eq_nil_of_length_eq_zero (by omega)
    rw [hnil]
    decide
  · simp only [true_iff]
    exact ⟨by omega, .inl hname⟩
  · simp only [true_iff]
    exact ⟨by omega, .inr (.inl (List.isSuffixOf_iff_suffix.mp hbelow))⟩
  · rw [List.isSuffixOf_iff_suffix] at hbelow ⊢
    constructor
    · exact fun h => ⟨by omega, .inr (.inr h)⟩
    · rintro ⟨-, h | h | h⟩
      · exact absurd h hname
      · exact absurd h hbelow
      · exact h

/-- The text before the first of a byte. -/
theorem take_findScalar {b : UInt8} {before rest : List UInt8} (hbefore : b ∉ before)
    (hrest : ∀ x ∈ rest.head?, x = b) :
    (before ++ rest).take ((findScalar b (before ++ rest)).getD (before ++ rest).length) =
      before := by
  cases rest with
  | nil =>
    rw [List.append_nil, findScalar_none hbefore, Option.getD_none, List.take_length]
  | cons x rest =>
    obtain rfl : x = b := hrest x rfl
    rw [findScalar_append hbefore, Option.getD_some, List.take_left]

theorem exists_before (b : UInt8) (s : List UInt8) :
    ∃ before rest, s = before ++ rest ∧ b ∉ before ∧ ∀ x ∈ rest.head?, x = b := by
  cases hfind : findScalar b s with
  | none => exact ⟨s, [], (List.append_nil s).symm, not_mem_of_findScalar hfind, by simp⟩
  | some i =>
    obtain ⟨before, rest, rfl, hnot, -⟩ := findScalar_eq_some hfind
    exact ⟨before, b :: rest, rfl, hnot, by simp⟩

theorem length_of_isScheme {scheme : List UInt8} (h : IsScheme scheme) : scheme.length = 8 := by
  have hlen := congrArg List.length h
  rwa [List.length_map] at hlen

theorem not_mem_port {port : List UInt8} (h : IsPort port) : 47 ∉ port := by
  obtain rfl | ⟨digits, -, hdigits, rfl⟩ := h
  · exact List.not_mem_nil
  · rw [List.mem_cons, not_or]
    exact ⟨by decide, fun hmem => absurd (hdigits 47 hmem) (by decide)⟩

/-- **The URLs that are accepted**, from their parts: up to the first slash there is a trusted name,
and a port may follow it. -/
theorem trustedGithubUrl_iff {url : List UInt8} :
    trustedGithubUrl url ↔ ∃ scheme host port rest, url = scheme ++ (host ++ port ++ rest) ∧
      IsScheme scheme ∧ (∀ b ∈ host ++ port ++ rest, b ∉ refused) ∧
      (∀ b ∈ host, b ≠ 47 ∧ b ≠ 58) ∧ IsPort port ∧ (∀ b ∈ rest.head?, b = 47) ∧
      hostTrusted host := by
  constructor
  · intro h
    unfold trustedGithubUrl at h
    dsimp only at h
    split_ifs at h with hshort hscheme hbad
    have hurl := (List.take_append_drop 8 url).symm
    obtain ⟨cut, rest, hcut, hslash, hrest⟩ := exists_before 47 (url.drop 8)
    rw [hcut, take_findScalar hslash hrest] at h
    have hclean : ∀ b ∈ cut ++ rest, b ∉ refused := by
      intro b hb hmem
      exact hbad (List.any_eq_true.mpr ⟨b, hcut ▸ hb, by simpa using hmem⟩)
    cases hcolon : findScalar 58 cut with
    | none =>
      rw [hcolon] at h
      have hnot := not_mem_of_findScalar hcolon
      refine ⟨url.take 8, cut, [], rest, ?_, not_not.mp hscheme, by rwa [List.append_nil], ?_,
        .inl rfl, hrest, h⟩
      · rw [List.append_nil, ← hcut]
        exact hurl
      · exact fun b hb => ⟨fun heq => hslash (heq ▸ hb), fun heq => hnot (heq ▸ hb)⟩
    | some colon =>
      rw [hcolon] at h
      obtain ⟨host, port, rfl, hnot, rfl⟩ := findScalar_eq_some hcolon
      simp only [List.take_left, List.drop_length_add_append, List.drop_one, List.tail_cons] at h
      split_ifs at h with hempty hdigits
      refine ⟨url.take 8, host, 58 :: port, rest, ?_, not_not.mp hscheme, hclean, ?_,
        .inr ⟨port, ?_, ?_, rfl⟩, hrest, h⟩
      · rw [← hcut]
        exact hurl
      · exact fun b hb => ⟨fun heq => hslash (heq ▸ List.mem_append_left _ hb),
          fun heq => hnot (heq ▸ hb)⟩
      · exact fun hnil => hempty (by rw [hnil, List.length_nil])
      · intro b hb
        by_contra hdigit
        exact hdigits (List.any_eq_true.mpr ⟨b, hb, by simpa using hdigit⟩)
  · rintro ⟨scheme, host, port, rest, rfl, hscheme, hclean, hhost, hport, hrest, htrusted⟩
    have hlen := length_of_isScheme hscheme
    have hname : ¬ scheme.map toLower ≠ ascii "https://" := not_not.mpr hscheme
    have hslash : 47 ∉ host ++ port := by
      rw [List.mem_append, not_or]
      exact ⟨fun hmem => (hhost 47 hmem).1 rfl, not_mem_port hport⟩
    have hbad : ¬ (host ++ port ++ rest).any (· ∈ refused) = true := by
      simp only [List.any_eq_true, not_exists, not_and]
      exact fun b hb hmem => hclean b hb (by simpa using hmem)
    unfold trustedGithubUrl
    dsimp only
    rw [if_neg (by rw [List.length_append]; omega), List.take_left' hlen, List.drop_left' hlen,
      if_neg hname, if_neg hbad, take_findScalar hslash hrest]
    have hcolon : 58 ∉ host := fun hmem => (hhost 58 hmem).2 rfl
    obtain rfl | ⟨digits, hne, hdigits, rfl⟩ := hport
    · rw [List.append_nil, findScalar_none hcolon]
      exact htrusted
    · rw [findScalar_append hcolon]
      simp only [List.take_left, List.drop_length_add_append, List.drop_one, List.tail_cons]
      have hlong : ¬ digits.length = 0 := fun hnil => hne (List.eq_nil_of_length_eq_zero hnil)
      have hall : ¬ digits.any (fun c => !isDigit c) = true := by
        simp only [List.any_eq_true, not_exists, not_and]
        intro b hb
        simpa using hdigits b hb
      rw [if_neg hlong, if_neg hall]
      exact htrusted

/-! ## The host that is contacted -/

theorem withoutPort_append {host port : List UInt8} (hhost : 58 ∉ host) (hport : IsPort port) :
    withoutPort (host ++ port) = host := by
  unfold withoutPort
  dsimp only
  obtain rfl | ⟨digits, -, hdigits, rfl⟩ := hport
  · rw [List.append_nil, if_neg fun h => hhost h.1]
  · have hnot : ∀ b ∈ digits.reverse, b ≠ 58 := by
      intro b hb heq
      exact absurd (hdigits b (List.mem_reverse.mp hb)) (by rw [heq]; decide)
    have hcut : (host ++ 58 :: digits).rtakeWhile (· ≠ 58) = digits := by
      rw [List.rtakeWhile, List.reverse_append, List.reverse_cons, List.append_assoc,
        List.takeWhile_append_of_pos (by simpa using hnot), List.singleton_append,
        List.takeWhile_cons_of_neg (by decide), List.append_nil, List.reverse_reverse]
    have hlen : (host ++ 58 :: digits).length - (digits.length + 1) = host.length := by
      rw [List.length_append, List.length_cons]
      omega
    rw [hcut, hlen, List.take_left]
    exact if_pos ⟨by simp, List.all_eq_true.mpr hdigits⟩

/-- **The host** of a URL that has no user information. -/
theorem connectHost_append {scheme host port rest : List UInt8} (hscheme : IsScheme scheme)
    (hhost : ∀ b ∈ host, b ∉ authorityEnds ∧ b ≠ 58 ∧ b ≠ 64) (hport : IsPort port)
    (hrest : ∀ b ∈ rest.head?, b ∈ authorityEnds) :
    connectHost (scheme ++ (host ++ port ++ rest)) = some host := by
  have hname : startsWithIgnoreCase (scheme ++ (host ++ port ++ rest)) (ascii "https://") := by
    refine startsWithIgnoreCase_iff.mpr ⟨scheme, _, rfl, hscheme.trans ?_⟩
    decide
  have hcolon : 58 ∉ host := fun hmem => (hhost 58 hmem).2.1 rfl
  have hplain : ∀ b ∈ host ++ port, b ∉ authorityEnds ∧ b ≠ 64 := by
    intro b hb
    obtain hb | hb := List.mem_append.mp hb
    · exact ⟨(hhost b hb).1, (hhost b hb).2.2⟩
    · obtain rfl | ⟨digits, -, hdigits, rfl⟩ := hport
      · cases hb
      · obtain rfl | hb := List.mem_cons.mp hb
        · decide
        · constructor
          · intro hmem
            have hends : (authorityEnds.all fun x => !isDigit x) = true := by decide
            have hno := List.all_eq_true.mp hends b hmem
            rw [hdigits b hb] at hno
            cases hno
          · exact fun heq => absurd (hdigits b hb) (by rw [heq]; decide)
  have hauthority : (host ++ port ++ rest).takeWhile (· ∉ authorityEnds) = host ++ port := by
    rw [List.takeWhile_append_of_pos (by simpa using fun b hb => (hplain b hb).1)]
    cases rest with
    | nil => rw [List.takeWhile_nil, List.append_nil]
    | cons x rest =>
      have hx : x ∈ authorityEnds := hrest x rfl
      rw [List.takeWhile_cons_of_neg (by simpa using hx), List.append_nil]
  have huser : withoutUserinfo (host ++ port) = host ++ port := by
    unfold withoutUserinfo
    rw [List.rtakeWhile_eq_self_iff]
    simpa using fun b hb => (hplain b hb).2
  rw [connectHost, if_pos hname, List.drop_left' (length_of_isScheme hscheme), hauthority, huser,
    withoutPort_append hcolon hport]

/-- A suffix does not reach over a byte it does not have. -/
theorem suffix_behind {s x y : List UInt8} {m : UInt8} (hm : m ∉ s) :
    s <:+ x ++ m :: y ↔ s <:+ y := by
  constructor
  · intro h
    obtain hin | hover := List.suffix_or_suffix_of_suffix h (List.suffix_append x (m :: y))
    · obtain heq | hin := List.suffix_cons_iff.mp hin
      · exact absurd (heq ▸ List.mem_cons_self) hm
      · exact hin
    · exact absurd (hover.subset List.mem_cons_self) hm
  · exact fun h => h.trans ((List.suffix_cons m y).trans (List.suffix_append x (m :: y)))

theorem githubHost_behind {host tail : List UInt8} {mark : UInt8} (hmark : mark = 63 ∨ mark = 35) :
    GithubHost (host ++ mark :: tail) ↔ GithubBelow tail := by
  have hlower : toLower mark = mark := by
    obtain rfl | rfl := hmark <;> decide
  have hnot : mark ∉ ascii "github.com" ∧ mark ∉ ascii ".github.com" ∧
      mark ∉ ascii ".githubusercontent.com" := by
    obtain rfl | rfl := hmark <;> decide
  have hname : host.map toLower ++ mark :: tail.map toLower ≠ ascii "github.com" := by
    intro heq
    exact hnot.1 (heq ▸ List.mem_append_right _ List.mem_cons_self)
  unfold GithubHost GithubBelow
  rw [List.map_append, List.map_cons, hlower, suffix_behind hnot.2.1, suffix_behind hnot.2.2,
    or_iff_right hname]

/-- **An accepted URL leads to a host of GitHub** unless its text hides another one. -/
theorem fromGithub_iff {url : List UInt8} (h : trustedGithubUrl url) :
    FromGithub url ↔ ¬ HidesHost url := by
  constructor
  · rintro ⟨found, hfound, hgithub⟩ hides
    obtain ⟨scheme, host, mark, tail, port, rest, rfl, hscheme, hclean, hhost, hmark, -, -, -, -, -,
      hnot⟩ := hides
    have hconnect : connectHost (scheme ++ (host ++ [] ++ mark :: (tail ++ (port ++ rest)))) =
        some host := by
      refine connectHost_append hscheme (fun b hb => ⟨(hhost b hb).1, (hhost b hb).2, ?_⟩)
        (.inl rfl) ?_
      · intro heq
        exact hclean b (by simp [hb]) (by rw [heq]; decide)
      · intro b hb
        obtain rfl : mark = b := by simpa using hb
        obtain rfl | rfl := hmark <;> decide
    simp only [List.append_nil, List.append_assoc, List.cons_append] at hfound hconnect
    rw [hconnect, Option.some_inj] at hfound
    exact hnot (hfound ▸ hgithub)
  · intro hplain
    obtain ⟨scheme, host, port, rest, rfl, hscheme, hclean, hhost, hport, hrest, htrusted⟩ :=
      trustedGithubUrl_iff.mp h
    obtain ⟨hshort, hgithub⟩ := hostTrusted_iff.mp htrusted
    have hat : ∀ b ∈ host, b ≠ 64 := by
      intro b hb heq
      exact hclean b (by simp [hb]) (by rw [heq]; decide)
    -- the name up to the first mark
    have hsplit := (List.takeWhile_append_dropWhile (p := (· ∉ authorityEnds)) (l := host)).symm
    have hfirst : ∀ b ∈ host.takeWhile (· ∉ authorityEnds), b ∉ authorityEnds := by
      intro b hb
      simpa using List.mem_takeWhile_imp hb
    cases hdrop : host.dropWhile (· ∉ authorityEnds) with
    | nil =>
      rw [hdrop, List.append_nil] at hsplit
      refine ⟨host,
        connectHost_append hscheme (fun b hb => ⟨?_, (hhost b hb).2, hat b hb⟩) hport ?_, hgithub⟩
      · exact hfirst b (hsplit ▸ hb)
      · exact fun b hb => by rw [hrest b hb]; decide
    | cons mark tail =>
      have hends :=
        List.head?_dropWhile_not (fun b : UInt8 => Decidable.decide (b ∉ authorityEnds)) host
      rw [hdrop] at hsplit hends
      generalize host.takeWhile (· ∉ authorityEnds) = name at hsplit hfirst
      subst hsplit
      have hmark : mark = 63 ∨ mark = 35 := by
        have hslash := (hhost mark (by simp)).1
        have himp : ¬ mark = 63 → mark = 35 := by simpa [authorityEnds, hslash] using hends
        exact or_iff_not_imp_left.mpr himp
      have hname : ∀ b ∈ name, b ∉ authorityEnds ∧ b ≠ 58 := fun b hb =>
        ⟨hfirst b hb, (hhost b (List.mem_append_left _ hb)).2⟩
      have hconnect : connectHost (scheme ++ (name ++ [] ++ mark :: (tail ++ (port ++ rest)))) =
          some name := by
        refine connectHost_append hscheme (fun b hb => ⟨(hname b hb).1, (hname b hb).2, ?_⟩)
          (.inl rfl) ?_
        · exact hat b (List.mem_append_left _ hb)
        · intro b hb
          obtain rfl : mark = b := by simpa using hb
          obtain rfl | rfl := hmark <;> decide
      by_contra hnot
      refine hplain ⟨scheme, name, mark, tail, port, rest, rfl, hscheme, hclean, hname, hmark, ?_,
        hport, hrest, hshort, (githubHost_behind hmark).mp hgithub, ?_⟩
      · exact fun b hb => hhost b (by simp [hb])
      · intro hgood
        refine hnot ⟨name, ?_, hgood⟩
        simpa only [List.append_nil, List.append_assoc, List.cons_append] using hconnect

theorem trusted_of_hidesHost {url : List UInt8} (h : HidesHost url) : trustedGithubUrl url := by
  obtain ⟨scheme, host, mark, tail, port, rest, rfl, hscheme, hclean, hhost, hmark, htail, hport,
    hrest, hshort, hbelow, -⟩ := h
  refine trustedGithubUrl_iff.mpr ⟨scheme, host ++ mark :: tail, port, rest, rfl, hscheme, hclean,
    ?_, hport, hrest, hostTrusted_iff.mpr ⟨hshort, (githubHost_behind hmark).mpr hbelow⟩⟩
  intro b hb
  obtain hb | hb := List.mem_append.mp hb
  · exact ⟨fun heq => (hhost b hb).1 (by rw [heq]; decide), (hhost b hb).2⟩
  · obtain rfl | hb := List.mem_cons.mp hb
    · obtain rfl | rfl := hmark <;> decide
    · exact htail b hb

/-! ## Checksums -/

/-- A line of the list of checksums, for `name`. -/
def IsSum (line name hex : List UInt8) : Prop :=
  hex.length = 64 ∧ (∀ b ∈ hex, isHex b) ∧
    ∃ sep, (sep = ascii "  " ∨ sep = ascii " *") ∧ trimEnd [13, 32, 9] line = hex ++ sep ++ name

/-- The first line for `name` in the text is one for `hex`. -/
def SumsGive (sums name hex : List UInt8) : Prop :=
  ∃ before line after, sums.splitOn 10 = before ++ line :: after ∧
    (∀ l ∈ before, ∀ other, ¬ IsSum l name other) ∧ IsSum line name hex

/-- A line for a name, as the loop cuts it. -/
theorem isSum_iff {raw name hex : List UInt8} :
    IsSum raw name hex ↔
      66 ≤ (trimEnd [13, 32, 9] raw).length ∧ (trimEnd [13, 32, 9] raw).take 64 = hex ∧
      hex.all isHex ∧
      (((trimEnd [13, 32, 9] raw).drop 64).take 2 = ascii "  " ∨
        ((trimEnd [13, 32, 9] raw).drop 64).take 2 = ascii " *") ∧
      (trimEnd [13, 32, 9] raw).drop 66 = name := by
  unfold IsSum
  generalize trimEnd [13, 32, 9] raw = line
  constructor
  · rintro ⟨hlen, hhex, sep, hsep, rfl⟩
    have hsep2 : sep.length = 2 := by obtain rfl | rfl := hsep <;> rfl
    refine ⟨?_, ?_, List.all_eq_true.mpr hhex, ?_, ?_⟩
    · rw [List.length_append, List.length_append]
      omega
    · rw [List.append_assoc, List.take_left' hlen]
    · rw [List.append_assoc, List.drop_left' hlen, List.take_left' hsep2]
      exact hsep
    · exact List.drop_left' (by rw [List.length_append]; omega)
  · rintro ⟨hlong, rfl, hhex, hsep, rfl⟩
    refine ⟨by rw [List.length_take]; omega, List.all_eq_true.mp hhex, _, hsep, ?_⟩
    have hcut : (line.drop 64).drop 2 = line.drop 66 := List.drop_drop
    rw [List.append_assoc, ← hcut, List.take_append_drop, List.take_append_drop]

/-- One line of the loop. -/
theorem checksumIn_cons (name line : List UInt8) (lines : List (List UInt8)) :
    (∃ hex, IsSum line name hex ∧ checksumIn name (line :: lines) = some hex) ∨
    (∀ hex, ¬ IsSum line name hex) ∧ checksumIn name (line :: lines) = checksumIn name lines := by
  simp only [isSum_iff]
  rw [checksumIn]
  dsimp only
  split_ifs with hshort hhex hsep hname
  · exact .inr ⟨fun hex h => absurd h.1 (Nat.not_le.mpr hshort), rfl⟩
  · exact .inr ⟨fun hex h => h.2.2.2.1.elim hsep.1 hsep.2, rfl⟩
  · refine .inl ⟨_, ⟨Nat.not_lt.mp hshort, rfl, hhex, ?_, hname⟩, rfl⟩
    exact or_iff_not_imp_left.mpr fun hne => not_not.mp fun hne' => hsep ⟨hne, hne'⟩
  · exact .inr ⟨fun hex h => hname h.2.2.2.2, rfl⟩
  · exact .inr ⟨fun hex h => hhex (h.2.1 ▸ h.2.2.1), rfl⟩

theorem isSum_unique {line name hex other : List UInt8} (h : IsSum line name hex)
    (h' : IsSum line name other) : hex = other :=
  (isSum_iff.mp h).2.1.symm.trans (isSum_iff.mp h').2.1

theorem checksumIn_iff {lines : List (List UInt8)} {name hex : List UInt8} :
    checksumIn name lines = some hex ↔
      ∃ before line after, lines = before ++ line :: after ∧
        (∀ l ∈ before, ∀ other, ¬ IsSum l name other) ∧ IsSum line name hex := by
  induction lines with
  | nil => simp [checksumIn]
  | cons line lines ih =>
    obtain ⟨found, hfound, heq⟩ | ⟨hnot, heq⟩ := checksumIn_cons name line lines
    · rw [heq, Option.some_inj]
      constructor
      · rintro rfl
        exact ⟨[], line, lines, rfl, by simp, hfound⟩
      · rintro ⟨before, l, after, hsplit, hbefore, hl⟩
        cases before with
        | nil =>
          obtain ⟨rfl, -⟩ := List.cons.inj hsplit
          exact isSum_unique hfound hl
        | cons x before =>
          obtain ⟨rfl, -⟩ := List.cons.inj hsplit
          exact absurd hfound (hbefore line List.mem_cons_self found)
    · rw [heq, ih]
      constructor
      · rintro ⟨before, l, after, rfl, hbefore, hl⟩
        exact ⟨line :: before, l, after, rfl, List.forall_mem_cons.mpr ⟨hnot, hbefore⟩, hl⟩
      · rintro ⟨before, l, after, hsplit, hbefore, hl⟩
        cases before with
        | nil =>
          obtain ⟨rfl, -⟩ := List.cons.inj hsplit
          exact absurd hl (hnot hex)
        | cons x before =>
          obtain ⟨rfl, rfl⟩ := List.cons.inj hsplit
          exact ⟨before, l, after, rfl, (List.forall_mem_cons.mp hbefore).2, hl⟩

theorem length_bytesToHex (bytes : List UInt8) : (bytesToHex bytes).length = 2 * bytes.length := by
  induction bytes with
  | nil => rfl
  | cons b bytes ih =>
    have hcons : bytesToHex (b :: bytes) =
        hexDigit (b.toNat / 16) :: hexDigit (b.toNat % 16) :: bytesToHex bytes := rfl
    rw [hcons, List.length_cons, List.length_cons, ih, List.length_cons]
    omega

/-- The comparison of two strings, byte by byte. -/
theorem all_zip_iff {s t : List UInt8} (hlen : s.length = t.length) :
    ((s.zip t).all fun (c, g) => toLower c == g) = true ↔ s.map toLower = t := by
  induction s generalizing t with
  | nil =>
    obtain rfl : t = [] := List.eq_nil_of_length_eq_zero hlen.symm
    simp
  | cons a s ih =>
    cases t with
    | nil => cases hlen
    | cons b t =>
      rw [List.zip_cons_cons, List.all_cons, List.map_cons, List.cons.injEq, Bool.and_eq_true,
        ih (Nat.succ.inj hlen), beq_iff_eq]

theorem checksumMatches_iff {bytes hex : List UInt8} :
    checksumMatches bytes hex ↔
      hex.length = 64 ∧ hex.map toLower = bytesToHex (Sha256.hash bytes) := by
  have hdigest : (bytesToHex (Sha256.hash bytes)).length = 64 := by
    rw [length_bytesToHex, Sha256.length_hash]
  unfold checksumMatches
  dsimp only
  split_ifs with hlen
  · simp only [false_iff, not_and]
    exact fun h => absurd h hlen
  · rw [all_zip_iff (by omega)]
    exact (and_iff_right (not_not.mp hlen)).symm

/-! ## The verdict -/

/-- The asset has the digest that the list of checksums gives for its name. -/
def ChecksumHolds (i : Inputs) : Prop :=
  ∃ name bytes sums hex, i.asset_name = some name ∧ i.asset_bytes = some bytes ∧
    i.sums_bytes = some sums ∧ SumsGive sums name hex ∧
    hex.map toLower = bytesToHex (Sha256.hash bytes)

/-- What a verdict of `replaced` passed. -/
theorem gates_of_replaced {i : Inputs} (h : Update.decide i = .replaced) :
    ∃ a_url s_url, i.asset_url = some a_url ∧ i.sums_url = some s_url ∧ trustedGithubUrl a_url ∧
      trustedGithubUrl s_url ∧ ChecksumHolds i := by
  unfold Update.decide at h
  split_ifs at h
  cases hname : i.asset_name with
  | none =>
    rw [hname] at h
    cases h
  | some name =>
    cases ha : i.asset_url with
    | none =>
      rw [hname, ha] at h
      cases h
    | some a_url =>
      cases hs : i.sums_url with
      | none =>
        simp only [hname, ha, hs] at h
        split_ifs at h
      | some s_url =>
        cases hb : i.asset_bytes with
        | none =>
          simp only [hname, ha, hs, hb] at h
          split_ifs at h
        | some bytes =>
          cases ht : i.sums_bytes with
          | none =>
            simp only [hname, ha, hs, hb, ht] at h
            split_ifs at h
          | some sums =>
            simp only [hname, ha, hs, hb, ht] at h
            split_ifs at h with hatrust hstrust
            cases hex : parseChecksum sums name with
            | none =>
              rw [hex] at h
              cases h
            | some expected =>
              simp only [hex] at h
              split_ifs at h with hmatch
              exact ⟨a_url, s_url, rfl, rfl, hatrust, hstrust, name, bytes, sums, expected, hname,
                hb, ht, checksumIn_iff.mp hex, (checksumMatches_iff.mp hmatch).2⟩

/-- **Where an accepted URL leads**: to a host of GitHub, unless a mark that ends the authority
stands before a tail that looks like one. **What is replaced** has the digest of the list, and the
asset and the list come from GitHub just when neither URL hides its host. -/
theorem update_hosts (url : List UInt8) (i : Inputs) :
    ((trustedGithubUrl url → FromGithub url) ↔ ¬ HidesHost url) ∧
      (Update.decide i = .replaced → ChecksumHolds i ∧
        ∃ a_url s_url, i.asset_url = some a_url ∧ i.sums_url = some s_url ∧
          (FromGithub a_url ∧ FromGithub s_url ↔ ¬ HidesHost a_url ∧ ¬ HidesHost s_url)) := by
  constructor
  · constructor
    · exact fun h hides => (fromGithub_iff (trusted_of_hidesHost hides)).mp
        (h (trusted_of_hidesHost hides)) hides
    · exact fun h htrusted => (fromGithub_iff htrusted).mpr h
  · intro h
    obtain ⟨a_url, s_url, ha, hs, hatrust, hstrust, hsum⟩ := gates_of_replaced h
    exact ⟨hsum, a_url, s_url, ha, hs, and_congr (fromGithub_iff hatrust) (fromGithub_iff hstrust)⟩

/-- A release of the asset `abc` with its checksum, both at one URL. -/
def releaseAt (url : List UInt8) : Inputs where
  running := ascii "0.18.0"
  tag := ascii "v0.19.0"
  asset_name := some (ascii "modelfs-x86_64-linux-musl")
  asset_url := some url
  asset_bytes := some (ascii "abc")
  sums_url := some url
  sums_bytes := some (ascii "ba7816bf8f01cfea414140de5dae2223b00361a396177a9cb410ff61f20015ad " ++
    ascii " modelfs-x86_64-linux-musl\n")

theorem update_hosts_release :
    ChecksumHolds (releaseAt (ascii "https://github.com/maci0/modelfs/releases")) ∧
    FromGithub (ascii "https://github.com/maci0/modelfs/releases") ∧
    ¬ HidesHost (ascii "https://github.com/maci0/modelfs/releases") := by
  have hreplaced : Update.decide (releaseAt (ascii "https://github.com/maci0/modelfs/releases")) =
      .replaced := by
    decide +kernel
  have hgithub : FromGithub (ascii "https://github.com/maci0/modelfs/releases") := by
    refine ⟨ascii "github.com", by decide +kernel, .inl ?_⟩
    decide +kernel
  obtain ⟨hhosts, hgates⟩ :=
    update_hosts (ascii "https://github.com/maci0/modelfs/releases")
      (releaseAt (ascii "https://github.com/maci0/modelfs/releases"))
  exact ⟨(hgates hreplaced).1, hgithub, hhosts.mp fun _ => hgithub⟩

/-- The host of this URL is `evil.com`. It is accepted, and what it serves is installed. -/
theorem update_evil :
    trustedGithubUrl (ascii "https://evil.com?.github.com/x") = true ∧
    connectHost (ascii "https://evil.com?.github.com/x") = some (ascii "evil.com") ∧
    ¬ FromGithub (ascii "https://evil.com?.github.com/x") ∧
    Update.decide (releaseAt (ascii "https://evil.com?.github.com/x")) = .replaced := by
  have hhost : connectHost (ascii "https://evil.com?.github.com/x") = some (ascii "evil.com") := by
    decide +kernel
  refine ⟨by decide +kernel, hhost, ?_, by decide +kernel⟩
  rintro ⟨host, hfound, hgithub⟩
  obtain rfl := Option.some.inj (hhost.symm.trans hfound)
  revert hgithub
  unfold GithubHost GithubBelow
  decide +kernel

end ModelFs.Update
