import ModelFs.CachedCands
import ModelFs.Lib.PutAll
import ModelFs.Lib.Select
import ModelFs.ManifestLoad

/-!
# The cache of `/have` answers

`havePut` keeps at most 32 lines, one for a file at an address. A line that is there is replaced in
place; when there is none and the table is full, the line that `haveVictimLess` puts first makes
room. A put whose allocations fail stores nothing, and drops the line it would have replaced.

* `mem_havePut` — what a put leaves, line by line.
* `victim_iff` — **the line that goes is the first by expiry, file and address**, however the lines
  are ordered.
* `haveCache_history` — **what a lookup finds after any history**: the last put of its key, unless
  that has expired or gone.
-/

namespace ModelFs

namespace Catalog

open Select (scanBest)
open StableSort (StrictTotal)
open ManifestLoad (satAddI64)

def haveTtlMs : Int := 2000

def haveCacheCap : Nat := 32

/-- What a line is looked up by. -/
abbrev LineKey := List UInt8 × List UInt8 × UInt16

def HaveEntry.key (e : HaveEntry) : LineKey := (e.rel, e.ip, e.port)

/-! ## The operations -/

def haveVictimLess (nowMs : Int) (a b : HaveEntry) : Bool :=
  let aDead := decide (a.expiresMs ≤ nowMs)
  let bDead := decide (b.expiresMs ≤ nowMs)
  if aDead ≠ bDead then aDead
  else if a.expiresMs ≠ b.expiresMs then a.expiresMs < b.expiresMs
  else if a.rel < b.rel then true
  else if b.rel < a.rel then false
  else Discover.addrTieLess (a.ip, a.port) (b.ip, b.port)

/-- What `havePut` is called with. -/
structure Put where
  rel : List UInt8
  ip : List UInt8
  port : UInt16
  bits : List UInt8
  pieceSize : Nat
  nowMs : Int
  deriving DecidableEq

/-- Which of its allocations succeed. -/
structure PutMem where
  rel : Bool := true
  ip : Bool := true
  bits : Bool := true
  line : Bool := true
  deriving DecidableEq

def Put.key (p : Put) : LineKey := (p.rel, p.ip, p.port)

/-- The line as it is stored. -/
def Put.toLine (p : Put) : HaveEntry :=
  ⟨p.rel, p.ip, p.port, p.bits, satAddI64 p.nowMs haveTtlMs, p.pieceSize⟩

/-- A line that is there takes the new answer. -/
def Put.onto (p : Put) (e : HaveEntry) : HaveEntry :=
  { e with bits := p.bits, expiresMs := satAddI64 p.nowMs haveTtlMs, pieceSize := p.pieceSize }

/-- The scan for the line that makes room. -/
def victimIdx (nowMs : Int) (cache : List HaveEntry) : Nat :=
  ((scanBest (fun _ => true) (haveVictimLess nowMs) cache 0 none).map Prod.fst).getD 0

def havePut (cache : List HaveEntry) (p : Put) (mem : PutMem) : List HaveEntry :=
  match cache.findIdx? fun e => e.port = p.port ∧ e.rel = p.rel ∧ e.ip = p.ip with
  | some i =>
    if mem.bits then cache.modify i p.onto else cache.eraseIdx i
  | none =>
    let cache :=
      if haveCacheCap ≤ cache.length then cache.eraseIdx (victimIdx p.nowMs cache) else cache
    if mem.rel && mem.ip && mem.bits && mem.line then cache ++ [p.toLine] else cache

/-! ## The order of eviction -/

/-- What a line is ordered by. -/
def HaveEntry.victimKey (e : HaveEntry) : Int × List UInt8 × Discover.Addr :=
  (e.expiresMs, e.rel, e.ip, e.port)

theorem strictTotal_victim : StrictTotal fun a b : Int × List UInt8 × Discover.Addr =>
    a.1 < b.1 ∨ a.1 = b.1 ∧
      (a.2.1 < b.2.1 ∨ a.2.1 = b.2.1 ∧ Discover.addrTieLess a.2.2 b.2.2 = true) := by
  exact StrictTotal.of_lt.lex strictTotal_key

/-- A dead line expires before any that lives, so the order is one of expiry, file and address. -/
theorem haveVictimLess_iff (nowMs : Int) (a b : HaveEntry) :
    haveVictimLess nowMs a b = true ↔
      a.victimKey.1 < b.victimKey.1 ∨ a.victimKey.1 = b.victimKey.1 ∧
        (a.victimKey.2.1 < b.victimKey.2.1 ∨ a.victimKey.2.1 = b.victimKey.2.1 ∧
          Discover.addrTieLess a.victimKey.2.2 b.victimKey.2.2 = true) := by
  unfold haveVictimLess HaveEntry.victimKey
  by_cases hdead : decide (a.expiresMs ≤ nowMs) ≠ decide (b.expiresMs ≤ nowMs)
  · rw [if_pos hdead]
    by_cases ha : a.expiresMs ≤ nowMs
    · have hb : ¬ b.expiresMs ≤ nowMs := by
        intro hb
        exact hdead (by simp [ha, hb])
      have hlt : a.expiresMs < b.expiresMs := by omega
      simp [ha, hlt]
    · have hb : b.expiresMs ≤ nowMs := by
        by_contra hb
        exact hdead (by simp [ha, hb])
      have hnlt : ¬ a.expiresMs < b.expiresMs := by omega
      have hne : ¬ a.expiresMs = b.expiresMs := by omega
      simp [ha, hnlt, hne]
  · rw [if_neg hdead]
    by_cases hexp : a.expiresMs = b.expiresMs
    · simp only [hexp, ne_eq, not_true_eq_false, if_false, lt_irrefl, false_or, true_and]
      by_cases hlt : a.rel < b.rel
      · simp [hlt]
      · by_cases hgt : b.rel < a.rel
        · have hne : ¬ a.rel = b.rel := fun heq => strictTotal_bytes.irrefl _ (heq ▸ hgt)
          simp [hlt, hgt, hne]
        · have heq := strictTotal_bytes.eq_of_not hlt hgt
          simp [heq, strictTotal_bytes.irrefl]
    · simp [hexp]

/-! ## Tables with distinct keys -/

/-- Each key has one line, and there are not too many. -/
structure HaveTable (cache : List HaveEntry) : Prop where
  keys : (cache.map HaveEntry.key).Nodup
  bound : cache.length ≤ haveCacheCap

/-- The line of a key, dead or alive. -/
def lineOf (cache : List HaveEntry) (k : LineKey) : Option HaveEntry :=
  cache.find? fun e => e.key = k

theorem lineOf_eq_some {cache : List HaveEntry} (h : (cache.map HaveEntry.key).Nodup)
    {k : LineKey} {e : HaveEntry} : lineOf cache k = some e ↔ e ∈ cache ∧ e.key = k := by
  unfold lineOf
  exact find?_key_eq_some h

/-- What the loops over the lines compare. -/
theorem key_eq_iff (e : HaveEntry) (rel ip : List UInt8) (port : UInt16) :
    e.key = (rel, ip, port) ↔ e.port = port ∧ e.rel = rel ∧ e.ip = ip := by
  rw [HaveEntry.key, Prod.mk.injEq, Prod.mk.injEq, ← and_assoc, and_comm]

theorem haveLookup_eq (cache : List HaveEntry) (rel ip : List UInt8) (port : UInt16) (nowMs : Int) :
    haveLookup cache rel ip port nowMs =
      (lineOf cache (rel, ip, port)).bind fun e =>
        if e.expiresMs ≤ nowMs then none else some e := by
  have hsame : (fun e : HaveEntry => decide (e.port = port ∧ e.rel = rel ∧ e.ip = ip)) =
      fun e => decide (e.key = (rel, ip, port)) := by
    funext e
    rw [decide_eq_decide, key_eq_iff]
  unfold haveLookup lineOf
  rw [hsame]
  cases cache.find? fun e => decide (e.key = (rel, ip, port)) <;> rfl

/-! ## What one put does -/

/-- The line that makes room for a put. -/
def victim (cache : List HaveEntry) (p : Put) : Option HaveEntry :=
  if (lineOf cache p.key).isSome ∨ cache.length < haveCacheCap then none
  else cache[victimIdx p.nowMs cache]?

/-- The put is stored: its allocations succeed, of which it needs fewer in place. -/
def stored (cache : List HaveEntry) (p : Put) (mem : PutMem) : Bool :=
  mem.bits && ((lineOf cache p.key).isSome || (mem.rel && mem.ip && mem.line))

/-- The line a put adds behind the others. -/
def added (p : Put) (mem : PutMem) : List HaveEntry :=
  if mem.rel && mem.ip && mem.bits && mem.line then [p.toLine] else []

theorem onto_eq {p : Put} {e : HaveEntry} (h : e.key = p.key) : p.onto e = p.toLine := by
  obtain ⟨rel, ip, port, bits, expiresMs, pieceSize⟩ := e
  simp only [HaveEntry.key, Put.key, Prod.mk.injEq] at h
  obtain ⟨rfl, rfl, rfl⟩ := h
  rfl

theorem eraseIdx_place {l₁ l₂ : List HaveEntry} {e : HaveEntry} :
    (l₁ ++ e :: l₂).eraseIdx l₁.length = l₁ ++ l₂ := by
  rw [List.eraseIdx_append_of_length_le (le_refl _), Nat.sub_self, List.eraseIdx_cons_zero]

theorem lineOf_isSome {cache : List HaveEntry} {k : LineKey} :
    (lineOf cache k).isSome = true ↔ ∃ e ∈ cache, e.key = k := by
  unfold lineOf
  rw [List.find?_isSome]
  simp

/-- The scan finds the first line in a full table. -/
theorem victimIdx_spec {cache : List HaveEntry} (hne : cache ≠ []) (nowMs : Int) :
    ∃ v, cache[victimIdx nowMs cache]? = some v ∧
      ∀ e ∈ cache, haveVictimLess nowMs e v = false := by
  have hholds := @Select.scanBest_spec _ _ _ HaveEntry.victimKey (fun _ => true)
    (haveVictimLess nowMs) strictTotal_victim (haveVictimLess_iff nowMs) cache
  unfold victimIdx
  cases hscan : scanBest (fun _ => true) (haveVictimLess nowMs) cache 0 none with
  | none =>
    rw [hscan] at hholds
    obtain ⟨e, he⟩ := List.exists_mem_of_ne_nil cache hne
    exact absurd (hholds e he) (Bool.noConfusion)
  | some jb =>
    rw [hscan] at hholds
    obtain ⟨j, v⟩ := jb
    exact ⟨v, hholds.at_place, fun e he => hholds.best e he rfl⟩

/-- **The three things a put does**: replace its line, add one, or add one for another. -/
theorem havePut_cases (cache : List HaveEntry) (p : Put) (mem : PutMem) :
    (∃ l₁ old l₂, cache = l₁ ++ old :: l₂ ∧ old.key = p.key ∧ victim cache p = none ∧
      stored cache p mem = mem.bits ∧
      havePut cache p mem = l₁ ++ (if mem.bits then [p.toLine] else []) ++ l₂) ∨
    ((∀ e ∈ cache, e.key ≠ p.key) ∧
      stored cache p mem = (mem.rel && mem.ip && mem.bits && mem.line) ∧
      ((cache.length < haveCacheCap ∧ victim cache p = none ∧
          havePut cache p mem = cache ++ added p mem) ∨
        ∃ l₁ v l₂, haveCacheCap ≤ cache.length ∧ cache = l₁ ++ v :: l₂ ∧ victim cache p = some v ∧
          (∀ e ∈ cache, haveVictimLess p.nowMs e v = false) ∧
          havePut cache p mem = l₁ ++ l₂ ++ added p mem)) := by
  have hsame : ∀ e : HaveEntry, decide (e.port = p.port ∧ e.rel = p.rel ∧ e.ip = p.ip) = true ↔
      e.key = p.key := by
    intro e
    rw [decide_eq_true_iff, Put.key, key_eq_iff]
  cases hfind : cache.findIdx? fun e => decide (e.port = p.port ∧ e.rel = p.rel ∧ e.ip = p.ip) with
  | some i =>
    left
    obtain ⟨hi, hkey, -⟩ := List.findIdx?_eq_some_iff_getElem.mp hfind
    have hsome : (lineOf cache p.key).isSome = true :=
      lineOf_isSome.mpr ⟨cache[i], List.getElem_mem hi, (hsame _).mp hkey⟩
    have hstored : stored cache p mem = mem.bits := by
      rw [stored, hsome, Bool.true_or, Bool.and_true]
    have hput : havePut cache p mem =
        if mem.bits then cache.modify i p.onto else cache.eraseIdx i := by
      rw [havePut, hfind]
    obtain ⟨l₁, old, l₂, hsplit, hplace, hmodify⟩ := List.exists_of_modify p.onto hi
    have hold : old.key = p.key := by
      have hat : cache[i] = old := by simp [hsplit, ← hplace]
      rw [← hat]
      exact (hsame _).mp hkey
    refine ⟨l₁, old, l₂, hsplit, hold, if_pos (Or.inl hsome), hstored, ?_⟩
    rw [hput]
    cases mem.bits with
    | false =>
      simp only [Bool.false_eq_true, if_false, List.append_nil]
      rw [hsplit, ← hplace, eraseIdx_place]
    | true =>
      simp only [if_true]
      rw [hmodify, onto_eq hold, List.append_assoc, List.singleton_append]
  | none =>
    right
    have hno : ∀ e ∈ cache, e.key ≠ p.key := by
      intro e he hkey
      have hfalse := List.findIdx?_eq_none_iff.mp hfind e he
      rw [(hsame e).mpr hkey] at hfalse
      cases hfalse
    have hnone : (lineOf cache p.key).isSome = false := by
      rw [Bool.eq_false_iff, Ne, lineOf_isSome]
      rintro ⟨e, he, hkey⟩
      exact hno e he hkey
    have hstored : stored cache p mem = (mem.rel && mem.ip && mem.bits && mem.line) := by
      rw [stored, hnone, Bool.false_or]
      cases mem.rel <;> cases mem.ip <;> cases mem.bits <;> rfl
    have hput : havePut cache p mem =
        (if haveCacheCap ≤ cache.length then cache.eraseIdx (victimIdx p.nowMs cache) else cache) ++
          added p mem := by
      rw [havePut, hfind, added]
      dsimp only
      split
      · rfl
      · rw [List.append_nil]
    refine ⟨hno, hstored, ?_⟩
    by_cases hroom : cache.length < haveCacheCap
    · left
      refine ⟨hroom, if_pos (Or.inr hroom), ?_⟩
      rw [hput, if_neg (Nat.not_le.mpr hroom)]
    · right
      have hfull : haveCacheCap ≤ cache.length := Nat.not_lt.mp hroom
      have hne : cache ≠ [] := by
        rintro rfl
        exact hroom (by decide)
      obtain ⟨v, hat, hbest⟩ := victimIdx_spec hne p.nowMs
      have hvictim : victim cache p = some v := by
        rw [victim, if_neg, hat]
        rw [hnone]
        exact fun h => h.elim Bool.noConfusion hroom
      rw [if_pos hfull] at hput
      generalize victimIdx p.nowMs cache = i at hat hput
      obtain ⟨hlt, -⟩ := List.getElem?_eq_some_iff.mp hat
      obtain ⟨l₁, v', l₂, hsplit, hplace, -⟩ := List.exists_of_modify id hlt
      obtain rfl : v' = v := by
        rw [← hplace, hsplit] at hat
        simpa using hat
      refine ⟨l₁, v', l₂, hfull, hsplit, hvictim, hbest, ?_⟩
      rw [hput, ← hplace, hsplit, eraseIdx_place]

theorem added_eq {p : Put} {mem : PutMem} {e : HaveEntry} (h : e ∈ added p mem) :
    e = p.toLine ∧ (mem.rel && mem.ip && mem.bits && mem.line) = true := by
  unfold added at h
  split at h
  · next hmem => exact ⟨List.mem_singleton.mp h, hmem⟩
  · cases h

theorem length_added (p : Put) (mem : PutMem) : (added p mem).length ≤ 1 := by
  unfold added
  split <;> simp

/-- Lines with other keys, and at most the put's own behind or between them. -/
theorem keys_insert {l₁ new l₂ : List HaveEntry} {p : Put}
    (hnew : new = [] ∨ new = [p.toLine]) (hkeys : ((l₁ ++ l₂).map HaveEntry.key).Nodup)
    (hother : ∀ e ∈ l₁ ++ l₂, e.key ≠ p.key) :
    ((l₁ ++ new ++ l₂).map HaveEntry.key).Nodup := by
  rcases hnew with rfl | rfl
  · rwa [List.append_nil]
  · have hperm : (l₁ ++ [p.toLine] ++ l₂).Perm (p.toLine :: (l₁ ++ l₂)) := by
      rw [List.append_assoc, List.singleton_append]
      exact List.perm_middle
    refine ((hperm.map HaveEntry.key).nodup_iff).mpr ?_
    rw [List.map_cons, List.nodup_cons]
    refine ⟨fun hmem => ?_, hkeys⟩
    obtain ⟨e, he, hkey⟩ := List.mem_map.mp hmem
    exact hother e he hkey

/-- Beside a line of a table, every line has another key. -/
theorem HaveTable.beside {l₁ l₂ : List HaveEntry} {old : HaveEntry}
    (h : HaveTable (l₁ ++ old :: l₂)) :
    ((l₁ ++ l₂).map HaveEntry.key).Nodup ∧ ∀ e ∈ l₁ ++ l₂, e.key ≠ old.key := by
  have hperm : (l₁ ++ old :: l₂).Perm (old :: (l₁ ++ l₂)) := List.perm_middle
  have hall := ((hperm.map HaveEntry.key).nodup_iff).mp h.keys
  rw [List.map_cons, List.nodup_cons] at hall
  exact ⟨hall.2, fun e he hkey => hall.1 (hkey ▸ List.mem_map_of_mem he)⟩

/-- **A put keeps the table a table.** -/
theorem HaveTable.put {cache : List HaveEntry} (h : HaveTable cache) (p : Put) (mem : PutMem) :
    HaveTable (havePut cache p mem) := by
  have hbound := h.bound
  have hadded : added p mem = [] ∨ added p mem = [p.toLine] := by
    unfold added
    split
    · exact Or.inr rfl
    · exact Or.inl rfl
  have hone := length_added p mem
  rcases havePut_cases cache p mem with ⟨l₁, old, l₂, hsplit, hold, -, -, hput⟩ |
      ⟨hno, -, ⟨hroom, -, hput⟩ | ⟨l₁, v, l₂, -, hsplit, -, -, hput⟩⟩
  · rw [hput]
    obtain ⟨hkeys, hother⟩ := (hsplit ▸ h).beside
    rw [hold] at hother
    constructor
    · refine keys_insert ?_ hkeys hother
      cases mem.bits
      · exact Or.inl rfl
      · exact Or.inr rfl
    · rw [hsplit] at hbound
      simp only [List.length_append, List.length_cons] at hbound ⊢
      split <;> simp only [List.length_nil, List.length_singleton] <;> omega
  · rw [hput]
    constructor
    · have hkeys := @keys_insert cache (added p mem) [] p hadded
        (by rw [List.append_nil]; exact h.keys) (by rw [List.append_nil]; exact hno)
      rwa [List.append_nil] at hkeys
    · rw [List.length_append]
      omega
  · rw [hput]
    obtain ⟨hkeys, -⟩ := (hsplit ▸ h).beside
    have hother : ∀ e ∈ l₁ ++ l₂, e.key ≠ p.key := by
      intro e he
      apply hno e
      rw [hsplit]
      rcases List.mem_append.mp he with he | he
      · exact List.mem_append_left _ he
      · exact List.mem_append_right _ (List.mem_cons_of_mem _ he)
    constructor
    · have hall := @keys_insert (l₁ ++ l₂) (added p mem) [] p hadded
        (by rwa [List.append_nil]) (by rwa [List.append_nil])
      rwa [List.append_nil] at hall
    · rw [hsplit] at hbound
      simp only [List.length_append, List.length_cons] at hbound ⊢
      omega

/-- **What a put leaves, line by line**: the others but the one that made room, and its own. -/
theorem mem_havePut {cache : List HaveEntry} (h : HaveTable cache) (p : Put) (mem : PutMem)
    (e : HaveEntry) :
    e ∈ havePut cache p mem ↔
      (e ∈ cache ∧ e.key ≠ p.key ∧ victim cache p ≠ some e) ∨
      (e = p.toLine ∧ stored cache p mem = true) := by
  have hadded : e ∈ added p mem ↔
      e = p.toLine ∧ (mem.rel && mem.ip && mem.bits && mem.line) = true := by
    refine ⟨added_eq, ?_⟩
    rintro ⟨rfl, hmem⟩
    unfold added
    rw [if_pos hmem]
    exact List.mem_singleton_self _
  rcases havePut_cases cache p mem with ⟨l₁, old, l₂, hsplit, hold, hvictim, hstored, hput⟩ |
      ⟨hno, hstored, ⟨-, hvictim, hput⟩ | ⟨l₁, v, l₂, -, hsplit, hvictim, -, hput⟩⟩
  · obtain ⟨-, hother⟩ := (hsplit ▸ h).beside
    rw [hold] at hother
    have hrest : e ∈ l₁ ++ l₂ ↔ e ∈ cache ∧ e.key ≠ p.key := by
      constructor
      · intro he
        refine ⟨?_, hother e he⟩
        rw [hsplit]
        rcases List.mem_append.mp he with he | he
        · exact List.mem_append_left _ he
        · exact List.mem_append_right _ (List.mem_cons_of_mem _ he)
      · rintro ⟨he, hkey⟩
        rw [hsplit] at he
        rcases List.mem_append.mp he with he | he
        · exact List.mem_append_left _ he
        · rcases List.mem_cons.mp he with rfl | he
          · exact absurd hold hkey
          · exact List.mem_append_right _ he
    have hnew : (e ∈ if mem.bits then [p.toLine] else []) ↔ e = p.toLine ∧ mem.bits = true := by
      cases mem.bits <;> simp
    rw [hput, hvictim, hstored, ← hnew, List.mem_append, List.mem_append]
    rw [List.mem_append] at hrest
    simp only [ne_eq, reduceCtorEq, not_false_eq_true, and_true]
    rw [← hrest]
    tauto
  · rw [hput, hvictim, hstored, List.mem_append, hadded]
    simp only [ne_eq, reduceCtorEq, not_false_eq_true, and_true]
    exact or_congr_left ⟨fun he => ⟨he, hno e he⟩, fun he => he.1⟩
  · obtain ⟨-, hother⟩ := (hsplit ▸ h).beside
    have hrest : e ∈ l₁ ++ l₂ ↔ e ∈ cache ∧ e ≠ v := by
      constructor
      · intro he
        refine ⟨?_, fun heq => hother e he (heq ▸ rfl)⟩
        rw [hsplit]
        rcases List.mem_append.mp he with he | he
        · exact List.mem_append_left _ he
        · exact List.mem_append_right _ (List.mem_cons_of_mem _ he)
      · rintro ⟨he, hne⟩
        rw [hsplit] at he
        rcases List.mem_append.mp he with he | he
        · exact List.mem_append_left _ he
        · rcases List.mem_cons.mp he with rfl | he
          · exact absurd rfl hne
          · exact List.mem_append_right _ he
    rw [hput, hvictim, hstored, List.mem_append, hadded, hrest]
    refine or_congr_left ⟨fun he => ⟨he.1, hno e he.1, fun heq => he.2 (Option.some.inj heq).symm⟩,
      fun he => ⟨he.1, fun heq => he.2.2 (heq ▸ rfl)⟩⟩

/-- The line of the key that was put. -/
theorem lineOf_put_self {cache : List HaveEntry} (h : HaveTable cache) (p : Put) (mem : PutMem) :
    lineOf (havePut cache p mem) p.key =
      if stored cache p mem then some p.toLine else none := by
  ext e
  rw [lineOf_eq_some (h.put p mem).keys, mem_havePut h]
  split
  · next hstored =>
    rw [hstored, Option.some.injEq]
    constructor
    · rintro ⟨⟨-, hkey, -⟩ | ⟨rfl, -⟩, hsame⟩
      · exact absurd hsame hkey
      · rfl
    · rintro rfl
      exact ⟨Or.inr ⟨rfl, rfl⟩, rfl⟩
  · next hno =>
    constructor
    · rintro ⟨⟨-, hkey, -⟩ | ⟨-, hstored⟩, hsame⟩
      · exact absurd hsame hkey
      · exact absurd hstored hno
    · rintro ⟨⟩

/-- The line of another key: it stays, unless it made room. -/
theorem lineOf_put_other {cache : List HaveEntry} (h : HaveTable cache) (p : Put) (mem : PutMem)
    {k : LineKey} (hk : k ≠ p.key) :
    lineOf (havePut cache p mem) k =
      if (victim cache p).map HaveEntry.key = some k then none else lineOf cache k := by
  ext e
  rw [lineOf_eq_some (h.put p mem).keys, mem_havePut h]
  have hmine : e.key = k → ¬ (e = p.toLine ∧ stored cache p mem = true) := by
    rintro rfl ⟨rfl, -⟩
    exact hk rfl
  split
  · next hvictim =>
    obtain ⟨v, hv, hvkey⟩ := Option.map_eq_some_iff.mp hvictim
    constructor
    · rintro ⟨⟨he, -, hne⟩ | hown, hkey⟩
      · have hvmem : v ∈ cache := by
          unfold victim at hv
          split at hv
          · cases hv
          · exact List.mem_of_getElem? hv
        have heq := List.inj_on_of_nodup_map h.keys he hvmem (hkey.trans hvkey.symm)
        exact absurd (heq ▸ hv) hne
      · exact absurd hown (hmine hkey)
    · rintro ⟨⟩
  · next hno =>
    rw [lineOf_eq_some h.keys]
    constructor
    · rintro ⟨⟨he, -, -⟩ | hown, hkey⟩
      · exact ⟨he, hkey⟩
      · exact absurd hown (hmine hkey)
    · rintro ⟨he, hkey⟩
      refine ⟨Or.inl ⟨he, hkey ▸ hk, fun hv => hno ?_⟩, hkey⟩
      rw [hv, Option.map_some, hkey]

/-! ## Eviction -/

/-- **The line that goes** is the first of the full table by expiry, file and address. -/
theorem victim_iff {cache : List HaveEntry} (h : HaveTable cache) (p : Put) (v : HaveEntry) :
    victim cache p = some v ↔
      (∀ e ∈ cache, e.key ≠ p.key) ∧ cache.length = haveCacheCap ∧ v ∈ cache ∧
        ∀ e ∈ cache, e ≠ v → haveVictimLess p.nowMs v e = true := by
  have hfirst : ∀ {u w : HaveEntry}, u ∈ cache → w ∈ cache →
      haveVictimLess p.nowMs u w = false → u ≠ w → haveVictimLess p.nowMs w u = true := by
    intro u w hu hw hworse hne
    by_contra hno
    rw [Bool.eq_false_iff, Ne, haveVictimLess_iff] at hworse
    rw [haveVictimLess_iff] at hno
    have hkey := strictTotal_victim.eq_of_not hworse hno
    refine hne (List.inj_on_of_nodup_map h.keys hu hw ?_)
    simp only [HaveEntry.victimKey, Prod.mk.injEq] at hkey
    simp only [HaveEntry.key, hkey.2.1, hkey.2.2.1, hkey.2.2.2]
  rcases havePut_cases cache p {} with ⟨l₁, old, l₂, hsplit, hold, hvictim, -, -⟩ |
      ⟨hno, -, ⟨hroom, hvictim, -⟩ | ⟨l₁, w, l₂, hfull, hsplit, hvictim, hbest, -⟩⟩
  · rw [hvictim]
    refine iff_of_false (fun h => nomatch h) fun ⟨hno, _⟩ => hno old ?_ hold
    rw [hsplit]
    simp
  · rw [hvictim]
    exact iff_of_false (fun h => nomatch h) fun ⟨_, hfull, _⟩ => absurd hroom (by omega)
  · have hlen : cache.length = haveCacheCap := le_antisymm h.bound hfull
    have hw : w ∈ cache := by
      rw [hsplit]
      simp
    rw [hvictim, Option.some.injEq]
    constructor
    · rintro rfl
      exact ⟨hno, hlen, hw, fun e he hne => hfirst he hw (hbest e he) hne⟩
    · rintro ⟨-, -, hv, hless⟩
      by_contra hne
      have hwv := hless w hw hne
      have hvw := hfirst hv hw (hbest v hv) fun heq => hne heq.symm
      rw [haveVictimLess_iff] at hwv hvw
      exact strictTotal_victim.asymm hwv hvw

/-- Which line goes does not depend on how the lines are ordered. -/
theorem victim_perm {cache cache' : List HaveEntry} (h : HaveTable cache)
    (hperm : cache'.Perm cache)
    (p : Put) : victim cache' p = victim cache p := by
  have h' : HaveTable cache' :=
    ⟨((hperm.map HaveEntry.key).nodup_iff).mpr h.keys, hperm.length_eq ▸ h.bound⟩
  ext v
  rw [victim_iff h', victim_iff h]
  simp only [hperm.mem_iff, hperm.length_eq]

/-! ## Histories -/

/-- What is done to the cache. -/
inductive HaveOp where
  | put (p : Put) (mem : PutMem)
  | lookup (rel ip : List UInt8) (port : UInt16) (nowMs : Int)
  deriving DecidableEq

def HaveOp.apply (cache : List HaveEntry) : HaveOp → List HaveEntry
  | .put p mem => havePut cache p mem
  | .lookup .. => cache

def afterOps (ops : List HaveOp) : List HaveEntry := ops.foldl HaveOp.apply []

/-- The line that goes with an operation. -/
def HaveOp.evicts (cache : List HaveEntry) : HaveOp → Option HaveEntry
  | .put p _ => victim cache p
  | .lookup .. => none

/-- The operations evict no line of the key. -/
def Survives (k : LineKey) : List HaveEntry → List HaveOp → Prop
  | _, [] => True
  | cache, op :: ops =>
    (op.evicts cache).map HaveEntry.key ≠ some k ∧ Survives k (op.apply cache) ops

/-- The operations put nothing under the key. -/
def Untouched (k : LineKey) (ops : List HaveOp) : Prop :=
  ∀ p mem, HaveOp.put p mem ∈ ops → p.key ≠ k

theorem haveTable_nil : HaveTable [] := ⟨List.nodup_nil, Nat.zero_le _⟩

theorem HaveTable.apply {cache : List HaveEntry} (h : HaveTable cache) (op : HaveOp) :
    HaveTable (op.apply cache) := by
  cases op with
  | put p mem => exact h.put p mem
  | lookup => exact h

theorem HaveTable.foldl {cache : List HaveEntry} (h : HaveTable cache) (ops : List HaveOp) :
    HaveTable (ops.foldl HaveOp.apply cache) := by
  induction ops generalizing cache with
  | nil => exact h
  | cons op ops ih => exact ih (h.apply op)

/-- A line that nothing replaces stays until it is evicted. -/
theorem lineOf_foldl {cache : List HaveEntry} (h : HaveTable cache) {k : LineKey}
    {ops : List HaveOp} (huntouched : Untouched k ops) :
    (Survives k cache ops → lineOf (ops.foldl HaveOp.apply cache) k = lineOf cache k) ∧
      (¬ Survives k cache ops → lineOf (ops.foldl HaveOp.apply cache) k = none) ∧
      (lineOf cache k = none → lineOf (ops.foldl HaveOp.apply cache) k = none) := by
  induction ops generalizing cache with
  | nil => exact ⟨fun _ => rfl, fun h => absurd trivial h, id⟩
  | cons op ops ih =>
    obtain ⟨hkept, hgone, hnone⟩ := ih (h.apply op) fun p mem hp =>
      huntouched p mem (List.mem_cons_of_mem _ hp)
    have hstep : lineOf (op.apply cache) k =
        if (op.evicts cache).map HaveEntry.key = some k then none else lineOf cache k := by
      cases op with
      | put p mem => exact lineOf_put_other h p mem (huntouched p mem List.mem_cons_self).symm
      | lookup => rfl
    rw [List.foldl_cons]
    refine ⟨fun hs => ?_, fun hs => ?_, fun hno => ?_⟩
    · rw [hkept hs.2, hstep, if_neg hs.1]
    · by_cases hout : (op.evicts cache).map HaveEntry.key = some k
      · exact hnone (by rw [hstep, if_pos hout])
      · exact hgone fun hlater => hs ⟨hout, hlater⟩
    · refine hnone ?_
      rw [hstep, hno, ite_self]

open Classical in
/-- **The cache after any history.** Keys are distinct and the lines at most 32; a lookup finds the
last put of its key, provided that was stored, no put since has evicted it and it has not expired,
and without a put of the key it finds nothing; and the line a put evicts is the first of the full
table in the order of `haveVictimLess`, however the lines came in. -/
theorem haveCache_history (ops : List HaveOp) :
    ((afterOps ops).map HaveEntry.key).Nodup ∧ (afterOps ops).length ≤ haveCacheCap ∧
    (∀ before p mem after nowMs, ops = before ++ .put p mem :: after → Untouched p.key after →
      haveLookup (afterOps ops) p.rel p.ip p.port nowMs =
        if stored (afterOps before) p mem = true ∧
            Survives p.key (afterOps (before ++ [.put p mem])) after ∧
            nowMs < satAddI64 p.nowMs haveTtlMs then
          some p.toLine
        else none) ∧
    (∀ k nowMs, Untouched k ops → haveLookup (afterOps ops) k.1 k.2.1 k.2.2 nowMs = none) ∧
    (∀ p v, victim (afterOps ops) p = some v ↔
      (∀ e ∈ afterOps ops, e.key ≠ p.key) ∧ (afterOps ops).length = haveCacheCap ∧
        v ∈ afterOps ops ∧ ∀ e ∈ afterOps ops, e ≠ v → haveVictimLess p.nowMs v e = true) ∧
    (∀ p cache', cache'.Perm (afterOps ops) → victim cache' p = victim (afterOps ops) p) := by
  have htable : ∀ ops, HaveTable (afterOps ops) := fun ops => haveTable_nil.foldl ops
  refine ⟨(htable ops).keys, (htable ops).bound, ?_, ?_, fun p v => victim_iff (htable ops) p v,
    fun p cache' hperm => victim_perm (htable ops) hperm p⟩
  · rintro before p mem after nowMs rfl huntouched
    have hput : afterOps (before ++ [.put p mem]) = havePut (afterOps before) p mem := by
      simp [afterOps, HaveOp.apply]
    have hrun : afterOps (before ++ .put p mem :: after) =
        after.foldl HaveOp.apply (afterOps (before ++ [.put p mem])) := by
      simp [afterOps]
    have hline : lineOf (afterOps (before ++ [.put p mem])) p.key =
        if stored (afterOps before) p mem then some p.toLine else none := by
      rw [hput, lineOf_put_self (htable before)]
    obtain ⟨hkept, hgone, hnone⟩ := lineOf_foldl (htable (before ++ [.put p mem])) huntouched
    have hkey : (p.rel, p.ip, p.port) = p.key := rfl
    rw [haveLookup_eq, hkey, hrun]
    by_cases hs : Survives p.key (afterOps (before ++ [.put p mem])) after
    · rw [hkept hs, hline]
      by_cases hstored : stored (afterOps before) p mem = true
      · have hexp : p.toLine.expiresMs = satAddI64 p.nowMs haveTtlMs := rfl
        rw [if_pos hstored, Option.bind_some, hexp]
        by_cases hlive : nowMs < satAddI64 p.nowMs haveTtlMs
        · rw [if_neg (not_le.mpr hlive), if_pos ⟨hstored, hs, hlive⟩]
        · rw [if_pos (not_lt.mp hlive), if_neg fun h => hlive h.2.2]
      · rw [if_neg hstored, if_neg fun h => hstored h.1]
        rfl
    · rw [hgone hs, if_neg fun h => hs h.2.1]
      rfl
  · intro k nowMs huntouched
    have hnone := (lineOf_foldl haveTable_nil huntouched).2.2 rfl
    rw [haveLookup_eq]
    have hgoal : lineOf (afterOps ops) (k.1, k.2.1, k.2.2) = none := hnone
    rw [hgoal]
    rfl

end Catalog

end ModelFs
