import Mathlib.Data.Nat.Digits.Defs
import ModelFs.Cached
import ModelFs.StateRead

/-!
# The heartbeat

A daemon writes `status.json` on every tick of its discovery loop: who it is, its counters, and the
time. `modelfs status` and `modelfs update` take the document for a serving daemon if the process
it names is there and the stamp of the boot clock is at most 120 seconds old. The document is
printed around the id as it is, into a buffer whose size is derived from the types of the fields,
and read by std.json with all fields but four passed over.

* `statusDoc_read` — **every document fits, is one line, and is read as it was written**.
* `liveDaemon_doc` — what the gate makes of such a document.
-/

namespace ModelFs

namespace StatusDoc

open Discover (validId maxIdBytes)
open Handover (field fieldOr)
open LeaseDoc (decimalInt decodeInt fieldOf)
open Proto

/-! ## The writer -/

/-- `Stats.Snap`, its fields in order. -/
def snapFields : List (List UInt8) :=
  [ascii "reads_ok", ascii "reads_err", ascii "reads_warm", ascii "bytes_read", ascii "read_nanos",
    ascii "reads_completed", ascii "opens_err", ascii "create_warmup_err", ascii "writes_ok",
    ascii "writes_err", ascii "bytes_written", ascii "write_nanos", ascii "writes_completed",
    ascii "fsync_ok", ascii "fsync_err", ascii "fsync_nanos", ascii "fsync_completed",
    ascii "getattr_nanos", ascii "open_nanos", ascii "statfs_nanos", ascii "fills_peer",
    ascii "fills_origin", ascii "bytes_from_peer", ascii "bytes_from_origin",
    ascii "bytes_to_peer", ascii "fill_peer_nanos", ascii "fill_origin_nanos",
    ascii "fill_err_peer", ascii "fill_err_origin", ascii "fill_err_cache",
    ascii "fill_err_verify", ascii "serve_verify_fail", ascii "probe_err", ascii "lease_err",
    ascii "meta_err", ascii "pieces_culled", ascii "http_ok", ascii "http_unauthorized",
    ascii "http_5xx", ascii "http_send_err", ascii "http_malformed", ascii "http_dropped",
    ascii "http_405", ascii "http_nanos", ascii "http_completed"]

structure StatusFields where
  id : List UInt8
  pid : Int64
  uptimeS : Int64
  peers : UInt32
  piece : UInt32
  inflight : UInt32
  cacheFreePct : Int32
  originDown : Int32
  nowS : Int64
  monoS : Int64
  bootS : Int64
  /-- A counter by its name. -/
  stats : List UInt8 → UInt64

/-- An integer type. -/
structure IntType where
  bits : Nat
  signed : Bool

def i64 : IntType := ⟨64, true⟩

def i32 : IntType := ⟨32, true⟩

def u32 : IntType := ⟨32, false⟩

def u64 : IntType := ⟨64, false⟩

/-- The numbers before the counters: name, type and value. -/
def StatusFields.numbers (f : StatusFields) : List (List UInt8 × IntType × Int) :=
  [(ascii "pid", i64, f.pid.toInt), (ascii "uptime_s", i64, f.uptimeS.toInt),
    (ascii "peers", u32, f.peers.toNat), (ascii "piece", u32, f.piece.toNat),
    (ascii "inflight", u32, f.inflight.toNat), (ascii "cache_free_pct", i32, f.cacheFreePct.toInt),
    (ascii "origin_down", i32, f.originDown.toInt), (ascii "now_s", i64, f.nowS.toInt),
    (ascii "mono_s", i64, f.monoS.toInt), (ascii "boot_s", i64, f.bootS.toInt)]

def StatusFields.counters (f : StatusFields) : List (List UInt8 × IntType × Int) :=
  snapFields.map fun name => (name, u64, (f.stats name).toNat)

/-- A number of the document. -/
def numberText (m : List UInt8 × IntType × Int) : List UInt8 := jsonMember m.1 (decimalInt m.2.2)

def writeStatusDoc (f : StatusFields) : List UInt8 :=
  ascii "\x7b\"id\":\"" ++ f.id ++ ascii "\"" ++ f.numbers.flatMap (fun m => 44 :: numberText m) ++
    ascii ",\"stats\":\x7b" ++ commaSep (f.counters.map numberText) ++ ascii "\x7d\x7d\n"

/-! ### Its buffer -/

/-- The widest decimal of a type, sign included. -/
def widestDigits (t : IntType) : Nat :=
  let sign := if t.signed then 1 else 0
  (Nat.digits 10 (2 ^ (t.bits - sign) - 1)).length + sign

def widestMember (name : List UInt8) (t : IntType) : Nat :=
  1 + name.length + 2 + widestDigits t + 1

/-- The fields of `StatusFields` that are numbers. -/
def numberTypes : List (List UInt8 × IntType) :=
  [(ascii "pid", i64), (ascii "uptime_s", i64), (ascii "peers", u32), (ascii "piece", u32),
    (ascii "inflight", u32), (ascii "cache_free_pct", i32), (ascii "origin_down", i32),
    (ascii "now_s", i64), (ascii "mono_s", i64), (ascii "boot_s", i64)]

def statusDocMaxBytes : Nat :=
  2 + (1 + 4 + 2 + maxIdBytes + 2) + (numberTypes.map fun m => widestMember m.1 m.2).sum + 9 +
    (snapFields.map fun name => widestMember name u64).sum + 2 + 1

/-! ## The reader -/

structure StatusLiveness where
  pid : Int
  nowS : Option Int := none
  monoS : Option Int := none
  bootS : Option Int := none
  deriving DecidableEq

section Decoders

variable (ofFloat : List UInt8 → Option Int)

def decodeI64 (v : Json) : Option Int := decodeInt ofFloat (-2 ^ 63) (2 ^ 63 - 1) v

/-- `?i64`. -/
def decodeOptional : Json → Option (Option Int)
  | .null => some none
  | v => (decodeI64 ofFloat v).map some

def decodeLiveness : Json → Option StatusLiveness
  | .object members => do
    let pid ← field (ascii "pid") (decodeI64 ofFloat) members
    let nowS ← fieldOr (ascii "now_s") none (decodeOptional ofFloat) members
    let monoS ← fieldOr (ascii "mono_s") none (decodeOptional ofFloat) members
    let bootS ← fieldOr (ascii "boot_s") none (decodeOptional ofFloat) members
    some ⟨pid, nowS, monoS, bootS⟩
  | _ => none

/-- `std.json.parseFromSlice` at `StatusLiveness`, unknown members passed over. -/
def parseLiveness (doc : List UInt8) : Option StatusLiveness :=
  (parseJson doc).bind (decodeLiveness ofFloat)

end Decoders

/-- The clocks: the wall, the one that sleeps with the host, and the one that does not. -/
structure Clock where
  now : Int
  mono : Int
  boot : Int

def maxStatusAgeSecs : Int := 120

/-- A monotonic stamp that is ahead is as old as it is far. -/
def stampAge (stamp now : Int) : Int :=
  if now < stamp then satSubI64 stamp now else satSubI64 now stamp

def statusAgeSecs (c : Clock) (doc : StatusLiveness) : Option Int :=
  match doc.bootS with
  | some stamp => some (stampAge stamp c.boot)
  | none =>
    match doc.monoS with
    | some stamp => some (stampAge stamp c.mono)
    | none => doc.nowS.map fun stamp => satSubI64 c.now stamp

/-- `future_mono`. -/
def stampAhead (c : Clock) (doc : StatusLiveness) : Bool :=
  match doc.bootS with
  | some stamp => c.boot < stamp
  | none =>
    match doc.monoS with
    | some stamp => c.mono < stamp
    | none => false

def pidAlive (alive : Int → Bool) (pid : Int) : Bool :=
  if pid ≤ 0 ∨ 2 ^ 31 - 1 < pid then false else alive pid

/-- Why nothing is reported. -/
inductive NotLive where
  | missing
  | tooBig
  | unreadable
  | exited (pid : Int)
  | stale (age : Int)
  deriving DecidableEq

/-- `liveDaemon`, the file as it is found, the clocks as they are read for the age and again for
the stamp. -/
def liveDaemon (ofFloat : List UInt8 → Option Int) (file : Option (List UInt8))
    (alive : Int → Bool) (c c' : Clock) : Except NotLive Int :=
  match file with
  | none => .error .missing
  | some blob =>
    if statusDocMaxBytes < blob.length then .error .tooBig
    else
      match parseLiveness ofFloat blob with
      | none => .error .unreadable
      | some doc =>
        if !pidAlive alive doc.pid then .error (.exited doc.pid)
        else
          match statusAgeSecs c doc with
          | none => .ok doc.pid
          | some age =>
            if maxStatusAgeSecs < age ∨ stampAhead c' doc then .error (.stale age)
            else .ok doc.pid

/-! ## The document -/

/-- What the document is read as. -/
def statusJson (f : StatusFields) : Json :=
  .object ((ascii "id", .string f.id) ::
    (f.numbers.map fun m => (m.1, .number (decimalInt m.2.2))) ++
    [(ascii "stats", .object (f.counters.map fun m => (m.1, .number (decimalInt m.2.2))))])

theorem names_numbers (f : StatusFields) :
    f.numbers.map (fun m => (m.1, m.2.1)) = numberTypes := rfl

/-- The value is one of its type. -/
def IntType.has (t : IntType) (n : Int) : Prop :=
  if t.signed then -2 ^ (t.bits - 1) ≤ n ∧ n < 2 ^ (t.bits - 1) else 0 ≤ n ∧ n < 2 ^ t.bits

theorem has_i64 (n : Int64) : i64.has n.toInt := ⟨n.le_toInt, n.toInt_lt⟩

theorem has_i32 (n : Int32) : i32.has n.toInt := ⟨n.le_toInt, n.toInt_lt⟩

theorem has_u32 (n : UInt32) : u32.has n.toNat := by
  have hlt := n.toNat_lt
  constructor
  · simp
  · simp [u32]
    omega

theorem has_u64 (n : UInt64) : u64.has n.toNat := by
  have hlt := n.toNat_lt
  constructor
  · simp
  · simp [u64]
    omega

theorem numbers_fit (f : StatusFields) : ∀ m ∈ f.numbers, m.2.1.has m.2.2 := by
  simp [StatusFields.numbers, has_i64, has_i32, has_u32]

theorem counters_fit (f : StatusFields) : ∀ m ∈ f.counters, m.2.1.has m.2.2 := by
  intro m hm
  obtain ⟨name, -, rfl⟩ := List.mem_map.mp hm
  exact has_u64 _

/-- The types that are used. -/
def IntType.Known (t : IntType) : Prop := t = i64 ∨ t = i32 ∨ t = u32 ∨ t = u64

theorem known_numbers (f : StatusFields) : ∀ m ∈ f.numbers, m.2.1.Known := by
  simp [StatusFields.numbers, IntType.Known]

theorem known_counters (f : StatusFields) : ∀ m ∈ f.counters, m.2.1.Known := by
  intro m hm
  obtain ⟨name, -, rfl⟩ := List.mem_map.mp hm
  exact Or.inr (Or.inr (Or.inr rfl))

theorem widestDigits_known : widestDigits i64 = 20 ∧ widestDigits i32 = 11 ∧
    widestDigits u32 = 10 ∧ widestDigits u64 = 20 := by
  simp [widestDigits, i64, i32, u32, u64]

/-- **No value is wider than its type.** -/
theorem length_decimalInt_le {t : IntType} (ht : t.Known) {n : Int} (h : t.has n) :
    (decimalInt n).length ≤ widestDigits t := by
  obtain ⟨h₁, h₂, h₃, h₄⟩ := widestDigits_known
  unfold decimalInt
  rcases ht with rfl | rfl | rfl | rfl
  · have hlen := @length_decimal_le n.natAbs 19 (by decide) (by simp [IntType.has, i64] at h; omega)
    rw [h₁]
    split <;> simp <;> omega
  · have hlen := @length_decimal_le n.natAbs 10 (by decide) (by simp [IntType.has, i32] at h; omega)
    rw [h₂]
    split <;> simp <;> omega
  · have hlen := @length_decimal_le n.natAbs 10 (by decide) (by simp [IntType.has, u32] at h; omega)
    rw [h₃, if_neg (by simp [IntType.has, u32] at h; omega)]
    exact hlen
  · have hlen := @length_decimal_le n.natAbs 20 (by decide) (by simp [IntType.has, u64] at h; omega)
    rw [h₄, if_neg (by simp [IntType.has, u64] at h; omega)]
    exact hlen

theorem commaSep_cons (x : List UInt8) (xs : List (List UInt8)) :
    commaSep (x :: xs) = x ++ xs.flatMap (44 :: ·) := by
  induction xs generalizing x with
  | nil => simp [commaSep]
  | cons y ys ih => rw [commaSep, ih, List.flatMap_cons, List.cons_append]

/-- The members, each with its value and its text. -/
def members (f : StatusFields) : List Member :=
  (ascii "id", .string f.id, 34 :: (f.id ++ [34])) ::
    f.numbers.map (fun m => (m.1, .number (decimalInt m.2.2), decimalInt m.2.2)) ++
    [(ascii "stats", .object (f.counters.map fun m => (m.1, .number (decimalInt m.2.2))),
      jsonObject (f.counters.map fun m => (m.1, decimalInt m.2.2)))]

/-- The document is the object of its members, and a line break. -/
theorem writeStatusDoc_eq (f : StatusFields) :
    writeStatusDoc f = jsonObject ((members f).map fun m => (m.1, m.2.2)) ++ [10] := by
  unfold writeStatusDoc members jsonObject
  simp only [List.map_append, List.map_cons, List.cons_append, commaSep_cons]
  simp [List.flatMap_map, numberText, jsonMember, ascii, Function.comp_def]
  rfl

theorem object_members (f : StatusFields) :
    Json.object ((members f).map fun m => (m.1, m.2.1)) = statusJson f := by
  simp [members, statusJson, Function.comp_def]

theorem verbatim_id {id : List UInt8} (h : validId id = true) : Verbatim id := by
  apply Handover.verbatim_ascii
  unfold validId at h
  split_ifs at h
  rw [List.all_eq_true] at h ⊢
  intro b hb
  have hbyte := h b hb
  split_ifs at hbyte with hrange
  simp only [Bool.not_eq_true', decide_eq_false_iff_not, not_or] at hbyte
  simp only [Bool.and_eq_true, decide_eq_true_eq]
  exact ⟨⟨⟨by omega, by omega⟩, hbyte.2.1⟩, hbyte.2.2⟩

theorem verbatim_snapFields : ∀ name ∈ snapFields, Verbatim name := by
  have hall : snapFields.all fun s =>
      s.all fun b => 32 ≤ b.toNat && b.toNat ≤ 0x7f && b ≠ 34 && b ≠ 92 := by decide
  intro name hname
  exact Handover.verbatim_ascii (List.all_eq_true.mp hall name hname)

theorem verbatim_numbers (f : StatusFields) : ∀ m ∈ f.numbers, Verbatim m.1 := by
  have hall : numberTypes.all fun m =>
      m.1.all fun b => 32 ≤ b.toNat && b.toNat ≤ 0x7f && b ≠ 34 && b ≠ 92 := by decide
  intro m hm
  have hname : (m.1, m.2.1) ∈ numberTypes := by
    rw [← names_numbers f]
    exact List.mem_map_of_mem (f := fun m : List UInt8 × IntType × Int => (m.1, m.2.1)) hm
  exact Handover.verbatim_ascii (List.all_eq_true.mp hall _ hname)

theorem reads_counters (f : StatusFields) :
    Reads (.object (f.counters.map fun m => (m.1, .number (decimalInt m.2.2))))
      (jsonObject (f.counters.map fun m => (m.1, decimalInt m.2.2))) := by
  have h := @reads_object (f.counters.map fun m =>
    (m.1, .number (decimalInt m.2.2), decimalInt m.2.2)) fun m hm => by
      obtain ⟨k, hk, rfl⟩ := List.mem_map.mp hm
      obtain ⟨name, hname, rfl⟩ := List.mem_map.mp hk
      exact ⟨verbatim_snapFields name hname, LeaseDoc.reads_decimalInt _⟩
  simpa [Function.comp_def] using h

theorem ok_members {f : StatusFields} (hid : validId f.id = true) :
    ∀ m ∈ members f, Member.Ok m := by
  intro m hm
  unfold members at hm
  rw [List.mem_append, List.mem_cons, List.mem_singleton] at hm
  rcases hm with (rfl | hm) | rfl
  · exact ⟨Handover.verbatim_ascii rfl, reads_string (verbatim_id hid)⟩
  · obtain ⟨k, hk, rfl⟩ := List.mem_map.mp hm
    exact ⟨verbatim_numbers f k hk, LeaseDoc.reads_decimalInt _⟩
  · exact ⟨Handover.verbatim_ascii rfl, reads_counters f⟩

/-- A line break behind a document is passed over. -/
theorem parseJson_line {v : Json} {t : List UInt8} (h : Reads v t) :
    parseJson (t ++ [10]) = some v := by
  have hread := h ((t ++ [10]).length + 1) [10] (by simp; omega) (by simp [Delimited]; decide)
  unfold parseJson
  rw [hread]
  rfl

/-! ### Its length, and its line -/

/-- No number is wider than its member of the bound. -/
theorem length_numberText_le {m : List UInt8 × IntType × Int} (ht : m.2.1.Known)
    (h : m.2.1.has m.2.2) : (numberText m).length + 1 ≤ widestMember m.1 m.2.1 := by
  have hle := length_decimalInt_le ht h
  rw [numberText, length_jsonMember, widestMember]
  omega

theorem length_flatMap_comma {α : Type} (text : α → List UInt8) (l : List α) :
    (l.flatMap fun a => 44 :: text a).length = (l.map fun a => (text a).length + 1).sum := by
  simp [List.length_flatMap]

/-- **The derived bound holds.** -/
theorem length_writeStatusDoc {f : StatusFields} (hid : validId f.id = true) :
    (writeStatusDoc f).length ≤ statusDocMaxBytes := by
  have hidlen : f.id.length ≤ maxIdBytes := by
    unfold validId at hid
    split_ifs at hid with hno
    exact Nat.not_lt.mp fun hlt => hno (Or.inr hlt)
  have hnumbers : (f.numbers.map fun m => (numberText m).length + 1).sum ≤
      (numberTypes.map fun m => widestMember m.1 m.2).sum := by
    rw [← names_numbers f, List.map_map]
    apply List.sum_le_sum
    intro m hm
    exact length_numberText_le (known_numbers f m hm) (numbers_fit f m hm)
  have hcounters : ((f.counters.map numberText).map fun t => t.length + 1).sum ≤
      (snapFields.map fun name => widestMember name u64).sum := by
    have hnames : (snapFields.map fun name => widestMember name u64) =
        f.counters.map fun m => widestMember m.1 m.2.1 := by
      rw [StatusFields.counters, List.map_map]
      rfl
    rw [hnames, List.map_map]
    apply List.sum_le_sum
    intro m hm
    exact length_numberText_le (known_counters f m hm) (counters_fit f m hm)
  have hcomma := length_commaSep (f.counters.map numberText)
  rw [List.map_map] at hcomma
  have hopen : (ascii "\x7b\"id\":\"").length = 7 := rfl
  have hstats : (ascii ",\"stats\":\x7b").length = 10 := rfl
  have hquote : (ascii "\"").length = 1 := rfl
  have hclose : (ascii "\x7d\x7d\n").length = 3 := rfl
  unfold writeStatusDoc statusDocMaxBytes
  simp only [List.length_append, length_flatMap_comma, hcomma, hopen, hstats, hquote, hclose]
  simp only [List.map_map, Function.comp_def] at hcounters ⊢
  omega

theorem onOneLine_id {id : List UInt8} (h : validId id = true) : OnOneLine id :=
  fun b hb => ((verbatim_id h).2 b hb).1

/-- **One line**, and a line break behind it. -/
theorem writeStatusDoc_line {f : StatusFields} (hid : validId f.id = true) :
    ∃ line, writeStatusDoc f = line ++ [10] ∧ OnOneLine line := by
  refine ⟨_, writeStatusDoc_eq f, ?_⟩
  have hverbatim : ∀ {s : List UInt8}, Verbatim s → OnOneLine s := fun h b hb => (h.2 b hb).1
  apply onOneLine_jsonObject
  · intro m hm
    obtain ⟨k, hk, rfl⟩ := List.mem_map.mp hm
    exact hverbatim (ok_members hid k hk).1
  · intro m hm
    obtain ⟨k, hk, rfl⟩ := List.mem_map.mp hm
    unfold members at hk
    rw [List.mem_append, List.mem_cons, List.mem_singleton] at hk
    rcases hk with (rfl | hk) | rfl
    · exact ((onOneLine_id hid).append (by decide)).cons (by decide)
    · obtain ⟨n, -, rfl⟩ := List.mem_map.mp hk
      exact Handover.onOneLine_integer _
    · apply onOneLine_jsonObject
      · intro n hn
        obtain ⟨c, hc, rfl⟩ := List.mem_map.mp hn
        obtain ⟨name, hname, rfl⟩ := List.mem_map.mp hc
        exact hverbatim (verbatim_snapFields name hname)
      · intro n hn
        obtain ⟨c, -, rfl⟩ := List.mem_map.mp hn
        exact Handover.onOneLine_integer _

/-! ### What is read of it -/

/-- The names of the members. -/
def memberNames : List (List UInt8) :=
  ascii "id" :: numberTypes.map Prod.fst ++ [ascii "stats"]

theorem nodup_memberNames : memberNames.Nodup := by decide +kernel

theorem names_members (f : StatusFields) :
    ((members f).map fun m => (m.1, m.2.1)).map Prod.fst = memberNames := rfl

theorem decodeI64_number (ofFloat : List UInt8 → Option Int) (n : Int64) :
    decodeI64 ofFloat (.number (decimalInt n.toInt)) = some n.toInt := by
  have hlo := n.le_toInt
  have hhi := n.toInt_lt
  have hmax : maxU64 = 2 ^ 64 - 1 := rfl
  exact LeaseDoc.sliceToInt_decimalInt ofFloat hlo (by omega) (by omega)

theorem parseJson_writeStatusDoc {f : StatusFields} (hid : validId f.id = true) :
    parseJson (writeStatusDoc f) = some (statusJson f) := by
  rw [writeStatusDoc_eq, ← object_members]
  exact parseJson_line (reads_object (ok_members hid))

/-- What a reader takes of it. -/
theorem parseLiveness_writeStatusDoc (ofFloat : List UInt8 → Option Int) {f : StatusFields}
    (hid : validId f.id = true) : parseLiveness ofFloat (writeStatusDoc f) =
      some ⟨f.pid.toInt, some f.nowS.toInt, some f.monoS.toInt, some f.bootS.toInt⟩ := by
  have hmember : ∀ {name : List UInt8} {v : Json},
      (name, v) ∈ (members f).map (fun m => (m.1, m.2.1)) →
        fieldOf name ((members f).map fun m => (m.1, m.2.1)) = some (some v) := fun hm =>
    Handover.fieldOf_of_mem (names_members f ▸ nodup_memberNames) hm
  have hnumber : ∀ {name : List UInt8} {t : IntType} {n : Int}, (name, t, n) ∈ f.numbers →
      (name, Json.number (decimalInt n)) ∈ (members f).map (fun m => (m.1, m.2.1)) := by
    intro name t n hm
    apply List.mem_map.mpr
    refine ⟨(name, .number (decimalInt n), decimalInt n), ?_, rfl⟩
    apply List.mem_append_left
    apply List.mem_cons_of_mem
    exact List.mem_map.mpr ⟨(name, t, n), hm, rfl⟩
  have hpid := hmember (@hnumber (ascii "pid") i64 f.pid.toInt (by simp [StatusFields.numbers]))
  have hnow := hmember (@hnumber (ascii "now_s") i64 f.nowS.toInt (by simp [StatusFields.numbers]))
  have hmono := hmember (@hnumber (ascii "mono_s") i64 f.monoS.toInt
    (by simp [StatusFields.numbers]))
  have hboot := hmember (@hnumber (ascii "boot_s") i64 f.bootS.toInt
    (by simp [StatusFields.numbers]))
  rw [parseLiveness, parseJson_writeStatusDoc hid, ← object_members]
  simp only [Option.bind_some, decodeLiveness, field, LeaseDoc.required, fieldOr, hpid,
    hnow, hmono, hboot, decodeOptional, decodeI64_number, Option.join_some]
  rfl

/-- **The document comes back**: it fits its buffer and the reader's, is one line, and is read as
the numbers it was written from. -/
theorem statusDoc_read (ofFloat : List UInt8 → Option Int) {f : StatusFields}
    (hid : validId f.id = true) :
    (writeStatusDoc f).length ≤ statusDocMaxBytes ∧
      (∃ line, writeStatusDoc f = line ++ [10] ∧ OnOneLine line) ∧
      parseJson (writeStatusDoc f) = some (statusJson f) ∧
      parseLiveness ofFloat (writeStatusDoc f) =
        some ⟨f.pid.toInt, some f.nowS.toInt, some f.monoS.toInt, some f.bootS.toInt⟩ := by
  exact ⟨length_writeStatusDoc hid, writeStatusDoc_line hid, parseJson_writeStatusDoc hid,
    parseLiveness_writeStatusDoc ofFloat hid⟩

/-- What a daemon with pid 7 writes when its host is up for 50 seconds. -/
def wedgedFields : StatusFields where
  id := ascii "n1"
  pid := 7
  uptimeS := 1
  peers := 0
  piece := 4096
  inflight := 0
  cacheFreePct := -1
  originDown := 0
  nowS := 1000
  monoS := 50
  bootS := 50
  stats := fun _ => 0

theorem statusDoc_read_wedged : parseLiveness (fun _ => none) (writeStatusDoc wedgedFields) =
    some ⟨7, some 1000, some 50, some 50⟩ :=
  (statusDoc_read (fun _ => none) (by decide)).2.2.2

/-! ## The gate -/

/-- The stamp of the boot clock is recent, and not ahead. -/
def Recent (stamp : Int) (c c' : Clock) : Prop :=
  stampAge stamp c.boot ≤ maxStatusAgeSecs ∧ stamp ≤ c'.boot

theorem pidAlive_iff {alive : Int → Bool} {pid : Int} :
    pidAlive alive pid = true ↔ 0 < pid ∧ pid ≤ 2 ^ 31 - 1 ∧ alive pid = true := by
  unfold pidAlive
  split
  · next hout =>
    simp only [Bool.false_eq_true, false_iff, not_and]
    intro hpos hle
    omega
  · next hin =>
    simp only [not_or, not_le, not_lt] at hin
    exact ⟨fun h => ⟨hin.1, hin.2, h⟩, fun h => h.2.2⟩

/-- What the gate makes of a document with a stamp. -/
theorem liveDaemon_iff {ofFloat : List UInt8 → Option Int} {blob : List UInt8}
    {doc : StatusLiveness} (hlen : blob.length ≤ statusDocMaxBytes)
    (hread : parseLiveness ofFloat blob = some doc) {alive : Int → Bool} {c c' : Clock}
    {age pid : Int} (hage : statusAgeSecs c doc = some age) :
    liveDaemon ofFloat (some blob) alive c c' = .ok pid ↔
      doc.pid = pid ∧ pidAlive alive pid = true ∧ age ≤ maxStatusAgeSecs ∧
        stampAhead c' doc = false := by
  unfold liveDaemon
  dsimp only
  rw [if_neg (Nat.not_lt.mpr hlen), hread]
  dsimp only
  rw [hage]
  by_cases halive : pidAlive alive doc.pid = true
  · rw [halive]
    by_cases hbad : maxStatusAgeSecs < age ∨ stampAhead c' doc = true
    · simp only [Bool.not_true, Bool.false_eq_true, if_false, if_pos hbad, reduceCtorEq, false_iff]
      intro h
      rcases hbad with hbad | hbad
      · exact absurd h.2.2.1 (not_le.mpr hbad)
      · rw [h.2.2.2] at hbad
        cases hbad
    · simp only [Bool.not_true, Bool.false_eq_true, if_false, if_neg hbad, Except.ok.injEq]
      simp only [not_or, not_lt, Bool.not_eq_true] at hbad
      constructor
      · intro h
        exact ⟨h, h ▸ halive, hbad⟩
      · intro h
        exact h.1
  · rw [if_pos (by simpa using halive)]
    constructor
    · intro h
      cases h
    · intro h
      rw [h.1] at halive
      exact absurd h.2.1 halive

/-- **And of a daemon's document.** -/
theorem liveDaemon_doc (ofFloat : List UInt8 → Option Int) {f : StatusFields}
    (hid : validId f.id = true) {alive : Int → Bool} {c c' : Clock} {pid : Int} :
    liveDaemon ofFloat (some (writeStatusDoc f)) alive c c' = .ok pid ↔
      f.pid.toInt = pid ∧ pidAlive alive pid = true ∧ Recent f.bootS.toInt c c' := by
  rw [liveDaemon_iff (length_writeStatusDoc hid) (parseLiveness_writeStatusDoc ofFloat hid) rfl]
  simp [stampAhead, Recent]

end StatusDoc

end ModelFs
