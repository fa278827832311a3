import ModelFs.Artifacts
import ModelFs.Catalog
import ModelFs.Lib.JsonRead
import ModelFs.Numbers

/-!
# The lease document

`publish` puts a node's lease into `.cluster` under the origin, as JSON that is printed around the
strings as they are. `walkLeases` reads what it finds there on another node, and `refresh` makes
paths of it. The writer has a buffer of 2048 bytes and a gate for its strings, the reader a buffer
of 4096 and the grammar of JSON; a path that does not fit `PATH_MAX` is passed over on either side.

std.json reads a value at a type: `decodeLease` is what it makes of a document at `Lease`. A number
that is written with a fraction or an exponent goes by way of a float, which is the parameter
`ofFloat`.

* `parseLease_formatLease` — **the round trip** of a document.
* `formatLease_refuses` — the gate of the writer.
* `lease_agree` — **publish and refresh agree** where the lease has a path.
* `lease_out_of_reach` — an origin that is too deep for its leases.
-/

namespace ModelFs

namespace LeaseDoc

open Catalog (LeaseAddr Lease)
open Inodes (pathMax slash)
open Proto

/-! ## The writer -/

def leaseJsonClean (s : List UInt8) : Bool :=
  if !utf8ValidateSlice s then false
  else s.all fun ch => !(ch.toNat < 0x20 || ch = 0x7f || ch = 34 || ch = 92)

inductive FormatError where
  | leaseStringUnclean
  | writeFailed
  deriving DecidableEq

/-- `{d}`, of a signed number. -/
def decimalInt (n : Int) : List UInt8 :=
  if n < 0 then 45 :: decimal n.natAbs else decimal n.natAbs

def addrText (a : LeaseAddr) : List UInt8 :=
  ascii "\x7b\"ip\":\"" ++ a.ip ++ ascii "\",\"port\":" ++ decimal a.port.toNat ++
    ascii ",\"mbps\":" ++ decimal a.mbps.toNat ++ ascii "\x7d"

def leaseText (id : List UInt8) (untilSec : Int) (addrs : List LeaseAddr) : List UInt8 :=
  ascii "\x7b\"id\":\"" ++ id ++ ascii "\",\"until\":" ++ decimalInt untilSec ++
    ascii ",\"addrs\":[" ++ commaSep (addrs.map addrText) ++ ascii "]\x7d"

/-- Into a buffer of `size` bytes. -/
def formatLease (size : Nat) (id : List UInt8) (untilSec : Int) (addrs : List LeaseAddr) :
    Except FormatError (List UInt8) :=
  if !leaseJsonClean id then .error .leaseStringUnclean
  else if addrs.any fun a => !leaseJsonClean a.ip then .error .leaseStringUnclean
  else if size < (leaseText id untilSec addrs).length then .error .writeFailed
  else .ok (leaseText id untilSec addrs)

/-! ## The reader -/

/-- The loop of `std.fmt.parseInt`, the range left to its caller. -/
def parseIntLoop : List UInt8 → Nat → Option Nat
  | [], acc => some acc
  | c :: s, acc =>
    if c = 95 then parseIntLoop s acc
    else if c.toNat < 48 ∨ 57 < c.toNat then none
    else parseIntLoop s (acc * 10 + (c.toNat - 48))

def parseUnsigned (s : List UInt8) : Option Nat :=
  if s = [] ∨ s.head? = some 95 ∨ s.getLast? = some 95 then none else parseIntLoop s 0

def parseInt (s : List UInt8) : Option Int :=
  if s.head? = some 45 then (parseUnsigned s.tail).map fun n : Nat => -(n : Int)
  else if s.head? = some 43 then (parseUnsigned s.tail).map fun n : Nat => (n : Int)
  else (parseUnsigned s).map fun n : Nat => (n : Int)

section Decoders

variable (ofFloat : List UInt8 → Option Int)

/-- `sliceToInt`, at the integers from `lo` to `hi`. -/
def sliceToInt (lo hi : Int) (s : List UInt8) : Option Int :=
  let value :=
    if s = ascii "-0" ∨ s.any (fun b => b = 46 || b = 101 || b = 69) then ofFloat s else parseInt s
  value.bind fun n => if lo ≤ n ∧ n ≤ hi then some n else none

/-- A string may stand for a number. -/
def decodeInt (lo hi : Int) : Json → Option Int
  | .number s => sliceToInt ofFloat lo hi s
  | .string s => sliceToInt ofFloat lo hi s
  | _ => none

/-- An array of numbers may stand for a string. -/
def decodeBytes : Json → Option (List UInt8)
  | .string s => some s
  | .array items => items.mapM fun v => (decodeInt ofFloat 0 255 v).map fun n => UInt8.ofNat n.toNat
  | _ => none

/-- The values of a field; there may not be two. -/
def fieldOf (name : List UInt8) (members : List (List UInt8 × Json)) : Option (Option Json) :=
  match members.filter fun m => m.1 = name with
  | [] => some none
  | [m] => some (some m.2)
  | _ => none

def required (name : List UInt8) (members : List (List UInt8 × Json)) : Option Json :=
  (fieldOf name members).join

def decodeAddr : Json → Option LeaseAddr
  | .object members => do
    let ip ← (required (ascii "ip") members).bind (decodeBytes ofFloat)
    let port ← (required (ascii "port") members).bind (decodeInt ofFloat 0 65535)
    let mbps ← match ← fieldOf (ascii "mbps") members with
      | none => some 0
      | some v => decodeInt ofFloat 0 4294967295 v
    some ⟨⟨ip, UInt16.ofNat port.toNat⟩, UInt32.ofNat mbps.toNat⟩
  | _ => none

def decodeAddrs : Json → Option (List LeaseAddr)
  | .array items => items.mapM (decodeAddr ofFloat)
  | _ => none

def minI64 : Int := -2 ^ 63

def maxI64 : Int := 2 ^ 63 - 1

def decodeLease : Json → Option Lease
  | .object members => do
    let id ← (required (ascii "id") members).bind (decodeBytes ofFloat)
    let untilSec ← (required (ascii "until") members).bind (decodeInt ofFloat minI64 maxI64)
    let addrs ← (required (ascii "addrs") members).bind (decodeAddrs ofFloat)
    some ⟨id, untilSec, addrs⟩
  | _ => none

def parseLease (json : List UInt8) : Option Lease := (parseJson json).bind (decodeLease ofFloat)

end Decoders

/-! ## The directory -/

def leaseTtlSecs : Int := 30

/-- `now_sec +| lease_ttl_secs`. -/
def untilOf (nowSec : Int) : Int := max minI64 (min maxI64 (nowSec + leaseTtlSecs))

/-- What the calls of a `publish` answer. -/
structure Calls where
  write : Int
  /-- The second write, after `mkdirAll`. -/
  again : Int
  rename : Int

inductive Published where
  | skipped
  | failed (rc : Int)
  /-- The document is in `.cluster`, under its name. -/
  | installed (name doc : List UInt8)
  deriving DecidableEq

/-- `-ENOENT`. -/
def noEntry : Int := -2

def publish (origin selfId : List UInt8) (addrs : List LeaseAddr) (nowSec : Int) (calls : Calls) :
    Published :=
  match joinZ pathMax origin clusterDir with
  | none => .skipped
  | some dir =>
    match joinZ pathMax dir selfId with
    | none => .skipped
    | some path =>
      match appendExt pathMax path (ascii ".json") with
      | none => .skipped
      | some zpath =>
        match formatLease 2048 selfId (untilOf nowSec) addrs with
        | .error _ => .skipped
        | .ok json =>
          match appendExt pathMax zpath (ascii ".tmp") with
          | none => .skipped
          | some _ =>
            let w := if calls.write = noEntry then calls.again else calls.write
            if w ≠ 0 then .failed w
            else if calls.rename ≠ 0 then .failed calls.rename
            else .installed (selfId ++ ascii ".json") json

def leaseFileMax : Nat := 4096

/-- What `opendir` finds: the names in any order, each with the file's bytes, or `none` where it
cannot be opened or read. -/
inductive ClusterDir where
  | missing
  | ioErr
  | names (entries : List (List UInt8 × Option (List UInt8)))

section Walk

variable (ofFloat : List UInt8 → Option Int)

/-- The lease of one name, if it is visited. -/
def leaseAt (dirz : List UInt8) (entry : List UInt8 × Option (List UInt8)) : Option Lease :=
  if entry.1 = [] ∨ entry.1.head? = some 46 then none
  else if !(ascii ".json").isSuffixOf entry.1 then none
  else
    match joinZ pathMax dirz entry.1 with
    | none => none
    | some _ =>
      match entry.2 with
      | none => none
      | some bytes => parseLease ofFloat (bytes.take leaseFileMax)

def walkLeases (origin : List UInt8) (dir : ClusterDir) : Catalog.LeaseWalk :=
  match joinZ pathMax origin clusterDir with
  | none => .pathTooLong
  | some dirz =>
    match dir with
    | .missing => .missingDir
    | .ioErr => .ioErr
    | .names entries => .ok (entries.filterMap (leaseAt ofFloat dirz))

end Walk

/-! ## Numbers -/

theorem numberByte_digit {b : UInt8} (h : IsDigit b) :
    jsonDigit b = true ∧ numberByte b = true := by
  have hdigit : jsonDigit b = true := by
    unfold jsonDigit
    rw [Bool.and_eq_true, decide_eq_true_iff, decide_eq_true_iff]
    exact h
  refine ⟨hdigit, ?_⟩
  unfold numberByte
  simp [hdigit]

/-- No zero is in front of a number. -/
theorem head_decimal {n : Nat} (hn : n ≠ 0) : (decimal n).head? ≠ some 48 := by
  induction n using Nat.strongRecOn with
  | ind n ih =>
    have hdigit : ∀ d < 10, IsDigit (UInt8.ofNat (48 + d)) ∧
        (UInt8.ofNat (48 + d)).toNat - 48 = d := by
      unfold IsDigit
      decide
    obtain ⟨hd, hval⟩ := hdigit (n % 10) (Nat.mod_lt n (by decide))
    by_cases hsmall : n / 10 = 0
    · have hone : n % 10 = n := by omega
      have htext := decimal_digit hd
      rw [hval, hone] at htext
      rw [htext]
      intro heq
      have hzero := congrArg UInt8.toNat (Option.some.inj heq)
      rw [UInt8.toNat_ofNat'] at hzero
      have hforty : (48 : UInt8).toNat = 48 := rfl
      omega
    · have htext := decimal_snoc hsmall hd
      have hn10 : n / 10 * 10 + n % 10 = n := by omega
      rw [hval, hn10] at htext
      rw [htext, List.head?_append_of_ne_nil _ (decimal_ne_nil _)]
      exact ih (n / 10) (by omega) hsmall

theorem isDigit_decimal {n : Nat} {b : UInt8} (h : b ∈ decimal n) : IsDigit b :=
  digit_of_mem_decimal h

/-- The integer part of a number is all of it. -/
theorem skip_decimal (n : Nat) :
    ((skipInteger (decimal n)).bind skipFraction).bind skipExponent = some [] := by
  have hskip : skipInteger (decimal n) = some [] := by
    rcases eq_or_ne n 0 with rfl | hn
    · decide
    · have hall : ∀ b ∈ decimal n, jsonDigit b = true := fun b hb =>
        (numberByte_digit (isDigit_decimal hb)).1
      unfold skipInteger skipDigits
      rw [if_neg (head_decimal hn), List.takeWhile_eq_self_iff.mpr hall, if_neg (decimal_ne_nil n),
        List.dropWhile_eq_nil_iff.mpr hall]
  rw [hskip]
  rfl

theorem head_decimal_digit {n : Nat} {b : UInt8} (h : (decimal n).head? = some b) : IsDigit b :=
  isDigit_decimal (List.mem_of_head? h)

/-- What `{d}` prints is a number of JSON. -/
theorem isJsonNumber_decimalInt (n : Int) : isJsonNumber (decimalInt n) = true := by
  unfold decimalInt isJsonNumber
  dsimp only
  split_ifs with hneg hsign hsign
  · exact decide_eq_true (skip_decimal _)
  · exact absurd rfl hsign
  · have hdigit := head_decimal_digit hsign
    exact absurd hdigit (by unfold IsDigit; decide)
  · exact decide_eq_true (skip_decimal _)

theorem numberByte_decimalInt {n : Int} {b : UInt8} (h : b ∈ decimalInt n) :
    numberByte b = true := by
  unfold decimalInt at h
  split_ifs at h
  · rcases List.mem_cons.mp h with rfl | h
    · decide
    · exact (numberByte_digit (isDigit_decimal h)).2
  · exact (numberByte_digit (isDigit_decimal h)).2

theorem parseIntLoop_digits {s : List UInt8} (h : ∀ b ∈ s, IsDigit b) (acc : Nat) :
    parseIntLoop s acc = some (digitsValue acc s) := by
  induction s generalizing acc with
  | nil => rfl
  | cons b s ih =>
    have hb : 48 ≤ b.toNat ∧ b.toNat ≤ 57 := h b List.mem_cons_self
    have hunder : b ≠ 95 := by
      rintro rfl
      exact absurd hb.2 (by decide)
    rw [parseIntLoop, if_neg hunder, if_neg (by omega), digitsValue_cons,
      ih fun c hc => h c (List.mem_cons_of_mem b hc)]

theorem parseUnsigned_decimal {n : Nat} (hn : n ≤ maxU64) : parseUnsigned (decimal n) = some n := by
  obtain ⟨hne, hdigits, hvalue, -⟩ := isNumber_decimal hn
  have hunder : ¬ IsDigit 95 := by
    unfold IsDigit
    decide
  unfold parseUnsigned
  rw [if_neg, parseIntLoop_digits hdigits, hvalue]
  rintro (hnil | hhead | hlast)
  · exact hne hnil
  · exact hunder (head_decimal_digit hhead)
  · exact hunder (isDigit_decimal (List.mem_of_getLast? hlast))

theorem parseInt_decimalInt {n : Int} (hn : n.natAbs ≤ maxU64) :
    parseInt (decimalInt n) = some n := by
  unfold decimalInt parseInt
  split_ifs with hneg hminus hplus hminus hplus
  · rw [List.tail_cons, parseUnsigned_decimal hn, Option.map_some]
    congr 1
    omega
  · exact absurd rfl hminus
  · exact absurd rfl hminus
  · exact absurd (head_decimal_digit hminus) (by unfold IsDigit; decide)
  · exact absurd (head_decimal_digit hplus) (by unfold IsDigit; decide)
  · rw [parseUnsigned_decimal hn, Option.map_some]
    congr 1
    omega

/-- **A number that is printed is read**, at a type that has it. -/
theorem sliceToInt_decimalInt (ofFloat : List UInt8 → Option Int) {lo hi n : Int} (hlo : lo ≤ n)
    (hhi : n ≤ hi) (hn : n.natAbs ≤ maxU64) :
    sliceToInt ofFloat lo hi (decimalInt n) = some n := by
  have hplain : ∀ b ∈ decimalInt n, b ≠ 46 ∧ b ≠ 101 ∧ b ≠ 69 := by
    have hdigit : ∀ c : UInt8, c.toNat < 48 ∨ 57 < c.toNat → ∀ b ∈ decimal n.natAbs, b ≠ c := by
      rintro c hc b hb rfl
      have hrange : 48 ≤ b.toNat ∧ b.toNat ≤ 57 := isDigit_decimal hb
      omega
    intro b hb
    unfold decimalInt at hb
    split_ifs at hb
    · rcases List.mem_cons.mp hb with rfl | hb
      · decide
      · exact ⟨hdigit 46 (by decide) b hb, hdigit 101 (by decide) b hb, hdigit 69 (by decide) b hb⟩
    · exact ⟨hdigit 46 (by decide) b hb, hdigit 101 (by decide) b hb, hdigit 69 (by decide) b hb⟩
  have hnotzero : decimalInt n ≠ ascii "-0" := by
    unfold decimalInt
    intro heq
    split_ifs at heq with hneg
    · have hhead := head_decimal (n := n.natAbs) (by omega)
      rw [(List.cons.inj heq).2] at hhead
      exact hhead rfl
    · have hminus : (45 : UInt8) ∈ decimal n.natAbs := heq ▸ List.mem_cons_self
      exact absurd (isDigit_decimal hminus) (by unfold IsDigit; decide)
  unfold sliceToInt
  dsimp only
  rw [if_neg, parseInt_decimalInt hn, Option.bind_some, if_pos ⟨hlo, hhi⟩]
  rintro (hzero | hfloat)
  · exact hnotzero hzero
  · obtain ⟨b, hb, heq⟩ := List.any_eq_true.mp hfloat
    obtain ⟨hdot, hexp, hexp'⟩ := hplain b hb
    simp [hdot, hexp, hexp'] at heq

/-! ## The round trip -/

theorem verbatim_of_clean {s : List UInt8} (h : leaseJsonClean s = true) : Verbatim s := by
  unfold leaseJsonClean at h
  split_ifs at h with hutf8
  refine ⟨by simpa using hutf8, fun b hb => ?_⟩
  have hclean := List.all_eq_true.mp h b hb
  simp only [Bool.not_eq_true', Bool.or_eq_false_iff, decide_eq_false_iff_not] at hclean
  obtain ⟨⟨⟨hlow, -⟩, hquote⟩, hback⟩ := hclean
  exact ⟨Nat.not_lt.mp hlow, hquote, hback⟩

theorem reads_decimalInt (n : Int) : Reads (.number (decimalInt n)) (decimalInt n) :=
  reads_number (fun _ hb => numberByte_decimalInt hb) (isJsonNumber_decimalInt n)

theorem decimalInt_nat (n : Nat) : decimalInt n = decimal n := by
  unfold decimalInt
  rw [if_neg (by omega), Int.natAbs_natCast]

theorem reads_decimal (n : Nat) : Reads (.number (decimal n)) (decimal n) :=
  decimalInt_nat n ▸ reads_decimalInt n

/-- What std.json reads of an address. -/
def addrJson (a : LeaseAddr) : Json :=
  .object [(ascii "ip", .string a.ip), (ascii "port", .number (decimal a.port.toNat)),
    (ascii "mbps", .number (decimal a.mbps.toNat))]

def leaseJson (id : List UInt8) (untilSec : Int) (addrs : List LeaseAddr) : Json :=
  .object [(ascii "id", .string id), (ascii "until", .number (decimalInt untilSec)),
    (ascii "addrs", .array (addrs.map addrJson))]

theorem addrText_eq (a : LeaseAddr) :
    addrText a = jsonObject [(ascii "ip", 34 :: (a.ip ++ [34])),
      (ascii "port", decimal a.port.toNat), (ascii "mbps", decimal a.mbps.toNat)] := by
  unfold addrText jsonObject
  simp [commaSep, jsonMember, ascii]

theorem leaseText_eq (id : List UInt8) (untilSec : Int) (addrs : List LeaseAddr) :
    leaseText id untilSec addrs = jsonObject [(ascii "id", 34 :: (id ++ [34])),
      (ascii "until", decimalInt untilSec), (ascii "addrs", jsonArray (addrs.map addrText))] := by
  unfold leaseText jsonObject jsonArray
  simp [commaSep, jsonMember, ascii]

theorem verbatim_names : Verbatim (ascii "ip") ∧ Verbatim (ascii "port") ∧
    Verbatim (ascii "mbps") ∧ Verbatim (ascii "id") ∧ Verbatim (ascii "until") ∧
    Verbatim (ascii "addrs") :=
  ⟨verbatim_of_clean (by decide), verbatim_of_clean (by decide), verbatim_of_clean (by decide),
    verbatim_of_clean (by decide), verbatim_of_clean (by decide), verbatim_of_clean (by decide)⟩

theorem reads_addr {a : LeaseAddr} (h : leaseJsonClean a.ip = true) :
    Reads (addrJson a) (addrText a) := by
  obtain ⟨hip, hport, hmbps, -⟩ := verbatim_names
  rw [addrText_eq]
  refine @reads_object [(ascii "ip", .string a.ip, 34 :: (a.ip ++ [34])),
    (ascii "port", .number (decimal a.port.toNat), decimal a.port.toNat),
    (ascii "mbps", .number (decimal a.mbps.toNat), decimal a.mbps.toNat)] ?_
  intro m hm
  simp only [List.mem_cons, List.not_mem_nil, or_false] at hm
  rcases hm with rfl | rfl | rfl
  · exact ⟨hip, reads_string (verbatim_of_clean h)⟩
  · exact ⟨hport, reads_decimal _⟩
  · exact ⟨hmbps, reads_decimal _⟩

theorem reads_lease {id : List UInt8} {untilSec : Int} {addrs : List LeaseAddr}
    (hid : leaseJsonClean id = true) (haddrs : ∀ a ∈ addrs, leaseJsonClean a.ip = true) :
    Reads (leaseJson id untilSec addrs) (leaseText id untilSec addrs) := by
  obtain ⟨-, -, -, hkey, huntil, hlist⟩ := verbatim_names
  rw [leaseText_eq]
  refine @reads_object [(ascii "id", .string id, 34 :: (id ++ [34])),
    (ascii "until", .number (decimalInt untilSec), decimalInt untilSec),
    (ascii "addrs", .array (addrs.map addrJson), jsonArray (addrs.map addrText))] ?_
  intro m hm
  simp only [List.mem_cons, List.not_mem_nil, or_false] at hm
  rcases hm with rfl | rfl | rfl
  · exact ⟨hkey, reads_string (verbatim_of_clean hid)⟩
  · exact ⟨huntil, reads_decimalInt _⟩
  · refine ⟨hlist, reads_array ?_⟩
    rw [List.forall₂_map_left_iff, List.forall₂_map_right_iff, List.forall₂_same]
    exact fun a ha => reads_addr (haddrs a ha)

section Decoders

variable (ofFloat : List UInt8 → Option Int)

theorem decodeInt_decimal {hi : Int} {n : Nat} (hn : (n : Int) ≤ hi) (hmax : n ≤ maxU64) :
    decodeInt ofFloat 0 hi (.number (decimal n)) = some (n : Int) := by
  rw [← decimalInt_nat]
  exact sliceToInt_decimalInt ofFloat (by omega) hn (by rwa [Int.natAbs_natCast])

theorem fields_addr (x y z : Json) :
    let members := [(ascii "ip", x), (ascii "port", y), (ascii "mbps", z)]
    required (ascii "ip") members = some x ∧ required (ascii "port") members = some y ∧
      fieldOf (ascii "mbps") members = some (some z) :=
  ⟨rfl, rfl, rfl⟩

theorem fields_lease (x y z : Json) :
    let members := [(ascii "id", x), (ascii "until", y), (ascii "addrs", z)]
    required (ascii "id") members = some x ∧ required (ascii "until") members = some y ∧
      required (ascii "addrs") members = some z :=
  ⟨rfl, rfl, rfl⟩

theorem decodeAddr_addrJson (a : LeaseAddr) : decodeAddr ofFloat (addrJson a) = some a := by
  have hport := a.port.toNat_lt
  have hmbps := a.mbps.toNat_lt
  have hmax : maxU64 = 2 ^ 64 - 1 := rfl
  have hreadPort := @decodeInt_decimal ofFloat 65535 a.port.toNat (by omega) (by omega)
  have hreadMbps := @decodeInt_decimal ofFloat 4294967295 a.mbps.toNat (by omega) (by omega)
  obtain ⟨hx, hy, hz⟩ := fields_addr (.string a.ip) (.number (decimal a.port.toNat))
    (.number (decimal a.mbps.toNat))
  unfold decodeAddr addrJson
  dsimp only
  rw [hx, hy, hz, Option.bind_some, Option.bind_some, hreadPort]
  simp only [decodeBytes, Option.bind_eq_bind, Option.bind_some, hreadMbps, Int.toNat_natCast,
    UInt16.ofNat_toNat, UInt32.ofNat_toNat]

theorem decodeLease_leaseJson {id : List UInt8} {untilSec : Int} (addrs : List LeaseAddr)
    (hlo : minI64 ≤ untilSec) (hhi : untilSec ≤ maxI64) :
    decodeLease ofFloat (leaseJson id untilSec addrs) = some ⟨id, untilSec, addrs⟩ := by
  have hmax : maxU64 = 2 ^ 64 - 1 := rfl
  have hfits : untilSec.natAbs ≤ maxU64 := by
    unfold minI64 at hlo
    unfold maxI64 at hhi
    omega
  have hreadUntil : decodeInt ofFloat minI64 maxI64 (.number (decimalInt untilSec)) =
      some untilSec := sliceToInt_decimalInt ofFloat hlo hhi hfits
  have hreadAddrs : decodeAddrs ofFloat (.array (addrs.map addrJson)) = some addrs := by
    unfold decodeAddrs
    dsimp only
    induction addrs with
    | nil => rfl
    | cons a addrs ih =>
      rw [List.map_cons, List.mapM_cons, decodeAddr_addrJson, ih]
      rfl
  obtain ⟨hx, hy, hz⟩ := fields_lease (.string id) (.number (decimalInt untilSec))
    (.array (addrs.map addrJson))
  unfold decodeLease leaseJson
  dsimp only
  rw [hx, hy, hz, Option.bind_some, Option.bind_some, Option.bind_some, hreadUntil, hreadAddrs]
  rfl

/-- **The round trip** of a lease. -/
theorem parseLease_formatLease {size : Nat} {id doc : List UInt8} {untilSec : Int}
    {addrs : List LeaseAddr} (hlo : minI64 ≤ untilSec) (hhi : untilSec ≤ maxI64)
    (h : formatLease size id untilSec addrs = .ok doc) :
    doc.length ≤ size ∧ parseLease ofFloat doc = some ⟨id, untilSec, addrs⟩ := by
  unfold formatLease at h
  split at h
  · cases h
  rename_i hid
  split at h
  · cases h
  rename_i haddrs
  split at h
  · cases h
  rename_i hsize
  obtain rfl := Except.ok.inj h
  refine ⟨Nat.not_lt.mp hsize, ?_⟩
  have hclean : ∀ a ∈ addrs, leaseJsonClean a.ip = true := by
    intro a ha
    by_contra hunclean
    exact haddrs (List.any_eq_true.mpr ⟨a, ha, by simpa using hunclean⟩)
  have hread := @reads_lease id untilSec addrs (by simpa using hid) hclean
  unfold parseLease
  rw [parseJson_of_reads hread, Option.bind_some]
  exact decodeLease_leaseJson ofFloat addrs hlo hhi

end Decoders

/-! ## Publish and refresh -/

/-- A document that is installed came out of `formatLease`. -/
theorem publish_eq_installed {origin id name doc : List UInt8} {addrs : List LeaseAddr}
    {nowSec : Int} {calls : Calls}
    (h : publish origin id addrs nowSec calls = .installed name doc) :
    name = id ++ ascii ".json" ∧ formatLease 2048 id (untilOf nowSec) addrs = .ok doc := by
  unfold publish at h
  split at h
  · cases h
  split at h
  · cases h
  split at h
  · cases h
  split at h
  · cases h
  rename_i json hformat
  split at h
  · cases h
  dsimp only at h
  generalize (if calls.write = noEntry then calls.again else calls.write) = w at h
  split_ifs at h
  obtain ⟨rfl, rfl⟩ := Published.installed.inj h
  exact ⟨rfl, hformat⟩

theorem untilOf_range (nowSec : Int) : minI64 ≤ untilOf nowSec ∧ untilOf nowSec ≤ maxI64 := by
  have hrange : minI64 ≤ maxI64 := by decide
  exact ⟨le_max_left _ _, max_le hrange (min_le_left _ _)⟩

/-- The string is not what its embedding is read as. -/
def Corrupts (s : List UInt8) : Prop := ∃ rest, readString (s ++ 34 :: rest) ≠ some (s, rest)

/-- **The gate** of the writer. -/
theorem formatLease_refuses {size : Nat} {id s : List UInt8} {untilSec : Int}
    {addrs : List LeaseAddr} (hs : s = id ∨ ∃ a ∈ addrs, a.ip = s) (hcorrupts : Corrupts s) :
    formatLease size id untilSec addrs = .error .leaseStringUnclean := by
  have hunclean : leaseJsonClean s = false := by
    obtain ⟨rest, hrest⟩ := hcorrupts
    by_contra hclean
    exact hrest (readString_verbatim (verbatim_of_clean (by simpa using hclean)) rest)
  unfold formatLease
  rcases hs with rfl | ⟨a, ha, rfl⟩
  · rw [if_pos (by rw [hunclean]; rfl)]
  · split
    · rfl
    · rw [if_pos (List.any_eq_true.mpr ⟨a, ha, by rw [hunclean]; rfl⟩)]

/-- An address that becomes a path: a canonical dotted quad of a host that can be dialed, and a
port. -/
theorem dialable_iff {a : LeaseAddr} :
    Catalog.dialable a = true ↔
      ∃ quad, IsQuad quad ∧ a.ip = dotted quad ∧ Discover.isDialableHost quad = true ∧
        a.port ≠ 0 := by
  unfold Catalog.dialable
  constructor
  · intro h
    split at h
    · cases h
    · rename_i quad hquad
      obtain ⟨hcanon, htext⟩ := (parseV4_iff _ _).mp hquad
      rw [Bool.and_eq_true, Bool.not_eq_true', decide_eq_false_iff_not] at h
      exact ⟨quad, hcanon, htext, h.2, h.1⟩
  · rintro ⟨quad, hcanon, htext, hhost, hport⟩
    rw [(parseV4_iff _ _).mpr ⟨hcanon, htext⟩]
    dsimp only
    rw [hhost, decide_eq_false hport]
    rfl

section Readers

variable (ofFloat : List UInt8 → Option Int) {F : Type} (ofNat : Nat → F)

/-- What is published is read as it was. -/
theorem parseLease_installed {origin id name doc : List UInt8} {addrs : List LeaseAddr}
    {nowSec : Int} {calls : Calls}
    (hpublish : publish origin id addrs nowSec calls = .installed name doc) :
    doc.length ≤ 2048 ∧ parseLease ofFloat doc = some ⟨id, untilOf nowSec, addrs⟩ := by
  obtain ⟨-, hformat⟩ := publish_eq_installed hpublish
  obtain ⟨hlo, hhi⟩ := untilOf_range nowSec
  exact parseLease_formatLease ofFloat hlo hhi hformat

/-- The lease is visited wherever its name has a path. -/
theorem leaseAt_installed {dirz id doc : List UInt8} {lease : Lease}
    (hid : Discover.validId id = true) (hpath : joinZ pathMax dirz (id ++ ascii ".json") ≠ none)
    (hlen : doc.length ≤ leaseFileMax) (hdoc : parseLease ofFloat doc = some lease) :
    leaseAt ofFloat dirz (id ++ ascii ".json", some doc) = some lease := by
  have hname : id ≠ [] ∧ id.head? ≠ some 46 := by
    unfold Discover.validId at hid
    split_ifs at hid with hempty hdot
    exact ⟨fun hnil => hempty (Or.inl hnil), hdot⟩
  have hsuffix : (ascii ".json").isSuffixOf (id ++ ascii ".json") = true :=
    List.isSuffixOf_iff_suffix.mpr (List.suffix_append _ _)
  obtain ⟨path, hjoin⟩ := Option.ne_none_iff_exists'.mp hpath
  unfold leaseAt
  dsimp only
  rw [if_neg, hsuffix, hjoin]
  · exact (congrArg _ (List.take_of_length_le hlen)).trans hdoc
  · rintro (hnil | hdot)
    · exact hname.1 (List.append_eq_nil_iff.mp hnil).1
    · rw [List.head?_append_of_ne_nil _ hname.1] at hdot
      exact hname.2 hdot

/-- One path for each address that can be dialed. -/
def pathsFor (cfg : Catalog.Config) (id : List UInt8) (addrs : List LeaseAddr) :
    List (Catalog.Path F) :=
  (addrs.filter Catalog.dialable).map fun a =>
    Catalog.pathFor cfg (id, a.ip, a.port) (ofNat (Catalog.priorBps a.mbps))

/-- What stands in for paths while there are none. -/
def seedPaths (cfg : Catalog.Config) : List (Catalog.Path F) :=
  cfg.seeds.foldl (fun list s => Catalog.pushPath ofNat cfg list s.ip s) []

/-- What a refresh makes of a lease among others. -/
theorem refresh_perm {cfg : Catalog.Config} {nowSec : Int} {lease : Lease}
    (paths : List (Catalog.Path F)) (before after : List Lease)
    (hcounts : Catalog.counts cfg nowSec lease = true) :
    let others := (before ++ after).flatMap (Catalog.visit ofNat cfg nowSec [])
    let listed := pathsFor ofNat cfg lease.id lease.addrs ++ others
    (Catalog.refresh ofNat cfg paths nowSec (.ok (before ++ lease :: after))).Perm
      ((if listed = [] then seedPaths ofNat cfg else listed).map (Catalog.carry paths)) := by
  intro others listed
  have hvisit :
      Catalog.visit ofNat cfg nowSec [] lease = pathsFor ofNat cfg lease.id lease.addrs := by
    rw [Catalog.visit_eq, List.nil_append, if_pos hcounts]
    rfl
  have hall :
      ((before ++ lease :: after).flatMap (Catalog.visit ofNat cfg nowSec [])).Perm listed := by
    unfold listed others
    rw [List.flatMap_append, List.flatMap_cons, hvisit, List.flatMap_append]
    exact List.perm_append_comm_assoc ..
  by_cases hnil : listed = []
  · rw [if_pos hnil]
    rw [hnil] at hall
    rw [Catalog.refresh_nil (List.perm_nil.mp hall)]
    exact (List.perm_insertionSort Catalog.NotAfter _).map _
  · rw [if_neg hnil]
    rw [Catalog.refresh_ok fun heq => hnil (List.nil_perm.mp (heq ▸ hall))]
    exact ((List.perm_insertionSort Catalog.NotAfter _).trans hall).map _

/-- **Publish and refresh agree**, on every node where the lease has a path: the document is read
whole, as it was printed, and becomes one path for each address that can be dialed. -/
theorem lease_agree {origin id name doc : List UInt8} {addrs : List LeaseAddr} {nowSec : Int}
    {calls : Calls} (hid : Discover.validId id = true)
    (hpublish : publish origin id addrs nowSec calls = .installed name doc) :
    doc.length ≤ 2048 ∧ doc.length ≤ leaseFileMax ∧
      parseLease ofFloat doc = some ⟨id, untilOf nowSec, addrs⟩ ∧
      (∀ other dirz before after, joinZ pathMax other clusterDir = some dirz →
        joinZ pathMax dirz name ≠ none →
        walkLeases ofFloat other (.names (before ++ (name, some doc) :: after)) =
          .ok (before.filterMap (leaseAt ofFloat dirz) ++ ⟨id, untilOf nowSec, addrs⟩ ::
            after.filterMap (leaseAt ofFloat dirz))) ∧
      (∀ (cfg : Catalog.Config) (readSec : Int) (paths : List (Catalog.Path F)) (before after),
        cfg.selfId ≠ id → Discover.leaseLive (untilOf nowSec) readSec = true →
        let lease : Lease := ⟨id, untilOf nowSec, addrs⟩
        let others := (before ++ after).flatMap (Catalog.visit ofNat cfg readSec [])
        let listed := pathsFor ofNat cfg id addrs ++ others
        (∀ list, Catalog.visit ofNat cfg readSec list lease = list ++ pathsFor ofNat cfg id addrs) ∧
          (Catalog.refresh ofNat cfg paths readSec (.ok (before ++ lease :: after))).Perm
            ((if listed = [] then seedPaths ofNat cfg else listed).map (Catalog.carry paths))) ∧
      (∀ a, Catalog.dialable a = true ↔ ∃ quad, IsQuad quad ∧ a.ip = dotted quad ∧
        Discover.isDialableHost quad = true ∧ a.port ≠ 0) ∧
      ∀ size id s untilSec addrs, (s = id ∨ ∃ a ∈ addrs, a.ip = s) → Corrupts s →
        formatLease size id untilSec addrs = .error .leaseStringUnclean := by
  obtain ⟨hlen, hparse⟩ := parseLease_installed ofFloat hpublish
  obtain ⟨rfl, -⟩ := publish_eq_installed hpublish
  have hmax : doc.length ≤ leaseFileMax := hlen.trans (by decide)
  refine ⟨hlen, hmax, hparse, ?_, ?_, fun a => dialable_iff, ?_⟩
  · intro other dirz before after hdirz hpath
    have hlease := leaseAt_installed ofFloat hid hpath hmax hparse
    unfold walkLeases
    rw [hdirz]
    dsimp only
    rw [List.filterMap_append, List.filterMap_cons, hlease]
  · intro cfg readSec paths before after hother hlive lease others listed
    have hcounts : Catalog.counts cfg readSec lease = true := by
      unfold Catalog.counts
      rw [hlive, hid, decide_eq_false (Ne.symm hother)]
      rfl
    refine ⟨fun list => ?_, refresh_perm ofNat paths before after hcounts⟩
    rw [Catalog.visit_eq, if_pos hcounts]
    rfl
  · intro size id s untilSec addrs hs hcorrupts
    exact formatLease_refuses hs hcorrupts

end Readers

/-- A quad, and a spelling of it that is not canonical. -/
def twoAddrs : List LeaseAddr :=
  [⟨⟨ascii "10.0.0.2", 9000⟩, 0⟩, ⟨⟨ascii "10.0.0.02", 9000⟩, 0⟩]

def freeCalls : Calls := ⟨0, 0, 0⟩

def docB : List UInt8 := leaseText (ascii "b") 130 twoAddrs

theorem publish_docB : publish (ascii "/o") (ascii "b") twoAddrs 100 freeCalls =
    .installed (ascii "b.json") docB := by
  decide +kernel

/-- Node `a` reads what node `b` has published. -/
theorem lease_agree_two :
    walkLeases (fun _ => none) (ascii "/p") (.names [(ascii "b.json", some docB)]) =
        .ok [⟨ascii "b", 130, twoAddrs⟩] ∧
      Catalog.visit id ⟨ascii "a", [], []⟩ 144 [] ⟨ascii "b", 130, twoAddrs⟩ =
        [⟨⟨ascii "b", ascii "10.0.0.2", 9000, 0⟩, 100000000, 1⟩] := by
  obtain ⟨-, -, -, hwalk, hvisit, -⟩ :=
    lease_agree (fun _ => none) id (by decide) publish_docB
  have hread :=
    hwalk (ascii "/p") (ascii "/p/.cluster") [] [] (by decide +kernel) (by decide +kernel)
  obtain ⟨hlist, -⟩ := hvisit ⟨ascii "a", [], []⟩ 144 [] [] [] (by decide) (by decide)
  refine ⟨hread, (hlist []).trans ?_⟩
  decide +kernel

/-- An origin whose leases have paths of 4096 bytes and more. -/
def deepOrigin : List UInt8 := (List.replicate 16 (47 :: List.replicate 254 97)).flatten

theorem length_deepOrigin : deepOrigin.length = 4080 := by
  unfold deepOrigin
  rw [List.length_flatten, List.map_replicate, List.sum_replicate, List.length_cons,
    List.length_replicate]
  rfl

theorem last_deepOrigin : deepOrigin.getLast? ≠ some slash := by
  unfold deepOrigin
  rw [List.replicate_succ', List.flatten_append, List.getLast?_append]
  decide

/-- **A lease out of reach**: the directory can be opened there, and no file in it has a path. -/
theorem lease_out_of_reach : ¬ ∀ (ofFloat : List UInt8 → Option Int)
    (origin id : List UInt8) (addrs : List LeaseAddr) (nowSec : Int) (calls : Calls)
    (name doc : List UInt8), Discover.validId id = true →
    publish origin id addrs nowSec calls = .installed name doc →
    ∀ other entries leases, (name, some doc) ∈ entries →
      walkLeases ofFloat other (.names entries) = .ok leases → ∃ lease ∈ leases, lease.id = id := by
  intro h
  have hstem : rootStem deepOrigin = deepOrigin := if_neg last_deepOrigin
  have hdir : joinZ pathMax deepOrigin clusterDir = some (deepOrigin ++ slash :: clusterDir) := by
    rw [joinZ_of_edges (by decide) (by decide) (by decide), hstem, if_neg]
    rw [List.length_append, length_deepOrigin]
    decide
  have hname : joinZ pathMax (deepOrigin ++ slash :: clusterDir) (ascii "b.json") = none := by
    rw [joinZ_of_edges (by decide) (by decide) (by decide),
      rootStem_append (by decide) (by decide), if_pos]
    rw [List.length_append, List.length_append, length_deepOrigin]
    decide
  have hwalk : walkLeases (fun _ => none) deepOrigin (.names [(ascii "b.json", some docB)]) =
      .ok [] := by
    unfold walkLeases
    rw [hdir]
    dsimp only
    rw [List.filterMap_cons, leaseAt, if_neg (by decide), if_neg (by decide)]
    dsimp only
    rw [hname]
    rfl
  obtain ⟨lease, hlease, -⟩ := h (fun _ => none) _ _ _ _ _ _ _ (by decide) publish_docB deepOrigin
    [(ascii "b.json", some docB)] [] (List.mem_singleton_self _) hwalk
  cases hlease

end LeaseDoc

end ModelFs
