import ModelFs.InodesHandover
import ModelFs.PeerRequest
import ModelFs.Lib.Json

/-!
# The state that is handed over

`handover.encode` writes what a daemon serves with into a sealed memfd: a magic, one line of JSON,
and the key as it is. The image that replaces it reads the memfd with `readStateFd`, which takes at
most a megabyte, and `decode`. JSON is written here as the source's library writes it; that the
library reads its own text back is assumed of the document at hand.

* `decode_encode` — **the codec's round trip**: what is encoded is decoded, whatever its length.
* `length_encode` — the length, from the state alone.
* `state_round_trip` — **a state of at most a megabyte is read back whole, and a larger one not at
  all**, when the image that wrote it is gone.
* `size_of_nodes`, `state_lost` — a table of 32768 nodes is too large.
-/

namespace ModelFs

open Proto

namespace Handover

open Inodes (NodeSnap OpenSnap)

/-! ## The state -/

/-- `cull.Water`. -/
structure Water where
  brun : Nat := 10
  bcull : Nat := 7
  bstop : Nat := 3
  deriving DecidableEq, Repr

def Water.ordered (w : Water) : Bool := w.brun ≤ 100 && w.bcull < w.brun && w.bstop < w.bcull

/-- `std.log.Level`. -/
inductive Level where
  | err
  | warn
  | info
  | debug
  deriving DecidableEq, Repr

def Level.tagName : Level → List UInt8
  | .err => ascii "err"
  | .warn => ascii "warn"
  | .info => ascii "info"
  | .debug => ascii "debug"

/-- `proto.LeaseAddr`, with the rate. -/
structure LeaseAddr where
  ip : List UInt8
  port : Nat
  mbps : Nat := 0
  deriving DecidableEq, Repr

/-- `Knobs`, and `Owned` on the other side. -/
structure Knobs where
  origin : List UInt8
  cache : List UInt8
  id : List UInt8
  mount : List UInt8
  piece : Nat
  listen : Nat
  water : Water
  directIo : Bool
  allowOther : Bool
  fuseFd : Int
  listenFds : List Int
  advertise : List LeaseAddr
  seeds : List LeaseAddr
  psk : List UInt8
  logLevel : Level := .info
  init : List UInt8 := []
  nodes : List NodeSnap := []
  opens : List OpenSnap := []
  nextIno : Nat := 2
  nextFh : Nat := 1
  deriving DecidableEq

/-- What stands in the JSON: the key's length in place of the key, and `init` in hex. -/
structure JsonDoc where
  origin : List UInt8
  cache : List UInt8
  id : List UInt8
  mount : List UInt8
  piece : Nat
  listen : Nat
  brun : Nat
  bcull : Nat
  bstop : Nat
  directIo : Bool
  allowOther : Bool
  fuseFd : Int
  listenFds : List Int
  advertise : List LeaseAddr
  seeds : List LeaseAddr
  pskLen : Nat
  logLevel : Level
  init : List UInt8
  nodes : List NodeSnap
  opens : List OpenSnap
  nextIno : Nat
  nextFh : Nat
  deriving DecidableEq

/-! ## The text of a document -/

def integer (i : Int) : List UInt8 :=
  if i < 0 then 45 :: decimal i.natAbs else decimal i.natAbs

def string (s : List UInt8) : List UInt8 := jsonBytes decimal s

def addrText (a : LeaseAddr) : List UInt8 :=
  jsonObject [(ascii "ip", string a.ip), (ascii "port", decimal a.port),
    (ascii "mbps", decimal a.mbps)]

def nodeText (n : NodeSnap) : List UInt8 :=
  jsonObject [(ascii "ino", decimal n.ino), (ascii "path", string n.path),
    (ascii "nlookup", decimal n.nlookup)]

def openText (o : OpenSnap) : List UInt8 :=
  jsonObject [(ascii "fh", decimal o.fh), (ascii "path", string o.path)]

def fields (d : JsonDoc) : List (List UInt8 × List UInt8) :=
  [(ascii "origin", string d.origin),
    (ascii "cache", string d.cache),
    (ascii "id", string d.id),
    (ascii "mount", string d.mount),
    (ascii "piece", decimal d.piece),
    (ascii "listen", decimal d.listen),
    (ascii "brun", decimal d.brun),
    (ascii "bcull", decimal d.bcull),
    (ascii "bstop", decimal d.bstop),
    (ascii "direct_io", jsonBool d.directIo),
    (ascii "allow_other", jsonBool d.allowOther),
    (ascii "fuse_fd", integer d.fuseFd),
    (ascii "listen_fds", jsonArray (d.listenFds.map integer)),
    (ascii "advertise", jsonArray (d.advertise.map addrText)),
    (ascii "seeds", jsonArray (d.seeds.map addrText)),
    (ascii "psk_len", decimal d.pskLen),
    (ascii "log_level", jsonString d.logLevel.tagName),
    (ascii "init", string d.init),
    (ascii "nodes", jsonArray (d.nodes.map nodeText)),
    (ascii "opens", jsonArray (d.opens.map openText)),
    (ascii "next_ino", decimal d.nextIno),
    (ascii "next_fh", decimal d.nextFh)]

/-- `std.json.Stringify.valueAlloc`. -/
def stringify (d : JsonDoc) : List UInt8 := jsonObject (fields d)

/-! ## The codec -/

def magic : List UInt8 := ascii "MFHO1\n"

def initMax : Nat := 4096

/-- The errors of `encode`, `decode` and `readStateFd`, memory aside. -/
inductive Fault where
  | badWatermarks
  | initTooLarge
  | nonUtf8Knob
  | badPsk
  | badMagic
  | truncated
  | badJson
  | pskLen
  | pskTooLarge
  | badInit
  | fileTooBig
  deriving DecidableEq, Repr

/-- The two digits of a byte. -/
def hexByte (b : UInt8) : List UInt8 :=
  let hexDigits := ascii "0123456789abcdef"
  [hexDigits.getD (b.toNat / 16) 0, hexDigits.getD (b.toNat % 16) 0]

def hexInit (init : List UInt8) : Except Fault (List UInt8) :=
  if initMax < init.length then .error .initTooLarge else .ok (init.flatMap hexByte)

/-- `std.fmt.hexToBytes`. -/
def hexToBytes : List UInt8 → Option (List UInt8)
  | [] => some []
  | [_] => none
  | hi :: lo :: rest =>
    (hexVal hi).bind fun h => (hexVal lo).bind fun l =>
      (hexToBytes rest).map (UInt8.ofNat (h * 16 + l) :: ·)

/-- The document `encode` writes. -/
def docOf (k : Knobs) (initHex : List UInt8) : JsonDoc where
  origin := k.origin
  cache := k.cache
  id := k.id
  mount := k.mount
  piece := k.piece
  listen := k.listen
  brun := k.water.brun
  bcull := k.water.bcull
  bstop := k.water.bstop
  directIo := k.directIo
  allowOther := k.allowOther
  fuseFd := k.fuseFd
  listenFds := k.listenFds
  advertise := k.advertise
  seeds := k.seeds
  pskLen := k.psk.length
  logLevel := k.logLevel
  init := initHex
  nodes := k.nodes
  opens := k.opens
  nextIno := k.nextIno
  nextFh := k.nextFh

/-- The values that have to be UTF-8 are. -/
def utf8Knobs (k : Knobs) : Bool :=
  utf8ValidateSlice k.id && k.advertise.all (fun a => utf8ValidateSlice a.ip) &&
    k.seeds.all fun a => utf8ValidateSlice a.ip

def encode (k : Knobs) : Except Fault (List UInt8) :=
  if ¬ k.water.ordered then .error .badWatermarks
  else
    match hexInit k.init with
    | .error e => .error e
    | .ok initHex =>
      if ¬ utf8Knobs k then .error .nonUtf8Knob
      else if 13 ∈ k.psk ∨ 10 ∈ k.psk then .error .badPsk
      else .ok (magic ++ (stringify (docOf k initHex) ++ 10 :: k.psk))

section Reader

-- `std.json.parseFromSlice` at `JsonDoc`
variable (parse : List UInt8 → Option JsonDoc)

def decode (blob : List UInt8) : Except Fault Knobs :=
  if ¬ magic <+: blob then .error .badMagic
  else
    let rest := blob.drop magic.length
    match findScalar 10 rest with
    | none => .error .truncated
    | some nl =>
      let psk := rest.drop (nl + 1)
      match parse (rest.take nl) with
      | none => .error .badJson
      | some d =>
        let water : Water := ⟨d.brun, d.bcull, d.bstop⟩
        if d.pskLen ≠ psk.length then .error .pskLen
        else if maxPskBytes < d.pskLen then .error .pskTooLarge
        else if 13 ∈ psk ∨ 10 ∈ psk then .error .badPsk
        else if d.init.length % 2 ≠ 0 ∨ initMax < d.init.length / 2 then .error .badInit
        else if ¬ water.ordered then .error .badWatermarks
        else
          match hexToBytes d.init with
          | none => .error .badInit
          | some init =>
            .ok {
              origin := d.origin
              cache := d.cache
              id := d.id
              mount := d.mount
              piece := d.piece
              listen := d.listen
              water := water
              directIo := d.directIo
              allowOther := d.allowOther
              fuseFd := d.fuseFd
              listenFds := d.listenFds
              advertise := d.advertise
              seeds := d.seeds
              psk := psk
              logLevel := d.logLevel
              init := init
              nodes := d.nodes
              opens := d.opens
              nextIno := d.nextIno
              nextFh := d.nextFh }

/-- `max_state_bytes`. -/
def maxStateBytes : Nat := 1 <<< 20

/-- `sys.readAllFdAlloc`, on a memfd that holds `blob`. -/
def readAllFdAlloc (blob : List UInt8) (max : Nat) : Except Fault (List UInt8) :=
  if max < blob.length then .error .fileTooBig else .ok blob

def readStateFd (blob : List UInt8) : Except Fault Knobs :=
  match readAllFdAlloc blob maxStateBytes with
  | .error e => .error e
  | .ok blob => decode parse blob

end Reader

/-! ## One line of JSON -/

theorem onOneLine_decimal (n : Nat) : OnOneLine (decimal n) := by
  intro b hb
  have := digit_of_mem_decimal hb
  omega

theorem onOneLine_integer (i : Int) : OnOneLine (integer i) := by
  unfold integer
  split_ifs
  · exact (onOneLine_decimal _).cons (by decide)
  · exact onOneLine_decimal _

theorem onOneLine_string (s : List UInt8) : OnOneLine (string s) :=
  onOneLine_jsonBytes onOneLine_decimal s

/-- An array whose elements are lines. -/
theorem onOneLine_list {α : Type*} {text : α → List UInt8} (h : ∀ a, OnOneLine (text a))
    (l : List α) : OnOneLine (jsonArray (l.map text)) := by
  refine onOneLine_jsonArray fun x hx => ?_
  obtain ⟨a, -, rfl⟩ := List.mem_map.mp hx
  exact h a

theorem onOneLine_addrText (a : LeaseAddr) : OnOneLine (addrText a) := by
  refine onOneLine_jsonObject (of_decide_eq_true rfl) ?_
  simp [onOneLine_string, onOneLine_decimal]

theorem onOneLine_nodeText (n : NodeSnap) : OnOneLine (nodeText n) := by
  refine onOneLine_jsonObject (of_decide_eq_true rfl) ?_
  simp [onOneLine_string, onOneLine_decimal]

theorem onOneLine_openText (o : OpenSnap) : OnOneLine (openText o) := by
  refine onOneLine_jsonObject (of_decide_eq_true rfl) ?_
  simp [onOneLine_string, onOneLine_decimal]

/-- The line break behind the document is the first one. -/
theorem onOneLine_stringify (d : JsonDoc) : OnOneLine (stringify d) := by
  refine onOneLine_jsonObject (of_decide_eq_true rfl) ?_
  simp [fields, onOneLine_string, onOneLine_decimal, onOneLine_integer, onOneLine_jsonBool,
    onOneLine_jsonString, onOneLine_list onOneLine_integer, onOneLine_list onOneLine_addrText,
    onOneLine_list onOneLine_nodeText, onOneLine_list onOneLine_openText]

/-! ## The round trip -/

/-- The digits of a byte read back, and are plain characters. -/
theorem hexDigit_plain {n : Nat} (h : n < 16) :
    let digit := (ascii "0123456789abcdef").getD n 0
    hexVal digit = some n ∧ digit.toNat ≤ 0x7f ∧ escapeSize digit = 1 := by
  revert n
  decide

theorem hexToBytes_hex (init : List UInt8) : hexToBytes (init.flatMap hexByte) = some init := by
  induction init with
  | nil => rfl
  | cons b init ih =>
    have hb := b.toNat_lt
    have hhi := hexDigit_plain (show b.toNat / 16 < 16 by omega)
    have hlo := hexDigit_plain (show b.toNat % 16 < 16 by omega)
    have hbyte : UInt8.ofNat (b.toNat / 16 * 16 + b.toNat % 16) = b := by
      rw [Nat.div_add_mod']
      exact UInt8.ofNat_toNat
    rw [List.flatMap_cons, hexByte, List.cons_append, List.cons_append, List.nil_append, hexToBytes,
      hhi.1, hlo.1, ih]
    simp only [Option.bind_some, Option.map_some, hbyte]

theorem length_hex (init : List UInt8) : (init.flatMap hexByte).length = 2 * init.length := by
  rw [List.length_flatMap]
  simp [hexByte, Nat.mul_comm]

/-- The document of a state. -/
def stateDoc (k : Knobs) : JsonDoc := docOf k (k.init.flatMap hexByte)

theorem encode_eq_ok {k : Knobs} {blob : List UInt8} : encode k = .ok blob ↔
    k.water.ordered = true ∧ k.init.length ≤ initMax ∧ utf8Knobs k = true ∧
      (13 ∉ k.psk ∧ 10 ∉ k.psk) ∧ magic ++ (stringify (stateDoc k) ++ 10 :: k.psk) = blob := by
  unfold encode hexInit
  by_cases hwater : k.water.ordered = true
  · by_cases hinit : initMax < k.init.length
    · simp [hwater, hinit]
    · by_cases hutf8 : utf8Knobs k = true
      · by_cases hline : 13 ∈ k.psk ∨ 10 ∈ k.psk
        · simp only [hwater, hinit, hutf8, hline, not_true_eq_false, if_false, if_true]
          simp only [reduceCtorEq, false_iff]
          rintro ⟨-, -, -, hnot, -⟩
          exact hline.elim hnot.1 hnot.2
        · simp [hwater, hinit, hutf8, not_or.mp hline, Nat.not_lt.mp hinit, stateDoc]
      · simp [hwater, hinit, hutf8]
  · simp [hwater]

/-- **Round trip.** What is encoded is decoded, if the key is no longer than a key may be and the
library reads its own text. -/
theorem decode_encode {k : Knobs} {blob : List UInt8} (parse : List UInt8 → Option JsonDoc)
    (hjson : parse (stringify (stateDoc k)) = some (stateDoc k))
    (hpsk : k.psk.length ≤ maxPskBytes) (h : encode k = .ok blob) : decode parse blob = .ok k := by
  obtain ⟨hwater, hinit, -, hline, rfl⟩ := encode_eq_ok.mp h
  have hfind : findScalar 10 (stringify (stateDoc k) ++ 10 :: k.psk) =
      some (stringify (stateDoc k)).length :=
    findScalar_append (onOneLine_stringify (stateDoc k)).not_mem
  have hpskLen : (stateDoc k).pskLen = k.psk.length := rfl
  have hinitDoc : (stateDoc k).init = k.init.flatMap hexByte := rfl
  have hwaterDoc : Water.mk (stateDoc k).brun (stateDoc k).bcull (stateDoc k).bstop = k.water := rfl
  have hlen := length_hex k.init
  have hdrop : (stringify (stateDoc k) ++ 10 :: k.psk).drop ((stringify (stateDoc k)).length + 1) =
      k.psk := by
    rw [← List.drop_drop, List.drop_left]
    rfl
  unfold decode
  rw [if_neg (not_not.mpr (List.prefix_append _ _)), List.drop_left]
  dsimp only
  rw [hfind]
  dsimp only
  rw [List.take_left, hdrop, hjson]
  dsimp only
  rw [hpskLen, hinitDoc, hwaterDoc, if_neg (not_not.mpr rfl), if_neg (Nat.not_lt.mpr hpsk),
    if_neg (not_or.mpr hline), if_neg (by omega), if_neg (not_not.mpr hwater), hexToBytes_hex]
  rfl

/-! ## The size of a state -/

def integerSize (i : Int) : Nat := (integer i).length

def addrSize (a : LeaseAddr) : Nat :=
  23 + bytesSize decimal a.ip + (decimal a.port).length + (decimal a.mbps).length

def nodeSize (n : NodeSnap) : Nat :=
  27 + (decimal n.ino).length + bytesSize decimal n.path + (decimal n.nlookup).length

def openSize (o : OpenSnap) : Nat := 15 + (decimal o.fh).length + bytesSize decimal o.path

def boolSize (b : Bool) : Nat := if b then 4 else 5

/-- The bytes of the blob: keys, brackets and commas are 239 of them. -/
def stateSize (k : Knobs) : Nat :=
  239 + bytesSize decimal k.origin + bytesSize decimal k.cache + bytesSize decimal k.id +
    bytesSize decimal k.mount + (decimal k.piece).length + (decimal k.listen).length +
    (decimal k.water.brun).length + (decimal k.water.bcull).length +
    (decimal k.water.bstop).length + boolSize k.directIo + boolSize k.allowOther +
    integerSize k.fuseFd + listSize (k.listenFds.map integerSize) +
    listSize (k.advertise.map addrSize) + listSize (k.seeds.map addrSize) +
    (decimal k.psk.length).length + k.psk.length + k.logLevel.tagName.length + 2 * k.init.length +
    listSize (k.nodes.map nodeSize) + listSize (k.opens.map openSize) +
    (decimal k.nextIno).length + (decimal k.nextFh).length

theorem length_addrText (a : LeaseAddr) : (addrText a).length = addrSize a := by
  rw [addrText, length_jsonObject]
  simp [listSize, addrSize, string, length_jsonBytes, ascii]
  omega

theorem length_nodeText (n : NodeSnap) : (nodeText n).length = nodeSize n := by
  rw [nodeText, length_jsonObject]
  simp [listSize, nodeSize, string, length_jsonBytes, ascii]
  omega

theorem length_openText (o : OpenSnap) : (openText o).length = openSize o := by
  rw [openText, length_jsonObject]
  simp [listSize, openSize, string, length_jsonBytes, ascii]
  omega

theorem length_jsonBool (b : Bool) : (jsonBool b).length = boolSize b := by
  cases b <;> rfl

theorem length_tagName (l : Level) :
    (jsonString l.tagName).length = 2 + l.tagName.length := by
  cases l <;> rfl

/-- A list of records, each with its size. -/
theorem length_list {α : Type*} {text : α → List UInt8} {size : α → Nat}
    (h : ∀ a, (text a).length = size a) (l : List α) :
    (jsonArray (l.map text)).length = listSize (l.map size) := by
  rw [length_jsonArray, List.map_map]
  exact congrArg listSize (List.map_congr_left fun a _ => h a)

/-- Hex is plain characters, two for a byte. -/
theorem bytesSize_hex (init : List UInt8) :
    bytesSize decimal (init.flatMap hexByte) = 2 + 2 * init.length := by
  have hplain : ∀ b ∈ init.flatMap hexByte, b.toNat ≤ 0x7f ∧ escapeSize b = 1 := by
    intro b hb
    obtain ⟨a, -, hab⟩ := List.mem_flatMap.mp hb
    have ha := a.toNat_lt
    rcases List.mem_pair.mp hab with rfl | rfl
    · exact (hexDigit_plain (show a.toNat / 16 < 16 by omega)).2
    · exact (hexDigit_plain (show a.toNat % 16 < 16 by omega)).2
  have hvalid := utf8ValidateSlice_ascii fun b hb => (hplain b hb).1
  have hone : (init.flatMap hexByte).map escapeSize =
      List.replicate (init.flatMap hexByte).length 1 := by
    rw [← List.map_const']
    exact List.map_congr_left fun b hb => (hplain b hb).2
  rw [bytesSize, if_pos hvalid, hone, List.sum_replicate, length_hex,
    Nat.nsmul_eq_mul, Nat.mul_one]

/-- **The length of the blob.** -/
theorem length_stringify (k : Knobs) :
    (magic ++ (stringify (stateDoc k) ++ 10 :: k.psk)).length = stateSize k := by
  have hfds : (jsonArray (k.listenFds.map integer)).length =
      listSize (k.listenFds.map integerSize) := length_list (fun _ => rfl) k.listenFds
  have hfd : (integer k.fuseFd).length = integerSize k.fuseFd := rfl
  have hmagic : magic.length = 6 := rfl
  have hdoc : (stringify (stateDoc k)).length + 7 + k.psk.length = stateSize k := by
    rw [stringify, length_jsonObject, fields, List.map_cons, listSize_cons]
    simp [stateDoc, docOf, string, length_jsonBytes, length_jsonBool, length_tagName,
      bytesSize_hex, hfds, length_list length_addrText, length_list length_nodeText,
      length_list length_openText, ascii, -List.map_map]
    unfold stateSize
    omega
  simp only [List.length_append, List.length_cons, hmagic]
  omega

theorem length_encode {k : Knobs} {blob : List UInt8} (h : encode k = .ok blob) :
    blob.length = stateSize k := by
  obtain ⟨-, -, -, -, rfl⟩ := encode_eq_ok.mp h
  exact length_stringify k

/-- A list is no shorter than a bound for each of its records. -/
theorem mul_length_le_listSize {α : Type*} {size : α → Nat} {n : Nat} (h : ∀ a, n ≤ size a)
    (l : List α) : (n + 1) * l.length ≤ listSize (l.map size) := by
  have hsum := List.card_nsmul_le_sum (l.map size) n fun x hx => by
    obtain ⟨a, -, rfl⟩ := List.mem_map.mp hx
    exact h a
  have hlist := sum_le_listSize (l.map size)
  rw [List.length_map] at hsum hlist
  rw [Nat.nsmul_eq_mul, Nat.mul_comm] at hsum
  rw [Nat.succ_mul]
  omega

/-- Each node is 32 bytes at least. -/
theorem size_of_nodes (k : Knobs) : 32 * k.nodes.length < stateSize k := by
  have hnode : ∀ n, 31 ≤ nodeSize n := by
    intro n
    have hino := List.length_pos_iff.mpr (decimal_ne_nil n.ino)
    have hlookup := List.length_pos_iff.mpr (decimal_ne_nil n.nlookup)
    have hpath := two_le_bytesSize decimal n.path
    unfold nodeSize
    omega
  have hlist := mul_length_le_listSize hnode k.nodes
  unfold stateSize
  omega

/-! ## The transfer -/

theorem readStateFd_fits {k : Knobs} {blob : List UInt8} {parse : List UInt8 → Option JsonDoc}
    (h : encode k = .ok blob) (hsize : stateSize k ≤ maxStateBytes) :
    readStateFd parse blob = decode parse blob := by
  unfold readStateFd readAllFdAlloc
  rw [length_encode h, if_neg (Nat.not_lt.mpr hsize)]

/-- The reader gives up on a large state before it looks at it. -/
theorem readStateFd_large {k : Knobs} {blob : List UInt8} {parse : List UInt8 → Option JsonDoc}
    (h : encode k = .ok blob) (hsize : maxStateBytes < stateSize k) :
    readStateFd parse blob = .error .fileTooBig := by
  unfold readStateFd readAllFdAlloc
  rw [length_encode h, if_pos hsize]

/-- **A state is read back whole if it is at most a megabyte, and not at all otherwise.** `raw` is
the key as it came to `loadPsk`. -/
theorem state_round_trip {raw : List UInt8} (k : Knobs) (parse : List UInt8 → Option JsonDoc)
    (hwater : k.water.ordered = true) (hid : utf8ValidateSlice k.id = true)
    (hadvertise : ∀ a ∈ k.advertise, utf8ValidateSlice a.ip = true)
    (hseeds : ∀ a ∈ k.seeds, utf8ValidateSlice a.ip = true)
    (hpsk : loadPsk raw = some k.psk) (hinit : k.init.length ≤ initMax)
    (hjson : parse (stringify (stateDoc k)) = some (stateDoc k)) :
    ∃ blob, encode k = .ok blob ∧
      (readStateFd parse blob = .ok k ↔ stateSize k ≤ maxStateBytes) := by
  obtain ⟨-, hlen, hline, -⟩ := psk_of_loadPsk hpsk
  have hutf8 : utf8Knobs k = true := by
    simp only [utf8Knobs, Bool.and_eq_true, List.all_eq_true]
    exact ⟨⟨hid, hadvertise⟩, hseeds⟩
  have hblob := encode_eq_ok.mpr ⟨hwater, hinit, hutf8, hline, rfl⟩
  refine ⟨_, hblob, ?_⟩
  rcases Nat.lt_or_ge maxStateBytes (stateSize k) with hlarge | hfits
  · rw [readStateFd_large hblob hlarge]
    simp [Nat.not_le.mpr hlarge]
  · rw [readStateFd_fits hblob hfits, decode_encode parse hjson hlen hblob]
    simp [hfits]

/-- A mount with `n` files looked up. -/
def served (n : Nat) : Knobs where
  origin := ascii "/nas/models"
  cache := ascii "/var/cache/modelfs"
  id := ascii "spark1"
  mount := ascii "/models"
  piece := 16777216
  listen := 18080
  water := {}
  directIo := true
  allowOther := false
  fuseFd := 7
  listenFds := [4, 5]
  advertise := [⟨ascii "10.0.0.1", 18080, 200000⟩]
  seeds := []
  psk := ascii "secret"
  init := List.replicate 104 0
  nodes := (List.range n).map fun i => ⟨i + 2, 47 :: decimal i, 1⟩
  nextIno := n + 2

theorem state_round_trip_two :
    stateSize (served 2) ≤ maxStateBytes ∧ ∃ blob, encode (served 2) = .ok blob ∧
      (readStateFd (fun text => if text = stringify (stateDoc (served 2)) then
        some (stateDoc (served 2)) else none) blob = .ok (served 2) ↔
        stateSize (served 2) ≤ maxStateBytes) :=
  ⟨by decide, @state_round_trip (ascii "secret\n") (served 2) _ rfl rfl (by decide) (by decide) rfl
    (by decide) (if_pos rfl)⟩

/-- **Of a mount with 32768 files looked up** the image that takes over reads nothing. -/
theorem state_lost : ¬ ∀ (raw : List UInt8) (k : Knobs) (parse : List UInt8 → Option JsonDoc),
    k.water.ordered = true → utf8ValidateSlice k.id = true →
      (∀ a ∈ k.advertise, utf8ValidateSlice a.ip = true) →
      (∀ a ∈ k.seeds, utf8ValidateSlice a.ip = true) → loadPsk raw = some k.psk →
      k.init.length ≤ initMax → parse (stringify (stateDoc k)) = some (stateDoc k) →
      ∀ blob, encode k = .ok blob → readStateFd parse blob = .ok k := by
  intro hall
  have hblob : encode (served 32768) = .ok _ :=
    encode_eq_ok.mpr ⟨rfl, by simp [served, initMax], rfl, by decide, rfl⟩
  have hread := hall (ascii "secret") (served 32768) (fun _ => some (stateDoc (served 32768))) rfl
    rfl (by simp [served]; decide) (by simp [served]) rfl (by simp [served, initMax]) rfl _ hblob
  have hlarge : maxStateBytes < stateSize (served 32768) := by
    have hsize := size_of_nodes (served 32768)
    have hnodes : (served 32768).nodes.length = 32768 := by simp [served]
    rw [hnodes] at hsize
    exact hsize
  rw [readStateFd_large hblob hlarge] at hread
  cases hread

end Handover

end ModelFs
