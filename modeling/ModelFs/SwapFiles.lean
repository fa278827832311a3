import ModelFs.StateRead

/-!
# update.req and update.ack

`modelfs update` asks the daemon for another image by a file in the cache root, which names the
binary and carries a random token, and is told by another file with the token that the image serves.
Each is one object of JSON and a line break. The request is staged and renamed into place; the
acknowledgement is written where it is read, so a reader may come while it is half written.

* `req_round_trip` — **a request is read as it was made**, and no reader's limit is in its way.
* `decodeAck_take` — **an acknowledgement that is half written is none**.
-/

namespace ModelFs

namespace ImageSwap

open Handover (string bytesJson field field_eq fieldOf_of_mem reads_bytes decodeBytes_bytesJson
  verbatim_ascii hexByte length_hex hexDigit_plain)
open Inodes (pathMax)
open LeaseDoc (decodeBytes)
open Proto

/-! ## The files -/

def tokenBytes : Nat := 16

def reqMaxBytes : Nat := 64 * 1024

/-- `reqOwnerOk`. -/
def reqOwnerOk (fileUid euid : UInt32) : Bool := fileUid = euid || fileUid = 0

/-- What `randomToken` makes of its random bytes. -/
def tokenHex (raw : List UInt8) : List UInt8 := raw.flatMap hexByte

structure Req where
  bin : List UInt8
  token : List UInt8
  deriving DecidableEq

def reqDoc (bin token : List UInt8) : List UInt8 :=
  jsonObject [(ascii "bin", string bin), (ascii "token", string token)]

def ackDoc (token : List UInt8) : List UInt8 := jsonObject [(ascii "token", string token)]

/-- A token has to be UTF-8; a path need not be. -/
def encodeReq (bin token : List UInt8) : Option (List UInt8) :=
  if utf8ValidateSlice token then some (reqDoc bin token ++ [10]) else none

def encodeAck (token : List UInt8) : Option (List UInt8) :=
  if utf8ValidateSlice token then some (ackDoc token ++ [10]) else none

/-- What the readers trim off. -/
def lineBlanks : List UInt8 := [32, 9, 13, 10]

section Readers

variable (ofFloat : List UInt8 → Option Int)

def decodeReq (blob : List UInt8) : Option Req :=
  (parseJson (trim lineBlanks blob)).bind fun
    | .object members => do
      let bin ← field (ascii "bin") (decodeBytes ofFloat) members
      let token ← field (ascii "token") (decodeBytes ofFloat) members
      some ⟨bin, token⟩
    | _ => none

def decodeAck (blob : List UInt8) : Option (List UInt8) :=
  (parseJson (trim lineBlanks blob)).bind fun
    | .object members => field (ascii "token") (decodeBytes ofFloat) members
    | _ => none

end Readers

/-- `readFileAllocFlags`, of a file that nobody shortens meanwhile. -/
def readCapped (max : Nat) (bytes : List UInt8) : Option (List UInt8) :=
  if max < bytes.length then none else some bytes

/-! ## Texts -/

theorem trim_line {s m : List UInt8} (h : s = 123 :: (m ++ [125])) :
    trim lineBlanks (s ++ [10]) = s := by
  subst h
  have hmid := @trim_between lineBlanks [] (123 :: (m ++ [125])) [10] (by simp)
    (by simp [lineBlanks]) (by simp) (by simp [lineBlanks])
  rw [List.nil_append] at hmid
  apply hmid
  intro b hb
  rw [← List.cons_append, List.getLast?_append] at hb
  cases hb
  decide

/-- A prefix of a text that starts with no blank is trimmed to a prefix. -/
theorem trim_begin {b : UInt8} {s p : List UInt8} (hb : b ∉ lineBlanks) (hp : p <+: b :: s) :
    trim lineBlanks p <+: p := by
  obtain ⟨l, r, hsplit, hl, -⟩ := exists_trim lineBlanks p
  have hnil : l = [] := by
    cases l with
    | nil => rfl
    | cons c l =>
      rw [hsplit, List.append_assoc, List.cons_append, List.cons_prefix_cons] at hp
      exact absurd (hp.1 ▸ hl c List.mem_cons_self) hb
  rw [hnil, List.nil_append] at hsplit
  exact ⟨r, hsplit.symm⟩

theorem reads_ackDoc (token : List UInt8) :
    Reads (.object [(ascii "token", bytesJson token)]) (ackDoc token) := by
  apply @reads_object [(ascii "token", bytesJson token, string token)]
  intro m hm
  rw [List.mem_singleton.mp hm]
  exact ⟨verbatim_ascii rfl, reads_bytes token⟩

theorem reads_reqDoc (bin token : List UInt8) :
    Reads (.object [(ascii "bin", bytesJson bin), (ascii "token", bytesJson token)])
      (reqDoc bin token) := by
  apply @reads_object [(ascii "bin", bytesJson bin, string bin),
    (ascii "token", bytesJson token, string token)]
  intro m hm
  simp only [List.mem_cons, List.not_mem_nil, or_false] at hm
  rcases hm with rfl | rfl
  · exact ⟨verbatim_ascii rfl, reads_bytes bin⟩
  · exact ⟨verbatim_ascii rfl, reads_bytes token⟩

/-! ## Reading back -/

section Decoders

variable (ofFloat : List UInt8 → Option Int)

theorem decodeReq_encodeReq {bin token blob : List UInt8} (h : encodeReq bin token = some blob) :
    decodeReq ofFloat blob = some ⟨bin, token⟩ := by
  unfold encodeReq at h
  split_ifs at h
  cases h
  have hnames : [ascii "bin", ascii "token"].Nodup := by decide
  have hfield := fun m hm => @fieldOf_of_mem [(ascii "bin", bytesJson bin),
    (ascii "token", bytesJson token)] hnames m hm
  have hbin := field_eq (hfield (ascii "bin", bytesJson bin) (by simp))
    (decodeBytes_bytesJson ofFloat bin)
  have htoken := field_eq (hfield (ascii "token", bytesJson token) (by simp))
    (decodeBytes_bytesJson ofFloat token)
  unfold decodeReq
  rw [trim_line (show reqDoc bin token = _ from rfl), parseJson_of_reads (reads_reqDoc bin token),
    Option.bind_some]
  dsimp only
  rw [hbin, htoken]
  rfl

theorem decodeAck_doc (token : List UInt8) {text : List UInt8}
    (h : trim lineBlanks text = ackDoc token) : decodeAck ofFloat text = some token := by
  have hfield := @fieldOf_of_mem [(ascii "token", bytesJson token)] (List.nodup_singleton _)
    (ascii "token", bytesJson token) List.mem_cons_self
  unfold decodeAck
  rw [h, parseJson_of_reads (reads_ackDoc token), Option.bind_some]
  exact field_eq hfield (decodeBytes_bytesJson ofFloat token)

/-- A document that is not whole is none. -/
theorem decodeAck_torn {token blob : List UInt8} (h : encodeAck token = some blob) {n : Nat}
    (hn : n < (ackDoc token).length) : decodeAck ofFloat (blob.take n) = none := by
  unfold encodeAck at h
  split_ifs at h
  cases h
  obtain ⟨s, hs⟩ : ∃ s, ackDoc token = 123 :: s := ⟨_, rfl⟩
  rw [List.take_append_of_le_length (Nat.le_of_lt hn)]
  have hpart : (ackDoc token).take n <+: 123 :: s := hs ▸ List.take_prefix n _
  obtain ⟨q, hq⟩ := (trim_begin (by decide) hpart).trans (List.take_prefix n _)
  have hne : q ≠ [] := by
    rintro rfl
    rw [List.append_nil] at hq
    have hle := (trim_begin (by decide) hpart).length_le
    rw [hq, List.length_take] at hle
    omega
  have hreads := reads_ackDoc token
  rw [← hq] at hreads
  unfold decodeAck
  rw [parseJson_torn hreads (by simp) hne]
  rfl

/-- A whole one is read, with its line's end or without. -/
theorem decodeAck_whole {token blob : List UInt8} (h : encodeAck token = some blob) {n : Nat}
    (hn : (ackDoc token).length ≤ n) : decodeAck ofFloat (blob.take n) = some token := by
  unfold encodeAck at h
  split_ifs at h
  cases h
  apply decodeAck_doc
  rcases hn.lt_or_eq with hlt | rfl
  · rw [List.take_of_length_le (by simp; omega), trim_line (show ackDoc token = _ from rfl)]
  · rw [List.take_left' rfl]
    apply trim_of_ends
    · obtain ⟨s, hs⟩ : ∃ s, ackDoc token = 123 :: s := ⟨_, rfl⟩
      rw [hs]
      simp [lineBlanks]
    · intro b hb
      have hlast : (ackDoc token).getLast? = some 125 := by
        unfold ackDoc jsonObject
        rw [← List.cons_append, List.getLast?_append]
        rfl
      rw [hlast] at hb
      cases hb
      decide

/-- **An acknowledgement counts once its last brace is written**, and not before. -/
theorem decodeAck_take {token blob : List UInt8} (h : encodeAck token = some blob) (n : Nat) :
    decodeAck ofFloat (blob.take n) = if n < (ackDoc token).length then none else some token := by
  split
  · exact decodeAck_torn ofFloat h ‹_›
  · exact decodeAck_whole ofFloat h (Nat.not_lt.mp ‹_›)

end Decoders

theorem decodeAck_take_nine :
    decodeAck (fun _ => none) ((ackDoc (ascii "ab") ++ [10]).take 9) =
      if 9 < (ackDoc (ascii "ab")).length then none else some (ascii "ab") :=
  decodeAck_take _ (if_pos (by decide)) 9

/-! ## Limits -/

theorem tokenHex_ascii (raw : List UInt8) : ∀ b ∈ tokenHex raw, b.toNat ≤ 0x7f := by
  intro b hb
  obtain ⟨a, -, hab⟩ := List.mem_flatMap.mp hb
  have ha := a.toNat_lt
  have hhi := (hexDigit_plain (show a.toNat / 16 < 16 by omega)).2.1
  have hlo := (hexDigit_plain (show a.toNat % 16 < 16 by omega)).2.1
  unfold hexByte at hab
  simp only [List.mem_cons, List.not_mem_nil, or_false] at hab
  rcases hab with rfl | rfl
  · exact hhi
  · exact hlo

/-- A token is text. -/
theorem utf8_tokenHex (raw : List UInt8) : utf8ValidateSlice (tokenHex raw) = true :=
  utf8ValidateSlice_ascii (tokenHex_ascii raw)

/-- No byte takes more than six. -/
theorem bytesSize_le (s : List UInt8) : bytesSize decimal s ≤ 2 + 6 * s.length := by
  have hsum : ∀ (f : UInt8 → Nat), (∀ b, f b ≤ 6) → (s.map f).sum ≤ 6 * s.length := by
    intro f hf
    induction s with
    | nil => exact Nat.zero_le _
    | cons b s ih =>
      have hb := hf b
      rw [List.map_cons, List.sum_cons, List.length_cons]
      omega
  unfold bytesSize
  split_ifs
  · have hescape := hsum escapeSize fun b => by
      unfold escapeSize
      split_ifs <;> decide
    omega
  · have hdigits := hsum (fun b => (decimal b.toNat).length + 1) fun b => by
      have hb := b.toNat_lt
      have hlen := @length_decimal_le b.toNat 3 (by decide) (by omega)
      omega
    unfold listSize
    rw [List.map_map]
    have heq : (s.map ((fun x => x + 1) ∘ fun b : UInt8 => (decimal b.toNat).length)).sum =
        (s.map fun b : UInt8 => (decimal b.toNat).length + 1).sum := rfl
    omega

/-- The longest request. -/
theorem length_encodeReq {bin token blob : List UInt8} (h : encodeReq bin token = some blob) :
    blob.length ≤ 22 + 6 * bin.length + 6 * token.length := by
  unfold encodeReq at h
  split_ifs at h
  cases h
  have hbin := bytesSize_le bin
  have htoken := bytesSize_le token
  have hlen : (reqDoc bin token).length =
      17 + bytesSize decimal bin + bytesSize decimal token := by
    unfold reqDoc string
    rw [length_jsonObject, List.map_cons, List.map_cons, List.map_nil, length_jsonBytes,
      length_jsonBytes, listSize]
    simp only [List.map_cons, List.map_nil, List.sum_cons, List.sum_nil]
    have hnames : (ascii "bin").length = 3 ∧ (ascii "token").length = 5 := by decide
    omega
  rw [List.length_append, hlen, List.length_singleton]
  omega

/-- A path and a token leave room. -/
theorem readCapped_encodeReq {bin raw blob : List UInt8}
    (h : encodeReq bin (tokenHex raw) = some blob) (hbin : bin.length ≤ pathMax)
    (hraw : raw.length = tokenBytes) : readCapped reqMaxBytes blob = some blob := by
  have hlen := length_encodeReq h
  have htoken : (tokenHex raw).length = 32 := by
    unfold tokenHex
    rw [length_hex, hraw, tokenBytes]
  unfold pathMax at hbin
  unfold readCapped reqMaxBytes
  rw [if_neg (by omega)]

/-- **The request's round trip.** Whatever path the binary has and whatever bytes the token is made
of, the request is written, is no longer than a reader takes, and is read as it was made. -/
theorem req_round_trip (ofFloat : List UInt8 → Option Int) {bin raw : List UInt8}
    (hbin : bin.length ≤ pathMax) (hraw : raw.length = tokenBytes) :
    ∃ blob, encodeReq bin (tokenHex raw) = some blob ∧
      readCapped reqMaxBytes blob = some blob ∧
      decodeReq ofFloat blob = some ⟨bin, tokenHex raw⟩ := by
  obtain ⟨blob, hblob⟩ : ∃ blob, encodeReq bin (tokenHex raw) = some blob :=
    ⟨_, if_pos (utf8_tokenHex raw)⟩
  exact ⟨blob, hblob, readCapped_encodeReq hblob hbin hraw, decodeReq_encodeReq ofFloat hblob⟩

theorem req_round_trip_bin : ∃ blob,
    encodeReq (ascii "/usr/bin/modelfs") (tokenHex (List.replicate 16 7)) = some blob ∧
      readCapped reqMaxBytes blob = some blob ∧
      decodeReq (fun _ => none) blob =
        some ⟨ascii "/usr/bin/modelfs", tokenHex (List.replicate 16 7)⟩ :=
  req_round_trip _ (by decide) (by decide)

end ImageSwap

end ModelFs
