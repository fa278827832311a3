import ModelFs.Paths
import ModelFs.Wire

/-!
# A request from one node to another

`peer.sendRequest` writes the head of a request, `readHeadFull` takes it off the socket in
whatever pieces it comes, and `handleConn` answers it. What the client puts in comes from other
gates: the key from `loadPsk`, the address from `parseV4`, the name from `relOk`.

* `length_requestHead_le` — the head fits the buffer of either side.
* `readHeadFull_chunks` — it is read whole, wherever the stream is cut.
* `request_round_trip` — **the server sees what the client asked for**: the method, the key, the
  name byte for byte, and the range.
* `handleConn_confined` — a request that is served names a file under the root.
* `offered_paths` — **no escape and no aliasing**, for a handler's names and a request's.
-/

namespace ModelFs

open Proto
open Inodes (slash)

/-! ## What the client is given -/

/-- `proto.max_psk_bytes`. -/
def maxPskBytes : Nat := 4096

/-- The key as `loadPsk` keeps it: trimmed, not empty, not too long, on one line. -/
def loadPsk (raw : List UInt8) : Option (List UInt8) :=
  let trimmed := trim (ascii " \t\r\n") raw
  if trimmed.length = 0 then none
  else if maxPskBytes < trimmed.length then none
  else if 13 ∈ trimmed ∨ 10 ∈ trimmed then none
  else some trimmed

/-- The loop of `parseV4`. -/
def parseV4Loop : List UInt8 → Nat → Nat → Bool → List Nat → Option (List Nat)
  | [], part, acc, saw, out =>
    if ¬ saw ∨ part ≠ 3 ∨ 255 < acc then none else some (out ++ [acc])
  | ch :: s, part, acc, saw, out =>
    if ch = 46 then
      if ¬ saw ∨ 3 ≤ part ∨ 255 < acc then none
      else parseV4Loop s (part + 1) 0 false (out ++ [acc])
    else if ch.toNat < 48 ∨ 57 < ch.toNat then none
    else if 255 < acc then none
    else if saw ∧ acc = 0 then none
    else parseV4Loop s part (acc * 10 + (ch.toNat - 48)) true out

/-- A dotted quad, its octets in order. -/
def parseV4 (s : List UInt8) : Option (List Nat) := parseV4Loop s 0 0 false []

/-! ## The client -/

/-- `max_head_bytes`. -/
def maxHeadBytes : Nat := 4096 * 3 + maxPskBytes + 512

/-- The format strings of `sendRequest`. -/
def requestHead (psk ip : List UInt8) (port : Nat) (enc : List UInt8) :
    Option Proto.Range → List UInt8
  | some rg =>
    ascii "GET /data?path=" ++ enc ++ ascii " HTTP/1.1\r\nHost: " ++ ip ++ ascii ":" ++
      decimal port ++ ascii "\r\nAuthorization: Bearer " ++ psk ++ ascii "\r\nRange: bytes=" ++
      decimal rg.start ++ ascii "-" ++ decimal rg.stop ++ ascii "\r\nConnection: close\r\n\r\n"
  | none =>
    ascii "GET /have?path=" ++ enc ++ ascii " HTTP/1.1\r\nHost: " ++ ip ++ ascii ":" ++
      decimal port ++ ascii "\r\nAuthorization: Bearer " ++ psk ++
      ascii "\r\nConnection: close\r\n\r\n"

/-- What is written to the socket; `none` is `error.NoSpaceLeft`. -/
def sendRequest (psk ip : List UInt8) (port : Nat) (rel : List UInt8)
    (range : Option Proto.Range) : Option (List UInt8) :=
  match urlEncode (4096 * 3) rel with
  | none => none
  | some enc =>
    let req := requestHead psk ip port enc range
    if maxHeadBytes < req.length then none else some req

/-! ## The server -/

/-- The read loop, on the pieces that the reads return; each is at most what the buffer has room
for. The search begins three bytes before the new piece. The head's length and all that was read. -/
def readHeadFull (cap : Nat) (buf : List UInt8) : List (List UInt8) → Option (Nat × Nat)
  | [] => none
  | chunk :: chunks =>
    if cap ≤ buf.length then none
    else if chunk = [] then none
    else
      let searchStart := if 3 ≤ buf.length then buf.length - 3 else 0
      let window := (buf ++ chunk).drop searchStart
      match (if 10 ∈ window then endOfHead window else none) with
      | some idx => some (searchStart + idx + 4, (buf ++ chunk).length)
      | none => readHeadFull cap (buf ++ chunk) chunks

/-- What a request comes to, up to the file that is served. -/
inductive Reply where
  | malformed
  | unauthorized
  | methodNotAllowed
  | badRequest
  | notFound
  | pong
  | have (rel : List UInt8)
  | data (rel : List UInt8) (range : Proto.Range)
  deriving DecidableEq, Repr

def decodePath (target : List UInt8) (room : Nat) : Option (List UInt8) :=
  (queryGet target (ascii "path")).bind (urlDecode room)

/-- The routes, once the request is known to be a `GET` with the key. -/
def route (target : List UInt8) (rangeH : Option (List UInt8)) : Reply :=
  let path := pathOnly target
  if path = ascii "/ping" then .pong
  else if ¬ (path = ascii "/have" ∨ path = ascii "/data") then .notFound
  else
    match decodePath target 4096 with
    | none => .badRequest
    | some rel =>
      if ¬ relOk rel then .badRequest
      else if relIsCluster rel then .notFound
      else if path = ascii "/have" then .have rel
      else
        match rangeH with
        | none => .badRequest
        | some rh =>
          match parseRange rh with
          | none => .badRequest
          | some rg => .data rel rg

variable {δ : Type*} [DecidableEq δ]

/-- The head of a request, from its first byte to the empty line. -/
def handleConn (sha256 : List UInt8 → δ) (psk head : List UInt8) : Reply :=
  match splitCrlf head with
  | line :: _ :: _ =>
    match line.splitOn 32 with
    | method :: target :: rest =>
      let fields := headerGet3 head (ascii "Authorization") (ascii "Range") (ascii "Content-Length")
      if ¬ bearerOk sha256 (fields.a.getD []) psk then .unauthorized
      else if method ≠ ascii "GET" then .methodNotAllowed
      else if target = [] then .badRequest
      else if rest.head?.getD [] ≠ ascii "HTTP/1.1" ∧ rest.head?.getD [] ≠ ascii "HTTP/1.0" then
        .badRequest
      else if 1 < rest.length then .badRequest
      else if fields.c.any fun length => parseU64Fast length = none then .badRequest
      else route target fields.b
    | _ => .malformed
  | _ => .malformed

/-! ## What the gates admit -/

theorem psk_of_loadPsk {raw psk : List UInt8} (h : loadPsk raw = some psk) :
    psk ≠ [] ∧ psk.length ≤ maxPskBytes ∧ (13 ∉ psk ∧ 10 ∉ psk) ∧
      (∀ b ∈ psk.head?, b ∉ blanks) ∧ ∀ b ∈ psk.getLast?, b ∉ blanks := by
  unfold loadPsk at h
  dsimp only at h
  split_ifs at h with hempty hlong hline
  obtain rfl := Option.some.inj h
  have hends := ends_of_trim (ascii " \t\r\n") raw
  have hblanks : blanks ⊆ ascii " \t\r\n" := by decide
  exact ⟨fun heq => hempty (by rw [heq]; rfl), Nat.not_lt.mp hlong, not_or.mp hline,
    fun b hb hmem => hends.1 b hb (hblanks hmem), fun b hb hmem => hends.2 b hb (hblanks hmem)⟩

/-- An octet past 255 is never taken back. -/
theorem parseV4Loop_big {s : List UInt8} {part acc : Nat} {saw : Bool} {out : List Nat}
    (hacc : 255 < acc) : parseV4Loop s part acc saw out = none := by
  cases s with
  | nil => exact if_pos (Or.inr (Or.inr hacc))
  | cons ch s =>
    rw [parseV4Loop]
    split_ifs <;> first | rfl | omega

/-- How many more digits the octet at hand can take. -/
def digitsLeft (acc : Nat) (saw : Bool) : Nat :=
  if saw then if acc = 0 then 0 else if acc < 10 then 2 else if acc < 100 then 1 else 0 else 3

theorem length_of_parseV4Loop {s : List UInt8} {part acc : Nat} {saw : Bool} {out quad : List Nat}
    (h : parseV4Loop s part acc saw out = some quad) (hsaw : saw = false → acc = 0) :
    s.length ≤ (3 - part) * 4 + digitsLeft acc saw := by
  induction s generalizing part acc saw out with
  | nil => exact Nat.zero_le _
  | cons ch s ih =>
    rw [List.length_cons]
    rw [parseV4Loop] at h
    split_ifs at h with hdot hend hdigit hbig hzero
    · have hnext := ih h fun _ => rfl
      have hfresh : digitsLeft 0 false = 3 := rfl
      omega
    · have hnext := ih h (by simp)
      by_cases hover : 255 < acc * 10 + (ch.toNat - 48)
      · rw [parseV4Loop_big hover] at h
        cases h
      · have hstep : digitsLeft (acc * 10 + (ch.toNat - 48)) true + 1 ≤ digitsLeft acc saw := by
          unfold digitsLeft
          cases saw with
          | false =>
            have hacc := hsaw rfl
            simp only [if_true, Bool.false_eq_true, if_false]
            split_ifs <;> omega
          | true =>
            simp only [true_and] at hzero
            simp only [if_true]
            split_ifs <;> omega
        omega

theorem mem_of_parseV4Loop {s : List UInt8} {part acc : Nat} {saw : Bool} {out quad : List Nat}
    (h : parseV4Loop s part acc saw out = some quad) {b : UInt8} (hb : b ∈ s) :
    b = 46 ∨ 48 ≤ b.toNat ∧ b.toNat ≤ 57 := by
  induction s generalizing part acc saw out with
  | nil => cases hb
  | cons ch s ih =>
    rw [parseV4Loop] at h
    split_ifs at h with hdot hend hdigit hbig hzero
    · rcases List.mem_cons.mp hb with rfl | hb
      · exact Or.inl hdot
      · exact ih h hb
    · rcases List.mem_cons.mp hb with rfl | hb
      · exact Or.inr (by omega)
      · exact ih h hb

/-- **An address is short and has no byte of the head's syntax in it.** -/
theorem ip_of_parseV4 {ip : List UInt8} {quad : List Nat} (h : parseV4 ip = some quad) :
    ip.length ≤ 15 ∧ ∀ b ∈ ip, b = 46 ∨ 48 ≤ b.toNat ∧ b.toNat ≤ 57 :=
  ⟨length_of_parseV4Loop h fun _ => rfl, fun _ hb => mem_of_parseV4Loop h hb⟩

/-! ## The head as lines -/

section Head

variable {psk ip rel enc : List UInt8} {port : Nat} {range : Option Proto.Range}

/-- The path of a request. -/
def requestPath : Option Proto.Range → List UInt8
  | some _ => ascii "/data"
  | none => ascii "/have"

def requestTarget (enc : List UInt8) (range : Option Proto.Range) : List UInt8 :=
  requestPath range ++ 63 :: (ascii "path" ++ 61 :: enc)

/-- The lines of a request, in order. -/
def requestLines (psk ip : List UInt8) (port : Nat) (enc : List UInt8)
    (range : Option Proto.Range) : List (List UInt8) :=
  (ascii "GET" ++ 32 :: (requestTarget enc range ++ 32 :: ascii "HTTP/1.1")) ::
    fieldLine (ascii "Host") (ip ++ 58 :: decimal port) ::
    fieldLine (ascii "Authorization") (ascii "Bearer " ++ psk) ::
    ((range.map fun rg => fieldLine (ascii "Range") (rangeValue rg)).toList ++
      [fieldLine (ascii "Connection") (ascii "close")])

theorem requestHead_eq (psk ip : List UInt8) (port : Nat) (enc : List UInt8)
    (range : Option Proto.Range) :
    requestHead psk ip port enc range = joinLines (requestLines psk ip port enc range) := by
  have hhost : ascii " HTTP/1.1\r\nHost: " =
      32 :: (ascii "HTTP/1.1" ++ 13 :: 10 :: (ascii "Host" ++ [58, 32])) := by decide
  have hauth : ascii "\r\nAuthorization: Bearer " =
      13 :: 10 :: (ascii "Authorization" ++ 58 :: 32 :: ascii "Bearer ") := by decide
  have hrange : ascii "\r\nRange: bytes=" =
      13 :: 10 :: (ascii "Range" ++ 58 :: 32 :: ascii "bytes=") := by decide
  have hend : ascii "\r\nConnection: close\r\n\r\n" =
      13 :: 10 :: (ascii "Connection" ++ 58 :: 32 :: (ascii "close" ++ [13, 10, 13, 10])) := by
    decide
  have hdata : ascii "GET /data?path=" =
      ascii "GET" ++ 32 :: (ascii "/data" ++ 63 :: (ascii "path" ++ [61])) := by decide
  have hhave : ascii "GET /have?path=" =
      ascii "GET" ++ 32 :: (ascii "/have" ++ 63 :: (ascii "path" ++ [61])) := by decide
  have hcolon : ascii ":" = [58] := by decide
  have hdash : ascii "-" = [45] := by decide
  cases range with
  | none =>
    simp only [requestHead, requestLines, requestTarget, requestPath, fieldLine, joinLines, hhost,
      hauth, hend, hhave, hcolon, Option.map_none, Option.toList_none, List.nil_append,
      List.flatMap_cons, List.flatMap_nil, List.append_assoc, List.cons_append, List.append_nil]
  | some rg =>
    simp only [requestHead, requestLines, requestTarget, requestPath, fieldLine, rangeValue,
      joinLines, hhost, hauth, hrange, hend, hdata, hcolon, hdash, Option.map_some,
      Option.toList_some, List.nil_append, List.flatMap_cons, List.flatMap_nil, List.append_assoc,
      List.cons_append, List.append_nil]

/-- **The head fits**: an escaped name, an address, a key and two numbers. -/
theorem length_requestHead_le (hrel : rel.length ≤ 4096) (hip : ip.length ≤ 15)
    (hport : port < 65536) (hpsk : psk.length ≤ maxPskBytes)
    (hrange : ∀ rg ∈ range, rg.start ≤ rg.stop ∧ rg.stop ≤ maxU64) :
    (requestHead psk ip port (rel.flatMap encodeByte) range).length ≤ maxHeadBytes := by
  have henc := length_encoded_le rel
  have hdigits : (decimal port).length ≤ 5 := length_decimal_le (by decide) (by omega)
  have hnumber : ∀ n : Nat, n ≤ maxU64 → (decimal n).length ≤ 20 := fun n hn =>
    length_decimal_le (by decide) (lt_of_le_of_lt hn (by decide))
  have hdata : (ascii "GET /data?path=").length = 15 := by decide
  have hhave : (ascii "GET /have?path=").length = 15 := by decide
  have hhost : (ascii " HTTP/1.1\r\nHost: ").length = 17 := by decide
  have hcolon : (ascii ":").length = 1 := by decide
  have hauth : (ascii "\r\nAuthorization: Bearer ").length = 24 := by decide
  have hbytes : (ascii "\r\nRange: bytes=").length = 15 := by decide
  have hdash : (ascii "-").length = 1 := by decide
  have hend : (ascii "\r\nConnection: close\r\n\r\n").length = 23 := by decide
  unfold maxHeadBytes
  cases range with
  | none =>
    simp only [requestHead, List.length_append, hhave, hhost, hcolon, hauth, hend]
    omega
  | some rg =>
    obtain ⟨hle, hfit⟩ := hrange rg rfl
    have hstart := hnumber rg.start (hle.trans hfit)
    have hstop := hnumber rg.stop hfit
    clear hfit
    simp only [requestHead, List.length_append, hdata, hhost, hcolon, hauth, hbytes, hdash, hend]
    omega

/-- No line of a request has a carriage return, and none is empty. -/
theorem line_of_request (hpsk : 13 ∉ psk)
    (hip : ∀ b ∈ ip, b = 46 ∨ 48 ≤ b.toNat ∧ b.toNat ≤ 57) :
    ∀ line ∈ requestLines psk ip port (rel.flatMap encodeByte) range, line ≠ [] ∧ 13 ∉ line := by
  have henc : (13 : UInt8) ∉ rel.flatMap encodeByte := not_mem_encoded (by decide) (by decide)
  have hdecimal : ∀ n, (13 : UInt8) ∉ decimal n := fun n => not_mem_decimal (Or.inl (by decide))
  have hip' : (13 : UInt8) ∉ ip := fun hmem => by
    rcases hip 13 hmem with h | h
    · exact absurd h (by decide)
    · exact absurd h.1 (by decide)
  have htarget : (13 : UInt8) ∉ requestTarget (rel.flatMap encodeByte) range := by
    have hpath : (13 : UInt8) ∉ requestPath range := by
      cases range with
      | none => exact (by decide : (13 : UInt8) ∉ ascii "/have")
      | some rg => exact (by decide : (13 : UInt8) ∉ ascii "/data")
    unfold requestTarget
    simp only [List.mem_append, List.mem_cons, not_or]
    exact ⟨hpath, by decide, by decide, by decide, henc⟩
  have hfield : ∀ name value : List UInt8, 13 ∉ name → 13 ∉ value →
      fieldLine name value ≠ [] ∧ 13 ∉ fieldLine name value := fun name value hname hvalue => by
    unfold fieldLine
    simp only [List.mem_append, List.mem_cons, not_or]
    exact ⟨by simp, hname, by decide, by decide, hvalue⟩
  intro line hline
  unfold requestLines at hline
  simp only [List.mem_cons, List.mem_append, Option.mem_toList, Option.map_eq_some_iff,
    List.not_mem_nil, or_false] at hline
  rcases hline with rfl | rfl | rfl | ⟨rg, -, rfl⟩ | rfl
  · simp only [List.mem_append, List.mem_cons, not_or]
    exact ⟨by simp, by decide, by decide, htarget, by decide, by decide⟩
  · refine hfield _ _ (by decide) ?_
    simp only [List.mem_append, List.mem_cons, not_or]
    exact ⟨hip', by decide, hdecimal port⟩
  · refine hfield _ _ (by decide) ?_
    simp only [List.mem_append, not_or]
    exact ⟨by decide, hpsk⟩
  · refine hfield _ _ (by decide) ?_
    unfold rangeValue
    simp only [List.mem_append, List.mem_cons, not_or]
    exact ⟨⟨by decide, hdecimal rg.start⟩, by decide, hdecimal rg.stop⟩
  · exact hfield _ _ (by decide) (by decide)

end Head

/-! ## Reading the head -/

/-- **A head is read whole, wherever the stream is cut.** -/
theorem readHeadFull_chunks {cap i : Nat} {req : List UInt8} (hend : endOfHead req = some i)
    (hlen : i + 4 = req.length) (hcap : req.length ≤ cap) {chunks : List (List UInt8)}
    (hchunks : ∀ c ∈ chunks, c ≠ []) {buf : List UInt8} (hreq : buf ++ chunks.flatten = req)
    (hshort : buf.length < req.length) :
    readHeadFull cap buf chunks = some (req.length, req.length) := by
  induction chunks generalizing buf with
  | nil =>
    rw [List.flatten_nil, List.append_nil] at hreq
    rw [hreq] at hshort
    exact absurd hshort (Nat.lt_irrefl _)
  | cons chunk chunks ih =>
    -- a part of the head has no empty line
    have hpart : ∀ s t : List UInt8, s ++ t = req → s.length < req.length → endOfHead s = none := by
      intro s t hst hs
      by_contra hne
      obtain ⟨j, hj⟩ := Option.ne_none_iff_exists'.mp hne
      have hsame := endOfHead_append (t := t) hj
      rw [hst, hend] at hsame
      have hfit := length_of_endOfHead hj
      have hij : i = j := Option.some.inj hsame
      omega
    rw [List.flatten_cons, ← List.append_assoc] at hreq
    have hbuf := hpart buf (chunk ++ chunks.flatten) (by rw [← List.append_assoc, hreq]) hshort
    have hwindow := @endOfHead_window buf chunk hbuf
      (if 3 ≤ buf.length then buf.length - 3 else 0) (by split_ifs <;> omega)
    have hne := hchunks chunk List.mem_cons_self
    rw [readHeadFull, if_neg (by omega), if_neg hne]
    dsimp only
    generalize (if 3 ≤ buf.length then buf.length - 3 else 0) = start at hwindow
    rw [endOfHead_scan]
    by_cases hwhole : (buf ++ chunk).length = req.length
    · have hall : buf ++ chunk = req := by
        have hrest : chunks.flatten = [] := by
          have := congrArg List.length hreq
          rw [List.length_append] at this
          exact List.length_eq_zero_iff.mp (by omega)
        rw [← hreq, hrest, List.append_nil]
      rw [hall] at hwindow ⊢
      rw [hend] at hwindow
      cases hfound : endOfHead (req.drop start) with
      | none =>
        rw [hfound] at hwindow
        cases hwindow
      | some idx =>
        rw [hfound] at hwindow
        have hidx : i = start + idx := Option.some.inj hwindow
        dsimp only
        rw [← hidx, hlen]
    · have hlonger : (buf ++ chunk).length < req.length := by
        have := congrArg List.length hreq
        rw [List.length_append] at this
        omega
      rw [hpart _ _ hreq hlonger] at hwindow
      rw [Option.map_eq_none_iff.mp hwindow.symm]
      exact ih (fun c hc => hchunks c (List.mem_cons_of_mem _ hc)) hreq hlonger

/-! ## What the server makes of it -/

section Served

variable {psk ip rel : List UInt8} {port : Nat} {range : Option Proto.Range}

/-- The fields a server looks up in a head that a client wrote. -/
theorem fields_of_request (hne : psk ≠ []) (hpsk : 13 ∉ psk)
    (hlast : ∀ b ∈ psk.getLast?, b ∉ blanks)
    (hip : ∀ b ∈ ip, b = 46 ∨ 48 ≤ b.toNat ∧ b.toNat ≤ 57) :
    headerGet3 (requestHead psk ip port (rel.flatMap encodeByte) range) (ascii "Authorization")
        (ascii "Range") (ascii "Content-Length") =
      ⟨some (ascii "Bearer " ++ psk), range.map rangeValue, none⟩ := by
  have hlines := @line_of_request psk ip rel port range hpsk hip
  have hfield : ∀ name value : List UInt8, fieldLine name value ≠ [] := fun name value => by
    simp [fieldLine]
  have hhost : ∀ f : Fields, f.line (ascii "Authorization") (ascii "Range")
      (ascii "Content-Length") (fieldLine (ascii "Host") (ip ++ 58 :: decimal port)) = f := fun f =>
    Fields.line_other (by decide) (by decide) (by decide) (by decide)
  have hconn : ∀ f : Fields, f.line (ascii "Authorization") (ascii "Range")
      (ascii "Content-Length") (fieldLine (ascii "Connection") (ascii "close")) = f := fun f =>
    Fields.line_other (by decide) (by decide) (by decide) (by decide)
  have hauth : Fields.line (ascii "Authorization") (ascii "Range") (ascii "Content-Length")
      (fieldLine (ascii "Authorization") (ascii "Bearer " ++ psk)) {} =
      { a := some (ascii "Bearer " ++ psk) } := by
    rw [Fields.line_fieldLine (by decide), if_pos ⟨rfl, rfl, by decide⟩]
    refine trim_written ?_ ?_
    · rintro b ⟨⟩
      decide
    · rw [List.getLast?_append_of_ne_nil _ hne]
      exact hlast
  unfold headerGet3
  rw [requestHead_eq, splitCrlf_joinLines fun l hl => (hlines l hl).2]
  unfold requestLines
  rw [List.cons_append, List.tail_cons, List.cons_append, List.cons_append,
    Fields.scan_cons (hfield _ _) rfl, hhost, Fields.scan_cons (hfield _ _) rfl, hauth]
  cases range with
  | none =>
    rw [Option.map_none, Option.toList_none, List.nil_append, List.cons_append,
      Fields.scan_cons (hfield _ _) rfl, hconn]
    rfl
  | some rg =>
    have hrange : Fields.line (ascii "Authorization") (ascii "Range") (ascii "Content-Length")
        (fieldLine (ascii "Range") (rangeValue rg)) { a := some (ascii "Bearer " ++ psk) } =
        { a := some (ascii "Bearer " ++ psk), b := some (rangeValue rg) } := by
      have hvalue : trim blanks (32 :: rangeValue rg) = rangeValue rg := by
        rw [trim_blank, trim_rangeValue]
      rw [Fields.line_fieldLine (by decide) hvalue, if_neg (by simp),
        if_pos ⟨rfl, rfl, by decide⟩]
    rw [Option.map_some, Option.toList_some, List.cons_append, List.nil_append, List.cons_append,
      Fields.scan_cons (hfield _ _) rfl, hrange, List.cons_append,
      Fields.scan_cons (hfield _ _) rfl, hconn]
    rfl

/-- The request line is three words. -/
theorem words_of_request :
    (ascii "GET" ++ 32 :: (requestTarget (rel.flatMap encodeByte) range ++
      32 :: ascii "HTTP/1.1")).splitOn 32 =
      [ascii "GET", requestTarget (rel.flatMap encodeByte) range, ascii "HTTP/1.1"] := by
  have henc : (32 : UInt8) ∉ rel.flatMap encodeByte := not_mem_encoded (by decide) (by decide)
  have htarget : (32 : UInt8) ∉ requestTarget (rel.flatMap encodeByte) range := by
    have hpath : (32 : UInt8) ∉ requestPath range := by
      cases range with
      | none => exact (by decide : (32 : UInt8) ∉ ascii "/have")
      | some rg => exact (by decide : (32 : UInt8) ∉ ascii "/data")
    unfold requestTarget
    simp only [List.mem_append, List.mem_cons, not_or]
    exact ⟨hpath, by decide, by decide, by decide, henc⟩
  rw [List.splitOn_append_cons_self_of_not_mem (by decide),
    List.splitOn_append_cons_self_of_not_mem htarget, List.splitOn_eq_singleton (by decide)]

/-- The route of a request, and the name in it. -/
theorem route_of_request (hok : relOk rel = true) (hcluster : relIsCluster rel = false)
    (hlen : rel.length ≤ 4096) (hrange : ∀ rg ∈ range, rg.start ≤ rg.stop ∧ rg.stop ≤ maxU64) :
    route (requestTarget (rel.flatMap encodeByte) range) (range.map rangeValue) =
      match range with
      | none => .have rel
      | some rg => .data rel rg := by
  have hquestion : (63 : UInt8) ∉ requestPath range := by
    cases range with
    | none => exact (by decide : (63 : UInt8) ∉ ascii "/have")
    | some rg => exact (by decide : (63 : UInt8) ∉ ascii "/data")
  have hand : (38 : UInt8) ∉ ascii "path" ++ 61 :: rel.flatMap encodeByte := by
    simp only [List.mem_append, List.mem_cons, not_or]
    exact ⟨by decide, by decide, not_mem_encoded (by decide) (by decide)⟩
  have hdecode : decodePath (requestTarget (rel.flatMap encodeByte) range) 4096 = some rel := by
    unfold decodePath requestTarget
    rw [queryGet_one hquestion (by decide) hand]
    exact urlDecode_urlEncode hlen
  have hpath : pathOnly (requestTarget (rel.flatMap encodeByte) range) = requestPath range :=
    pathOnly_append hquestion
  unfold route
  simp only [hpath, hdecode, hok, hcluster, not_true_eq_false, if_false, Bool.false_eq_true]
  cases range with
  | none =>
    have hping : requestPath none ≠ ascii "/ping" := by decide
    have hhave : requestPath none = ascii "/have" := rfl
    rw [if_neg hping, if_neg (not_not.mpr (Or.inl hhave)), if_pos hhave]
  | some rg =>
    have hping : requestPath (some rg) ≠ ascii "/ping" :=
      (by decide : ascii "/data" ≠ ascii "/ping")
    have hhave : requestPath (some rg) ≠ ascii "/have" :=
      (by decide : ascii "/data" ≠ ascii "/have")
    have hdata : requestPath (some rg) = ascii "/data" := rfl
    obtain ⟨hle, hfit⟩ := hrange rg rfl
    rw [if_neg hping, if_neg (not_not.mpr (Or.inr hdata)), if_neg hhave, Option.map_some]
    dsimp only
    rw [parseRange_written hle hfit]

end Served

/-! ## The round trip -/

section RoundTrip

variable {raw psk ip rel : List UInt8} {quad : List Nat} {range : Option Proto.Range}

/-- **The server sees what the client asked for.** The bytes fit the buffer of either side, they are
read whole wherever the stream is cut, and they are a `GET` with the right key for the same name
and range. -/
theorem request_round_trip (sha256 : List UInt8 → δ) (port : UInt16)
    (hpsk : loadPsk raw = some psk) (hip : parseV4 ip = some quad) (hok : relOk rel = true)
    (hcluster : relIsCluster rel = false) (hlen : rel.length ≤ 4096)
    (hrange : ∀ rg ∈ range, rg.start ≤ rg.stop ∧ rg.stop ≤ maxU64) :
    ∃ req, sendRequest psk ip port.toNat rel range = some req ∧ req.length ≤ maxHeadBytes ∧
      (∀ chunks : List (List UInt8), (∀ c ∈ chunks, c ≠ []) → chunks.flatten = req →
        readHeadFull maxHeadBytes [] chunks = some (req.length, req.length)) ∧
      handleConn sha256 psk req =
        match range with
        | none => .have rel
        | some rg => .data rel rg := by
  obtain ⟨hne, hlong, ⟨hline, -⟩, hhead, hlast⟩ := psk_of_loadPsk hpsk
  obtain ⟨hshort, hquad⟩ := ip_of_parseV4 hip
  have hlines := @line_of_request psk ip rel port.toNat range hline hquad
  have hfit := length_requestHead_le hlen hshort port.toNat_lt hlong hrange
  have henc : urlEncode (4096 * 3) rel = some (rel.flatMap encodeByte) := urlEncode_eq
    ((length_encoded_le rel).trans (by omega))
  refine ⟨_, ?_, hfit, fun chunks hchunks hflat => ?_, ?_⟩
  · unfold sendRequest
    rw [henc]
    dsimp only
    rw [if_neg (Nat.not_lt.mpr hfit)]
  · rw [requestHead_eq] at hfit hflat ⊢
    unfold requestLines at hfit hflat ⊢ hlines
    obtain ⟨i, hi, hlen⟩ := endOfHead_joinLines (hlines _ List.mem_cons_self).2
      fun l hl => hlines l (List.mem_cons_of_mem _ hl)
    refine readHeadFull_chunks hi hlen hfit hchunks (by rw [List.nil_append, hflat]) ?_
    rw [List.length_nil]
    omega
  · have hhead' : splitCrlf (requestHead psk ip port.toNat (rel.flatMap encodeByte) range) =
        requestLines psk ip port.toNat (rel.flatMap encodeByte) range ++ [[], []] := by
      rw [requestHead_eq]
      exact splitCrlf_joinLines fun l hl => (hlines l hl).2
    have hbearer := bearerOk_written sha256 hhead hlast
    have hversion : ¬ (ascii "HTTP/1.1" ≠ ascii "HTTP/1.1" ∧ ascii "HTTP/1.1" ≠ ascii "HTTP/1.0") :=
      fun h => h.1 rfl
    unfold handleConn
    rw [fields_of_request hne hline hlast hquad, hhead']
    unfold requestLines
    rw [List.cons_append, List.cons_append]
    dsimp only
    rw [words_of_request]
    dsimp only
    rw [Option.getD_some, if_neg (not_not.mpr hbearer), if_neg (not_not.mpr rfl),
      if_neg (by simp [requestTarget]), List.head?_cons, Option.getD_some, if_neg hversion,
      if_neg (by simp), if_neg (by simp)]
    exact route_of_request hok hcluster hlen hrange

/-- A short key, a file at the root and its first bytes, at port 9000. -/
theorem request_round_trip_a :
    ∃ req, sendRequest [107] (ascii "10.0.0.1") (9000 : UInt16).toNat (ascii "a") (some ⟨0, 15⟩) =
        some req ∧ req.length ≤ maxHeadBytes ∧
      (∀ chunks : List (List UInt8), (∀ c ∈ chunks, c ≠ []) → chunks.flatten = req →
        readHeadFull maxHeadBytes [] chunks = some (req.length, req.length)) ∧
      handleConn id [107] req = .data (ascii "a") ⟨0, 15⟩ :=
  @request_round_trip (List UInt8) _ [107, 10] [107] (ascii "10.0.0.1") (ascii "a") [10, 0, 0, 1]
    (some ⟨0, 15⟩) id 9000 (by decide) (by decide) (by decide) (by decide) (by decide)
    (by
      rintro rg ⟨⟩
      exact ⟨by decide, by decide⟩)

end RoundTrip

/-! ## Names from outside -/

/-- The name of the file that is served. -/
def Reply.served : Reply → Option (List UInt8)
  | .have rel | .data rel _ => some rel
  | _ => none

/-- A name that is served passed both gates. -/
theorem route_admits {target : List UInt8} {rangeH : Option (List UInt8)} {rel : List UInt8}
    (h : (route target rangeH).served = some rel) :
    decodePath target 4096 = some rel ∧ relOk rel = true ∧ relIsCluster rel = false := by
  revert h
  fun_cases route target rangeH
  case case6 hdecode hok hcluster _ =>
    rintro ⟨⟩
    exact ⟨hdecode, not_not.mp hok, Bool.not_eq_true _ ▸ hcluster⟩
  case case9 hdecode hok hcluster _ _ _ _ =>
    rintro ⟨⟩
    exact ⟨hdecode, not_not.mp hok, Bool.not_eq_true _ ▸ hcluster⟩
  all_goals exact nofun

/-- **A request that is served names a file under the root**, whatever its bytes. -/
theorem handleConn_confined {sha256 : List UInt8 → δ} {psk head rel : List UInt8}
    (h : (handleConn sha256 psk head).served = some rel) : Confined rel := by
  revert h
  fun_cases handleConn sha256 psk head
  case case7 =>
    intro h
    obtain ⟨-, hok, hcluster⟩ := route_admits h
    exact confined_of_relOk hok hcluster
  all_goals exact nofun

/-- The names that are joined: a handler's, from a parent and a component or from an inode and its
handle, and a request's. -/
inductive Offered (sha256 : List UInt8 → δ) (rel : List UInt8) : Prop where
  | child {s : Inodes.Tables} {parent : Nat} {above name path : List UInt8} {clusterRc : Int} :
    Inodes.pathForIno s parent = some above → Inodes.childPath above name = some path →
      resolveRel path clusterRc = (0, rel) → Offered sha256 rel
  | op {s : Inodes.Tables} {ino fh : Nat} {path : List UInt8} {clusterRc : Int} :
    Inodes.pathForOp s ino fh = some path → resolveRel path clusterRc = (0, rel) →
      Offered sha256 rel
  | request {psk head : List UInt8} :
    (handleConn sha256 psk head).served = some rel → Offered sha256 rel

theorem Offered.confined {sha256 : List UInt8 → δ} {rel : List UInt8} (h : Offered sha256 rel) :
    rel = [] ∨ Confined rel := by
  cases h with
  | child _ _ hresolve => exact resolveRel_confined hresolve
  | op _ hresolve => exact resolveRel_confined hresolve
  | request hserved => exact Or.inr (handleConn_confined hserved)

/-- **No escape and no aliasing.** A name that is joined is the root's or made of safe components;
its path in any tree is below that tree's root, and no other name has it. -/
theorem offered_paths {sha256 : List UInt8 → δ} {rel : List UInt8} (h : Offered sha256 rel) :
    (rel = [] ∨ Confined rel) ∧
      ∀ (roots : Roots) (size : Nat) (tree : Tree) (path : List UInt8),
        treePath roots size rel tree = some path →
          (∃ root, treeRoot roots tree = some root ∧
            (rel = [] ∧ (path = root ++ treeExt tree ∨ path = rootStem root ++ treeExt tree) ∨
              path = rootStem root ++ slash :: rel ++ treeExt tree)) ∧
          ∀ (size' : Nat) (rel' : List UInt8), Offered sha256 rel' →
            treePath roots size' rel' tree = some path → rel' = rel :=
  ⟨h.confined, fun _ _ _ _ hpath => ⟨treePath_confined h.confined hpath, fun _ _ h' hpath' =>
    treePath_inj h'.confined h.confined hpath' hpath⟩⟩

/-- A lookup of `b` in the directory `a`, which is inode 2. -/
theorem offered_paths_nested :
    (ascii "a/b" = [] ∨ Confined (ascii "a/b")) ∧
      ∀ (roots : Roots) (size : Nat) (tree : Tree) (path : List UInt8),
        treePath roots size (ascii "a/b") tree = some path →
          (∃ root, treeRoot roots tree = some root ∧
            (ascii "a/b" = [] ∧
                (path = root ++ treeExt tree ∨ path = rootStem root ++ treeExt tree) ∨
              path = rootStem root ++ slash :: ascii "a/b" ++ treeExt tree)) ∧
          ∀ (size' : Nat) (rel' : List UInt8), Offered (id : List UInt8 → List UInt8) rel' →
            treePath roots size' rel' tree = some path → rel' = ascii "a/b" := by
  let s : Inodes.Tables := (Inodes.internPath {} (ascii "/a") true).elim {} Prod.snd
  have habove : Inodes.pathForIno s 2 = some (ascii "/a") := by decide
  have hpath : Inodes.childPath (ascii "/a") (ascii "b") = some (ascii "/a/b") := by decide
  exact offered_paths (@Offered.child _ _ id _ s 2 _ _ _ (-2) habove hpath (by decide))

end ModelFs
