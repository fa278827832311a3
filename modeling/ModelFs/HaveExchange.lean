import ModelFs.PeerReply
import ModelFs.Bitfield

/-!
# The exchange of what a peer has

`serveHave` answers with the marks of a file, packed, behind a head that names the grid they are of
and how many bytes follow. `fetchHave` takes the answer off a socket that may cut it into reads
anywhere and may end anywhere, and a fill asks `hasPiece` of what it got.

The entry is any one the server may have: its field need not be as long as the size of the file asks
for, since a resize waits while a read is in flight.

* `finishBodyAlloc_eq` — what a body without a buffer of the caller's comes to, and how much memory
  is asked for.
* `have_exchange` — **the answer is the field or an error**, however it is cut.
-/

namespace ModelFs

open Proto PeerReply

namespace HaveExchange

/-! ## The server -/

/-- `max_have_body_bytes`. -/
def maxHaveBodyBytes : Nat := 16 * 1024 * 1024

/-- A `stat` of the origin: what it failed with, or what is there. -/
inductive OriginStat where
  | enoent
  | enotdir
  | enametoolong
  | failed
  | found (regular : Bool) (size : Int)

/-- `replyStatus`, out of a buffer of 96 bytes. -/
def replyStatus (status : List UInt8) : List UInt8 :=
  let res := ascii "HTTP/1.1 " ++ status ++
    ascii "\r\nContent-Length: 0\r\nConnection: close\r\n\r\n"
  if 96 < res.length then [] else res

/-- The size of a regular file, or the status that was sent. -/
def originRegular : OriginStat → Except (List UInt8) Nat
  | .enoent | .enotdir => .error (ascii "404 Not Found")
  | .enametoolong => .error (ascii "400 Bad Request")
  | .failed => .error (ascii "502 Bad Gateway")
  | .found regular size =>
    if ¬ regular then .error (ascii "404 Not Found")
    else if size < 0 then .error (ascii "502 Bad Gateway")
    else .ok size.toNat

/-- What the server finds: the origin, its grid, the field of the entry under the lock where there
is an entry, and whether there is memory for a copy. -/
structure Server where
  stat : OriginStat
  pieceSize : UInt32
  entry : Option Bitfield
  /-- `nbits` is a `u32`. -/
  fits : ∀ bits ∈ entry, bits.nbits ≤ maxU32
  mem : Bool

def haveHeader (pieceSize len : Nat) : List UInt8 :=
  ascii "HTTP/1.1 200 OK\r\nContent-Type: application/octet-stream\r\nX-Piece-Size: " ++
    decimal pieceSize ++ ascii "\r\nContent-Length: " ++ decimal len ++
    ascii "\r\nConnection: close\r\n\r\n"

/-- All that is written, where nothing fails on the way. -/
def serveHave (srv : Server) : List UInt8 :=
  let failed := replyStatus (ascii "500 Internal Server Error")
  match originRegular srv.stat with
  | .error status => replyStatus status
  | .ok size =>
    if maxHaveBodyBytes < byteLen (Piece.count size srv.pieceSize.toNat) then failed
    else
      match srv.entry with
      | none => failed
      | some bits =>
        if ¬ srv.mem then failed
        else
          let h := haveHeader srv.pieceSize.toNat bits.bytes.length
          if 192 < h.length then failed else h ++ bits.bytes

/-! ## The fetcher -/

structure HaveBits where
  bits : List UInt8
  pieceSize : Nat
deriving DecidableEq, Repr

/-- `proto.HaveBits.hasPiece`. -/
def HaveBits.hasPiece (b : HaveBits) (idx localPieceSize : Nat) : Bool :=
  if b.pieceSize ≠ 0 ∧ b.pieceSize ≠ localPieceSize then false else bitAt b.bits idx

inductive HaveError where
  | peerMiss
  | badPieceSize
  | fetch (err : FetchError)
deriving DecidableEq, Repr

/-- The grid that was advertised. Without one it is not known. -/
def advertised : Option (List UInt8) → Except HaveError Nat
  | none => .ok 0
  | some ps =>
    match parseU64Fast ps with
    | none => .error .badPieceSize
    | some n =>
      if maxU32 < n then .error .badPieceSize else if n = 0 then .error .badPieceSize else .ok n

/-- What `haveFromHeadDeadline` checks before the body. -/
def haveChecks (head : List UInt8) : Except HaveError Nat :=
  match splitCrlf head with
  | statusLine :: _ :: _ =>
    match httpStatusCode statusLine with
    | none => .error (.fetch .httpStatus)
    | some status =>
      if status ≠ 200 then
        if status = 404 then .error .peerMiss else .error (.fetch .httpStatus)
      else
        let fields := headerGet2 head (ascii "X-Piece-Size") (ascii "Content-Length")
        match advertised fields.1 with
        | .error err => .error err
        | .ok pieceSize =>
          match parseU64Fast (fields.2.getD (ascii "0")) with
          | none => .error (.fetch .badContentLength)
          | some declared =>
            if maxHaveBodyBytes < declared then .error (.fetch .bodyTooLarge) else .ok pieceSize
  | _ => .error (.fetch .badHttp)

/-- `haveFromHeadDeadline`. -/
def haveFromHead (buf : List UInt8) (headLen : Nat) (mem : Bool) (sock : Socket) :
    Except HaveError HaveBits :=
  match haveChecks (buf.take headLen) with
  | .error err => .error err
  | .ok pieceSize =>
    match finishBodyAlloc buf headLen (.alloc mem) sock with
    | .error err => .error (.fetch err)
    | .ok bits => .ok ⟨bits, pieceSize⟩

/-- `fetchHave`, behind the request; `mem` says whether there is memory for the body. -/
def fetchHave (mem : Bool) (sock : Socket) : Except HaveError HaveBits :=
  match readHeadFullDeadline headBufLen [] sock.stream sock.turns with
  | .error err => .error (.fetch err)
  | .ok read => haveFromHead read.buf read.headLen mem read.rest

/-- What `probeWorker` puts in the cache: bits and their grid. -/
def cached (localPieceSize : Nat) : Except HaveError HaveBits → Option HaveBits
  | .error .peerMiss => some ⟨[], 0⟩
  | .error _ => none
  | .ok rep => if rep.pieceSize ≠ 0 ∧ rep.pieceSize ≠ localPieceSize then none else some rep

/-! ## Memory -/

/-- How many bytes `finishBodyAlloc` asks for behind `head`, when it gets that far. -/
def bodyAlloc (head : List UInt8) : Option Nat :=
  match splitCrlf head with
  | statusLine :: _ :: _ =>
    match httpStatusCode statusLine with
    | none => none
    | some status =>
      if status ≠ 200 ∧ status ≠ 206 then none
      else
        match parseU64Fast ((headerGet head (ascii "Content-Length")).getD (ascii "0")) with
        | none => none
        | some wantLen => if maxAllocBodyBytes < wantLen then none else some wantLen
  | _ => none

/-- **A body without a buffer of the caller's**: it ends before any memory is asked for, or reads
into as much as it asked for, if it got that. -/
theorem finishBodyAlloc_eq (buf : List UInt8) (headLen : Nat) (mem : Bool) (sock : Socket) :
    match bodyAlloc (buf.take headLen) with
    | none => ∃ err, finishBodyAlloc buf headLen (.alloc mem) sock = .error err
    | some wantLen =>
      finishBodyAlloc buf headLen (.alloc mem) sock =
        if wantLen = 0 then .ok []
        else if mem = false then .error .outOfMemory
        else readBody wantLen ((buf.drop headLen).take wantLen) sock.stream sock.turns := by
  unfold bodyAlloc finishBodyAlloc
  dsimp only
  cases splitCrlf (buf.take headLen) with
  | nil => exact ⟨_, rfl⟩
  | cons line lines =>
    cases lines with
    | nil => exact ⟨_, rfl⟩
    | cons line' lines =>
      dsimp only
      cases httpStatusCode line with
      | none => exact ⟨_, rfl⟩
      | some status =>
        dsimp only
        by_cases hstatus : status ≠ 200 ∧ status ≠ 206
        · rw [if_pos hstatus, if_pos hstatus]
          exact ⟨_, rfl⟩
        rw [if_neg hstatus, if_neg hstatus]
        cases parseU64Fast
            ((headerGet (buf.take headLen) (ascii "Content-Length")).getD (ascii "0")) with
        | none => exact ⟨_, rfl⟩
        | some wantLen =>
          dsimp only
          by_cases hlong : maxAllocBodyBytes < wantLen
          · rw [if_pos hlong, if_pos hlong]
            exact ⟨_, rfl⟩
          · rw [if_neg hlong, if_neg hlong]
            simp only [Room.alloc.injEq]

/-- A body that was read is what stands behind the head. -/
theorem finishBodyAlloc_alloc_ok {buf out : List UInt8} {headLen : Nat} {mem : Bool} {sock : Socket}
    (hok : finishBodyAlloc buf headLen (.alloc mem) sock = .ok out) :
    bodyAlloc (buf.take headLen) = some out.length ∧ out <+: buf.drop headLen ++ sock.stream := by
  have heq := finishBodyAlloc_eq buf headLen mem sock
  cases halloc : bodyAlloc (buf.take headLen) with
  | none =>
    rw [halloc] at heq
    obtain ⟨err, herr⟩ := heq
    rw [herr] at hok
    cases hok
  | some wantLen =>
    rw [halloc] at heq
    dsimp only at heq
    rw [heq] at hok
    split_ifs at hok with hzero hmem
    · cases hok
      exact ⟨congrArg some hzero, List.nil_prefix⟩
    · obtain ⟨hlen, hout⟩ := readBody_behind hok
      exact ⟨congrArg some hlen.symm, hout⟩

/-! ## The head of an answer -/

theorem headerGet2_eq_each (head : List UInt8) :
    headerGet2 head (ascii "X-Piece-Size") (ascii "Content-Length") =
      (headerGet head (ascii "X-Piece-Size"), headerGet head (ascii "Content-Length")) :=
  headerGet2_eq (by decide) head

theorem fieldValue_line {name value : List UInt8} (hname : 58 ∉ name)
    (hvalue : trim blanks (32 :: value) = value) :
    fieldValue name (fieldLine name value) = some value := by
  have hdrop : (fieldLine name value).drop (name.length + 1) = 32 :: value := by
    rw [fieldLine, ← List.drop_drop, List.drop_left' rfl]
    rfl
  have htake : (fieldLine name value).take name.length = name := List.take_left' rfl
  have hcolon : findScalar 58 (fieldLine name value) = some name.length := findScalar_append hname
  unfold fieldValue
  rw [hcolon, Option.bind_some, htake, hdrop, hvalue, if_pos ⟨rfl, beq_self_eq_true _⟩]

theorem fieldValue_other {name other value : List UInt8} (hother : 58 ∉ other)
    (hne : eqlIgnoreCase other name = false) : fieldValue name (fieldLine other value) = none := by
  have htake : (fieldLine other value).take other.length = other := List.take_left' rfl
  have hcolon : findScalar 58 (fieldLine other value) = some other.length :=
    findScalar_append hother
  unfold fieldValue
  rw [hcolon, Option.bind_some, htake, hne, if_neg fun h => Bool.false_ne_true h.2]

/-- The lines of the head. -/
def haveLines (pieceSize len : Nat) : List (List UInt8) :=
  [ascii "HTTP/1.1 200 OK", fieldLine (ascii "Content-Type") (ascii "application/octet-stream"),
    fieldLine (ascii "X-Piece-Size") (decimal pieceSize),
    fieldLine (ascii "Content-Length") (decimal len),
    fieldLine (ascii "Connection") (ascii "close")]

theorem haveHeader_eq (pieceSize len : Nat) :
    haveHeader pieceSize len = joinLines (haveLines pieceSize len) := by
  have h₁ : ascii "HTTP/1.1 200 OK\r\nContent-Type: application/octet-stream\r\nX-Piece-Size: " =
      ascii "HTTP/1.1 200 OK" ++ 13 :: 10 :: (ascii "Content-Type" ++ 58 :: 32 ::
        (ascii "application/octet-stream" ++ 13 :: 10 :: (ascii "X-Piece-Size" ++ [58, 32]))) := by
    decide
  have h₂ : ascii "\r\nContent-Length: " = 13 :: 10 :: (ascii "Content-Length" ++ [58, 32]) := by
    decide
  have h₃ : ascii "\r\nConnection: close\r\n\r\n" =
      13 :: 10 :: (ascii "Connection" ++ 58 :: 32 :: (ascii "close" ++ [13, 10, 13, 10])) := by
    decide
  rw [haveHeader, h₁, h₂, h₃]
  simp only [haveLines, fieldLine, joinLines, List.flatMap_cons, List.flatMap_nil,
    List.append_assoc, List.cons_append, List.nil_append]

theorem fieldLine_ne_nil (name value : List UInt8) : fieldLine name value ≠ [] := by
  simp [fieldLine]

theorem fieldLine_plain {name value : List UInt8} (hname : 13 ∉ name) (hvalue : 13 ∉ value) :
    fieldLine name value ≠ [] ∧ 13 ∉ fieldLine name value := by
  refine ⟨fieldLine_ne_nil _ _, ?_⟩
  simp only [fieldLine, List.mem_append, List.mem_cons, not_or]
  exact ⟨hname, by decide, by decide, hvalue⟩

/-- A number has no blanks around it, and no byte of a line's end. -/
theorem decimal_written (n : Nat) : trim blanks (32 :: decimal n) = decimal n ∧ 13 ∉ decimal n := by
  have hdigit : ∀ b ∈ decimal n, b ∉ blanks := by
    intro b hb hblank
    have hrange := digit_of_mem_decimal hb
    have hblanks : (blanks.all fun x => x.toNat < 48) = true := by decide
    have hlow := of_decide_eq_true (List.all_eq_true.mp hblanks b hblank)
    omega
  refine ⟨trim_written (fun b hb => hdigit b (List.mem_of_mem_head? hb))
    (fun b hb => hdigit b (List.mem_of_mem_getLast? hb)), not_mem_decimal (.inl (by decide))⟩

theorem haveLines_plain (pieceSize len : Nat) :
    ∀ line ∈ haveLines pieceSize len, line ≠ [] ∧ 13 ∉ line := by
  have hps := (decimal_written pieceSize).2
  have hlen := (decimal_written len).2
  have hname : 13 ∉ ascii "HTTP/1.1 200 OK" ∧ 13 ∉ ascii "Content-Type" ∧
      13 ∉ ascii "application/octet-stream" ∧ 13 ∉ ascii "X-Piece-Size" ∧
      13 ∉ ascii "Content-Length" ∧ 13 ∉ ascii "Connection" ∧ 13 ∉ ascii "close" := by decide
  obtain ⟨h₁, h₂, h₃, h₄, h₅, h₆, h₇⟩ := hname
  intro line hmem
  simp only [haveLines, List.mem_cons, List.not_mem_nil, or_false] at hmem
  obtain rfl | rfl | rfl | rfl | rfl := hmem
  · exact ⟨by decide, h₁⟩
  · exact fieldLine_plain h₂ h₃
  · exact fieldLine_plain h₄ hps
  · exact fieldLine_plain h₅ hlen
  · exact fieldLine_plain h₆ h₇

theorem splitCrlf_haveHeader (pieceSize len : Nat) :
    splitCrlf (haveHeader pieceSize len) = haveLines pieceSize len ++ [[], []] := by
  rw [haveHeader_eq]
  exact splitCrlf_joinLines fun line hmem => (haveLines_plain pieceSize len line hmem).2

/-- What the head says. -/
theorem headerGet_haveHeader (pieceSize len : Nat) :
    headerGet (haveHeader pieceSize len) (ascii "X-Piece-Size") = some (decimal pieceSize) ∧
    headerGet (haveHeader pieceSize len) (ascii "Content-Length") = some (decimal len) := by
  have hps := (decimal_written pieceSize).1
  have hlen := (decimal_written len).1
  have htail : (splitCrlf (haveHeader pieceSize len)).tail =
      [fieldLine (ascii "Content-Type") (ascii "application/octet-stream"),
        fieldLine (ascii "X-Piece-Size") (decimal pieceSize),
        fieldLine (ascii "Content-Length") (decimal len),
        fieldLine (ascii "Connection") (ascii "close"), [], []] := by
    rw [splitCrlf_haveHeader]
    rfl
  unfold headerGet
  rw [htail]
  constructor
  · rw [headerScan_cons (fieldLine_ne_nil _ _), fieldValue_other (by decide) (by decide),
      Option.none_or, headerScan_cons (fieldLine_ne_nil _ _), fieldValue_line (by decide) hps,
      Option.some_or]
  · rw [headerScan_cons (fieldLine_ne_nil _ _), fieldValue_other (by decide) (by decide),
      Option.none_or, headerScan_cons (fieldLine_ne_nil _ _),
      fieldValue_other (by decide) (by decide), Option.none_or,
      headerScan_cons (fieldLine_ne_nil _ _), fieldValue_line (by decide) hlen, Option.some_or]

/-- **How the checks go** on the head of an answer. -/
theorem haveChecks_haveHeader {pieceSize len : Nat} (hps : pieceSize ≤ maxU32)
    (hlen : len ≤ maxU64) :
    haveChecks (haveHeader pieceSize len) =
      if pieceSize = 0 then .error .badPieceSize
      else if maxHaveBodyBytes < len then .error (.fetch .bodyTooLarge)
      else .ok pieceSize := by
  obtain ⟨hps', hlen'⟩ := headerGet_haveHeader pieceSize len
  have hstatus : httpStatusCode (ascii "HTTP/1.1 200 OK") = some 200 := by decide
  have hsmall : pieceSize ≤ maxU64 := hps.trans (by decide)
  unfold haveChecks
  rw [splitCrlf_haveHeader]
  simp only [haveLines, List.cons_append, hstatus]
  rw [if_neg (by decide), headerGet2_eq_each, hps', hlen']
  simp only [advertised, parseU64Fast_decimal hsmall, if_neg (Nat.not_lt.mpr hps),
    Option.getD_some, parseU64Fast_decimal hlen]
  split_ifs <;> rfl

/-- How much memory the head of an answer makes the fetcher ask for. -/
theorem bodyAlloc_haveHeader {pieceSize len n : Nat} (hlen : len ≤ maxU64)
    (h : bodyAlloc (haveHeader pieceSize len) = some n) : n = len := by
  have hstatus : httpStatusCode (ascii "HTTP/1.1 200 OK") = some 200 := by decide
  unfold bodyAlloc at h
  rw [splitCrlf_haveHeader] at h
  simp only [haveLines, List.cons_append, hstatus, (headerGet_haveHeader pieceSize len).2,
    Option.getD_some, parseU64Fast_decimal hlen] at h
  split_ifs at h
  exact (Option.some.inj h).symm

/-- Where the head ends. -/
theorem endOfHead_haveHeader (pieceSize len : Nat) (body : List UInt8) :
    ∃ i, endOfHead (haveHeader pieceSize len ++ body) = some i ∧
      i + 4 = (haveHeader pieceSize len).length := by
  have hplain := haveLines_plain pieceSize len
  unfold haveLines at hplain
  obtain ⟨i, hi, hlen⟩ := endOfHead_joinLines (hplain _ List.mem_cons_self).2
    fun l hl => hplain l (List.mem_cons_of_mem _ hl)
  have heq := haveHeader_eq pieceSize len
  unfold haveLines at heq
  rw [← heq] at hi hlen
  exact ⟨i, endOfHead_append hi, hlen⟩

/-- The statuses that are sent. -/
def statuses : List (List UInt8) :=
  [ascii "404 Not Found", ascii "400 Bad Request", ascii "502 Bad Gateway",
    ascii "500 Internal Server Error"]

/-- The head of such a reply is all of it, and the checks refuse it. -/
theorem replyStatus_refused :
    ∀ status ∈ statuses, ((endOfHead (replyStatus status)).map (· + 4) =
      some (replyStatus status).length) ∧ (haveChecks (replyStatus status)).toOption = none := by
  decide +kernel

/-- **What the server sends**: a status, or the field of the entry behind its head. -/
theorem serveHave_cases (srv : Server) :
    (∃ status ∈ statuses, serveHave srv = replyStatus status) ∨
    ∃ bits, srv.entry = some bits ∧
      serveHave srv = haveHeader srv.pieceSize.toNat bits.bytes.length ++ bits.bytes := by
  have h500 : ascii "500 Internal Server Error" ∈ statuses := by simp [statuses]
  unfold serveHave
  dsimp only
  cases horigin : originRegular srv.stat with
  | error status =>
    refine .inl ⟨status, ?_, rfl⟩
    unfold originRegular at horigin
    split at horigin
    · cases horigin
      simp [statuses]
    · cases horigin
      simp [statuses]
    · cases horigin
      simp [statuses]
    · cases horigin
      simp [statuses]
    · split_ifs at horigin <;> cases horigin <;> simp [statuses]
  | ok size =>
    cases hentry : srv.entry with
    | none =>
      dsimp only
      split_ifs
      · exact .inl ⟨_, h500, rfl⟩
      · exact .inl ⟨_, h500, rfl⟩
    | some bits =>
      dsimp only
      split_ifs
      · exact .inl ⟨_, h500, rfl⟩
      · exact .inl ⟨_, h500, rfl⟩
      · exact .inr ⟨bits, rfl, rfl⟩
      · exact .inl ⟨_, h500, rfl⟩

/-! ## The exchange -/

/-- The head that was read is the head of the reply, and what stands behind it is of the reply
too. -/
theorem head_of_reply {reply : List UInt8} {sock : Socket} (hsent : sock.stream <+: reply)
    {read : HeadRead} (hread : readHeadFullDeadline headBufLen [] sock.stream sock.turns = .ok read)
    {i : Nat} (hend : endOfHead reply = some i) :
    read.headLen = i + 4 ∧ read.buf.take read.headLen = reply.take (i + 4) ∧
      i + 4 ≤ sock.stream.length ∧
      read.buf.drop read.headLen ++ read.rest.stream = sock.stream.drop (i + 4) := by
  obtain ⟨hstream, -, k, hk, hlen⟩ := readHeadFullDeadline_ok rfl (Nat.zero_le _) hread
  rw [List.nil_append] at hstream
  have hwithin := length_of_endOfHead hk
  obtain ⟨more, rfl⟩ := hsent
  have hki : k = i := by
    have hall := @endOfHead_append read.buf (read.rest.stream ++ more) k hk
    rw [← List.append_assoc, hstream, hend] at hall
    exact (Option.some.inj hall).symm
  subst hki
  rw [hlen, ← hstream]
  refine ⟨rfl, ?_, ?_, ?_⟩
  · rw [List.append_assoc, List.take_append_of_le_length hwithin]
  · rw [List.length_append]
    omega
  · rw [List.drop_append_of_le_length hwithin]

/-- A fetch of a reply that is refused with its head. -/
theorem fetch_refused {reply : List UInt8} {mem : Bool} {sock : Socket}
    (hsent : sock.stream <+: reply)
    (hend : (endOfHead reply).map (· + 4) = some reply.length)
    (hrefused : (haveChecks reply).toOption = none) :
    ∃ err, fetchHave mem sock = .error err ∧ (err = .peerMiss → sock.stream = reply) := by
  unfold fetchHave
  cases hread : readHeadFullDeadline headBufLen [] sock.stream sock.turns with
  | error err => exact ⟨_, rfl, fun h => by cases h⟩
  | ok read =>
    obtain ⟨i, hi, hlen⟩ := Option.map_eq_some_iff.mp hend
    obtain ⟨-, hhead, hall, -⟩ := head_of_reply hsent hread hi
    rw [hlen] at hall hhead
    rw [List.take_length] at hhead
    dsimp only
    unfold haveFromHead
    rw [hhead]
    cases hcheck : haveChecks reply with
    | error err => exact ⟨err, rfl, fun _ => hsent.eq_of_length_le hall⟩
    | ok n =>
      rw [hcheck] at hrefused
      cases hrefused

/-- **A fetch of an answer** has the field, or fails as no cache takes for a miss. -/
theorem fetch_answer {pieceSize : UInt32} {bits : Bitfield} (hfits : bits.nbits ≤ maxU32)
    {mem : Bool} {sock : Socket}
    (hsent : sock.stream <+: haveHeader pieceSize.toNat bits.bytes.length ++ bits.bytes) :
    (∃ err, fetchHave mem sock = .error err ∧ err ≠ .peerMiss) ∨
    fetchHave mem sock = .ok ⟨bits.bytes, pieceSize.toNat⟩ ∧ pieceSize ≠ 0 ∧
      bits.bytes.length ≤ maxHaveBodyBytes ∧
      sock.stream = haveHeader pieceSize.toNat bits.bytes.length ++ bits.bytes := by
  have hlen : bits.bytes.length ≤ maxU64 := by
    have hbytes : bits.bytes.length = (bits.nbits + 7) / 8 := bits.length_eq
    have hmax : maxU32 + 7 ≤ maxU64 := by decide
    omega
  have hps : pieceSize.toNat ≤ maxU32 := Nat.le_of_lt_succ pieceSize.toNat_lt
  unfold fetchHave
  cases hread : readHeadFullDeadline headBufLen [] sock.stream sock.turns with
  | error err => exact .inl ⟨_, rfl, by simp⟩
  | ok read =>
    obtain ⟨i, hi, hhdr⟩ := endOfHead_haveHeader pieceSize.toNat bits.bytes.length bits.bytes
    obtain ⟨-, hhead, hall, hbehind⟩ := head_of_reply hsent hread hi
    rw [hhdr] at hall hhead hbehind
    rw [List.take_left' rfl] at hhead
    dsimp only
    unfold haveFromHead
    rw [hhead, haveChecks_haveHeader hps hlen]
    split_ifs with hzero hlong
    · exact .inl ⟨_, rfl, by decide⟩
    · exact .inl ⟨_, rfl, by decide⟩
    · dsimp only
      cases hbody : finishBodyAlloc read.buf read.headLen (.alloc mem) read.rest with
      | error err => exact .inl ⟨_, rfl, by simp⟩
      | ok out =>
        obtain ⟨halloc, hout⟩ := finishBodyAlloc_alloc_ok hbody
        rw [hhead] at halloc
        have hwhole : out.length = bits.bytes.length := bodyAlloc_haveHeader hlen halloc
        -- what stands behind the head in the stream is of the field, and it is all of it
        obtain ⟨more, hmore⟩ := hsent
        have hdrop :
            sock.stream.drop (haveHeader pieceSize.toNat bits.bytes.length).length ++ more =
              bits.bytes := by
          rw [← List.drop_append_of_le_length hall, hmore, List.drop_left' rfl]
        rw [hbehind] at hout
        have hprefix : out <+: bits.bytes := by
          rw [← hdrop]
          exact hout.trans (List.prefix_append _ _)
        have hbits : out = bits.bytes := hprefix.eq_of_length hwhole
        have hcut : more = [] := by
          have h₁ := congrArg List.length hdrop
          have h₂ := hout.length_le
          rw [List.length_append] at h₁
          exact List.eq_nil_of_length_eq_zero (by omega)
        refine .inr ⟨by rw [hbits], ?_, Nat.not_lt.mp hlong, ?_⟩
        · exact fun h => hzero (by rw [h]; rfl)
        · rw [hcut, List.append_nil] at hmore
          exact hmore

/-- The memory that `haveFromHead` asks for, for a reply of any kind. -/
def haveAlloc (head : List UInt8) : Option Nat :=
  match haveChecks head with
  | .error _ => none
  | .ok _ => bodyAlloc head

/-- What was declared is what is asked for, and it passed the cap. -/
theorem haveAlloc_le {head : List UInt8} {n : Nat} (h : haveAlloc head = some n) :
    n ≤ maxHaveBodyBytes := by
  unfold haveAlloc haveChecks bodyAlloc at h
  rw [headerGet2_eq_each] at h
  cases hsplit : splitCrlf head with
  | nil => simp [hsplit] at h
  | cons line lines =>
    cases lines with
    | nil => simp [hsplit] at h
    | cons line' lines =>
      simp only [hsplit] at h
      cases hstatus : httpStatusCode line with
      | none => simp [hstatus] at h
      | some status =>
        simp only [hstatus] at h
        by_cases h200 : status ≠ 200
        · rw [if_pos h200] at h
          split_ifs at h
        rw [if_neg h200] at h
        cases hgrid : advertised (headerGet head (ascii "X-Piece-Size")) with
        | error err => simp [hgrid] at h
        | ok pieceSize =>
          simp only [hgrid] at h
          cases hlen :
              parseU64Fast ((headerGet head (ascii "Content-Length")).getD (ascii "0")) with
          | none => simp [hlen] at h
          | some declared =>
            simp only [hlen] at h
            by_cases hcap : maxHaveBodyBytes < declared
            · simp [hcap] at h
            · simp only [hcap, if_false] at h
              split_ifs at h
              cases h
              exact Nat.not_lt.mp hcap

/-- Where no memory is asked for the fetch has failed. -/
theorem haveFromHead_of_none {buf : List UInt8} {headLen : Nat} (mem : Bool) (sock : Socket)
    (h : haveAlloc (buf.take headLen) = none) :
    ∃ err, haveFromHead buf headLen mem sock = .error err := by
  unfold haveAlloc at h
  unfold haveFromHead
  cases hcheck : haveChecks (buf.take headLen) with
  | error err => exact ⟨err, rfl⟩
  | ok pieceSize =>
    rw [hcheck] at h
    have heq := finishBodyAlloc_eq buf headLen mem sock
    rw [show bodyAlloc (buf.take headLen) = none from h] at heq
    obtain ⟨err, herr⟩ := heq
    dsimp only
    rw [herr]
    exact ⟨_, rfl⟩

/-- **What comes of an exchange**, of any entry, with or without memory for the reply, and however
that is cut into reads: a fetch
that succeeds has for every piece the mark of the server's field, where the grids are the same; a
reply that is cut short is an error that leaves the cache alone; and for no reply is more memory
asked for than the cap. -/
theorem have_exchange (srv : Server) (mem : Bool) (sock : Socket)
    (hsent : sock.stream <+: serveHave srv) :
    (∀ rep, fetchHave mem sock = .ok rep → ∃ bits, srv.entry = some bits ∧
      ∀ i localPieceSize, rep.hasPiece i localPieceSize = true ↔
        srv.pieceSize.toNat = localPieceSize ∧ bits.get i = true) ∧
    (sock.stream ≠ serveHave srv → (∃ err, fetchHave mem sock = .error err) ∧
      ∀ localPieceSize, cached localPieceSize (fetchHave mem sock) = none) ∧
    (∀ head n, haveAlloc head = some n → n ≤ maxHaveBodyBytes) ∧
    ∀ buf headLen rest, haveAlloc (buf.take headLen) = none →
      ∃ err, haveFromHead buf headLen mem rest = .error err := by
  have hmiss : ∀ {err}, err ≠ HaveError.peerMiss → ∀ k, cached k (.error err) = none := by
    intro err herr k
    cases err with
    | peerMiss => exact absurd rfl herr
    | badPieceSize => rfl
    | fetch err => rfl
  have halloc : (∀ head n, haveAlloc head = some n → n ≤ maxHaveBodyBytes) ∧
      ∀ buf headLen rest, haveAlloc (buf.take headLen) = none →
        ∃ err, haveFromHead buf headLen mem rest = .error err :=
    ⟨fun _ _ => haveAlloc_le, fun _ _ => haveFromHead_of_none mem⟩
  obtain ⟨status, hstatus, hreply⟩ | ⟨bits, hentry, hreply⟩ := serveHave_cases srv
  · rw [hreply] at hsent ⊢
    obtain ⟨hend, hrefused⟩ := replyStatus_refused status hstatus
    obtain ⟨err, herr, hwhole⟩ := fetch_refused hsent hend hrefused
    rw [herr]
    refine ⟨(fun rep h => by cases h), fun hcut => ⟨⟨err, rfl⟩, ?_⟩, halloc⟩
    exact hmiss fun heq => hcut (hwhole heq)
  · rw [hreply] at hsent ⊢
    obtain ⟨err, herr, hne⟩ | ⟨hok, hps, -, hwhole⟩ := fetch_answer (srv.fits bits hentry) hsent
    · rw [herr]
      exact ⟨(fun rep h => by cases h), fun _ => ⟨⟨err, rfl⟩, hmiss hne⟩, halloc⟩
    · refine ⟨fun rep h => ⟨bits, hentry, fun i localPieceSize => ?_⟩, fun hcut => ?_, halloc⟩
      · rw [hok] at h
        cases h
        have hzero : srv.pieceSize.toNat ≠ 0 := fun h => hps (UInt32.toNat_inj.mp h)
        unfold HaveBits.hasPiece
        rw [Bitfield.get_eq_bitAt]
        by_cases hgrid : srv.pieceSize.toNat = localPieceSize
        · rw [if_neg fun h => h.2 hgrid]
          exact (and_iff_right hgrid).symm
        · rw [if_pos ⟨hzero, hgrid⟩]
          exact iff_of_false Bool.false_ne_true fun h => hgrid h.1
      · exact absurd hwhole hcut

/-- Ten pieces, of which two are there. -/
def tenPieces : Server where
  stat := .found true 80
  pieceSize := 8
  entry := some (((Bitfield.init 10).set 3).set 9)
  fits bits h := by
    obtain rfl := Option.some.inj h
    decide
  mem := true

/-- The answer comes in reads of one byte and of the rest. -/
def tenSocket : Socket where
  stream := serveHave tenPieces
  turns := [{ found := some 0 }, { found := some 8000 }]

theorem have_exchange_ten :
    (fetchHave true tenSocket).toOption = some ⟨[8, 2], 8⟩ ∧
      ∃ bits, tenPieces.entry = some bits ∧
        ∀ i localPieceSize, HaveBits.hasPiece ⟨[8, 2], 8⟩ i localPieceSize = true ↔
          tenPieces.pieceSize.toNat = localPieceSize ∧ bits.get i = true := by
  have hfetched : (fetchHave true tenSocket).toOption = some ⟨[8, 2], 8⟩ := by decide +kernel
  have hsent : tenSocket.stream <+: serveHave tenPieces := by
    unfold tenSocket
    dsimp only
    rfl
  refine ⟨hfetched, ?_⟩
  cases hfetch : fetchHave true tenSocket with
  | error err =>
    rw [hfetch] at hfetched
    cases hfetched
  | ok rep =>
    rw [hfetch] at hfetched
    obtain rfl : rep = ⟨[8, 2], 8⟩ := Option.some.inj hfetched
    exact (have_exchange tenPieces true tenSocket hsent).1 _ hfetch

end HaveExchange

end ModelFs
