import ModelFs.PeerRequest

/-!
# The reply to a range request

`fetchRangeInto` takes a reply off a socket whose other end may send anything, in pieces of any
length, late or never. The head comes first, with whatever of the body its last read brought along;
`checkRangeReply` binds it to the range that was asked for, and `finishBodyAlloc` reads on until the
buffer is full.

* `readHeadFullDeadline_ok` — the head that is read ends at the first empty line of the stream.
* `readHeadFullDeadline_splits` — **the head is found, or reported too long, however the stream is
  cut into reads.**
* `readBody_ok` — what is in the buffer is what the stream had next.
* `fetch_answers` — **a fetch that succeeds has the bytes behind the head of a 206 for exactly the
  range asked for**, and everything else is an error.
-/

namespace ModelFs

open Proto

namespace PeerReply

/-- Why a fetch fails. -/
inductive FetchError where
  | noSpaceLeft
  | badIp
  | socket
  | connect
  | connectTimeout
  | write
  | headTimeout
  | head
  | headTooBig
  | badHttp
  | httpStatus
  | missingContentRange
  | badContentRange
  | rangeMismatch
  | badContentLength
  | lengthMismatch
  | bodyTooLarge
  | outOfMemory
  | bodyTimeout
  | read
  | readIncomplete
  deriving DecidableEq, Repr

/-- One round of a read loop, as the socket and the clock have it. -/
structure Turn where
  /-- `armChunkTimeout` finds some time left. -/
  armed : Bool := true
  /-- The read fails, or brings up to `n + 1` bytes, as far as there are any. -/
  found : Option Nat
  /-- The time is up when the read is back. -/
  late : Bool := false
  deriving DecidableEq, Repr

/-- What the peer sends from here on, and how the reads go. When they run out, the time has. -/
structure Socket where
  stream : List UInt8
  turns : List Turn

/-! ## The head -/

/-- `head_buf` of `readRangeBodyAllocDeadline`. -/
def headBufLen : Nat := 8192

/-- A head that was read: its length, all that was read, and the rest. -/
structure HeadRead where
  headLen : Nat
  buf : List UInt8
  rest : Socket

/-- The read loop, at `buf`, on what the stream still has. -/
def readHeadFullDeadline (cap : Nat) (buf stream : List UInt8) : List Turn →
    Except FetchError HeadRead
  | [] => .error (if cap ≤ buf.length then .headTooBig else .headTimeout)
  | turn :: turns =>
    if cap ≤ buf.length then .error .headTooBig
    else if !turn.armed then .error .headTimeout
    else
      match turn.found with
      | none => .error (if turn.late then .headTimeout else .head)
      | some n =>
        let r := min (n + 1) (cap - buf.length)
        let chunk := stream.take r
        if chunk = [] then .error (if turn.late then .headTimeout else .head)
        else
          let searchStart := if 3 ≤ buf.length then buf.length - 3 else 0
          let window := (buf ++ chunk).drop searchStart
          match (if 10 ∈ window then endOfHead window else none) with
          | some idx => .ok ⟨searchStart + idx + 4, buf ++ chunk, ⟨stream.drop r, turns⟩⟩
          | none => readHeadFullDeadline cap (buf ++ chunk) (stream.drop r) turns

/-! ## What it has to say -/

def checkRangeReply (head : List UInt8) (start stop : Nat) : Except FetchError Unit :=
  match splitCrlf head with
  | statusLine :: _ :: _ =>
    if !httpStatusIs statusLine 206 then .error .httpStatus
    else
      let fields := headerGet2 head (ascii "Content-Range") (ascii "Content-Length")
      match fields.1 with
      | none => .error .missingContentRange
      | some cr =>
        match parseContentRange cr with
        | none => .error .badContentRange
        | some r =>
          if r.start ≠ start ∨ r.stop < start ∨ stop < r.stop then .error .rangeMismatch
          else
            match parseU64Fast (fields.2.getD (ascii "0")) with
            | none => .error .badContentLength
            | some cl =>
              if cl ≠ satAdd (r.stop - r.start) 1 then .error .lengthMismatch else .ok ()
  | _ => .error .badHttp

/-! ## The body -/

/-- `max_alloc_body_bytes`. -/
def maxAllocBodyBytes : Nat := 512 * 1024 * 1024

/-- The check behind the loop. -/
def wholeBody (want : Nat) (got : List UInt8) : Except FetchError (List UInt8) :=
  if got.length ≠ want then .error .readIncomplete else .ok got

/-- The read loop, with `got` in the buffer. -/
def readBody (want : Nat) (got stream : List UInt8) : List Turn → Except FetchError (List UInt8)
  | [] => if want ≤ got.length then wholeBody want got else .error .bodyTimeout
  | turn :: turns =>
    if want ≤ got.length then wholeBody want got
    else if !turn.armed then .error .bodyTimeout
    else
      match turn.found with
      | none => .error (if turn.late then .bodyTimeout else .read)
      | some n =>
        let r := min (n + 1) (want - got.length)
        let chunk := stream.take r
        if chunk = [] then (if turn.late then .error .bodyTimeout else wholeBody want got)
        else readBody want (got ++ chunk) (stream.drop r) turns

/-- Where a body goes: into the caller's buffer, or into memory that there is or is not. -/
inductive Room where
  | supplied (len : Nat)
  | alloc (granted : Bool)
  deriving DecidableEq

/-- `buf` is what was read with the head. An empty body asks for no memory. -/
def finishBodyAlloc (buf : List UInt8) (headLen : Nat) (out : Room) (sock : Socket) :
    Except FetchError (List UInt8) :=
  let head := buf.take headLen
  match splitCrlf head with
  | statusLine :: _ :: _ =>
    match httpStatusCode statusLine with
    | none => .error .httpStatus
    | some status =>
      if status ≠ 200 ∧ status ≠ 206 then .error .httpStatus
      else
        match parseU64Fast ((headerGet head (ascii "Content-Length")).getD (ascii "0")) with
        | none => .error .badContentLength
        | some wantLen =>
          let tooLong : Option FetchError := match out with
            | .supplied len => if len ≠ wantLen then some .lengthMismatch else none
            | .alloc _ => if maxAllocBodyBytes < wantLen then some .bodyTooLarge else none
          match tooLong with
          | some err => .error err
          | none =>
            if wantLen = 0 then .ok []
            else if out = .alloc false then .error .outOfMemory
            else readBody wantLen ((buf.drop headLen).take wantLen) sock.stream sock.turns
  | _ => .error .badHttp

def readRangeBodyAllocDeadline (sock : Socket) (start stop : Nat) (out : Room) :
    Except FetchError (List UInt8) := do
  let read ← readHeadFullDeadline headBufLen [] sock.stream sock.turns
  checkRangeReply (read.buf.take read.headLen) start stop
  finishBodyAlloc read.buf read.headLen out read.rest

/-- `dialed` is what `dial` and the write of the request come to. -/
def fetchRangeInto (psk ip : List UInt8) (port : Nat) (rel : List UInt8) (range : Proto.Range)
    (outLen : Nat) (dialed : Except FetchError Socket) : Except FetchError (List UInt8) :=
  match sendRequest psk ip port rel (some range) with
  | none => .error .noSpaceLeft
  | some _ => do
    let sock ← dialed
    readRangeBodyAllocDeadline sock range.start range.stop (.supplied outLen)

/-! ## What was read -/

/-- **The head ends at the first empty line of the stream**, wherever the reads cut it. -/
theorem readHeadFullDeadline_ok {cap : Nat} {buf stream : List UInt8} {turns : List Turn}
    {read : HeadRead} (hnone : endOfHead buf = none) (hcap : buf.length ≤ cap)
    (hok : readHeadFullDeadline cap buf stream turns = .ok read) :
    read.buf ++ read.rest.stream = buf ++ stream ∧ read.buf.length ≤ cap ∧
      ∃ i, endOfHead read.buf = some i ∧ read.headLen = i + 4 := by
  induction turns generalizing buf stream with
  | nil => cases hok
  | cons turn turns ih =>
    rw [readHeadFullDeadline] at hok
    split at hok
    · cases hok
    split at hok
    · cases hok
    cases hfound : turn.found with
    | none =>
      rw [hfound] at hok
      cases hok
    | some n =>
      rw [hfound] at hok
      dsimp only at hok
      split at hok
      · cases hok
      generalize hr : min (n + 1) (cap - buf.length) = r at hok
      have hfits : (buf ++ stream.take r).length ≤ cap := by
        rw [List.length_append, List.length_take]
        omega
      have hall : buf ++ stream.take r ++ stream.drop r = buf ++ stream := by
        rw [List.append_assoc, List.take_append_drop]
      have hwindow := @endOfHead_window buf (stream.take r) hnone
        (if 3 ≤ buf.length then buf.length - 3 else 0) (by split_ifs <;> omega)
      rw [endOfHead_scan] at hok
      generalize (if 3 ≤ buf.length then buf.length - 3 else 0) = start at hok hwindow
      cases hend : endOfHead ((buf ++ stream.take r).drop start) with
      | some idx =>
        rw [hend] at hok hwindow
        cases hok
        exact ⟨hall, hfits, start + idx, hwindow, rfl⟩
      | none =>
        -- no empty line yet: the reads go on
        rw [hend] at hok hwindow
        obtain ⟨hstream, hle, hhead⟩ := ih hwindow hfits hok
        exact ⟨hstream.trans hall, hle, hhead⟩

/-- The same loop, with the whole of what was read searched after every read. -/
def readHeadWhole (cap : Nat) (buf stream : List UInt8) : List Turn → Except FetchError HeadRead
  | [] => .error (if cap ≤ buf.length then .headTooBig else .headTimeout)
  | turn :: turns =>
    if cap ≤ buf.length then .error .headTooBig
    else if !turn.armed then .error .headTimeout
    else
      match turn.found with
      | none => .error (if turn.late then .headTimeout else .head)
      | some n =>
        let r := min (n + 1) (cap - buf.length)
        let chunk := stream.take r
        if chunk = [] then .error (if turn.late then .headTimeout else .head)
        else
          match endOfHead (buf ++ chunk) with
          | some i => .ok ⟨i + 4, buf ++ chunk, ⟨stream.drop r, turns⟩⟩
          | none => readHeadWhole cap (buf ++ chunk) (stream.drop r) turns

/-- **The window is enough**: whatever the reads bring and wherever they end. -/
theorem readHeadFullDeadline_eq_whole {cap : Nat} {buf stream : List UInt8} (turns : List Turn)
    (hnone : endOfHead buf = none) :
    readHeadFullDeadline cap buf stream turns = readHeadWhole cap buf stream turns := by
  induction turns generalizing buf stream with
  | nil => rfl
  | cons turn turns ih =>
    rw [readHeadFullDeadline, readHeadWhole]
    split
    · rfl
    split
    · rfl
    cases turn.found with
    | none => rfl
    | some n =>
      dsimp only
      split
      · rfl
      generalize min (n + 1) (cap - buf.length) = r
      have hwindow := @endOfHead_window buf (stream.take r) hnone
        (if 3 ≤ buf.length then buf.length - 3 else 0) (by split_ifs <;> omega)
      rw [endOfHead_scan, hwindow]
      cases hend : endOfHead ((buf ++ stream.take r).drop _) with
      | some idx => rfl
      | none =>
        rw [hend] at hwindow
        exact ih hwindow

/-- The bytes that decide: up to the end of the head, or as many as the buffer takes. -/
def deciding (cap : Nat) (stream : List UInt8) : Nat :=
  match endOfHead (stream.take cap) with
  | some i => i + 4
  | none => cap

theorem deciding_le {cap : Nat} (stream : List UInt8) : deciding cap stream ≤ cap := by
  unfold deciding
  cases hend : endOfHead (stream.take cap) with
  | none => exact le_refl cap
  | some i => exact (endOfHead_take.mp hend).2

/-- What the reads of some rounds can bring. -/
def bring (turns : List Turn) : Nat := (turns.map fun turn => turn.found.getD 0 + 1).sum

/-- How the loop ends on a stream. -/
def HeadOutcome (cap : Nat) (stream : List UInt8) (out : Except FetchError HeadRead) : Prop :=
  match endOfHead (stream.take cap) with
  | some i => ∃ read, out = .ok read ∧ read.headLen = i + 4 ∧ i + 4 ≤ read.buf.length ∧
      read.buf.length ≤ cap ∧ read.buf ++ read.rest.stream = stream
  | none => out = .error .headTooBig

/-- What was read has no empty line, so it decides only when it fills the buffer. -/
theorem undecided {cap : Nat} {buf stream : List UInt8} (hnone : endOfHead buf = none)
    (hle : deciding cap (buf ++ stream) ≤ buf.length) :
    endOfHead ((buf ++ stream).take cap) = none ∧ cap ≤ buf.length := by
  unfold deciding at hle
  cases hend : endOfHead ((buf ++ stream).take cap) with
  | none =>
    rw [hend] at hle
    exact ⟨rfl, hle⟩
  | some i =>
    rw [hend] at hle
    have hearly : endOfHead ((buf ++ stream).take buf.length) = some i :=
      endOfHead_take.mpr ⟨(endOfHead_take.mp hend).1, hle⟩
    rw [List.take_left' rfl, hnone] at hearly
    cases hearly

/-- The loop from `buf` on, when neither the time nor the stream ends before what decides. -/
theorem readHeadWhole_outcome {cap : Nat} {buf stream : List UInt8} {turns : List Turn}
    (hturns : ∀ turn ∈ turns, turn.armed = true ∧ turn.found ≠ none)
    (hnone : endOfHead buf = none) (hcap : buf.length ≤ cap)
    (hstream : deciding cap (buf ++ stream) ≤ (buf ++ stream).length)
    (hreads : deciding cap (buf ++ stream) ≤ buf.length + bring turns) :
    HeadOutcome cap (buf ++ stream) (readHeadWhole cap buf stream turns) := by
  induction turns generalizing buf stream with
  | nil =>
    obtain ⟨hnever, hfull⟩ := undecided hnone (by simpa [bring] using hreads)
    rw [HeadOutcome, hnever, readHeadWhole, if_pos hfull]
  | cons turn turns ih =>
    rw [readHeadWhole]
    by_cases hfull : cap ≤ buf.length
    · obtain ⟨hnever, -⟩ := undecided hnone ((deciding_le _).trans hfull)
      rw [if_pos hfull, HeadOutcome, hnever]
    obtain ⟨harmed, hfound⟩ := hturns turn List.mem_cons_self
    obtain ⟨n, hn⟩ := Option.ne_none_iff_exists'.mp hfound
    simp only [if_neg hfull, harmed, hn, Bool.not_true, Bool.false_eq_true, if_false]
    have hmore : stream ≠ [] := by
      rintro rfl
      exact hfull (@undecided cap buf [] hnone (by simpa using hstream)).2
    generalize hr : min (n + 1) (cap - buf.length) = r
    have hchunk : stream.take r ≠ [] := by
      rw [Ne, List.take_eq_nil_iff]
      rintro (hzero | hempty)
      · omega
      · exact hmore hempty
    rw [if_neg hchunk]
    have hall : buf ++ stream.take r ++ stream.drop r = buf ++ stream := by
      rw [List.append_assoc, List.take_append_drop]
    have hfits : (buf ++ stream.take r).length ≤ cap := by
      rw [List.length_append, List.length_take]
      omega
    cases hend : endOfHead (buf ++ stream.take r) with
    | some i =>
      have hlong := length_of_endOfHead hend
      have hhead : endOfHead ((buf ++ stream).take cap) = some i :=
        endOfHead_take.mpr ⟨hall ▸ endOfHead_append hend, hlong.trans hfits⟩
      rw [HeadOutcome, hhead]
      exact ⟨_, rfl, rfl, hlong, hfits, hall⟩
    | none =>
      rw [← hall] at hstream hreads ⊢
      refine ih (fun turn hmem => hturns turn (List.mem_cons_of_mem _ hmem)) hend hfits hstream ?_
      -- a short read is what the stream had left; else the read was as long as it could be
      have hle := @deciding_le cap (buf ++ stream.take r ++ stream.drop r)
      simp only [bring, List.map_cons, List.sum_cons, hn, Option.getD_some] at hreads ⊢
      simp only [List.length_append, List.length_take, List.length_drop] at hstream ⊢
      omega

theorem readHeadFullDeadline_outcome {cap : Nat} {stream : List UInt8} {turns : List Turn}
    (hturns : ∀ turn ∈ turns, turn.armed = true ∧ turn.found ≠ none)
    (hstream : deciding cap stream ≤ stream.length) (hreads : deciding cap stream ≤ bring turns) :
    HeadOutcome cap stream (readHeadFullDeadline cap [] stream turns) := by
  rw [readHeadFullDeadline_eq_whole turns rfl]
  simpa using @readHeadWhole_outcome cap [] stream turns hturns rfl (Nat.zero_le _)
    (by simpa using hstream) (by simpa using hreads)

/-- **The head of a stream**, for every way its bytes come in: it ends just past the first empty
line when that lies within the limit, and what was read beyond it is kept; the limit is reported
exactly when it fills before one. Neither the time nor the stream may end before what decides. -/
theorem readHeadFullDeadline_splits {cap : Nat} {stream : List UInt8} {turns : List Turn}
    (hturns : ∀ turn ∈ turns, turn.armed = true ∧ turn.found ≠ none)
    (hstream : deciding cap stream ≤ stream.length) (hreads : deciding cap stream ≤ bring turns) :
    (∀ i, endOfHead stream = some i → i + 4 ≤ cap →
      ∃ read, readHeadFullDeadline cap [] stream turns = .ok read ∧ read.headLen = i + 4 ∧
        i + 4 ≤ read.buf.length ∧ read.buf.length ≤ cap ∧
        read.buf ++ read.rest.stream = stream) ∧
    (readHeadFullDeadline cap [] stream turns = .error .headTooBig ↔
      ∀ i, endOfHead stream = some i → cap < i + 4) ∧
    readHeadFullDeadline cap [] stream turns = readHeadWhole cap [] stream turns := by
  have hout := readHeadFullDeadline_outcome hturns hstream hreads
  refine ⟨?_, ?_, readHeadFullDeadline_eq_whole turns rfl⟩
  · intro i hend hcap
    rwa [HeadOutcome, endOfHead_take.mpr ⟨hend, hcap⟩] at hout
  · cases hend : endOfHead (stream.take cap) with
    | none =>
      rw [HeadOutcome, hend] at hout
      refine iff_of_true hout fun i hi => ?_
      by_contra hcap
      rw [endOfHead_take.mpr ⟨hi, Nat.not_lt.mp hcap⟩] at hend
      cases hend
    | some i =>
      rw [HeadOutcome, hend] at hout
      obtain ⟨read, hread, -⟩ := hout
      obtain ⟨hi, hcap⟩ := endOfHead_take.mp hend
      rw [hread]
      exact iff_of_false (fun h => nomatch h) fun h => absurd (h i hi) (Nat.not_lt.mpr hcap)

/-- A head that comes in one byte at a time but for its end, which is cut inside the empty line and
brings a byte of the body along. -/
theorem readHeadFullDeadline_splits_bytes :
    ∃ read, readHeadFullDeadline 8 [] [65, 13, 10, 13, 10, 66, 67]
        [⟨true, some 0, false⟩, ⟨true, some 1, false⟩, ⟨true, some 2, false⟩] = .ok read ∧
      read.headLen = 5 := by
  obtain ⟨hfound, -, -⟩ := @readHeadFullDeadline_splits 8 [65, 13, 10, 13, 10, 66, 67]
    [⟨true, some 0, false⟩, ⟨true, some 1, false⟩, ⟨true, some 2, false⟩]
    (by decide) (by decide) (by decide)
  obtain ⟨read, hread, hlen, -⟩ := hfound 1 (by decide) (by decide)
  exact ⟨read, hread, hlen⟩

theorem wholeBody_ok {want : Nat} {got out : List UInt8} (h : wholeBody want got = .ok out) :
    out = got ∧ got.length = want := by
  unfold wholeBody at h
  split at h
  · cases h
  · rename_i hlen
    cases h
    exact ⟨rfl, not_not.mp hlen⟩

/-- **The buffer has what the stream had next.** -/
theorem readBody_ok {want : Nat} {got stream out : List UInt8} {turns : List Turn}
    (hok : readBody want got stream turns = .ok out) :
    out.length = want ∧ out <+: got ++ stream := by
  have hwhole : ∀ {got stream : List UInt8}, wholeBody want got = .ok out →
      out.length = want ∧ out <+: got ++ stream := by
    intro got stream h
    obtain ⟨rfl, hlen⟩ := wholeBody_ok h
    exact ⟨hlen, List.prefix_append _ _⟩
  induction turns generalizing got stream with
  | nil =>
    rw [readBody] at hok
    split at hok
    · exact hwhole hok
    · cases hok
  | cons turn turns ih =>
    rw [readBody] at hok
    split at hok
    · exact hwhole hok
    split at hok
    · cases hok
    cases hfound : turn.found with
    | none =>
      rw [hfound] at hok
      cases hok
    | some n =>
      rw [hfound] at hok
      dsimp only at hok
      split at hok
      · split at hok
        · cases hok
        · exact hwhole hok
      · have hrest := ih hok
        rwa [List.append_assoc, List.take_append_drop] at hrest

/-- The same, when the read of the head brought a part of it along, or more. -/
theorem readBody_behind {want : Nat} {behind stream out : List UInt8} {turns : List Turn}
    (hok : readBody want (behind.take want) stream turns = .ok out) :
    out.length = want ∧ out <+: behind ++ stream := by
  obtain ⟨hout, hnext⟩ := readBody_ok hok
  refine ⟨hout, ?_⟩
  by_cases hmore : behind.length ≤ want
  · rwa [List.take_of_length_le hmore] at hnext
  · -- the head's last read brought all of it
    have hall : out.length ≤ (behind.take want).length := by
      rw [hout, List.length_take]
      omega
    exact ((List.prefix_of_prefix_length_le hnext (List.prefix_append _ _) hall).trans
      (List.take_prefix _ _)).trans (List.prefix_append _ _)

/-! ## What was said -/

/-- The reply's head names the range. -/
theorem checkRangeReply_ok {head : List UInt8} {start stop : Nat}
    (hok : checkRangeReply head start stop = .ok ()) :
    (∃ line, (splitCrlf head).head? = some line ∧ httpStatusCode line = some 206) ∧
      ∃ value r, headerGet head (ascii "Content-Range") = some value ∧
        parseContentRange value = some r ∧ r.start = start ∧ start ≤ r.stop ∧ r.stop ≤ stop ∧
        parseU64Fast ((headerGet head (ascii "Content-Length")).getD (ascii "0")) =
          some (satAdd (r.stop - r.start) 1) := by
  unfold checkRangeReply at hok
  cases hlines : splitCrlf head with
  | nil =>
    rw [hlines] at hok
    cases hok
  | cons line lines =>
    cases lines with
    | nil =>
      rw [hlines] at hok
      cases hok
    | cons line' lines =>
      rw [hlines] at hok
      dsimp only at hok
      rw [headerGet2_eq (by decide)] at hok
      dsimp only at hok
      split at hok
      · cases hok
      · rename_i hstatus
        rw [Bool.not_eq_true, Bool.not_eq_false'] at hstatus
        refine ⟨⟨line, rfl, of_decide_eq_true hstatus⟩, ?_⟩
        split at hok
        · cases hok
        · rename_i value hvalue
          split at hok
          · cases hok
          · rename_i r hr
            split at hok
            · cases hok
            · rename_i hrange
              split at hok
              · cases hok
              · rename_i cl hcl
                split at hok
                · cases hok
                · rename_i hlen
                  rw [not_or, not_or, not_not, Nat.not_lt, Nat.not_lt] at hrange
                  obtain ⟨hstart, hle, hstop⟩ := hrange
                  exact ⟨value, r, hvalue, hr, hstart, hle, hstop, not_not.mp hlen ▸ hcl⟩

/-- A body for a buffer of `len` bytes is what follows the head, and as long as the reply says. -/
theorem finishBodyAlloc_ok {buf out : List UInt8} {headLen len : Nat} {sock : Socket}
    (hok : finishBodyAlloc buf headLen (.supplied len) sock = .ok out) :
    parseU64Fast ((headerGet (buf.take headLen) (ascii "Content-Length")).getD (ascii "0")) =
      some len ∧ out.length = len ∧ out <+: buf.drop headLen ++ sock.stream := by
  unfold finishBodyAlloc at hok
  dsimp only at hok
  cases hlines : splitCrlf (buf.take headLen) with
  | nil =>
    rw [hlines] at hok
    cases hok
  | cons line lines =>
    cases lines with
    | nil =>
      rw [hlines] at hok
      cases hok
    | cons line' lines =>
      rw [hlines] at hok
      dsimp only at hok
      split at hok
      · cases hok
      split at hok
      · cases hok
      split at hok
      · cases hok
      rename_i want hwant
      split at hok
      · cases hok
      rename_i hfits
      have hlen : len = want := by
        by_contra hne
        rw [if_pos hne] at hfits
        cases hfits
      subst hlen
      refine ⟨hwant, ?_⟩
      split at hok
      · rename_i hzero
        cases hok
        exact ⟨hzero.symm, List.nil_prefix⟩
      · have hroom : Room.supplied len ≠ .alloc false := by simp
        rw [if_neg hroom] at hok
        exact readBody_behind hok

/-! ## Fetches -/

/-- What a peer has sent answers a request for `range`: the first bytes, up to the first empty line,
are a head that fits, of a 206 whose `Content-Range` names exactly that range. `body` follows. -/
structure Answers (stream : List UInt8) (range : Proto.Range) (head body rest : List UInt8) :
    Prop where
  parts : stream = head ++ body ++ rest
  ends : ∃ i, endOfHead stream = some i ∧ head.length = i + 4
  fits : head.length ≤ headBufLen
  status : ∃ line, (splitCrlf head).head? = some line ∧ httpStatusCode line = some 206
  range : ∃ value complete, headerGet head (ascii "Content-Range") = some value ∧
    parseContentRange value = some ⟨range.start, range.stop, complete⟩

/-- What a fetch that succeeds has was sent as an answer. -/
theorem answers_of_fetch {psk ip : List UInt8} {port : Nat} {rel : List UInt8} {range : Proto.Range}
    {outLen : Nat} (hlen : outLen + range.start = range.stop + 1) {sock : Socket}
    {out : List UInt8}
    (hfetch : fetchRangeInto psk ip port rel range outLen (.ok sock) = .ok out) :
    out.length = outLen ∧ ∃ head rest, Answers sock.stream range head out rest := by
  unfold fetchRangeInto at hfetch
  split at hfetch
  · cases hfetch
  change readRangeBodyAllocDeadline sock range.start range.stop (.supplied outLen) = .ok out
    at hfetch
  unfold readRangeBodyAllocDeadline at hfetch
  cases hread : readHeadFullDeadline headBufLen [] sock.stream sock.turns with
  | error err =>
    rw [hread] at hfetch
    cases hfetch
  | ok read =>
    rw [hread] at hfetch
    change (checkRangeReply (read.buf.take read.headLen) range.start range.stop).bind _ = _
      at hfetch
    cases hcheck : checkRangeReply (read.buf.take read.headLen) range.start range.stop with
    | error err =>
      rw [hcheck] at hfetch
      cases hfetch
    | ok _ =>
      rw [hcheck] at hfetch
      change finishBodyAlloc read.buf read.headLen (.supplied outLen) read.rest = .ok out at hfetch
      obtain ⟨hstream, hfits, i, hend, hhead⟩ := readHeadFullDeadline_ok rfl (Nat.zero_le _) hread
      obtain ⟨hstatus, value, r, hvalue, hr, hstart, hle, hstop, hdeclared⟩ :=
        checkRangeReply_ok hcheck
      obtain ⟨hwant, hout, rest, hrest⟩ := finishBodyAlloc_ok hfetch
      rw [List.nil_append] at hstream
      have hwithin := length_of_endOfHead hend
      have hheadLen : (read.buf.take read.headLen).length = i + 4 := by
        rw [List.length_take]
        omega
      -- the buffer is as long as the range of the reply, so that one is the range asked for
      have hsame : r.stop = range.stop := by
        have hsat : satAdd (r.stop - r.start) 1 ≤ r.stop - r.start + 1 := min_le_left ..
        have hwhole : satAdd (r.stop - r.start) 1 = outLen :=
          Option.some.inj (hdeclared.symm.trans hwant)
        omega
      refine ⟨hout, read.buf.take read.headLen, rest, ?_, ⟨i, ?_, hheadLen⟩, ?_, hstatus, value,
        r.complete, hvalue, ?_⟩
      · rw [← hstream, List.append_assoc, hrest, ← List.append_assoc, List.take_append_drop]
      · rw [← hstream]
        exact endOfHead_append hend
      · rw [hheadLen]
        omega
      · rw [hr, ← hstart, ← hsame]

/-- **A fetch has the bytes it asked for, or fails.** -/
theorem fetch_answers (psk ip : List UInt8) (port : Nat) (rel : List UInt8) (range : Proto.Range)
    {outLen : Nat} (hlen : outLen + range.start = range.stop + 1) (sock : Socket) :
    (∃ err, fetchRangeInto psk ip port rel range outLen (.ok sock) = .error err) ∨
      ∃ out, fetchRangeInto psk ip port rel range outLen (.ok sock) = .ok out ∧
        out.length = outLen ∧ ∃ head rest, Answers sock.stream range head out rest := by
  cases hfetch : fetchRangeInto psk ip port rel range outLen (.ok sock) with
  | error err => exact Or.inl ⟨err, rfl⟩
  | ok out =>
    exact Or.inr ⟨out, rfl, answers_of_fetch hlen hfetch⟩

/-- Four bytes of eight, in two reads: the first ends within the body, the second is cut short by
the buffer. -/
def replyA : Socket where
  stream := ascii "HTTP/1.1 206 Partial Content\r\nContent-Range: bytes 4-7/8\r\n" ++
    ascii "Content-Length: 4\r\n\r\nefghijkl"
  turns := [{ found := some 81 }, { found := some 8191 }]

theorem fetch_answers_a : ∃ out,
    fetchRangeInto [107] (ascii "10.0.0.1") 9000 (ascii "a") ⟨4, 7⟩ 4 (.ok replyA) = .ok out ∧
      out.length = 4 ∧ ∃ head rest, Answers replyA.stream ⟨4, 7⟩ head out rest := by
  have hfetched : (fetchRangeInto [107] (ascii "10.0.0.1") 9000 (ascii "a") ⟨4, 7⟩ 4
      (.ok replyA)).toOption = some (ascii "efgh") := by decide +kernel
  rcases @fetch_answers [107] (ascii "10.0.0.1") 9000 (ascii "a") ⟨4, 7⟩ 4 (by decide) replyA with
    ⟨err, herr⟩ | hok
  · rw [herr] at hfetched
    cases hfetched
  · exact hok

end PeerReply

end ModelFs
