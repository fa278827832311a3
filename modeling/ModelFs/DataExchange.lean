import ModelFs.HaveExchange
import ModelFs.Lib.Transfer
import ModelFs.Numbers
import ModelFs.Piece

/-!
# The exchange of file bytes

`serveData` answers a range request out of the cache file: it fills what is missing of the range,
hashes every piece it has a trusted digest of, and sends the range behind the head of a 206. It
sends with `sendfile`, piece by piece, and by way of a buffer where the first `sendfile` moves
nothing. Each call moves as much as it likes or fails; between two of them the files may change.
`fetchRangeInto` takes the reply off a socket that may end anywhere.

* `serveData_cases` — **what is on the wire**: of a refusal, or of the head and, behind all of it,
  bytes of the range in their order, each as a file had it in one of the calls.
* `data_exchange` — **a fetch has the whole range, as it was sent**, or fails; and while the files
  hold still, it has what is in them, every piece with the digest the server trusts.
* `data_arrives` — **where nothing fails it has the range.**
-/

namespace ModelFs

open Proto PeerReply HaveExchange

namespace DataExchange

/-! ## Calls -/

/-- A call that reads a file: what it comes to, and what is in the file then. -/
structure Call where
  result : CallResult
  file : List UInt8

def eio : Nat := 5

def efbig : Nat := 27

/-- `offT`: offsets are signed. -/
def offT (pos : Nat) : Option Nat := if 2 ^ 63 ≤ pos then some efbig else none

/-- `none` while it reads. -/
def preadAll (off len : Nat) (calls : List Call) : Option (Except Nat (List UInt8)) :=
  match moveAll Call.file Call.result offT off len [] calls with
  | (.failed errno, _) => some (.error errno)
  | (.waiting, _) => none
  | (_, got) => some (.ok got)

/-- What it comes to, and what it has put into the descriptor by then. -/
def writeAll (buf : List UInt8) (calls : List CallResult) :
    Option (Except Nat Unit) × List UInt8 :=
  match moveAll (fun _ => buf) id (fun _ => none) 0 buf.length [] calls with
  | (.whole, put) => (some (.ok ()), put)
  | (.dry, put) => (some (.error eio), put)
  | (.failed errno, put) => (some (.error errno), put)
  | (.waiting, put) => (none, put)

/-- The offset is the kernel's after the first call. -/
def sendfileAll (off count : Nat) (calls : List Call) : Option (Except Nat Nat) × List UInt8 :=
  match offT off with
  | some errno => (some (.error errno), [])
  | none =>
    match moveAll Call.file Call.result (fun _ => none) off count [] calls with
    | (.failed errno, sent) =>
      (if sent ≠ [] then some (.ok sent.length) else some (.error errno), sent)
    | (.waiting, sent) => (none, sent)
    | (_, sent) => (some (.ok sent.length), sent)

/-! ## The body -/

/-- A round of the loop around `sendfileAll`. -/
structure SendTurn where
  /-- `armChunkTimeout` finds some time left. -/
  armed : Bool
  calls : List Call

/-- A round of the loop around `readServed`: the entry under its lock, an open of either file with
the reads from it, and the writes. -/
structure ReadTurn where
  armed : Bool
  dead : Bool
  size : Nat
  cache : Except Nat (List Call)
  origin : Except Nat (List Call)
  writes : List CallResult

inductive Sent where
  | complete
  | dropped
  /-- Nothing was sent, and the buffer is tried. -/
  | fallback
  deriving DecidableEq

def sendChunks (start want pieceSize done : Nat) : List SendTurn → Sent × List UInt8
  | [] => (if want ≤ done then .complete else .dropped, [])
  | turn :: turns =>
    if want ≤ done then (.complete, [])
    else if !turn.armed then (.dropped, [])
    else
      let take := min (want - done) pieceSize
      match sendfileAll (start + done) take turn.calls with
      | (some (.ok sent), out) =>
        if sent ≠ take then (if 0 < sent ∨ 0 < done then .dropped else .fallback, out)
        else
          let rest := sendChunks start want pieceSize (done + take) turns
          (rest.1, out ++ rest.2)
      | (some (.error _), out) => (if 0 < done then .dropped else .fallback, out)
      | (none, out) => (.dropped, out)

def preadOf (off len : Nat) : Except Nat (List Call) → Option (Except Nat (List UInt8))
  | .error errno => some (.error errno)
  | .ok calls => preadAll off len calls

def readServed (pieceSize off len : Nat) (turn : ReadTurn) : Option (Except Nat (List UInt8)) :=
  if turn.dead then preadOf off len turn.origin
  else if !Piece.rangeTracked ⟨off, len⟩ turn.size pieceSize then preadOf off len turn.origin
  else
    match preadOf off len turn.cache with
    | some (.error _) => preadOf off len turn.origin
    | got => got

def sendChunkBytes : Nat := 4 * 1024 * 1024

/-- The loop by way of a buffer of `room` bytes; true when all was sent. -/
def copyChunks (pieceSize room off remaining : Nat) : List ReadTurn → Bool × List UInt8
  | [] => (decide (remaining = 0), [])
  | turn :: turns =>
    if remaining = 0 then (true, [])
    else if !turn.armed then (false, [])
    else
      let take := min remaining room
      match readServed pieceSize off take turn with
      | some (.ok bytes) =>
        if bytes.length ≠ take then (false, [])
        else
          match writeAll bytes turn.writes with
          | (some (.ok ()), out) =>
            let rest := copyChunks pieceSize room (off + take) (remaining - take) turns
            (rest.1, out ++ rest.2)
          | (_, out) => (false, out)
      | _ => (false, [])

/-- How a body is sent. -/
structure Body where
  /-- `openCache` has a descriptor. -/
  opens : Bool
  sends : List SendTurn
  /-- There is memory for the buffer. -/
  mem : Bool
  reads : List ReadTurn

def streamRange (body : Body) (start want size pieceSize : Nat) : Bool × List UInt8 :=
  let first :=
    if Piece.rangeTracked ⟨start, want⟩ size pieceSize && body.opens then
      sendChunks start want pieceSize 0 body.sends
    else (.fallback, [])
  match first with
  | (.complete, out) => (true, out)
  | (.dropped, out) => (false, out)
  | (.fallback, out) =>
    if !body.mem then (false, out)
    else
      let rest := copyChunks pieceSize (min want sendChunkBytes) start want body.reads
      (rest.1, out ++ rest.2)

/-! ## The reply -/

section Serve

variable {δ : Type} [DecidableEq δ] (digest : List UInt8 → δ)

/-- What `verifyRange` finds of a piece. -/
structure Check (δ : Type) where
  /-- `expectedHash`. -/
  expect : Option δ
  mem : Bool
  cache : Except Nat (List Call)

inductive Verified where
  | passed
  | refused
  /-- A digest did not match; the mark of the piece is dropped. -/
  | healed (idx : Nat)
  | waiting
  deriving DecidableEq

def verifyRange (checks : Nat → Check δ) (size pieceSize : Nat) : List Nat → Verified
  | [] => .passed
  | pi :: rest =>
    match (checks pi).expect with
    | none => verifyRange checks size pieceSize rest
    | some expect =>
      let ln := Piece.len size pi pieceSize
      if ln = 0 then verifyRange checks size pieceSize rest
      else if !(checks pi).mem then .refused
      else
        match preadOf (Piece.offset pi pieceSize) ln (checks pi).cache with
        | none => .waiting
        | some (.error _) => .refused
        | some (.ok bytes) =>
          if bytes.length ≠ ln then .refused
          else if digest bytes ≠ expect then .healed pi
          else verifyRange checks size pieceSize rest

/-- What `hydrateRange` comes to. -/
inductive Hydrated where
  | done
  /-- A 500 was sent. -/
  | failed
  /-- A 502 was sent. -/
  | originFailed

/-- What the server finds on its way through a request. -/
structure Server (δ : Type) where
  stat : OriginStat
  pieceSize : UInt32
  /-- A size is an `off_t`. -/
  fits : ∀ size, originRegular stat = .ok size → size < 2 ^ 63
  /-- `cacheEntry` has one. -/
  entry : Bool
  hydrated : Hydrated
  checks : Nat → Check δ
  /-- The writes of the head, or of a refusal. -/
  writes : List CallResult
  body : Body

def dataHeader (start stop size want : Nat) : List UInt8 :=
  ascii "HTTP/1.1 206 Partial Content\r\nContent-Range: bytes " ++ decimal start ++ 45 ::
    (decimal stop ++ 47 :: (decimal size ++
      (ascii "\r\nContent-Type: application/octet-stream\r\nContent-Length: " ++ decimal want ++
        ascii "\r\nConnection: close\r\n\r\n")))

def unsatisfiable (size : Nat) : List UInt8 :=
  ascii "HTTP/1.1 416 Range Not Satisfiable\r\nContent-Range: bytes */" ++ decimal size ++
    ascii "\r\nContent-Length: 0\r\nConnection: close\r\n\r\n"

/-- The pieces of the range. -/
def covered (start want size pieceSize : Nat) : List Nat :=
  let cov := Piece.cover ⟨start, want⟩ size pieceSize
  List.range' cov.start (cov.stop - cov.start)

/-- All that is put into the socket. -/
def serveData (srv : Server δ) (rg : Proto.Range) : List UInt8 :=
  let reply := fun text => (writeAll text srv.writes).2
  let failed := reply (replyStatus (ascii "500 Internal Server Error"))
  match originRegular srv.stat with
  | .error status => reply (replyStatus status)
  | .ok size =>
    if size ≤ rg.start ∨ rg.stop < rg.start then
      reply (if 128 < (unsatisfiable size).length then
        replyStatus (ascii "416 Range Not Satisfiable") else unsatisfiable size)
    else
      let stop := min rg.stop (size - 1)
      if !srv.entry then failed
      else
        let want := satAdd (stop - rg.start) 1
        match srv.hydrated with
        | .failed => failed
        | .originFailed => reply (replyStatus (ascii "502 Bad Gateway"))
        | .done =>
          match verifyRange digest srv.checks size srv.pieceSize.toNat
              (covered rg.start want size srv.pieceSize.toNat) with
          | .refused => failed
          | .healed _ => failed
          | .waiting => []
          | .passed =>
            let h := dataHeader rg.start stop size want
            if 220 < h.length then failed
            else
              match writeAll h srv.writes with
              | (some (.ok ()), out) =>
                out ++ (streamRange srv.body rg.start want size srv.pieceSize.toNat).2
              | (_, out) => out

end Serve

/-! ## What the calls move -/

/-- The calls behind an open. -/
def callsOf : Except Nat (List Call) → List Call
  | .error _ => []
  | .ok calls => calls

def ReadTurn.calls (turn : ReadTurn) : List Call := callsOf turn.cache ++ callsOf turn.origin

/-- All calls that read what is sent. -/
def Body.calls (body : Body) : List Call :=
  body.sends.flatMap SendTurn.calls ++ body.reads.flatMap ReadTurn.calls

theorem writeAll_spec (buf : List UInt8) (calls : List CallResult) :
    (writeAll buf calls).2 <+: buf ∧
      ((writeAll buf calls).1 = some (.ok ()) → (writeAll buf calls).2 = buf) := by
  obtain ⟨put, hput, hdrawn, hle, hwhole⟩ := @moveAll_spec _ _ (fun _ : CallResult => buf) id 0
    (fun _ => none) buf.length [] calls (Nat.zero_le _)
  have hpart : put <+: buf := by
    have heq : put = (buf.drop 0).take put.length := hdrawn.eq_of_same fun _ _ _ _ => rfl
    rw [heq]
    exact List.take_prefix _ _
  rw [List.nil_append] at hput hle hwhole
  unfold writeAll
  generalize moveAll (fun _ : CallResult => buf) id (fun _ => none) 0 buf.length [] calls = r at *
  obtain ⟨stop, out⟩ := r
  dsimp only at hput hwhole
  subst hput
  cases stop with
  | whole => exact ⟨hpart, fun _ => hpart.eq_of_length (hwhole rfl)⟩
  | dry => exact ⟨hpart, nofun⟩
  | failed errno => exact ⟨hpart, nofun⟩
  | waiting => exact ⟨hpart, nofun⟩

theorem preadAll_spec {off len : Nat} {calls : List Call} {bytes : List UInt8}
    (h : preadAll off len calls = some (.ok bytes)) : Drawn Call.file calls off bytes := by
  obtain ⟨got, hgot, hdrawn, -, -⟩ := @moveAll_spec _ _ Call.file Call.result off offT len [] calls
    (Nat.zero_le _)
  rw [List.nil_append] at hgot
  unfold preadAll at h
  generalize moveAll Call.file Call.result offT off len [] calls = r at *
  obtain ⟨stop, out⟩ := r
  dsimp only at hgot
  subst hgot
  cases stop with
  | failed errno => cases h
  | waiting => cases h
  | whole =>
    cases h
    exact hdrawn
  | dry =>
    cases h
    exact hdrawn

theorem preadOf_spec {off len : Nat} {opened : Except Nat (List Call)} {bytes : List UInt8}
    (h : preadOf off len opened = some (.ok bytes)) :
    Drawn Call.file (callsOf opened) off bytes := by
  cases opened with
  | error errno => cases h
  | ok calls => exact preadAll_spec h

/-- What is in the socket when `sendfileAll` is back: as much as it says, or nothing. -/
theorem sendfileAll_spec (off count : Nat) (calls : List Call) :
    Drawn Call.file calls off (sendfileAll off count calls).2 ∧
      (sendfileAll off count calls).2.length ≤ count ∧
      (∀ n, (sendfileAll off count calls).1 = some (.ok n) →
        n = (sendfileAll off count calls).2.length) ∧
      ∀ errno, (sendfileAll off count calls).1 = some (.error errno) →
        (sendfileAll off count calls).2 = [] := by
  unfold sendfileAll
  split
  · exact ⟨drawn_nil, Nat.zero_le _, nofun, fun _ _ => rfl⟩
  · obtain ⟨sent, hsent, hdrawn, hle, -⟩ := @moveAll_spec _ _ Call.file Call.result off
      (fun _ => none) count [] calls (Nat.zero_le _)
    rw [List.nil_append] at hsent hle
    generalize moveAll Call.file Call.result (fun _ => none) off count [] calls = r at *
    obtain ⟨stop, out⟩ := r
    dsimp only at hsent
    subst hsent
    cases stop with
    | failed errno =>
      refine ⟨hdrawn, hle, fun n hn => ?_, fun e he => ?_⟩
      · dsimp only at hn
        split at hn
        · cases hn
          rfl
        · cases hn
      · dsimp only at he
        split at he
        · cases he
        · next hnil => exact not_not.mp hnil
    | waiting => exact ⟨hdrawn, hle, nofun, nofun⟩
    | whole =>
      refine ⟨hdrawn, hle, fun n hn => ?_, nofun⟩
      cases hn
      rfl
    | dry =>
      refine ⟨hdrawn, hle, fun n hn => ?_, nofun⟩
      cases hn
      rfl

/-- **The loop around `sendfileAll`** puts the range into the socket from `done` on. It falls back
only when it has put nothing there. -/
theorem sendChunks_spec {start want pieceSize done : Nat} (turns : List SendTurn)
    (hdone : done ≤ want) :
    Drawn Call.file (turns.flatMap SendTurn.calls) (start + done)
        (sendChunks start want pieceSize done turns).2 ∧
      done + (sendChunks start want pieceSize done turns).2.length ≤ want ∧
      ((sendChunks start want pieceSize done turns).1 = .complete →
        done + (sendChunks start want pieceSize done turns).2.length = want) ∧
      ((sendChunks start want pieceSize done turns).1 = .fallback →
        done = 0 ∧ (sendChunks start want pieceSize done turns).2 = []) := by
  induction turns generalizing done with
  | nil =>
    refine ⟨drawn_nil, hdone, fun hend => ?_, fun hend => ?_⟩
    · rw [sendChunks] at hend
      dsimp only at hend
      split at hend
      · exact le_antisymm hdone ‹_›
      · cases hend
    · rw [sendChunks] at hend
      dsimp only at hend
      split at hend <;> cases hend
  | cons turn turns ih =>
    have hmore : turns.flatMap SendTurn.calls ⊆ (turn :: turns).flatMap SendTurn.calls := by
      rw [List.flatMap_cons]
      exact List.subset_append_right _ _
    rw [sendChunks]
    split
    · exact ⟨drawn_nil, hdone, fun _ => le_antisymm hdone ‹_›, nofun⟩
    split
    · exact ⟨drawn_nil, hdone, nofun, nofun⟩
    obtain ⟨hdrawn, hle, hcount, hnone⟩ :=
      sendfileAll_spec (start + done) (min (want - done) pieceSize) turn.calls
    have hhere : Drawn Call.file ((turn :: turns).flatMap SendTurn.calls) (start + done)
        (sendfileAll (start + done) (min (want - done) pieceSize) turn.calls).2 := by
      rw [List.flatMap_cons]
      exact hdrawn.mono (List.subset_append_left _ _)
    dsimp only
    generalize sendfileAll (start + done) (min (want - done) pieceSize) turn.calls = r at *
    obtain ⟨result, out⟩ := r
    dsimp only at hle hcount hnone hhere
    have hshort : done + out.length ≤ want := by omega
    match result with
    | none => exact ⟨hhere, hshort, nofun, nofun⟩
    | some (.error errno) =>
      refine ⟨hhere, hshort, fun hend => ?_, fun hend => ?_⟩
      · dsimp only at hend
        split at hend <;> cases hend
      · dsimp only at hend
        split at hend
        · cases hend
        · exact ⟨by omega, hnone errno rfl⟩
    | some (.ok sent) =>
      have hsent := hcount sent rfl
      dsimp only
      split
      · refine ⟨hhere, hshort, fun hend => ?_, fun hend => ?_⟩
        · dsimp only at hend
          split at hend <;> cases hend
        · dsimp only at hend
          split at hend
          · cases hend
          · exact ⟨by omega, List.eq_nil_of_length_eq_zero (by dsimp only; omega)⟩
      · next hall =>
        obtain ⟨hrest, hlen, hwhole, hback⟩ :=
          @ih (done + min (want - done) pieceSize) (by omega)
        have hout : out.length = min (want - done) pieceSize := by omega
        refine ⟨?_, ?_, fun hend => ?_, fun hend => ?_⟩
        · apply hhere.append
          rw [Nat.add_assoc, hout]
          exact hrest.mono hmore
        · rw [List.length_append]
          omega
        · have := hwhole hend
          rw [List.length_append]
          omega
        · obtain ⟨hzero, hnil⟩ := hback hend
          refine ⟨by omega, ?_⟩
          dsimp only
          rw [hnil, List.append_nil]
          exact List.eq_nil_of_length_eq_zero (by omega)

theorem readServed_spec {pieceSize off len : Nat} {turn : ReadTurn} {bytes : List UInt8}
    (h : readServed pieceSize off len turn = some (.ok bytes)) :
    Drawn Call.file turn.calls off bytes := by
  have horigin : preadOf off len turn.origin = some (.ok bytes) →
      Drawn Call.file turn.calls off bytes := fun horigin =>
    (preadOf_spec horigin).mono (List.subset_append_right _ _)
  unfold readServed at h
  split at h
  · exact horigin h
  split at h
  · exact horigin h
  split at h
  · exact horigin h
  · exact (preadOf_spec h).mono (List.subset_append_left _ _)

/-- **The loop by way of the buffer** does the same, from its place on. -/
theorem copyChunks_spec {pieceSize room off remaining : Nat} (turns : List ReadTurn) :
    Drawn Call.file (turns.flatMap ReadTurn.calls) off
        (copyChunks pieceSize room off remaining turns).2 ∧
      (copyChunks pieceSize room off remaining turns).2.length ≤ remaining ∧
      ((copyChunks pieceSize room off remaining turns).1 = true →
        (copyChunks pieceSize room off remaining turns).2.length = remaining) := by
  induction turns generalizing off remaining with
  | nil =>
    refine ⟨drawn_nil, Nat.zero_le _, fun hend => ?_⟩
    rw [copyChunks] at hend
    exact (of_decide_eq_true hend).symm
  | cons turn turns ih =>
    have hmore : turns.flatMap ReadTurn.calls ⊆ (turn :: turns).flatMap ReadTurn.calls := by
      rw [List.flatMap_cons]
      exact List.subset_append_right _ _
    rw [copyChunks]
    split
    · next hzero => exact ⟨drawn_nil, Nat.zero_le _, fun _ => hzero.symm⟩
    split
    · exact ⟨drawn_nil, Nat.zero_le _, nofun⟩
    dsimp only
    split
    · next bytes hserved =>
      have hbytes : Drawn Call.file ((turn :: turns).flatMap ReadTurn.calls) off bytes := by
        rw [List.flatMap_cons]
        exact (readServed_spec hserved).mono (List.subset_append_left _ _)
      split
      · exact ⟨drawn_nil, Nat.zero_le _, nofun⟩
      · next hall =>
        obtain ⟨hput, hwritten⟩ := writeAll_spec bytes turn.writes
        generalize writeAll bytes turn.writes = r at *
        obtain ⟨result, out⟩ := r
        dsimp only at hput hwritten
        have hlen : out.length ≤ bytes.length := hput.length_le
        match result with
        | none => exact ⟨hbytes.of_prefix hput, by dsimp only; omega, nofun⟩
        | some (.error errno) => exact ⟨hbytes.of_prefix hput, by dsimp only; omega, nofun⟩
        | some (.ok ()) =>
          obtain rfl := hwritten rfl
          obtain ⟨hrest, hshort, hwhole⟩ :=
            @ih (off + min remaining room) (remaining - min remaining room)
          rw [not_not] at hall
          dsimp only
          refine ⟨?_, ?_, fun hend => ?_⟩
          · apply hbytes.append
            rw [hall]
            exact hrest.mono hmore
          · rw [List.length_append]
            omega
          · have := hwhole hend
            rw [List.length_append]
            omega
    · exact ⟨drawn_nil, Nat.zero_le _, nofun⟩

/-- **The body**: bytes of the range, from its first on. -/
theorem streamRange_spec (body : Body) (start want size pieceSize : Nat) :
    Drawn Call.file body.calls start (streamRange body start want size pieceSize).2 ∧
      (streamRange body start want size pieceSize).2.length ≤ want := by
  have hsends : body.sends.flatMap SendTurn.calls ⊆ body.calls := List.subset_append_left _ _
  have hreads : body.reads.flatMap ReadTurn.calls ⊆ body.calls := List.subset_append_right _ _
  obtain ⟨hsend, hsendLe, -, hback⟩ := @sendChunks_spec start want pieceSize 0 body.sends
    (Nat.zero_le _)
  obtain ⟨hcopy, hcopyLe, -⟩ := @copyChunks_spec pieceSize (min want sendChunkBytes) start want
    body.reads
  rw [Nat.add_zero] at hsend
  rw [Nat.zero_add] at hsendLe
  have hfirst : ∀ first : Sent × List UInt8,
      first = (if Piece.rangeTracked ⟨start, want⟩ size pieceSize && body.opens then
        sendChunks start want pieceSize 0 body.sends else (.fallback, [])) →
      Drawn Call.file body.calls start first.2 ∧ first.2.length ≤ want ∧
        (first.1 = .fallback → first.2 = []) := by
    intro first hfirst
    split at hfirst
    · subst hfirst
      exact ⟨hsend.mono hsends, hsendLe, fun hend => (hback hend).2⟩
    · subst hfirst
      exact ⟨drawn_nil, Nat.zero_le _, fun _ => rfl⟩
  unfold streamRange
  dsimp only
  split
  · next out hout =>
    obtain ⟨hdrawn, hle, -⟩ := hfirst _ hout.symm
    exact ⟨hdrawn, hle⟩
  · next out hout =>
    obtain ⟨hdrawn, hle, -⟩ := hfirst _ hout.symm
    exact ⟨hdrawn, hle⟩
  · next out hout =>
    obtain ⟨-, -, hnil⟩ := hfirst _ hout.symm
    rw [show out = [] from hnil rfl]
    split
    · exact ⟨drawn_nil, Nat.zero_le _⟩
    · exact ⟨hcopy.mono hreads, hcopyLe⟩

/-! ## Heads -/

/-- A reply that is all head, of another status than 206. -/
def IsRefusal (text : List UInt8) : Prop :=
  ∃ line lines, text = joinLines (line :: lines) ∧ 13 ∉ line ∧ (∀ l ∈ lines, l ≠ [] ∧ 13 ∉ l) ∧
    httpStatusCode line ≠ some 206

/-- The statuses that are sent. -/
def refusals : List (List UInt8) := ascii "416 Range Not Satisfiable" :: statuses

theorem isRefusal_status {status : List UInt8} (h : status ∈ refusals) :
    IsRefusal (replyStatus status) := by
  have hall : ∀ status ∈ refusals, replyStatus status = joinLines [ascii "HTTP/1.1 " ++ status,
      ascii "Content-Length: 0", ascii "Connection: close"] ∧ 13 ∉ ascii "HTTP/1.1 " ++ status ∧
      httpStatusCode (ascii "HTTP/1.1 " ++ status) ≠ some 206 := by
    decide +kernel
  obtain ⟨htext, hplain, hcode⟩ := hall status h
  exact ⟨_, _, htext, hplain, by decide, hcode⟩

theorem isRefusal_unsatisfiable (size : Nat) : IsRefusal (unsatisfiable size) := by
  refine ⟨ascii "HTTP/1.1 416 Range Not Satisfiable", [fieldLine (ascii "Content-Range")
    (ascii "bytes */" ++ decimal size), fieldLine (ascii "Content-Length") (ascii "0"),
    fieldLine (ascii "Connection") (ascii "close")], ?_, by decide, ?_, by decide⟩
  · have h₁ : ascii "HTTP/1.1 416 Range Not Satisfiable\r\nContent-Range: bytes */" =
        ascii "HTTP/1.1 416 Range Not Satisfiable" ++ 13 :: 10 :: (ascii "Content-Range" ++
          58 :: 32 :: ascii "bytes */") := by
      decide +kernel
    have h₂ : ascii "\r\nContent-Length: 0\r\nConnection: close\r\n\r\n" =
        13 :: 10 :: (ascii "Content-Length" ++ 58 :: 32 :: (ascii "0" ++ 13 :: 10 ::
          (ascii "Connection" ++ 58 :: 32 :: (ascii "close" ++ [13, 10, 13, 10])))) := by
      decide +kernel
    rw [unsatisfiable, h₁, h₂]
    simp only [fieldLine, joinLines, List.flatMap_cons, List.flatMap_nil, List.append_assoc,
      List.cons_append, List.nil_append]
  · have hvalue : 13 ∉ ascii "bytes */" ++ decimal size := by
      rw [List.mem_append, not_or]
      exact ⟨by decide, (decimal_written size).2⟩
    intro l hl
    simp only [List.mem_cons, List.not_mem_nil, or_false] at hl
    rcases hl with rfl | rfl | rfl
    · exact fieldLine_plain (by decide) hvalue
    · exact ⟨by decide, by decide⟩
    · exact ⟨by decide, by decide⟩

def rangeText (start stop size : Nat) : List UInt8 :=
  ascii "bytes " ++ (decimal start ++ 45 :: (decimal stop ++ 47 :: decimal size))

theorem parseContentRange_rangeText {start stop size : Nat} (hle : start ≤ stop)
    (hlt : stop < size) (hsize : size ≤ maxU64) :
    parseContentRange (rangeText start stop size) = some ⟨start, stop, size⟩ := by
  refine parseContentRange_iff.mpr ⟨decimal start, decimal stop, decimal size,
    ⟨[], ascii "bytes ", [], ?_, by simp, by simp, rfl⟩, isNumber_decimal (by omega),
    isNumber_decimal (by omega), hle, Or.inl ⟨isNumber_decimal hsize, hlt⟩⟩
  exact (List.append_nil _).symm

/-- There are no blanks around it, and no byte of a line's end in it. -/
theorem rangeText_written (start stop size : Nat) :
    trim blanks (32 :: rangeText start stop size) = rangeText start stop size ∧
      13 ∉ rangeText start stop size := by
  have hsplit : rangeText start stop size =
      (ascii "bytes " ++ (decimal start ++ 45 :: (decimal stop ++ [47]))) ++ decimal size := by
    simp [rangeText]
  constructor
  · apply trim_written
    · intro b hb
      have hhead : (rangeText start stop size).head? = some 98 := rfl
      rw [hhead] at hb
      cases hb
      decide
    · intro b hb hblank
      rw [hsplit] at hb
      have hdigit := getLast_append_decimal hb
      have hblanks : b = 32 ∨ b = 9 := by simpa [blanks] using hblank
      rcases hblanks with rfl | rfl
      · exact absurd hdigit (by decide)
      · exact absurd hdigit (by decide)
  · simp only [rangeText, List.mem_append, List.mem_cons, not_or]
    exact ⟨by decide, (decimal_written start).2, by decide, (decimal_written stop).2, by decide,
      (decimal_written size).2⟩

/-- The lines of the head of a 206. -/
def dataLines (start stop size want : Nat) : List (List UInt8) :=
  [ascii "HTTP/1.1 206 Partial Content",
    fieldLine (ascii "Content-Range") (rangeText start stop size),
    fieldLine (ascii "Content-Type") (ascii "application/octet-stream"),
    fieldLine (ascii "Content-Length") (decimal want),
    fieldLine (ascii "Connection") (ascii "close")]

section Head

variable (start stop size want : Nat)

theorem dataHeader_eq :
    dataHeader start stop size want = joinLines (dataLines start stop size want) := by
  have h₁ : ascii "HTTP/1.1 206 Partial Content\r\nContent-Range: bytes " =
      ascii "HTTP/1.1 206 Partial Content" ++ 13 :: 10 :: (ascii "Content-Range" ++
        58 :: 32 :: ascii "bytes ") := by
    decide +kernel
  have h₂ : ascii "\r\nContent-Type: application/octet-stream\r\nContent-Length: " =
      13 :: 10 :: (ascii "Content-Type" ++ 58 :: 32 :: (ascii "application/octet-stream" ++
        13 :: 10 :: (ascii "Content-Length" ++ [58, 32]))) := by
    decide +kernel
  have h₃ : ascii "\r\nConnection: close\r\n\r\n" =
      13 :: 10 :: (ascii "Connection" ++ 58 :: 32 :: (ascii "close" ++ [13, 10, 13, 10])) := by
    decide +kernel
  rw [dataHeader, h₁, h₂, h₃]
  simp only [dataLines, rangeText, fieldLine, joinLines, List.flatMap_cons, List.flatMap_nil,
    List.append_assoc, List.cons_append, List.nil_append]

theorem dataLines_plain : ∀ line ∈ dataLines start stop size want, line ≠ [] ∧ 13 ∉ line := by
  have hrange := (rangeText_written start stop size).2
  have hlen := (decimal_written want).2
  intro line hmem
  simp only [dataLines, List.mem_cons, List.not_mem_nil, or_false] at hmem
  rcases hmem with rfl | rfl | rfl | rfl | rfl
  · exact ⟨by decide, by decide⟩
  · exact fieldLine_plain (by decide) hrange
  · exact ⟨by decide, by decide⟩
  · exact fieldLine_plain (by decide) hlen
  · exact ⟨by decide, by decide⟩

theorem splitCrlf_dataHeader : splitCrlf (dataHeader start stop size want) =
    dataLines start stop size want ++ [[], []] := by
  rw [dataHeader_eq]
  exact splitCrlf_joinLines fun line hmem => (dataLines_plain start stop size want line hmem).2

theorem headerGet_dataHeader :
    headerGet (dataHeader start stop size want) (ascii "Content-Range") =
        some (rangeText start stop size) ∧
      headerGet (dataHeader start stop size want) (ascii "Content-Length") =
        some (decimal want) := by
  have hrange := (rangeText_written start stop size).1
  have hlen := (decimal_written want).1
  have htail : (splitCrlf (dataHeader start stop size want)).tail =
      [fieldLine (ascii "Content-Range") (rangeText start stop size),
        fieldLine (ascii "Content-Type") (ascii "application/octet-stream"),
        fieldLine (ascii "Content-Length") (decimal want),
        fieldLine (ascii "Connection") (ascii "close"), [], []] := by
    rw [splitCrlf_dataHeader]
    rfl
  unfold headerGet
  rw [htail]
  constructor
  · rw [headerScan_cons (fieldLine_ne_nil _ _), fieldValue_line (by decide) hrange, Option.some_or]
  · rw [headerScan_cons (fieldLine_ne_nil _ _), fieldValue_other (by decide) (by decide),
      Option.none_or, headerScan_cons (fieldLine_ne_nil _ _),
      fieldValue_other (by decide) (by decide), Option.none_or,
      headerScan_cons (fieldLine_ne_nil _ _), fieldValue_line (by decide) hlen, Option.some_or]

/-- Where the head ends. -/
theorem endOfHead_dataHeader (out : List UInt8) :
    ∃ i, endOfHead (dataHeader start stop size want ++ out) = some i ∧
      i + 4 = (dataHeader start stop size want).length := by
  have hplain := dataLines_plain start stop size want
  unfold dataLines at hplain
  obtain ⟨i, hi, hlen⟩ := endOfHead_joinLines (hplain _ List.mem_cons_self).2
    fun l hl => hplain l (List.mem_cons_of_mem _ hl)
  have heq := dataHeader_eq start stop size want
  unfold dataLines at heq
  rw [← heq] at hi hlen
  exact ⟨i, endOfHead_append hi, hlen⟩

end Head

/-! ## Replies -/

section Replies

variable {stream : List UInt8} {range : Proto.Range} {head body rest : List UInt8}

/-- The head of an answer is the head of the reply. -/
theorem head_of_answers (h : Answers stream range head body rest) {text : List UInt8}
    (hsent : stream <+: text) {i : Nat} (hend : endOfHead text = some i) :
    head = text.take (i + 4) := by
  obtain ⟨k, hk, hlen⟩ := h.ends
  obtain ⟨more, rfl⟩ := hsent
  obtain rfl : k = i := Option.some.inj ((endOfHead_append hk).symm.trans hend)
  rw [← hlen, h.parts, List.append_assoc, List.append_assoc, List.take_left' rfl]

/-- **No refusal is taken for an answer**, cut short or not. -/
theorem not_answers_refusal {text : List UInt8} (htext : IsRefusal text) (hsent : stream <+: text) :
    ¬ Answers stream range head body rest := by
  intro h
  obtain ⟨line, lines, rfl, hplain, hlines, hcode⟩ := htext
  obtain ⟨i, hi, hlen⟩ := endOfHead_joinLines hplain hlines
  have hhead := head_of_answers h hsent hi
  rw [hlen, List.take_length] at hhead
  obtain ⟨first, hfirst, hstatus⟩ := h.status
  have hsplit : splitCrlf head = line :: lines ++ [[], []] := by
    rw [hhead]
    apply splitCrlf_joinLines
    intro l hl
    rcases List.mem_cons.mp hl with rfl | hl
    · exact hplain
    · exact (hlines l hl).2
  rw [hsplit] at hfirst
  cases hfirst
  exact hcode hstatus

/-- **An answer is of the range it names**, and what follows is of the body. -/
theorem answers_data {start stop size want : Nat} (hle : start ≤ stop) (hlt : stop < size)
    (hsize : size ≤ maxU64) {out : List UInt8}
    (hsent : stream <+: dataHeader start stop size want ++ out)
    (h : Answers stream range head body rest) :
    range.start = start ∧ range.stop = stop ∧ head = dataHeader start stop size want ∧
      body ++ rest <+: out := by
  obtain ⟨i, hi, hlen⟩ := endOfHead_dataHeader start stop size want out
  have hhead := head_of_answers h hsent hi
  rw [hlen, List.take_left' rfl] at hhead
  obtain ⟨value, complete, hvalue, hparse⟩ := h.range
  rw [hhead, (headerGet_dataHeader start stop size want).1] at hvalue
  cases hvalue
  rw [parseContentRange_rangeText hle hlt hsize] at hparse
  obtain ⟨rfl, rfl, -⟩ : start = range.start ∧ stop = range.stop ∧ size = complete := by
    simpa using hparse
  refine ⟨rfl, rfl, hhead, ?_⟩
  rw [h.parts, hhead, List.append_assoc] at hsent
  exact (List.prefix_append_right_inj _).mp hsent

end Replies

/-! ## A fetch of a whole answer -/

section Whole

/-- Each read of a head brings something. -/
theorem turns_of_head {cap : Nat} {buf stream : List UInt8} {turns : List Turn} {read : HeadRead}
    (h : readHeadFullDeadline cap buf stream turns = .ok read) :
    read.rest.turns ⊆ turns ∧
      turns.length + buf.length ≤ read.rest.turns.length + read.buf.length := by
  induction turns generalizing buf stream with
  | nil => cases h
  | cons turn turns ih =>
    rw [readHeadFullDeadline] at h
    split at h
    · cases h
    split at h
    · cases h
    split at h
    · cases h
    dsimp only at h
    split at h
    · cases h
    next n _ hchunk =>
      have hpos := List.length_pos_of_ne_nil hchunk
      split at h
      · cases h
        refine ⟨List.subset_cons_self _ _, ?_⟩
        simp only [List.length_cons, List.length_append]
        omega
      · obtain ⟨hsub, hle⟩ := ih h
        refine ⟨fun t ht => List.mem_cons_of_mem _ (hsub ht), ?_⟩
        rw [List.length_append] at hle
        rw [List.length_cons]
        omega

/-- **A body is read whole** by reads that do not fail, as many as it has bytes. -/
theorem readBody_whole {want : Nat} {got stream : List UInt8} {turns : List Turn}
    (hturns : ∀ turn ∈ turns, turn.armed = true ∧ turn.found ≠ none) (hgot : got.length ≤ want)
    (hstream : want = got.length + stream.length) (hmany : stream.length ≤ turns.length) :
    readBody want got stream turns = .ok (got ++ stream) := by
  induction turns generalizing got stream with
  | nil =>
    have hnil : stream = [] := List.eq_nil_of_length_eq_zero (Nat.le_zero.mp hmany)
    subst hnil
    rw [readBody, if_pos (by simpa using hstream.le), wholeBody,
      if_neg (by simpa using hstream.symm), List.append_nil]
  | cons turn turns ih =>
    obtain ⟨harmed, hfound⟩ := hturns turn List.mem_cons_self
    obtain ⟨n, hn⟩ := Option.ne_none_iff_exists'.mp hfound
    rw [readBody]
    split
    · have hnil : stream = [] := List.eq_nil_of_length_eq_zero (by omega)
      subst hnil
      rw [wholeBody, if_neg (by simpa using hstream.symm), List.append_nil]
    · rw [harmed, hn, if_neg (by decide)]
      dsimp only
      have htake : (stream.take (min (n + 1) (want - got.length))).length =
          min (n + 1) (want - got.length) := by
        rw [List.length_take]
        omega
      rw [List.length_cons] at hmany
      rw [if_neg (List.ne_nil_of_length_pos (by omega)),
        ih (fun t ht => hturns t (List.mem_cons_of_mem _ ht)), List.append_assoc,
        List.take_append_drop]
      · rw [List.length_append, htake]
        omega
      · rw [List.length_append, htake, List.length_drop]
        omega
      · rw [List.length_drop]
        omega

theorem length_dataHeader_le {start stop size want : Nat} (hstart : start < 10 ^ 19)
    (hstop : stop < 10 ^ 19) (hsize : size < 10 ^ 19) (hwant : want < 10 ^ 19) :
    (dataHeader start stop size want).length ≤ 220 := by
  have h₁ := length_decimal_le (by decide) hstart
  have h₂ := length_decimal_le (by decide) hstop
  have h₃ := length_decimal_le (by decide) hsize
  have h₄ := length_decimal_le (by decide) hwant
  have hfixed : (ascii "HTTP/1.1 206 Partial Content\r\nContent-Range: bytes ").length = 51 ∧
      (ascii "\r\nContent-Type: application/octet-stream\r\nContent-Length: ").length = 58 ∧
      (ascii "\r\nConnection: close\r\n\r\n").length = 23 := by
    decide +kernel
  obtain ⟨h₅, h₆, h₇⟩ := hfixed
  unfold dataHeader
  simp only [List.length_append, List.length_cons]
  omega

variable {start stop size want : Nat}

/-- What the checks make of the head. -/
theorem checkRangeReply_dataHeader (hle : start ≤ stop) (hlt : stop < size) (hsize : size < 2 ^ 63)
    (hwant : want = stop - start + 1) :
    checkRangeReply (dataHeader start stop size want) start stop = .ok () := by
  obtain ⟨hrange, hlength⟩ := headerGet_dataHeader start stop size want
  have hstatus : httpStatusIs (ascii "HTTP/1.1 206 Partial Content") 206 = true := by decide
  have hmax : size ≤ maxU64 := hsize.le.trans (by decide)
  have hsat : satAdd (stop - start) 1 = want := by
    unfold satAdd
    omega
  unfold checkRangeReply
  rw [splitCrlf_dataHeader]
  simp only [dataLines, List.cons_append, hstatus, Bool.not_true, Bool.false_eq_true, if_false]
  rw [headerGet2_eq (by decide), hrange, hlength]
  simp only [parseContentRange_rangeText hle hlt hmax, Option.getD_some,
    parseU64Fast_decimal (show want ≤ maxU64 by omega), hsat]
  rw [if_neg (by omega), if_neg (by simp)]

theorem length_le_bring (turns : List Turn) : turns.length ≤ bring turns := by
  unfold bring
  induction turns with
  | nil => exact Nat.zero_le _
  | cons turn turns ih =>
    rw [List.map_cons, List.sum_cons, List.length_cons]
    omega

/-- What has been read when the head is there, of a socket that has `text` and `out`. -/
structure HeadTaken (sock : Socket) (text out : List UInt8) (read : HeadRead) : Prop where
  head : read.buf.take read.headLen = text
  body : read.buf.drop read.headLen ++ read.rest.stream = out
  turns : read.rest.turns ⊆ sock.turns
  many : read.rest.stream.length ≤ read.rest.turns.length

/-- **The head is read**, and with it some of the body. -/
theorem head_taken {out : List UInt8}
    (hhead : (dataHeader start stop size want).length ≤ headBufLen) {sock : Socket}
    (hstream : sock.stream = dataHeader start stop size want ++ out)
    (hturns : ∀ turn ∈ sock.turns, turn.armed = true ∧ turn.found ≠ none)
    (hmany : sock.stream.length ≤ sock.turns.length) :
    ∃ read, readHeadFullDeadline headBufLen [] sock.stream sock.turns = .ok read ∧
      HeadTaken sock (dataHeader start stop size want) out read := by
  obtain ⟨i, hi, hilen⟩ := endOfHead_dataHeader start stop size want out
  have hwhole : endOfHead (sock.stream.take headBufLen) = some i :=
    endOfHead_take.mpr ⟨hstream ▸ hi, hilen.trans_le hhead⟩
  have hlen : sock.stream.length = i + 4 + out.length := by
    rw [hstream, List.length_append, hilen]
  have hdeciding : deciding headBufLen sock.stream = i + 4 := by
    unfold deciding
    rw [hwhole]
  have hbring := length_le_bring sock.turns
  have hout := readHeadFullDeadline_outcome hturns (hdeciding.trans_le (by omega))
    (hdeciding.trans_le (by omega))
  rw [HeadOutcome, hwhole] at hout
  obtain ⟨read, hread, hheadLen, hwithin, -, hbuf⟩ := hout
  obtain ⟨hsub, hleft⟩ := turns_of_head hread
  refine ⟨read, hread, ?_, ?_, hsub, ?_⟩
  · rw [hheadLen, ← List.take_append_of_le_length hwithin, hbuf, hstream, hilen,
      List.take_left' rfl]
  · rw [hheadLen, ← List.drop_append_of_le_length hwithin, hbuf, hstream, hilen,
      List.drop_left' rfl]
  · have hall := congrArg List.length hbuf
    rw [List.length_append] at hall
    rw [List.length_nil] at hleft
    omega

/-- What `finishBodyAlloc` makes of the head, with a buffer of its length. -/
theorem finishBodyAlloc_dataHeader {out buf : List UInt8} {headLen : Nat} {sock : Socket}
    (hhead : buf.take headLen = dataHeader start stop size out.length) (hpos : out.length ≠ 0)
    (hmax : out.length ≤ maxU64)
    (hbody : readBody out.length ((buf.drop headLen).take out.length) sock.stream sock.turns =
      .ok out) : finishBodyAlloc buf headLen (.supplied out.length) sock = .ok out := by
  have hstatus : httpStatusCode (ascii "HTTP/1.1 206 Partial Content") = some 206 := by decide
  unfold finishBodyAlloc
  dsimp only
  rw [hhead, splitCrlf_dataHeader]
  simp only [dataLines, List.cons_append, hstatus, (headerGet_dataHeader _ _ _ _).2,
    Option.getD_some, parseU64Fast_decimal hmax]
  rw [if_neg (by simp), if_neg (by simp)]
  dsimp only
  rw [if_neg hpos]
  exact hbody

/-- **A whole answer is fetched.** -/
theorem fetch_whole (hle : start ≤ stop) (hlt : stop < size) (hsize : size < 2 ^ 63)
    {out : List UInt8} (hwant : out.length = stop - start + 1) {sock : Socket}
    (hstream : sock.stream = dataHeader start stop size out.length ++ out)
    (hturns : ∀ turn ∈ sock.turns, turn.armed = true ∧ turn.found ≠ none)
    (hmany : sock.stream.length ≤ sock.turns.length) {psk ip : List UInt8} {port : Nat}
    {rel : List UInt8} (hreq : sendRequest psk ip port rel (some ⟨start, stop⟩) ≠ none) :
    fetchRangeInto psk ip port rel ⟨start, stop⟩ out.length (.ok sock) = .ok out := by
  have hhead : (dataHeader start stop size out.length).length ≤ headBufLen :=
    (length_dataHeader_le (by omega) (by omega) (by omega) (by omega)).trans (by decide)
  obtain ⟨read, hread, htaken⟩ := head_taken hhead hstream hturns hmany
  have hparts := congrArg List.length htaken.body
  rw [List.length_append] at hparts
  have hbody : readBody out.length ((read.buf.drop read.headLen).take out.length) read.rest.stream
      read.rest.turns = .ok out := by
    rw [List.take_of_length_le (by omega), readBody_whole _ (by omega) hparts.symm htaken.many,
      htaken.body]
    exact fun turn hturn => hturns turn (htaken.turns hturn)
  have hfinish := finishBodyAlloc_dataHeader htaken.head (by omega) (by unfold maxU64; omega) hbody
  have hcheck := checkRangeReply_dataHeader hle hlt hsize hwant
  rw [← htaken.head] at hcheck
  obtain ⟨req, hreq⟩ := Option.ne_none_iff_exists'.mp hreq
  unfold fetchRangeInto
  rw [hreq]
  change readRangeBodyAllocDeadline sock start stop (.supplied out.length) = .ok out
  unfold readRangeBodyAllocDeadline
  rw [hread]
  change (checkRangeReply (read.buf.take read.headLen) start stop).bind _ = _
  rw [hcheck]
  exact hfinish

end Whole

/-! ## Where nothing fails -/

/-- The calls on a file that is `f` throughout: none fails, and they move `len` bytes. -/
structure Holds (f : List UInt8) (len : Nat) (calls : List Call) : Prop where
  file : ∀ call ∈ calls, call.file = f
  healthy : Healthy Call.result len calls

theorem Holds.mono {f : List UInt8} {len len' : Nat} {calls : List Call} (h : Holds f len calls)
    (hle : len' ≤ len) : Holds f len' calls := ⟨h.file, h.healthy.mono hle⟩

theorem writeAll_holds {buf : List UInt8} {calls : List CallResult}
    (h : Healthy id buf.length calls) : writeAll buf calls = (some (.ok ()), buf) := by
  have hall := @moveAll_eq _ _ (fun _ : CallResult => buf) id calls 0 (fun _ => none) buf.length buf
    (fun _ _ _ => rfl) (fun _ _ => rfl) (Nat.zero_add _).le h
  unfold writeAll
  rw [hall, List.drop_zero, List.take_length]

theorem preadAll_holds {f : List UInt8} {off len : Nat} {calls : List Call} (h : Holds f len calls)
    (hlen : off + len ≤ f.length) (hfits : f.length < 2 ^ 63) :
    preadAll off len calls = some (.ok ((f.drop off).take len)) := by
  have hoff : ∀ pos, off ≤ pos → pos < off + len → offT pos = none := by
    intro pos _ hpos
    exact if_neg (by omega)
  unfold preadAll
  rw [moveAll_eq hoff h.file hlen h.healthy]

theorem sendfileAll_holds {f : List UInt8} {off count : Nat} {calls : List Call}
    (h : Holds f count calls) (hlen : off + count ≤ f.length) (hfits : f.length < 2 ^ 63) :
    sendfileAll off count calls = (some (.ok count), (f.drop off).take count) := by
  have hsent : ((f.drop off).take count).length = count := by
    rw [List.length_take, List.length_drop]
    omega
  have hoff : offT off = none := if_neg (by omega)
  have hall := @moveAll_eq _ _ Call.file Call.result calls off (fun _ => none) count f
    (fun _ _ _ => rfl) h.file hlen h.healthy
  unfold sendfileAll
  rw [hoff, hall]
  dsimp only
  rw [hsent]

/-- **All of the range is sent** with `sendfile`. -/
theorem sendChunks_holds {f : List UInt8} {start want pieceSize done : Nat} {turns : List SendTurn}
    (hturns : ∀ turn ∈ turns, turn.armed = true ∧ Holds f pieceSize turn.calls)
    (hgrid : 0 < pieceSize) (hdone : done ≤ want) (hlen : start + want ≤ f.length)
    (hfits : f.length < 2 ^ 63) (hmany : want - done ≤ turns.length) :
    sendChunks start want pieceSize done turns =
      (.complete, (f.drop (start + done)).take (want - done)) := by
  induction turns generalizing done with
  | nil =>
    have hzero : want - done = 0 := Nat.le_zero.mp hmany
    rw [sendChunks, if_pos (by omega), hzero, List.take_zero]
  | cons turn turns ih =>
    obtain ⟨harmed, hcalls⟩ := hturns turn List.mem_cons_self
    rw [List.length_cons] at hmany
    rw [sendChunks]
    split
    · next hend => rw [show want - done = 0 by omega, List.take_zero]
    · have htake : min (want - done) pieceSize ≤ pieceSize := min_le_right _ _
      have hrest := @ih (done + min (want - done) pieceSize)
        (fun t ht => hturns t (List.mem_cons_of_mem _ ht)) (by omega) (by omega)
      have hsplit : want - done =
          min (want - done) pieceSize + (want - (done + min (want - done) pieceSize)) := by
        omega
      rw [harmed, if_neg (by decide)]
      dsimp only
      rw [sendfileAll_holds (hcalls.mono htake) (by omega) hfits]
      dsimp only
      have hjoin : (f.drop (start + done)).take (want - done) =
          (f.drop (start + done)).take (min (want - done) pieceSize) ++
            (f.drop (start + (done + min (want - done) pieceSize))).take
              (want - (done + min (want - done) pieceSize)) := by
        have hdrop : f.drop (start + (done + min (want - done) pieceSize)) =
            (f.drop (start + done)).drop (min (want - done) pieceSize) := by
          rw [List.drop_drop, Nat.add_assoc]
        rw [hdrop, ← List.take_add, ← hsplit]
      rw [if_neg (by simp), hrest, hjoin]

/-! ## The exchange -/

section Exchange

variable {δ : Type} [DecidableEq δ] {digest : List UInt8 → δ}

/-- The bytes of a piece were in the cache file and had the digest that is trusted, if one is. -/
def Vouched (digest : List UInt8 → δ) (checks : Nat → Check δ) (size pieceSize pi : Nat) : Prop :=
  ∀ expect, (checks pi).expect = some expect → Piece.len size pi pieceSize ≠ 0 →
    ∃ bytes, bytes.length = Piece.len size pi pieceSize ∧
      Drawn Call.file (callsOf (checks pi).cache) (Piece.offset pi pieceSize) bytes ∧
      digest bytes = expect

/-- **What a range that passes is vouched for by**, piece by piece. -/
theorem vouched_of_passed {checks : Nat → Check δ} {size pieceSize : Nat} {pieces : List Nat}
    (h : verifyRange digest checks size pieceSize pieces = .passed) :
    ∀ pi ∈ pieces, Vouched digest checks size pieceSize pi := by
  induction pieces with
  | nil => nofun
  | cons pi pieces ih =>
    rw [verifyRange] at h
    cases hexpect : (checks pi).expect with
    | none =>
      rw [hexpect] at h
      apply List.forall_mem_cons.mpr ⟨fun expect he => ?_, ih h⟩
      rw [hexpect] at he
      cases he
    | some trusted =>
      rw [hexpect] at h
      dsimp only at h
      split at h
      · next hzero => exact List.forall_mem_cons.mpr ⟨fun _ _ hlen => absurd hzero hlen, ih h⟩
      split at h
      · cases h
      split at h
      · cases h
      · cases h
      · next bytes hread =>
        split at h
        · cases h
        · next hlen =>
          split at h
          · cases h
          · next hdigest =>
            apply List.forall_mem_cons.mpr ⟨fun expect he _ => ?_, ih h⟩
            rw [hexpect] at he
            cases he
            exact ⟨bytes, not_not.mp hlen, preadOf_spec hread, not_not.mp hdigest⟩

/-- The last byte that is sent. -/
def lastOf (range : Proto.Range) (size : Nat) : Nat := min range.stop (size - 1)

/-- What is behind an answer with `out`. -/
structure Answered (digest : List UInt8 → δ) (srv : Server δ) (range : Proto.Range) (size : Nat)
    (out : List UInt8) : Prop where
  stat : originRegular srv.stat = .ok size
  within : range.start < size
  le : range.start ≤ range.stop
  vouched : ∀ pi ∈ covered range.start (lastOf range size - range.start + 1) size
    srv.pieceSize.toNat, Vouched digest srv.checks size srv.pieceSize.toNat pi
  drawn : Drawn Call.file srv.body.calls range.start out
  short : out.length ≤ lastOf range size - range.start + 1

theorem originRegular_refusal {stat : OriginStat} {status : List UInt8}
    (h : originRegular stat = .error status) : status ∈ refusals := by
  apply List.mem_cons_of_mem
  unfold originRegular at h
  split at h
  · cases h
    simp [statuses]
  · cases h
    simp [statuses]
  · cases h
    simp [statuses]
  · cases h
    simp [statuses]
  · split_ifs at h <;> cases h <;> simp [statuses]

/-- What is sent of a range that passes: the head, or some of it and nothing else. -/
theorem answered_of_passed {srv : Server δ} {range : Proto.Range} {size : Nat}
    (hstat : originRegular srv.stat = .ok size) (hwithin : range.start < size)
    (hle : range.start ≤ range.stop)
    (hpassed : verifyRange digest srv.checks size srv.pieceSize.toNat (covered range.start
      (lastOf range size - range.start + 1) size srv.pieceSize.toNat) = .passed) :
    let head := dataHeader range.start (lastOf range size) size
      (lastOf range size - range.start + 1)
    let body := (streamRange srv.body range.start (lastOf range size - range.start + 1) size
      srv.pieceSize.toNat).2
    ∃ out, Answered digest srv range size out ∧
      ∀ result put, writeAll head srv.writes = (result, put) →
        (result = some (.ok ()) → put ++ body = head ++ out) ∧
          (result ≠ some (.ok ()) → out = [] ∧ put <+: head) := by
  intro head body
  obtain ⟨hput, hwritten⟩ := writeAll_spec head srv.writes
  obtain ⟨hdrawn, hshort⟩ := streamRange_spec srv.body range.start
    (lastOf range size - range.start + 1) size srv.pieceSize.toNat
  have hvouched := vouched_of_passed hpassed
  by_cases hok : (writeAll head srv.writes).1 = some (.ok ())
  · refine ⟨body, ⟨hstat, hwithin, hle, hvouched, hdrawn, hshort⟩, fun result put hwrite => ?_⟩
    rw [hwrite] at hok hwritten
    exact ⟨fun _ => congrArg (· ++ body) (hwritten hok), fun hne => absurd hok hne⟩
  · refine ⟨[], ⟨hstat, hwithin, hle, hvouched, drawn_nil, Nat.zero_le _⟩,
      fun result put hwrite => ?_⟩
    rw [hwrite] at hok hput
    exact ⟨fun h => absurd h hok, fun _ => ⟨rfl, hput⟩⟩

/-- **What is on the wire**: of a refusal, or of the head and, behind all of it, of the range. -/
theorem serveData_cases (srv : Server δ) (range : Proto.Range) :
    (∃ text, IsRefusal text ∧ serveData digest srv range <+: text) ∨
      ∃ size out, Answered digest srv range size out ∧
        (serveData digest srv range = dataHeader range.start (lastOf range size) size
            (lastOf range size - range.start + 1) ++ out ∨
          serveData digest srv range <+: dataHeader range.start (lastOf range size) size
            (lastOf range size - range.start + 1) ∧ out = []) := by
  have hreply : ∀ text, IsRefusal text → ∃ text', IsRefusal text' ∧
      (writeAll text srv.writes).2 <+: text' := fun text htext =>
    ⟨text, htext, (writeAll_spec text srv.writes).1⟩
  have hstatus : ∀ status ∈ refusals, ∃ text', IsRefusal text' ∧
      (writeAll (replyStatus status) srv.writes).2 <+: text' := fun status h =>
    hreply _ (isRefusal_status h)
  have h500 : ascii "500 Internal Server Error" ∈ refusals := by simp [refusals, statuses]
  unfold serveData
  dsimp only
  cases hstat : originRegular srv.stat with
  | error status => exact Or.inl (hstatus status (originRegular_refusal hstat))
  | ok size =>
    have hfits := srv.fits size hstat
    dsimp only
    split
    · left
      split
      · exact hstatus _ (by simp [refusals])
      · exact hreply _ (isRefusal_unsatisfiable size)
    · next hsat =>
      obtain ⟨hwithin, hle⟩ : range.start < size ∧ range.start ≤ range.stop := by omega
      have hlast : min range.stop (size - 1) = lastOf range size := rfl
      have hwant : satAdd (lastOf range size - range.start) 1 =
          lastOf range size - range.start + 1 := by
        unfold satAdd maxU64 lastOf
        omega
      rw [hlast, hwant]
      split
      · exact Or.inl (hstatus _ h500)
      cases srv.hydrated with
      | failed => exact Or.inl (hstatus _ h500)
      | originFailed => exact Or.inl (hstatus _ (by simp [refusals, statuses]))
      | done =>
        dsimp only
        split
        · exact Or.inl (hstatus _ h500)
        · exact Or.inl (hstatus _ h500)
        · exact Or.inl ⟨_, isRefusal_status h500, List.nil_prefix⟩
        · next hpassed =>
          split
          · exact Or.inl (hstatus _ h500)
          · right
            obtain ⟨out, hanswered, hwire⟩ := answered_of_passed hstat hwithin hle hpassed
            refine ⟨size, out, hanswered, ?_⟩
            split
            · next put hwrite => exact Or.inl ((hwire _ _ hwrite).1 rfl)
            · next result put hne hwrite =>
              obtain ⟨hnil, hput⟩ := (hwire _ _ hwrite).2 hne
              exact Or.inr ⟨hput, hnil⟩

/-- What a fetcher that has `out` can count on. -/
structure Delivered (digest : List UInt8 → δ) (srv : Server δ) (range : Proto.Range) (size : Nat)
    (stream out : List UInt8) : Prop where
  stat : originRegular srv.stat = .ok size
  within : range.stop < size
  length : out.length + range.start = range.stop + 1
  sent : serveData digest srv range = dataHeader range.start range.stop size out.length ++ out
  whole : stream = serveData digest srv range
  drawn : Drawn Call.file srv.body.calls range.start out
  vouched : ∀ pi ∈ covered range.start out.length size srv.pieceSize.toNat,
    Vouched digest srv.checks size srv.pieceSize.toNat pi

theorem delivered_of_fetch {srv : Server δ} {range : Proto.Range} {outLen : Nat}
    (hlen : outLen + range.start = range.stop + 1) {sock : Socket}
    (hsent : sock.stream <+: serveData digest srv range) {psk ip : List UInt8} {port : Nat}
    {rel out : List UInt8}
    (hok : fetchRangeInto psk ip port rel range outLen (.ok sock) = .ok out) :
    ∃ size, Delivered digest srv range size sock.stream out := by
  obtain ⟨hfull, head, rest, hanswers⟩ := answers_of_fetch hlen hok
  rcases serveData_cases srv range with ⟨text, htext, hwire⟩ | ⟨size, body, hanswered, hwire⟩
  · exact absurd hanswers (not_answers_refusal htext (hsent.trans hwire))
  · have hsize := srv.fits size hanswered.stat
    have hwithin := hanswered.within
    have hle := hanswered.le
    have hshort := hanswered.short
    have hlast : range.start ≤ lastOf range size ∧ lastOf range size < size := by
      unfold lastOf
      omega
    have hon : sock.stream <+: dataHeader range.start (lastOf range size) size
        (lastOf range size - range.start + 1) ++ body := by
      rcases hwire with hwire | ⟨hwire, rfl⟩
      · rwa [← hwire]
      · rw [List.append_nil]
        exact hsent.trans hwire
    obtain ⟨-, hstop, hhead, hbody⟩ := answers_data hlast.1 hlast.2
      (hsize.le.trans (by decide)) hon hanswers
    rw [← hstop] at hlast hwire hhead hshort
    have hwant : range.stop - range.start + 1 = out.length := by omega
    rw [hwant] at hwire hhead hshort
    -- the fetch fills its buffer, and the server sends no more than that
    have hall := hbody.length_le
    rw [List.length_append] at hall
    have hrest : rest = [] := List.eq_nil_of_length_eq_zero (by omega)
    rw [hrest, List.append_nil] at hbody
    obtain rfl : out = body := hbody.eq_of_length (by omega)
    have hparts := hanswers.parts
    rw [hhead, hrest, List.append_nil] at hparts
    have hvouched := hanswered.vouched
    rw [← hstop, hwant] at hvouched
    rcases hwire with hwire | ⟨-, hnil⟩
    · exact ⟨size, hanswered.stat, hlast.2, by omega, hwire, hparts.trans hwire.symm,
        hanswered.drawn, hvouched⟩
    · rw [hnil, List.length_nil] at hwant
      exact absurd hwant (Nat.succ_ne_zero _)

/-- The files hold still in the range. -/
def Still (srv : Server δ) (range : Proto.Range) (f : List UInt8) : Prop :=
  ∀ call, (call ∈ srv.body.calls ∨ ∃ pi, call ∈ callsOf (srv.checks pi).cache) →
    ∀ i, range.start ≤ i → i ≤ range.stop → call.file[i]? = f[i]?

section Still

variable {srv : Server δ} {range : Proto.Range} {size : Nat} {stream out f : List UInt8}

theorem Delivered.eq_of_still (h : Delivered digest srv range size stream out)
    (hstill : Still srv range f) : out = (f.drop range.start).take out.length := by
  have hlen := h.length
  exact h.drawn.eq_of_same fun call hcall i hi => hstill call (Or.inl hcall) _ (by omega) (by omega)

/-- A piece in the range has the digest that is trusted. -/
theorem Delivered.digest_of_still (h : Delivered digest srv range size stream out)
    (hstill : Still srv range f) {pi : Nat}
    (hpi : pi ∈ covered range.start out.length size srv.pieceSize.toNat) {expect : δ}
    (hexpect : (srv.checks pi).expect = some expect) {off len : Nat}
    (hoff : off = Piece.offset pi srv.pieceSize.toNat)
    (hlen : len = Piece.len size pi srv.pieceSize.toNat) (hne : len ≠ 0)
    (hstart : range.start ≤ off) (hstop : off + len ≤ range.stop + 1) :
    digest ((out.drop (off - range.start)).take len) = expect := by
  have hout := h.length
  obtain ⟨bytes, hbytes, hread, hdigest⟩ := h.vouched pi hpi expect hexpect (hlen ▸ hne)
  rw [← hlen] at hbytes
  rw [← hoff] at hread
  have hsame : bytes = (f.drop off).take len := by
    rw [← hbytes]
    exact hread.eq_of_same fun call hcall i hi =>
      hstill call (Or.inr ⟨pi, hcall⟩) _ (by omega) (by omega)
  have hslice : (out.drop (off - range.start)).take len = (f.drop off).take len := by
    rw [h.eq_of_still hstill, List.drop_take, List.take_take, List.drop_drop]
    congr 2
    · omega
    · omega
  rw [hslice, ← hsame]
  exact hdigest

end Still

/-- **The exchange**, whatever the calls of the server come to, whatever happens to its files
meanwhile, and wherever the reply is cut: a fetch that succeeds has the whole range and all of the
reply. Each byte was at its place in a file that was read from, and each piece of the range that a
digest is trusted of had it when the server looked.

While the files hold still, the fetch has what is in them, and each piece in the range that a digest
is trusted of has it at the fetcher. -/
theorem data_exchange (digest : List UInt8 → δ) (srv : Server δ) {range : Proto.Range}
    {outLen : Nat} (hlen : outLen + range.start = range.stop + 1) {sock : Socket}
    (hsent : sock.stream <+: serveData digest srv range) (psk ip : List UInt8) (port : Nat)
    (rel : List UInt8) {out : List UInt8}
    (hok : fetchRangeInto psk ip port rel range outLen (.ok sock) = .ok out) :
    ∃ size, Delivered digest srv range size sock.stream out ∧
      ∀ f, Still srv range f → out = (f.drop range.start).take outLen ∧
        ∀ pi ∈ covered range.start outLen size srv.pieceSize.toNat, ∀ expect,
          (srv.checks pi).expect = some expect →
          let off := Piece.offset pi srv.pieceSize.toNat
          let len := Piece.len size pi srv.pieceSize.toNat
          len ≠ 0 → range.start ≤ off → off + len ≤ range.stop + 1 →
            digest ((out.drop (off - range.start)).take len) = expect := by
  obtain ⟨size, hdelivered⟩ := delivered_of_fetch hlen hsent hok
  have hfull : out.length = outLen := by
    have := hdelivered.length
    omega
  refine ⟨size, hdelivered, fun f hstill => ⟨?_, ?_⟩⟩
  · rw [← hfull]
    exact hdelivered.eq_of_still hstill
  · intro pi hpi expect hexpect off len hne hstart hstop
    rw [← hfull] at hpi
    exact hdelivered.digest_of_still hstill hpi hexpect rfl rfl hne hstart hstop

/-- Nothing fails on the server: it has `f`, which the origin has too, and it has the digests. -/
structure Well (digest : List UInt8 → δ) (srv : Server δ) (range : Proto.Range) (f : List UInt8) :
    Prop where
  stat : originRegular srv.stat = .ok f.length
  le : range.start ≤ range.stop
  within : range.stop < f.length
  entry : srv.entry = true
  hydrated : srv.hydrated = .done
  checks : ∀ pi expect, (srv.checks pi).expect = some expect → (srv.checks pi).mem = true ∧
    (∃ calls, (srv.checks pi).cache = .ok calls ∧
      Holds f (Piece.len f.length pi srv.pieceSize.toNat) calls) ∧
    digest ((f.drop (Piece.offset pi srv.pieceSize.toNat)).take
      (Piece.len f.length pi srv.pieceSize.toNat)) = expect
  writes : Healthy id 220 srv.writes
  tracked : Piece.rangeTracked ⟨range.start, range.stop - range.start + 1⟩ f.length
    srv.pieceSize.toNat = true
  opens : srv.body.opens = true
  grid : srv.pieceSize ≠ 0
  sends : ∀ turn ∈ srv.body.sends, turn.armed = true ∧ Holds f srv.pieceSize.toNat turn.calls
  many : f.length ≤ srv.body.sends.length

theorem verifyRange_passed {srv : Server δ} {range : Proto.Range} {f : List UInt8}
    (h : Well digest srv range f) (pieces : List Nat) :
    verifyRange digest srv.checks f.length srv.pieceSize.toNat pieces = .passed := by
  induction pieces with
  | nil => rfl
  | cons pi pieces ih =>
    rw [verifyRange]
    cases hexpect : (srv.checks pi).expect with
    | none => exact ih
    | some expect =>
      obtain ⟨hmem, ⟨calls, hcache, hcalls⟩, hdigest⟩ := h.checks pi expect hexpect
      dsimp only
      split
      · exact ih
      · next hlen =>
        have hwithin : Piece.offset pi srv.pieceSize.toNat +
            Piece.len f.length pi srv.pieceSize.toNat ≤ f.length := by
          unfold Piece.len at hlen ⊢
          split at hlen
          · exact absurd rfl hlen
          · rw [if_neg ‹_›]
            omega
        have hread : ((f.drop (Piece.offset pi srv.pieceSize.toNat)).take
            (Piece.len f.length pi srv.pieceSize.toNat)).length =
            Piece.len f.length pi srv.pieceSize.toNat := by
          rw [List.length_take, List.length_drop]
          omega
        rw [hmem, hcache, if_neg (by decide)]
        simp only [preadOf, preadAll_holds hcalls hwithin (srv.fits _ h.stat)]
        rw [if_neg (not_not.mpr hread), if_neg (not_not.mpr hdigest)]
        exact ih

/-- **Where nothing fails, the answer is the range.** -/
theorem serveData_well {srv : Server δ} {range : Proto.Range} {f : List UInt8}
    (h : Well digest srv range f) :
    serveData digest srv range = dataHeader range.start range.stop f.length
      (range.stop - range.start + 1) ++
        (f.drop range.start).take (range.stop - range.start + 1) := by
  have hle := h.le
  have hwithin := h.within
  have hfits := srv.fits _ h.stat
  have hstop : min range.stop (f.length - 1) = range.stop := by omega
  have hwant : satAdd (range.stop - range.start) 1 = range.stop - range.start + 1 := by
    unfold satAdd maxU64
    omega
  have hhead : (dataHeader range.start range.stop f.length (range.stop - range.start + 1)).length ≤
      220 := length_dataHeader_le (by omega) (by omega) (by omega) (by omega)
  have hgrid : 0 < srv.pieceSize.toNat :=
    Nat.pos_of_ne_zero fun hzero => h.grid (UInt32.toNat_inj.mp hzero)
  have hmany := h.many
  have hsent := @sendChunks_holds f range.start (range.stop - range.start + 1)
    srv.pieceSize.toNat 0 srv.body.sends h.sends hgrid (Nat.zero_le _) (by omega) hfits (by omega)
  have hbody : streamRange srv.body range.start (range.stop - range.start + 1) f.length
      srv.pieceSize.toNat =
        (true, (f.drop range.start).take (range.stop - range.start + 1)) := by
    unfold streamRange
    rw [h.tracked, h.opens]
    dsimp only [Bool.and_self, if_true]
    rw [hsent]
    rfl
  unfold serveData
  rw [h.stat, h.entry, h.hydrated]
  dsimp only
  rw [if_neg (by omega), hstop, hwant, verifyRange_passed h, if_neg (by decide)]
  dsimp only
  rw [if_neg (by omega), writeAll_holds (h.writes.mono hhead), hbody]

/-- **And the fetcher has it**, if its reads do not fail either. -/
theorem data_arrives (digest : List UInt8 → δ) (srv : Server δ) {range : Proto.Range}
    {f : List UInt8} (h : Well digest srv range f) {sock : Socket}
    (hsent : sock.stream = serveData digest srv range)
    (hturns : ∀ turn ∈ sock.turns, turn.armed = true ∧ turn.found ≠ none)
    (hmany : sock.stream.length ≤ sock.turns.length) {psk ip : List UInt8} {port : Nat}
    {rel : List UInt8} (hreq : sendRequest psk ip port rel (some range) ≠ none) :
    fetchRangeInto psk ip port rel range (range.stop - range.start + 1) (.ok sock) =
      .ok ((f.drop range.start).take (range.stop - range.start + 1)) := by
  have hwithin := h.within
  have hle := h.le
  have hlen : ((f.drop range.start).take (range.stop - range.start + 1)).length =
      range.stop - range.start + 1 := by
    rw [List.length_take, List.length_drop]
    omega
  have hstream := hsent.trans (serveData_well h)
  have hall := fetch_whole hle hwithin (srv.fits _ h.stat) hlen (by rw [hlen]; exact hstream) hturns
    hmany hreq
  rw [hlen] at hall
  exact hall

end Exchange

section Letters

/-- Two pieces of four bytes. -/
def letters : List UInt8 := ascii "abcdefgh"

/-- The calls on it: one is interrupted, the others move up to three bytes. -/
def lettersCalls : List Call := ⟨.interrupted, letters⟩ :: List.replicate 4 ⟨.moved 3, letters⟩

/-- It has the digest of its second piece, here the bytes themselves. -/
def lettersServer : Server (List UInt8) where
  stat := .found true 8
  pieceSize := 4
  fits size h := by
    cases h
    decide
  entry := true
  hydrated := .done
  checks pi := ⟨if pi = 1 then some (ascii "efgh") else none, true, .ok lettersCalls⟩
  writes := List.replicate 220 (.moved 8192)
  body := ⟨true, List.replicate 8 ⟨true, lettersCalls⟩, true, []⟩

/-- The answer comes in a read of one byte, and then as the buffers have room. -/
def lettersSocket : Socket where
  stream := dataHeader 4 7 8 4 ++ ascii "efgh"
  turns := { found := some 0 } :: List.replicate 199 { found := some 8191 }

theorem lettersCalls_hold {len : Nat} (hlen : len ≤ 4) : Holds letters len lettersCalls := by
  have hall : Holds letters 4 lettersCalls := by
    refine ⟨by simp [lettersCalls], fun call hcall => ?_, by decide⟩
    rcases List.mem_cons.mp hcall with rfl | hcall
    · exact Or.inl rfl
    · rw [List.eq_of_mem_replicate hcall]
      exact Or.inr ⟨2, rfl⟩
  exact hall.mono hlen

theorem letters_well : Well id lettersServer ⟨4, 7⟩ letters where
  stat := rfl
  le := by decide
  within := by decide
  entry := rfl
  hydrated := rfl
  checks pi expect h := by
    have hone : pi = 1 ∧ expect = ascii "efgh" := by
      change (if pi = 1 then some (ascii "efgh") else none) = some expect at h
      split at h
      · exact ⟨‹_›, (Option.some.inj h).symm⟩
      · cases h
    obtain ⟨rfl, rfl⟩ := hone
    exact ⟨rfl, ⟨lettersCalls, rfl, lettersCalls_hold (by decide)⟩, by decide⟩
  writes := by
    refine ⟨fun call hcall => ?_, by decide +kernel⟩
    rw [List.eq_of_mem_replicate hcall]
    exact Or.inr ⟨8191, rfl⟩
  tracked := by decide
  opens := rfl
  grid := by decide
  sends turn h := by
    rw [List.eq_of_mem_replicate h]
    exact ⟨rfl, lettersCalls_hold (by decide)⟩
  many := by decide

theorem letters_sent : lettersSocket.stream = serveData id lettersServer ⟨4, 7⟩ := by
  rw [serveData_well letters_well]
  decide +kernel

theorem letters_still : Still lettersServer ⟨4, 7⟩ letters := by
  have hfile : ∀ call ∈ lettersCalls, call.file = letters := (lettersCalls_hold le_rfl).file
  intro call hcall i _ _
  rcases hcall with hcall | ⟨pi, hcall⟩
  · obtain ⟨turn, hturn, hcall⟩ := List.mem_flatMap.mp
      ((List.mem_append.mp hcall).resolve_right List.not_mem_nil)
    rw [List.eq_of_mem_replicate hturn] at hcall
    rw [hfile call hcall]
  · rw [hfile call hcall]

theorem letters_exchanged : ∃ size,
    Delivered id lettersServer ⟨4, 7⟩ size lettersSocket.stream (ascii "efgh") ∧
      ascii "efgh" = (letters.drop 4).take 4 := by
  have hfetched : fetchRangeInto [107] (ascii "10.0.0.1") 9000 (ascii "a") ⟨4, 7⟩ 4
      (.ok lettersSocket) = .ok (ascii "efgh") := by
    decide +kernel
  obtain ⟨size, hdelivered, hverified⟩ := data_exchange id lettersServer (by decide)
    (letters_sent ▸ List.prefix_rfl) _ _ _ _ hfetched
  exact ⟨size, hdelivered, (hverified letters letters_still).1⟩

theorem letters_arrive : fetchRangeInto [107] (ascii "10.0.0.1") 9000 (ascii "a") ⟨4, 7⟩ 4
    (.ok lettersSocket) = .ok (ascii "efgh") := by
  have hturns : ∀ turn ∈ lettersSocket.turns, turn.armed = true ∧ turn.found ≠ none := by
    intro turn hturn
    rcases List.mem_cons.mp hturn with rfl | hturn
    · exact ⟨rfl, nofun⟩
    · rw [List.eq_of_mem_replicate hturn]
      exact ⟨rfl, nofun⟩
  exact data_arrives id lettersServer letters_well letters_sent hturns (by decide +kernel)
    (by decide +kernel)

end Letters

end DataExchange

end ModelFs
