import Mathlib.Data.List.Basic

/-!
# Loops around calls that move some of the bytes

`read`, `write`, `pread`, `sendfile` and their like move as many bytes as they please of those they
are asked for, or are interrupted, or fail. The loop around such a call goes on until all is moved.
`moveAll` is that loop, over any list of calls, each with what it comes to and with what it moves
from; between two calls the source may change.

`Drawn` is what can be said of the bytes: each was at its place in the source of some call.

* `moveAll_spec` — **no byte is skipped, moved twice or out of place**, however the calls go.
* `moveAll_eq` — and all are moved when no call fails and each moves something.
-/

namespace ModelFs

/-- What a call comes to. -/
inductive CallResult where
  | interrupted
  | failed (errno : Nat)
  /-- At most as many. -/
  | moved (n : Nat)
  deriving DecidableEq

/-- How a loop ends. -/
inductive LoopEnd where
  | whole
  /-- A call moved nothing. -/
  | dry
  | failed (errno : Nat)
  /-- It has not ended yet. -/
  | waiting
  deriving DecidableEq

variable {γ α : Type*} (src : γ → List α) (result : γ → CallResult)

/-- The loop that moves `len` items of what is at `off` in the source. Before a call it looks if the
position can be named, `stop`, and fails if not. -/
def moveAll (stop : Nat → Option Nat) (off len : Nat) (got : List α) : List γ → LoopEnd × List α
  | [] => (if len ≤ got.length then .whole else .waiting, got)
  | call :: calls =>
    if len ≤ got.length then (.whole, got)
    else
      match stop (off + got.length) with
      | some errno => (.failed errno, got)
      | none =>
        match result call with
        | .interrupted => moveAll stop off len got calls
        | .failed errno => (.failed errno, got)
        | .moved n =>
          let chunk := ((src call).drop (off + got.length)).take (min n (len - got.length))
          if chunk = [] then (.dry, got) else moveAll stop off len (got ++ chunk) calls

/-- Each item was at its place in the source of a call. -/
def Drawn (calls : List γ) (off : Nat) (items : List α) : Prop :=
  ∀ i x, items[i]? = some x → ∃ call ∈ calls, (src call)[off + i]? = some x

variable {src result} {calls : List γ} {off : Nat} {items : List α}

theorem drawn_nil : Drawn src calls off [] := by
  intro i x hx
  simp at hx

theorem Drawn.mono (h : Drawn src calls off items) {more : List γ} (hsub : calls ⊆ more) :
    Drawn src more off items := by
  intro i x hx
  obtain ⟨call, hcall, hat⟩ := h i x hx
  exact ⟨call, hsub hcall, hat⟩

theorem Drawn.append (h : Drawn src calls off items) {more : List α}
    (hmore : Drawn src calls (off + items.length) more) : Drawn src calls off (items ++ more) := by
  intro i x hx
  by_cases hi : i < items.length
  · rw [List.getElem?_append_left hi] at hx
    exact h i x hx
  · rw [List.getElem?_append_right (Nat.not_lt.mp hi)] at hx
    obtain ⟨call, hcall, hat⟩ := hmore _ _ hx
    refine ⟨call, hcall, ?_⟩
    rwa [show off + items.length + (i - items.length) = off + i by omega] at hat

theorem Drawn.of_prefix (h : Drawn src calls off items) {first : List α}
    (hfirst : first <+: items) : Drawn src calls off first := by
  obtain ⟨rest, rfl⟩ := hfirst
  intro i x hx
  apply h i x
  rw [List.getElem?_append_left (List.getElem?_eq_some_iff.mp hx).1]
  exact hx

/-- What is drawn from one source is of it. -/
theorem Drawn.eq_of_same (h : Drawn src calls off items) {whole : List α}
    (hsame : ∀ call ∈ calls, ∀ i < items.length, (src call)[off + i]? = whole[off + i]?) :
    items = (whole.drop off).take items.length := by
  apply List.ext_getElem?
  intro i
  by_cases hi : i < items.length
  · obtain ⟨call, hcall, hat⟩ := h i items[i] (List.getElem?_eq_getElem hi)
    rw [List.getElem?_take_of_lt hi, List.getElem?_drop, ← hsame call hcall i hi, hat,
      List.getElem?_eq_getElem hi]
  · rw [List.getElem?_eq_none (Nat.not_lt.mp hi), List.getElem?_eq_none]
    rw [List.length_take]
    omega

/-- **One call's share.** -/
theorem drawn_take {call : γ} (hcall : call ∈ calls) (n : Nat) :
    Drawn src calls off (((src call).drop off).take n) := by
  intro i x hx
  refine ⟨call, hcall, ?_⟩
  have hi : i < n := by
    by_contra hn
    rw [List.getElem?_eq_none] at hx
    · cases hx
    · rw [List.length_take]
      omega
  rwa [List.getElem?_take_of_lt hi, List.getElem?_drop] at hx

/-- **What a loop has moved when it ends**, on top of what it had: the items at their places, not
more than it was asked for, and all of them if it says so. -/
theorem moveAll_spec (stop : Nat → Option Nat) {len : Nat} (got : List α) (calls : List γ)
    (hgot : got.length ≤ len) :
    ∃ more, (moveAll src result stop off len got calls).2 = got ++ more ∧
      Drawn src calls (off + got.length) more ∧ (got ++ more).length ≤ len ∧
      ((moveAll src result stop off len got calls).1 = .whole → (got ++ more).length = len) := by
  induction calls generalizing got with
  | nil =>
    refine ⟨[], by simp [moveAll], drawn_nil, by simpa using hgot, fun hend => ?_⟩
    rw [moveAll] at hend
    dsimp only at hend
    split at hend
    · rw [List.append_nil]
      omega
    · cases hend
  | cons call calls ih =>
    have hstay : ∃ more, got = got ++ more ∧ Drawn src (call :: calls) (off + got.length) more ∧
        (got ++ more).length ≤ len :=
      ⟨[], by simp, drawn_nil, by simpa using hgot⟩
    rw [moveAll]
    split
    · refine ⟨[], by simp, drawn_nil, by simpa using hgot, fun _ => ?_⟩
      rw [List.append_nil]
      omega
    · split
      · obtain ⟨more, heq, hdrawn, hle⟩ := hstay
        exact ⟨more, heq, hdrawn, hle, nofun⟩
      · split
        · obtain ⟨more, heq, hdrawn, hle, hwhole⟩ := ih got hgot
          exact ⟨more, heq, hdrawn.mono (List.subset_cons_self _ _), hle, hwhole⟩
        · obtain ⟨more, heq, hdrawn, hle⟩ := hstay
          exact ⟨more, heq, hdrawn, hle, nofun⟩
        · next n _ =>
          dsimp only
          split
          · obtain ⟨more, heq, hdrawn, hle⟩ := hstay
            exact ⟨more, heq, hdrawn, hle, nofun⟩
          · have hshort : (got ++ ((src call).drop (off + got.length)).take
                (min n (len - got.length))).length ≤ len := by
              rw [List.length_append, List.length_take]
              omega
            obtain ⟨more, heq, hdrawn, hle, hwhole⟩ := ih _ hshort
            rw [List.append_assoc] at heq hle hwhole
            refine ⟨_, heq, ?_, hle, hwhole⟩
            apply (drawn_take List.mem_cons_self _).append
            rw [List.length_append, ← Nat.add_assoc] at hdrawn
            exact hdrawn.mono (List.subset_cons_self _ _)

/-- No call fails, and enough of them move something. -/
structure Healthy (result : γ → CallResult) (len : Nat) (calls : List γ) : Prop where
  moves : ∀ call ∈ calls, result call = .interrupted ∨ ∃ n, result call = .moved (n + 1)
  enough : len ≤ calls.countP fun call => result call ≠ .interrupted

/-- **All is moved** when no call fails, each that is not interrupted moves something, and the
sources are long enough. -/
theorem moveAll_whole {stop : Nat → Option Nat} {len : Nat} {got : List α}
    (hstop : ∀ pos, off ≤ pos → pos < off + len → stop pos = none)
    (hlong : ∀ call ∈ calls, off + len ≤ (src call).length)
    (hcalls : Healthy result (len - got.length) calls) :
    (moveAll src result stop off len got calls).1 = .whole := by
  induction calls generalizing got with
  | nil =>
    have henough := hcalls.enough
    rw [List.countP_nil] at henough
    rw [moveAll, if_pos (by omega)]
  | cons call calls ih =>
    have hrest : ∀ call' ∈ calls, off + len ≤ (src call').length := fun call' hcall' =>
      hlong call' (List.mem_cons_of_mem _ hcall')
    have hmoves : ∀ call' ∈ calls,
        result call' = .interrupted ∨ ∃ n, result call' = .moved (n + 1) :=
      fun call' hcall' => hcalls.moves call' (List.mem_cons_of_mem _ hcall')
    have henough := hcalls.enough
    rw [moveAll]
    split
    · rfl
    · next hless =>
      rw [hstop _ (by omega) (by omega)]
      dsimp only
      rcases hcalls.moves call List.mem_cons_self with hcall | ⟨n, hcall⟩
      · rw [List.countP_cons_of_neg (by simp [hcall])] at henough
        rw [hcall]
        exact ih hrest ⟨hmoves, henough⟩
      · rw [List.countP_cons_of_pos (by simp [hcall])] at henough
        rw [hcall]
        have hlen := hlong call List.mem_cons_self
        have hchunk : (((src call).drop (off + got.length)).take
            (min (n + 1) (len - got.length))).length = min (n + 1) (len - got.length) := by
          rw [List.length_take, List.length_drop]
          omega
        dsimp only
        rw [if_neg (List.ne_nil_of_length_pos (by omega))]
        apply ih hrest ⟨hmoves, ?_⟩
        rw [List.length_append, hchunk]
        omega

theorem Healthy.mono {len len' : Nat} (h : Healthy result len calls) (hle : len' ≤ len) :
    Healthy result len' calls := ⟨h.moves, Nat.le_trans hle h.enough⟩

/-- So they are when the source holds still. -/
theorem moveAll_eq {stop : Nat → Option Nat} {len : Nat} {whole : List α}
    (hstop : ∀ pos, off ≤ pos → pos < off + len → stop pos = none)
    (hsame : ∀ call ∈ calls, src call = whole) (hlong : off + len ≤ whole.length)
    (hcalls : Healthy result len calls) :
    moveAll src result stop off len [] calls = (.whole, (whole.drop off).take len) := by
  obtain ⟨items, heq, hdrawn, -, hall⟩ := @moveAll_spec _ _ src result off stop len [] calls
    (Nat.zero_le _)
  have hwhole : (moveAll src result stop off len [] calls).1 = .whole := by
    apply moveAll_whole hstop
    · intro call hcall
      rwa [hsame call hcall]
    · exact hcalls
  have hlen := hall hwhole
  rw [List.nil_append] at heq hlen
  have hitems : items = (whole.drop off).take len := by
    rw [← hlen]
    exact hdrawn.eq_of_same fun call hcall _ _ => by rw [hsame call hcall]
  rw [← hitems, ← heq, ← hwhole]

end ModelFs
