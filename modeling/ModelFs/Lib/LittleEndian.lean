import Mathlib.Data.Nat.ModEq
import Mathlib.Tactic.Ring

/-!
# Fixed-width little-endian words

A word of `w` bytes is written least significant byte first. `leBytes w v` drops whatever of
`v` does not fit; `leNat` reads any byte string back.

* `leNat_leBytes_mod`, `leNat_leBytes` — the round trip, modulo `256 ^ w`, exact below it.
* `leBytes_leNat` — and back: a byte string spells its number at its own width.
* `beNat_append`, `beNat_inj` — the same bytes read the other way round.
-/

namespace ModelFs

/-- The low `w` bytes of `v`, least significant first. -/
def leBytes : Nat → Nat → List UInt8
  | 0, _ => []
  | w + 1, v => UInt8.ofNat v :: leBytes w (v / 256)

/-- The number a byte string spells, least significant byte first. -/
def leNat : List UInt8 → Nat
  | [] => 0
  | b :: bs => b.toNat + 256 * leNat bs

@[simp] theorem length_leBytes (w v : Nat) : (leBytes w v).length = w := by
  induction w generalizing v with
  | zero => rfl
  | succ w ih => simp [leBytes, ih]

theorem leNat_leBytes_mod (w v : Nat) : leNat (leBytes w v) = v % 256 ^ w := by
  induction w generalizing v with
  | zero => simp [leBytes, leNat, Nat.mod_one]
  | succ w ih =>
    have hbyte : (UInt8.ofNat v).toNat = v % 256 := by simp
    rw [leBytes, leNat, ih, hbyte, pow_succ', Nat.mod_mul]

/-- **Round trip.** A number that fits its width reads back unchanged. -/
theorem leNat_leBytes {w v : Nat} (h : v < 256 ^ w) : leNat (leBytes w v) = v := by
  rw [leNat_leBytes_mod, Nat.mod_eq_of_lt h]

theorem leNat_lt (bs : List UInt8) : leNat bs < 256 ^ bs.length := by
  induction bs with
  | nil => simp [leNat]
  | cons b bs ih =>
    have hb : b.toNat < 256 := b.toNat_lt
    rw [leNat, List.length_cons, pow_succ]
    omega

/-- **Back.** A byte string is the spelling of the number that it spells. -/
theorem leBytes_leNat (bs : List UInt8) : leBytes bs.length (leNat bs) = bs := by
  induction bs with
  | nil => rfl
  | cons b bs ih =>
    have hlow : UInt8.ofNat (b.toNat + 256 * leNat bs) = b := by
      apply UInt8.toNat_inj.mp
      have hb : b.toNat < 256 := b.toNat_lt
      simp only [UInt8.toNat_ofNat']
      omega
    have hrest : (b.toNat + 256 * leNat bs) / 256 = leNat bs := by
      have hb : b.toNat < 256 := b.toNat_lt
      omega
    rw [List.length_cons, leNat, leBytes, hlow, hrest, ih]

/-- The same for a word in front of more bytes. -/
theorem leBytes_leNat_take {w : Nat} {bs : List UInt8} (h : w ≤ bs.length) :
    leBytes w (leNat (bs.take w)) = bs.take w := by
  have hlen : (bs.take w).length = w := List.length_take_of_le h
  have hback := leBytes_leNat (bs.take w)
  rwa [hlen] at hback

theorem leNat_append (bs cs : List UInt8) :
    leNat (bs ++ cs) = leNat bs + 256 ^ bs.length * leNat cs := by
  induction bs with
  | nil => simp [leNat]
  | cons b bs ih =>
    rw [List.cons_append, leNat, leNat, ih, List.length_cons, pow_succ']
    ring

theorem leNat_inj {bs cs : List UInt8} (hlen : bs.length = cs.length) (h : leNat bs = leNat cs) :
    bs = cs := by
  rw [← leBytes_leNat bs, ← leBytes_leNat cs, hlen, h]

/-! ## Big-endian words -/

/-- The number a byte string spells, most significant byte first. -/
def beNat (bs : List UInt8) : Nat := leNat bs.reverse

theorem beNat_lt (bs : List UInt8) : beNat bs < 256 ^ bs.length := by
  rw [← List.length_reverse]
  exact leNat_lt _

theorem beNat_append (bs cs : List UInt8) :
    beNat (bs ++ cs) = beNat bs * 256 ^ cs.length + beNat cs := by
  rw [beNat, List.reverse_append, leNat_append, List.length_reverse, beNat, beNat]
  ring

theorem beNat_inj {bs cs : List UInt8} (hlen : bs.length = cs.length) (h : beNat bs = beNat cs) :
    bs = cs := by
  apply List.reverse_inj.mp
  exact leNat_inj (by simpa using hlen) h

end ModelFs
