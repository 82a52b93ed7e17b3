import CStable.Support.Parser
import Mathlib.Data.Nat.Bitwise
import Mathlib.Tactic.NormNum
import Mathlib.Tactic.Ring

/-!
# `CStable.Support.Wire`: little-endian integers and LEB128

The two integer encodings of a binary format, over natural numbers:

* `leBytes w n`: the low `w` bytes of `n`, least significant byte first, and
  `leNat`, the number a byte list stands for. `leNat_leBytes` and
  `leBytes_leNat` are the two round trips.
* `Leb128.encode`: seven bits a byte, the high bit set on every byte but the
  last. `Leb128.decode` reads it back into an integer of `w` bits by or-ing the
  shifted groups together; `Leb128.decode_encode` is the round trip.
-/

set_option autoImplicit false

namespace CStable.Support

/-! ### Little-endian integers -/

/-- The low `w` bytes of `n`, least significant byte first. -/
def leBytes : Nat → Nat → List UInt8
  | 0, _ => []
  | w + 1, n => UInt8.ofNat n :: leBytes w (n / 256)

/-- The number a little-endian byte list stands for. -/
def leNat : List UInt8 → Nat
  | [] => 0
  | b :: bs => b.toNat + 256 * leNat bs

/-- The width is fixed, whatever the number. -/
@[simp] theorem leBytes_length (w n : Nat) : (leBytes w n).length = w := by
  induction w generalizing n with
  | zero => rfl
  | succ w ih => rw [leBytes, List.length_cons, ih]

/-- Decoding the low `w` bytes of `n` gives `n` modulo `256 ^ w`. Nothing says that `n` fits, so
this is what a conversion to a smaller type does. -/
theorem leNat_leBytes (w n : Nat) : leNat (leBytes w n) = n % 256 ^ w := by
  induction w generalizing n with
  | zero => simp [leBytes, leNat, Nat.mod_one]
  | succ w ih =>
    have hsplit : n % 256 ^ (w + 1) = n % 256 + 256 * (n / 256 % 256 ^ w) := by
      rw [pow_succ', Nat.mod_mul]
    rw [leBytes, leNat, ih, UInt8.toNat_ofNat', hsplit]

/-- A number that fits in `w` bytes survives the round trip. -/
theorem leNat_leBytes_of_lt {w n : Nat} (h : n < 256 ^ w) : leNat (leBytes w n) = n := by
  rw [leNat_leBytes, Nat.mod_eq_of_lt h]

/-- A byte list stands for a number below the range of its length. -/
theorem leNat_lt (bs : List UInt8) : leNat bs < 256 ^ bs.length := by
  induction bs with
  | nil => simp [leNat]
  | cons b bs ih =>
    have hb : b.toNat < 256 := b.toNat_lt
    rw [leNat, List.length_cons, pow_succ]
    omega

/-- Encoding the number of a byte list gives the byte list back, as its length is the width. -/
theorem leBytes_leNat (bs : List UInt8) : leBytes bs.length (leNat bs) = bs := by
  induction bs with
  | nil => rfl
  | cons b bs ih =>
    have hb : b.toNat < 256 := b.toNat_lt
    have hdiv : (b.toNat + 256 * leNat bs) / 256 = leNat bs := by omega
    have hlow : UInt8.ofNat (b.toNat + 256 * leNat bs) = b := by
      apply UInt8.toNat_inj.mp
      rw [UInt8.toNat_ofNat']
      omega
    rw [List.length_cons, leNat, leBytes, hdiv, ih, hlow]

/-! ### LEB128 -/

namespace Leb128

/-- Seven bits a byte, the low group first; every byte but the last has its
high bit set. `fuel` bounds the number of bytes. -/
def encode : Nat → Nat → List UInt8
  | 0, _ => []
  | fuel + 1, value =>
    if value >>> 7 = 0 then
      [UInt8.ofNat (value &&& 0x7f)]
    else
      UInt8.ofNat (value &&& 0x7f ||| 0x80) :: encode fuel (value >>> 7)

/-- Read one LEB128 number into an integer of `w` bits: `acc` holds the groups
read so far, `i` counts them. A shift by the width or more takes the count
modulo the width. The input must not end inside the number (`eof`). -/
def decodeFrom {ε : Type} (w : Nat) (eof : ε) :
    Nat → Nat → List UInt8 → Except ε (Nat × List UInt8)
  | _, _, [] => .error eof
  | i, acc, b :: rest =>
    let acc := acc ||| ((b.toNat &&& 0x7f) <<< (7 * i % w)) % 2 ^ w
    if b.toNat &&& 0x80 = 0 then .ok (acc, rest) else decodeFrom w eof (i + 1) acc rest

/-- Read one LEB128 number. -/
def decode {ε : Type} (w : Nat) (eof : ε) : Parser UInt8 ε Nat :=
  decodeFrom w eof 0 0

/-- The low group of a value as a byte: the value modulo 128, with the high bit clear. -/
theorem toNat_last_byte (v : Nat) : (UInt8.ofNat (v &&& 0x7f)).toNat = v % 128 := by
  have hand : v &&& 0x7f = v % 128 := Nat.and_two_pow_sub_one_eq_mod v 7
  rw [hand, UInt8.toNat_ofNat']
  omega

/-- A group with the continuation bit set: 128 more, because the bit is not in the group. -/
theorem toNat_more_byte (v : Nat) :
    (UInt8.ofNat (v &&& 0x7f ||| 0x80)).toNat = 128 + v % 128 := by
  have hand : v &&& 0x7f = v % 128 := Nat.and_two_pow_sub_one_eq_mod v 7
  have hlt : v % 128 < 2 ^ 7 := Nat.mod_lt _ (by norm_num)
  have hor : 128 + v % 128 = 128 ||| v % 128 := Nat.two_pow_add_eq_or_of_lt hlt 1
  rw [hand, Nat.or_comm, ← hor, UInt8.toNat_ofNat']
  omega

/-- Masking seven bits is taking the remainder. -/
theorem low_bits (x : Nat) : x &&& 0x7f = x % 128 :=
  Nat.and_two_pow_sub_one_eq_mod x 7

/-- The continuation bit of a byte is clear exactly below 128. -/
theorem high_bit_eq_zero {x : Nat} (hx : x < 256) : x &&& 0x80 = 0 ↔ x < 128 := by
  have h := Nat.and_two_pow x 7
  rw [Nat.testBit_eq_decide_div_mod_eq] at h
  norm_num at h
  rw [show (0x80 : Nat) = 128 from rfl, h]
  by_cases hlt : x < 128
  · have : x / 128 % 2 = 0 := by omega
    simp [this, hlt]
  · have : x / 128 % 2 = 1 := by omega
    simp [this, hlt]

/-- One step of the accumulator: or-ing the next group in is adding it at its
weight, since the accumulator is below that weight and the sum fits. -/
theorem acc_step {w i acc g : Nat} (hi : 7 * i < w) (hacc : acc < 2 ^ (7 * i))
    (hfit : g * 2 ^ (7 * i) < 2 ^ w) :
    acc ||| (g <<< (7 * i % w)) % 2 ^ w = acc + g * 2 ^ (7 * i) := by
  have hor := Nat.two_pow_add_eq_or_of_lt hacc g
  rw [Nat.mod_eq_of_lt hi, Nat.shiftLeft_eq, Nat.mod_eq_of_lt hfit, Nat.or_comm,
    Nat.mul_comm g, ← hor, Nat.add_comm]

/-- Reading an encoded value from the middle of a number: the groups read so
far stay, and the value is added at its weight. -/
theorem decodeFrom_encode {ε : Type} (w : Nat) (eof : ε) (fuel i acc v : Nat)
    (rest : List UInt8) (hfuel : 0 < fuel) (hv : v < 2 ^ (7 * fuel)) (hi : 7 * i < w)
    (hacc : acc < 2 ^ (7 * i)) (hfit : v * 2 ^ (7 * i) < 2 ^ w) :
    decodeFrom w eof i acc (encode fuel v ++ rest) = .ok (acc + v * 2 ^ (7 * i), rest) := by
  induction fuel generalizing i acc v with
  | zero => omega
  | succ fuel ih =>
    have hlow : v % 128 ≤ v := Nat.mod_le v 128
    have hstep : v % 128 * 2 ^ (7 * i) < 2 ^ w :=
      lt_of_le_of_lt (Nat.mul_le_mul_right _ hlow) hfit
    have hshift : v >>> 7 = v / 128 := Nat.shiftRight_eq_div_pow v 7
    by_cases hz : v >>> 7 = 0
    · -- the last group: its byte is below 128 and the loop stops
      have hsmall : v % 128 = v := by rw [hshift] at hz; omega
      rw [encode, if_pos hz]
      simp only [List.cons_append, List.nil_append, decodeFrom, toNat_last_byte]
      rw [low_bits, Nat.mod_mod, acc_step hi hacc hstep, hsmall,
        if_pos ((high_bit_eq_zero (by omega)).mpr (by omega))]
    · -- a group that is followed by others
      have hne : ¬ (128 + v % 128) &&& 0x80 = 0 := by
        rw [high_bit_eq_zero (by omega)]
        omega
      have hsplit : v = v % 128 + 128 * (v / 128) := by omega
      have hpow : 2 ^ (7 * (i + 1)) = 128 * 2 ^ (7 * i) := by
        rw [show 7 * (i + 1) = 7 + 7 * i by ring, pow_add]
        rfl
      have hv' : v / 128 < 2 ^ (7 * fuel) := by
        rw [show 7 * (fuel + 1) = 7 + 7 * fuel by ring, pow_add] at hv
        exact Nat.div_lt_of_lt_mul hv
      have hpos : 1 ≤ v / 128 := by rw [hshift] at hz; omega
      have hfit' : v / 128 * 2 ^ (7 * (i + 1)) < 2 ^ w := by
        rw [hpow, ← Nat.mul_assoc]
        exact lt_of_le_of_lt (Nat.mul_le_mul_right _ (Nat.div_mul_le_self v 128)) hfit
      have hi' : 7 * (i + 1) < w := by
        by_contra hge
        have h1 : 2 ^ w ≤ 2 ^ (7 * (i + 1)) := Nat.pow_le_pow_right (by norm_num) (by omega)
        have h2 : 1 * 2 ^ (7 * (i + 1)) ≤ v / 128 * 2 ^ (7 * (i + 1)) :=
          Nat.mul_le_mul_right _ hpos
        omega
      have hacc' : acc + v % 128 * 2 ^ (7 * i) < 2 ^ (7 * (i + 1)) := by
        have h1 : v % 128 * 2 ^ (7 * i) ≤ 127 * 2 ^ (7 * i) :=
          Nat.mul_le_mul_right _ (by omega)
        rw [hpow]
        omega
      have hfuel' : 0 < fuel := by
        rcases Nat.eq_zero_or_pos fuel with h0 | h0
        · subst h0
          simp only [Nat.mul_zero, pow_zero] at hv'
          omega
        · exact h0
      rw [encode, if_neg hz]
      simp only [List.cons_append, decodeFrom, toNat_more_byte]
      rw [low_bits, show (128 + v % 128) % 128 = v % 128 by omega, acc_step hi hacc hstep,
        if_neg hne, hshift, ih _ _ _ hfuel' hv' hi' hacc' hfit', hpow]
      congr 2
      calc acc + v % 128 * 2 ^ (7 * i) + v / 128 * (128 * 2 ^ (7 * i))
          = acc + (v % 128 + 128 * (v / 128)) * 2 ^ (7 * i) := by ring
        _ = acc + v * 2 ^ (7 * i) := by rw [← hsplit]

/-- A value of `w` bits encoded with enough fuel is read back. This is `decodeFrom_encode` at
the beginning of a number. -/
theorem decode_encode {ε : Type} {w fuel v : Nat} (eof : ε) (hw : 0 < w) (hfuel : 0 < fuel)
    (hv : v < 2 ^ (7 * fuel)) (hvw : v < 2 ^ w) :
    Parser.Parses (decode w eof) (encode fuel v) v := by
  intro rest
  have h := decodeFrom_encode w eof fuel 0 0 v rest hfuel hv (by omega) (by norm_num)
    (by rwa [Nat.mul_zero, pow_zero, Nat.mul_one])
  rwa [Nat.mul_zero, pow_zero, Nat.mul_one, Nat.zero_add] at h

/-- Inside an encoded number every byte has its high bit set: a number that was cut
off ends the input. -/
theorem decodeFrom_short {ε : Type} (w : Nat) (eof : ε) (fuel i acc v : Nat) {us : List UInt8}
    (hus : us <+: encode fuel v) (hne : us ≠ encode fuel v) :
    decodeFrom w eof i acc us = .error eof := by
  induction fuel generalizing i acc v us with
  | zero => exact absurd (List.prefix_nil.mp hus) hne
  | succ fuel ih =>
    cases us with
    | nil => rfl
    | cons b us =>
      by_cases hz : v >>> 7 = 0
      · -- the only byte of the number is there
        rw [encode, if_pos hz] at hus hne
        obtain ⟨rfl, htail⟩ := List.cons_prefix_cons.mp hus
        exact absurd (congrArg _ (List.prefix_nil.mp htail)) hne
      · rw [encode, if_neg hz] at hus hne
        obtain ⟨rfl, htail⟩ := List.cons_prefix_cons.mp hus
        have hmore : ¬ (128 + v % 128) &&& 0x80 = 0 := by
          rw [high_bit_eq_zero (by omega)]
          omega
        simp only [decodeFrom, toNat_more_byte]
        rw [if_neg hmore]
        exact ih _ _ _ htail fun heq => hne (congrArg _ heq)

end Leb128

end CStable.Support
