import Mathlib.Algebra.BigOperators.Fin
import Mathlib.Data.Nat.Bitwise
import StackSurvey.Proofs.Dwarf.Reading

namespace StackSurvey.Leb128

open Dwarf

/-- The number made of the low seven bits of each byte. -/
def payload : List UInt8 → Nat
  | [] => 0
  | b :: bytes => b.toNat % 128 + 128 * payload bytes

theorem two_pow_seven_mul_succ (n : Nat) : 2 ^ (7 * (n + 1)) = 128 * 2 ^ (7 * n) := by
  rw [Nat.mul_succ, Nat.pow_add, Nat.mul_comm]

theorem two_pow_of_not_lt {n : Nat} (h : ¬ n < 64) : 2 ^ n = 2 ^ 64 * 2 ^ (n - 64) := by
  rw [← Nat.pow_add, Nat.add_sub_of_le (Nat.le_of_not_lt h)]

theorem payload_eq_sum (bytes : List UInt8) :
    payload bytes = ∑ i : Fin bytes.length, (bytes.get i).toNat % 128 * 2 ^ (7 * i.val) := by
  induction bytes with
  | nil => rfl
  | cons b bytes ih =>
    have hrest (i : Fin bytes.length) :
        128 * ((bytes.get i).toNat % 128 * 2 ^ (7 * i.val)) =
          ((b :: bytes).get i.succ).toNat % 128 * 2 ^ (7 * i.succ.val) := by
      rw [Fin.val_succ, two_pow_seven_mul_succ, Nat.mul_left_comm]
      rfl
    rw [payload, ih, Finset.mul_sum, Finset.sum_congr rfl fun i _ => hrest i]
    symm
    simpa using Fin.sum_univ_succ fun i : Fin (bytes.length + 1) =>
      ((b :: bytes).get i).toNat % 128 * 2 ^ (7 * i.val)

theorem payload_lt (bytes : List UInt8) : payload bytes < 2 ^ (7 * bytes.length) := by
  induction bytes with
  | nil => decide
  | cons b bytes ih =>
    have hpow := two_pow_seven_mul_succ bytes.length
    rw [payload, List.length_cons]
    omega

theorem payload_mod {bytes : List UInt8} (h : 7 * bytes.length < 64) :
    payload bytes % 2 ^ 64 = payload bytes :=
  Nat.mod_eq_of_lt (Nat.lt_trans (payload_lt bytes) (Nat.pow_lt_pow_right (by decide) h))

theorem payload_concat (bytes : List UInt8) (b : UInt8) :
    payload (bytes ++ [b]) = payload bytes + 2 ^ (7 * bytes.length) * (b.toNat % 128) := by
  induction bytes with
  | nil => simp [payload]
  | cons c bytes ih =>
    rw [List.cons_append, payload, ih, payload, List.length_cons, two_pow_seven_mul_succ,
      Nat.mul_add, Nat.add_assoc, Nat.mul_assoc]

namespace Bits

theorem ofBytes_concat (bytes : List UInt8) (b : UInt8) :
    ofBytes (bytes ++ [b]) = (ofBytes bytes).add b := by
  rw [ofBytes, List.foldl_append]
  rfl

theorem toNat_shift_ofBytes {bytes : List UInt8} (h : bytes.length < 2 ^ 29) :
    (ofBytes bytes).shift.toNat = 7 * bytes.length := by
  induction bytes using List.reverseRecOn with
  | nil => rfl
  | append_singleton bytes b ih =>
    rw [List.length_append, List.length_singleton] at h ⊢
    have hshift := ih (by omega)
    rw [ofBytes_concat, add, UInt32.toNat_add, hshift]
    change (7 * bytes.length + 7) % 2 ^ 32 = _
    omega

/-- Bits placed above all that are set are added to them. -/
theorem toNat_or_shiftLeft {word bits place : UInt64} (hplace : place.toNat < 64)
    (hword : word.toNat < 2 ^ place.toNat) :
    (word ||| bits <<< place).toNat = (word.toNat + 2 ^ place.toNat * bits.toNat) % 2 ^ 64 := by
  have hsplit : 2 ^ 64 = 2 ^ place.toNat * 2 ^ (64 - place.toNat) := by
    rw [← Nat.pow_add, Nat.add_sub_of_le (Nat.le_of_lt hplace)]
  have hshift : (bits <<< place).toNat =
      2 ^ place.toNat * (bits.toNat % 2 ^ (64 - place.toNat)) := by
    rw [UInt64.toNat_shiftLeft, Nat.mod_eq_of_lt hplace, Nat.shiftLeft_eq, Nat.mul_comm, hsplit,
      Nat.mul_mod_mul_left]
  rw [UInt64.toNat_or, hshift, Nat.or_comm, ← Nat.two_pow_add_eq_or_of_lt hword, hsplit,
    Nat.mod_mul, Nat.add_mul_mod_self_left, Nat.mod_eq_of_lt hword,
    Nat.add_mul_div_left _ _ (Nat.two_pow_pos _), Nat.div_eq_of_lt hword, Nat.zero_add,
    Nat.add_comm]

theorem toNat_and_low (b : UInt8) : (b &&& 0x7f).toUInt64.toNat = b.toNat % 128 := by
  rw [UInt8.toNat_toUInt64, UInt8.toNat_and]
  exact Nat.and_two_pow_sub_one_eq_mod b.toNat 7

theorem shift_lt_iff {bytes : List UInt8} (h : bytes.length < 2 ^ 29) :
    (ofBytes bytes).shift < 64 ↔ 7 * bytes.length < 64 := by
  rw [UInt32.lt_iff_toNat_lt, toNat_shift_ofBytes h]
  rfl

theorem toNat_place {bytes : List UInt8} (h : bytes.length < 2 ^ 29) :
    (ofBytes bytes).shift.toUInt64.toNat = 7 * bytes.length := toNat_shift_ofBytes h

theorem word_lt_of_room {bytes : List UInt8} (h : bytes.length < 2 ^ 29)
    (hword : (ofBytes bytes).word.toNat = payload bytes) :
    (ofBytes bytes).word.toNat < 2 ^ (ofBytes bytes).shift.toUInt64.toNat := by
  rw [hword, toNat_place h]
  exact payload_lt bytes

theorem toNat_word_ofBytes {bytes : List UInt8} (h : bytes.length < 2 ^ 29) :
    (ofBytes bytes).word.toNat = payload bytes % 2 ^ 64 := by
  induction bytes using List.reverseRecOn with
  | nil => rfl
  | append_singleton bytes b ih =>
    rw [List.length_append, List.length_singleton] at h
    have hlength : bytes.length < 2 ^ 29 := by omega
    have hword := ih hlength
    rw [ofBytes_concat, add, payload_concat]
    by_cases hroom : 7 * bytes.length < 64
    · have hplace := toNat_place hlength
      rw [payload_mod hroom] at hword
      rw [if_pos ((shift_lt_iff hlength).2 hroom),
        toNat_or_shiftLeft (hplace ▸ hroom) (word_lt_of_room hlength hword), hword, hplace,
        toNat_and_low]
    · rw [if_neg (mt (shift_lt_iff hlength).1 hroom), hword, two_pow_of_not_lt hroom, Nat.mul_assoc,
        Nat.add_mul_mod_self_left]

end Bits

theorem unsigned_eq {bytes : List UInt8} (h : bytes.length < 2 ^ 29) :
    unsigned bytes = .ofNat (payload bytes) := by
  apply UInt64.toNat_inj.1
  rw [unsigned, Bits.toNat_word_ofBytes h, UInt64.toNat_ofNat']

theorem isNegative_eq_testBit (b : UInt8) : isNegative b = b.toNat.testBit 6 := by
  have hand : (b &&& 0x40).toNat = (b.toNat.testBit 6).toNat * 2 ^ 6 := by
    rw [UInt8.toNat_and]
    exact Nat.and_two_pow b.toNat 6
  have hzero : b &&& 0x40 = 0 ↔ (b &&& 0x40).toNat = 0 := UInt8.toNat_inj.symm
  rw [isNegative, bne, Bool.eq_iff_iff, Bool.not_eq_true', beq_eq_false_iff_ne, ne_eq, hzero, hand]
  cases b.toNat.testBit 6 <;> decide

/-- The number that a signed group stands for: if it is negative, what it lacks to the next power of
two above its bits. -/
def signedPayload (bytes : List UInt8) : Int :=
  payload bytes - if bytes.getLast?.any isNegative then (2 ^ (7 * bytes.length) : Nat) else 0

theorem toInt64_eq_ofInt {word : UInt64} {n : Int} (h : (word.toNat : Int) = n % (2 ^ 64 : Nat)) :
    word.toInt64 = .ofInt n := by
  symm
  rw [Int64.ofInt_eq_iff_bmod_eq_toInt]
  have htoInt : word.toInt64.toInt = Int.bmod word.toNat (2 ^ 64) :=
    BitVec.toInt_eq_toNat_bmod word.toBitVec
  rw [htoInt, h, Int.emod_bmod]

/-- A sign that fills a word from a place on takes away the power of two of the place. -/
theorem toInt64_or_ones {word place : UInt64} (hplace : place.toNat < 64)
    (hword : word.toNat < 2 ^ place.toNat) :
    (word ||| (-1) <<< place).toInt64 = .ofInt (word.toNat - (2 ^ place.toNat : Nat)) := by
  have hones : (-1 : UInt64).toNat = 2 ^ 64 - 1 := rfl
  apply toInt64_eq_ofInt
  rw [Bits.toNat_or_shiftLeft hplace hword, hones]
  omega

theorem signed_eq {bytes : List UInt8} (h : bytes.length < 2 ^ 29) :
    signed bytes = .ofInt (signedPayload bytes) := by
  have hword := Bits.toNat_word_ofBytes h
  rw [signed, signedPayload]
  simp only [Bits.shift_lt_iff h]
  by_cases hnegative : bytes.getLast?.any isNegative = true
  · rw [if_pos hnegative]
    by_cases hroom : 7 * bytes.length < 64
    · have hplace := Bits.toNat_place h
      rw [payload_mod hroom] at hword
      rw [if_pos ⟨hroom, hnegative⟩,
        toInt64_or_ones (hplace ▸ hroom) (Bits.word_lt_of_room h hword), hword, hplace]
    · -- The power of two is a multiple of 2^64, so leaving it out changes nothing.
      rw [if_neg fun hboth => hroom hboth.1]
      apply toInt64_eq_ofInt
      rw [hword, two_pow_of_not_lt hroom]
      omega
  · rw [if_neg hnegative, if_neg fun hboth => hnegative hboth.2]
    apply toInt64_eq_ofInt
    rw [hword]
    omega

end StackSurvey.Leb128
