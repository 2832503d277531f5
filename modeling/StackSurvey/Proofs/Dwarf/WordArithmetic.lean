import Mathlib.Algebra.GroupWithZero.Nat
import StackSurvey.Dwarf.Operation
import StackSurvey.Proofs.Dwarf.LineMachine

namespace StackSurvey.Dwarf

theorem ofInt_toInt64 (a : UInt64) : UInt64.ofInt a.toInt64.toInt = a := ofInt_toInt a.toInt64

theorem ofInt_bmod (n : Int) : UInt64.ofInt (n.bmod (2 ^ 64)) = .ofInt n := by
  have h : n.bmod (2 ^ 64) % 2 ^ 64 = n % 2 ^ 64 := by
    rw [Int.bmod]
    split <;> omega
  rw [UInt64.ofInt, h, UInt64.ofInt]

theorem toUInt64_eq_of_bmod {a : Int64} {n : Int} (h : a.toInt = n.bmod (2 ^ 64)) :
    a.toUInt64 = .ofInt n := by
  rw [← ofInt_toInt, h, ofInt_bmod]

theorem toInt64_inj {a b : UInt64} : a.toInt64.toInt = b.toInt64.toInt ↔ a = b := by
  constructor
  · intro h
    rw [← ofInt_toInt64 a, h, ofInt_toInt64]
  · rintro rfl
    rfl

namespace UnaryOp

/-- The integer that an operation makes of a word. -/
def integer (op : UnaryOp) (a : UInt64) : Int :=
  match op with
  | abs => a.toInt64.toInt.natAbs
  | neg => -a.toInt64.toInt
  | not => -a.toInt64.toInt - 1

theorem toUInt64_abs (a : Int64) : a.abs.toUInt64 = .ofInt a.toInt.natAbs := by
  have habs : a.abs.toBitVec = if a.toBitVec.msb then -a.toBitVec else a.toBitVec := rfl
  rw [BitVec.msb_eq_toInt] at habs
  by_cases hneg : a.toInt < 0
  · have hval : a.abs = -a := Int64.toBitVec_inj.1 (habs.trans (if_pos (decide_eq_true hneg)))
    rw [hval, Int.ofNat_natAbs_of_nonpos (Int.le_of_lt hneg)]
    exact toUInt64_eq_of_bmod (Int64.toInt_neg a)
  · have hval : a.abs = a := Int64.toBitVec_inj.1 (habs.trans (if_neg (by simpa using hneg)))
    rw [hval, Int.natAbs_of_nonneg (Int.not_lt.1 hneg), ofInt_toInt]

theorem apply_eq (op : UnaryOp) (a : UInt64) : op.apply a = .ofInt (op.integer a) := by
  cases op with
  | abs => exact toUInt64_abs a.toInt64
  | neg => rw [apply, integer, UInt64.ofInt_neg, ofInt_toInt64]
  | not =>
    have hone : UInt64.ofInt 1 = 1 := by decide
    rw [apply, integer, Int.sub_eq_add_neg, UInt64.ofInt_add, UInt64.ofInt_neg, UInt64.ofInt_neg,
      ofInt_toInt64, hone, UInt64.not_eq_neg_sub, UInt64.sub_eq_add_neg]

end UnaryOp

namespace BinaryOp

/-- A truth value as an integer. -/
def truth (p : Prop) [Decidable p] : Int := if p then 1 else 0

/-- The integer that an operation makes of two words, if it does not divide by zero. Signed
division goes toward zero, and shifts are products and quotients by a power of two. -/
def integer? (op : BinaryOp) (a b : UInt64) : Option Int :=
  match op with
  | and => some (a.toNat &&& b.toNat : Nat)
  | or => some (a.toNat ||| b.toNat : Nat)
  | xor => some (a.toNat ^^^ b.toNat : Nat)
  | plus => some (a.toNat + b.toNat)
  | minus => some (a.toNat - b.toNat)
  | mul => some (a.toNat * b.toNat)
  | div => if b = 0 then none else some (a.toInt64.toInt.tdiv b.toInt64.toInt)
  | mod => if b = 0 then none else some (a.toNat % b.toNat : Nat)
  | shl => some (a.toNat * 1 <<< b.toNat : Nat)
  | shr => some (a.toNat / 1 <<< b.toNat : Nat)
  | shra => some (a.toInt64.toInt.fdiv (1 <<< b.toNat : Nat))
  | eq => some (truth (a.toInt64.toInt = b.toInt64.toInt))
  | ne => some (truth (a.toInt64.toInt ≠ b.toInt64.toInt))
  | ge => some (truth (a.toInt64.toInt ≥ b.toInt64.toInt))
  | gt => some (truth (a.toInt64.toInt > b.toInt64.toInt))
  | le => some (truth (a.toInt64.toInt ≤ b.toInt64.toInt))
  | lt => some (truth (a.toInt64.toInt < b.toInt64.toInt))

theorem integer?_eq_none_iff (op : BinaryOp) (a b : UInt64) :
    op.integer? a b = none ↔ (op = div ∨ op = mod) ∧ b = 0 := by
  cases op <;> simp [integer?]

theorem ofInt_truth (p : Prop) [Decidable p] : UInt64.ofInt (truth p) = if p then 1 else 0 := by
  rw [truth]
  split <;> rfl

theorem shiftLeft_dvd_of_le {n : Nat} (h : 64 ≤ n) : 1 <<< 64 ∣ 1 <<< n := by
  rw [Nat.one_shiftLeft, Nat.one_shiftLeft]
  exact Nat.pow_dvd_pow 2 h

theorem shiftLeft_le_of_le {n : Nat} (h : 64 ≤ n) : 1 <<< 64 ≤ 1 <<< n := by
  rw [Nat.one_shiftLeft, Nat.one_shiftLeft]
  exact Nat.pow_le_pow_right (by decide) h

theorem shl_eq (a b : UInt64) :
    (if b < 64 then a <<< b else 0) = UInt64.ofNat (a.toNat * 1 <<< b.toNat) := by
  apply UInt64.toNat_inj.1
  rw [UInt64.toNat_ofNat']
  split
  · rename_i hlt
    have hlt : b.toNat < 64 := UInt64.lt_iff_toNat_lt.1 hlt
    rw [UInt64.toNat_shiftLeft, Nat.mod_eq_of_lt hlt, Nat.shiftLeft_eq, Nat.one_shiftLeft]
  · rename_i hge
    have hle : 64 ≤ b.toNat := UInt64.le_iff_toNat_le.1 (UInt64.not_lt.1 hge)
    exact (Nat.mod_eq_zero_of_dvd (Nat.dvd_mul_left_of_dvd (shiftLeft_dvd_of_le hle) _)).symm

theorem shr_eq (a b : UInt64) :
    (if b < 64 then a >>> b else 0) = UInt64.ofNat (a.toNat / 1 <<< b.toNat) := by
  apply UInt64.toNat_inj.1
  rw [UInt64.toNat_ofNat', Nat.mod_eq_of_lt (Nat.lt_of_le_of_lt (Nat.div_le_self ..) a.toNat_lt)]
  split
  · rename_i hlt
    have hlt : b.toNat < 64 := UInt64.lt_iff_toNat_lt.1 hlt
    rw [UInt64.toNat_shiftRight, Nat.mod_eq_of_lt hlt, Nat.shiftRight_eq_div_pow,
      Nat.one_shiftLeft]
  · rename_i hge
    have hle : 64 ≤ b.toNat := UInt64.le_iff_toNat_le.1 (UInt64.not_lt.1 hge)
    exact (Nat.div_eq_of_lt (Nat.lt_of_lt_of_le a.toNat_lt (shiftLeft_le_of_le hle))).symm

theorem toInt_shiftRight (a b : UInt64) (h : b.toNat < 64) :
    (a.toInt64 >>> b.toInt64).toInt = a.toInt64.toInt.fdiv (1 <<< b.toNat : Nat) := by
  have hmsb : b.toBitVec.msb = false := by
    rw [BitVec.msb_eq_false_iff_two_mul_lt]
    change 2 * b.toNat < 2 ^ 64
    omega
  have hcount : (b.toBitVec.smod 64).toNat = b.toNat := by
    rw [BitVec.toNat_smod, hmsb]
    exact Nat.mod_eq_of_lt h
  have hshift : (a.toInt64 >>> b.toInt64).toBitVec =
      a.toBitVec.sshiftRight (b.toBitVec.smod 64).toNat := Int64.toBitVec_shiftRight ..
  rw [← Int64.toInt_toBitVec, hshift, hcount, BitVec.toInt_sshiftRight, Int.shiftRight_eq_div_pow,
    Int.fdiv_eq_ediv_of_nonneg _ (Int.natCast_nonneg _), Nat.one_shiftLeft]
  rfl

theorem fdiv_of_le (a : UInt64) {n : Nat} (h : 64 ≤ n) :
    a.toInt64.toInt.fdiv (1 <<< n : Nat) = if a.toInt64.toInt < 0 then -1 else 0 := by
  have hlow : -2 ^ 63 ≤ a.toInt64.toInt := Int64.le_toInt _
  have hhigh : a.toInt64.toInt < 2 ^ 63 := Int64.toInt_lt _
  have hwidth := shiftLeft_le_of_le h
  rw [Int.fdiv_eq_ediv_of_nonneg _ (Int.natCast_nonneg _)]
  split
  · exact Int.ediv_eq_neg_one_of_neg_of_le (by omega) (by omega)
  · exact Int.ediv_eq_zero_of_lt (by omega) (by omega)

theorem shra_eq (a b : UInt64) :
    (if b < 64 then (a.toInt64 >>> b.toInt64).toUInt64
      else if a.toInt64 < 0 then -1 else 0) =
      UInt64.ofInt (a.toInt64.toInt.fdiv (1 <<< b.toNat : Nat)) := by
  by_cases hlt : b < 64
  · rw [if_pos hlt, ← toInt_shiftRight a b (UInt64.lt_iff_toNat_lt.1 hlt), ofInt_toInt]
  · have hle : 64 ≤ b.toNat := UInt64.le_iff_toNat_le.1 (UInt64.not_lt.1 hlt)
    have hsign : a.toInt64 < 0 ↔ a.toInt64.toInt < 0 := Int64.lt_iff_toInt_lt
    rw [if_neg hlt, fdiv_of_le a hle]
    simp only [hsign]
    split <;> decide

theorem apply_eq (op : BinaryOp) (a b : UInt64) :
    op.apply a b = (op.integer? a b).elim (.error .divisionByZero) fun n => .ok (.ofInt n) := by
  cases op with
  | and => rw [apply, integer?, Option.elim_some, ← UInt64.toNat_and, ofInt_toNat]
  | or => rw [apply, integer?, Option.elim_some, ← UInt64.toNat_or, ofInt_toNat]
  | xor => rw [apply, integer?, Option.elim_some, ← UInt64.toNat_xor, ofInt_toNat]
  | plus => rw [apply, integer?, Option.elim_some, UInt64.ofInt_add, ofInt_toNat, ofInt_toNat]
  | minus =>
    rw [apply, integer?, Option.elim_some, Int.sub_eq_add_neg, UInt64.ofInt_add, UInt64.ofInt_neg,
      ofInt_toNat, ofInt_toNat, UInt64.sub_eq_add_neg]
  | mul => rw [apply, integer?, Option.elim_some, UInt64.ofInt_mul, ofInt_toNat, ofInt_toNat]
  | div =>
    rw [apply, integer?]
    split
    · rfl
    · exact congrArg _ (toUInt64_eq_of_bmod (Int64.toInt_div ..))
  | mod =>
    rw [apply, integer?]
    split
    · rfl
    · rw [Option.elim_some, ← UInt64.toNat_mod, ofInt_toNat]
  | shl => rw [apply, integer?, Option.elim_some, ofInt_natCast, shl_eq]
  | shr => rw [apply, integer?, Option.elim_some, ofInt_natCast, shr_eq]
  | shra => rw [apply, integer?, Option.elim_some, shra_eq]
  | eq => simp only [apply, integer?, Option.elim_some, ofInt_truth, toInt64_inj]
  | ne => simp only [apply, integer?, Option.elim_some, ofInt_truth, toInt64_inj, ne_eq, ite_not]
  | ge =>
    simp only [apply, integer?, Option.elim_some, ofInt_truth, ge_iff_le, Int64.le_iff_toInt_le]
  | gt =>
    simp only [apply, integer?, Option.elim_some, ofInt_truth, gt_iff_lt, Int64.lt_iff_toInt_lt]
  | le => simp only [apply, integer?, Option.elim_some, ofInt_truth, Int64.le_iff_toInt_le]
  | lt => simp only [apply, integer?, Option.elim_some, ofInt_truth, Int64.lt_iff_toInt_lt]

end BinaryOp

end StackSurvey.Dwarf
