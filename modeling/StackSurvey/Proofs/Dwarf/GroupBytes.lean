import StackSurvey.Proofs.Dwarf.GroupValue

namespace StackSurvey

namespace Leb128

theorem isLast_ofNat {n : Nat} (h : n < 128) : isLast (.ofNat n) = true := by
  simp only [isLast, decide_eq_true_eq, UInt8.lt_iff_toNat_lt, UInt8.toNat_ofNat']
  change n % 256 < 128
  omega

theorem not_isLast_ofNat {n : Nat} (h : n < 128) : isLast (.ofNat (n + 128)) = false := by
  simp only [isLast, decide_eq_false_iff_not, UInt8.lt_iff_toNat_lt, UInt8.toNat_ofNat']
  change ¬ (n + 128) % 256 < 128
  omega

theorem isGroup_encode (n : Nat) : IsGroup (encode n) := by
  induction n using encode.induct with
  | case1 n h =>
    rw [encode, if_pos h]
    exact .last (isLast_ofNat h)
  | case2 n h ih =>
    rw [encode, if_neg h]
    exact .cons (not_isLast_ofNat (Nat.mod_lt n (by decide))) ih

theorem toNat_emod_lt (n : Int) : (n % 128).toNat < 128 := by omega

theorem isGroup_encodeSigned (n : Int) : IsGroup (encodeSigned n) := by
  induction n using encodeSigned.induct with
  | case1 n h =>
    rw [encodeSigned, if_pos h]
    exact .last (isLast_ofNat (toNat_emod_lt n))
  | case2 n h ih =>
    rw [encodeSigned, if_neg h]
    exact .cons (not_isLast_ofNat (toNat_emod_lt n)) ih

theorem encodeSigned_ne_nil (n : Int) : encodeSigned n ≠ [] := (isGroup_encodeSigned n).ne_nil

theorem payload_encode (n : Nat) : payload (encode n) = n := by
  induction n using encode.induct with
  | case1 n h =>
    rw [encode, if_pos h, payload, payload, UInt8.toNat_ofNat']
    omega
  | case2 n h ih =>
    rw [encode, if_neg h, payload, ih, UInt8.toNat_ofNat']
    omega

theorem length_encode_le {n k : Nat} (h : n < 2 ^ (7 * (k + 1))) : (encode n).length ≤ k + 1 := by
  induction k generalizing n with
  | zero =>
    have hlt : n < 128 := h
    rw [encode, if_pos hlt]
    exact Nat.le_refl 1
  | succ k ih =>
    rw [encode]
    split
    · exact Nat.le_add_left ..
    · have hpow := two_pow_seven_mul_succ (k + 1)
      have hrest := ih (n := n / 128) (by omega)
      exact Nat.succ_le_succ hrest

theorem unsigned_encode (n : UInt64) : unsigned (encode n.toNat) = n := by
  have hlt : n.toNat < 2 ^ (7 * (9 + 1)) := Nat.lt_trans n.toNat_lt (by decide)
  have hlength : (encode n.toNat).length < 2 ^ 29 :=
    Nat.lt_of_le_of_lt (length_encode_le hlt) (by decide)
  rw [unsigned_eq hlength, payload_encode, UInt64.ofNat_toNat]

theorem signedPayload_cons (b : UInt8) {bytes : List UInt8} (h : bytes ≠ []) :
    signedPayload (b :: bytes) = (b.toNat % 128 : Nat) + 128 * signedPayload bytes := by
  have hpow := two_pow_seven_mul_succ bytes.length
  rw [signedPayload, signedPayload, payload, List.getLast?_cons_of_ne_nil h, List.length_cons]
  split <;> omega

theorem signedPayload_singleton (b : UInt8) :
    signedPayload [b] = (b.toNat % 128 : Nat) - if isNegative b then (128 : Nat) else 0 := rfl

/-- A group's sign is in its last byte, which is the only one of the shortest signed numbers. -/
theorem signedPayload_encodeSigned (n : Int) : signedPayload (encodeSigned n) = n := by
  induction n using encodeSigned.induct with
  | case1 n h =>
    have hlow : (n % 128).toNat % 256 = (n % 128).toNat := by omega
    rw [encodeSigned, if_pos h, signedPayload_singleton, isNegative_eq_testBit,
      UInt8.toNat_ofNat', hlow, Nat.testBit_eq_decide_div_mod_eq]
    simp only [decide_eq_true_eq]
    split <;> omega
  | case2 n h ih =>
    rw [encodeSigned, if_neg h, signedPayload_cons _ (encodeSigned_ne_nil _), ih,
      UInt8.toNat_ofNat']
    omega

theorem length_encodeSigned_le {n : Int} {k : Nat} (hlow : -(2 ^ (7 * k + 6) : Nat) ≤ n)
    (hhigh : n < (2 ^ (7 * k + 6) : Nat)) : (encodeSigned n).length ≤ k + 1 := by
  induction k generalizing n with
  | zero =>
    rw [encodeSigned, if_pos ⟨hlow, hhigh⟩]
    exact Nat.le_refl 1
  | succ k ih =>
    rw [encodeSigned]
    split
    · exact Nat.le_add_left ..
    · have hpow : 2 ^ (7 * (k + 1) + 6) = 128 * 2 ^ (7 * k + 6) := by
        rw [Nat.pow_add, two_pow_seven_mul_succ, Nat.mul_assoc, ← Nat.pow_add]
      have hrest := ih (n := n / 128) (by omega) (by omega)
      exact Nat.succ_le_succ hrest

theorem signed_encodeSigned (n : Int64) : signed (encodeSigned n.toInt) = n := by
  have hwide : 2 ^ 63 ≤ 2 ^ (7 * 9 + 6) := by decide
  have hlow := n.le_toInt
  have hhigh := n.toInt_lt
  have hlength : (encodeSigned n.toInt).length < 2 ^ 29 :=
    Nat.lt_of_le_of_lt (length_encodeSigned_le (k := 9) (by omega) (by omega)) (by decide)
  rw [signed_eq hlength, signedPayload_encodeSigned, Int64.ofInt_toInt]

theorem signedPayload_eq {bytes : List UInt8} (hne : bytes ≠ []) :
    signedPayload bytes =
      (∑ i : Fin bytes.length, (bytes.get i).toNat % 128 * 2 ^ (7 * i.val) : Nat) -
        if (bytes.getLast hne).toNat.testBit 6 then (2 ^ (7 * bytes.length) : Nat) else 0 := by
  rw [signedPayload, payload_eq_sum, List.getLast?_eq_some_getLast hne, Option.any_some,
    isNegative_eq_testBit]

end Leb128

namespace Dwarf.Decoder

open Leb128

/-- A group of fewer than 2^29 bytes is read, wherever it is and whatever follows it, as the sum of
its seven-bit digits, signed or not, modulo 2^64. The shortest group of a word reads as the word. -/
theorem reads_group (r : Region) {bytes : List UInt8} (hgroup : IsGroup bytes)
    (hlength : bytes.length < 2 ^ 29) :
    uleb128.Reads r bytes
        (.ofNat (∑ i : Fin bytes.length, (bytes.get i).toNat % 128 * 2 ^ (7 * i.val))) ∧
      sleb128.Reads r bytes
        (.ofInt ((∑ i : Fin bytes.length, (bytes.get i).toNat % 128 * 2 ^ (7 * i.val) : Nat) -
          if (bytes.getLast hgroup.ne_nil).toNat.testBit 6 then (2 ^ (7 * bytes.length) : Nat)
          else 0)) ∧
      (∀ n : UInt64, uleb128.Reads r (Leb128.encode n.toNat) n) ∧
      ∀ n : Int64, sleb128.Reads r (encodeSigned n.toInt) n := by
  refine ⟨?_, ?_, ?_, ?_⟩
  · rw [← payload_eq_sum, ← unsigned_eq hlength]
    exact reads_uleb128 hgroup
  · rw [← signedPayload_eq, ← signed_eq hlength]
    exact reads_sleb128 hgroup
  · intro n
    have hread := reads_uleb128 (r := r) (isGroup_encode n.toNat)
    rwa [unsigned_encode] at hread
  · intro n
    have hread := reads_sleb128 (r := r) (isGroup_encodeSigned n.toInt)
    rwa [signed_encodeSigned] at hread

/-- More bits than a word has, all of them set. -/
def wideGroup : List UInt8 := List.replicate 10 0xff ++ [0x7f]

theorem isGroup_wideGroup : IsGroup wideGroup := by
  refine isGroup_iff.2 ⟨List.replicate 10 0xff, 0x7f, rfl, fun b hb => ?_, rfl⟩
  rw [List.eq_of_mem_replicate hb]
  rfl

theorem reads_group_wideGroup :
    let r : Region := { start := 3, stop := 20, order := .big }
    IsGroup wideGroup ∧ wideGroup.length < 2 ^ 29 ∧
      uleb128.Reads r wideGroup 0xffffffffffffffff ∧ sleb128.Reads r wideGroup (-1) := by
  intro r
  have hlength : wideGroup.length < 2 ^ 29 := by decide
  obtain ⟨hunsigned, hsigned, -, -⟩ := reads_group r isGroup_wideGroup hlength
  rw [← payload_eq_sum] at hunsigned hsigned
  exact ⟨isGroup_wideGroup, hlength, hunsigned, hsigned⟩

end Dwarf.Decoder

end StackSurvey
