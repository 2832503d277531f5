namespace StackSurvey

/-- Which end of a number comes first. -/
inductive ByteOrder where
  | little
  | big
deriving DecidableEq, Inhabited

namespace ByteOrder

/-- The number written by `bytes`, least significant byte first. -/
def ofLittle : List UInt8 → Nat
  | [] => 0
  | b :: bytes => b.toNat + 256 * ofLittle bytes

/-- The low `width` bytes of a number, least significant byte first. -/
def toLittle : Nat → Nat → List UInt8
  | 0, _ => []
  | width + 1, n => UInt8.ofNat n :: toLittle width (n / 256)

def decode (order : ByteOrder) (bytes : List UInt8) : Nat :=
  match order with
  | little => ofLittle bytes
  | big => ofLittle bytes.reverse

/-- The low `width` bytes of a number. -/
def encode (order : ByteOrder) (width n : Nat) : List UInt8 :=
  match order with
  | little => toLittle width n
  | big => (toLittle width n).reverse

theorem shift_add_eight (k : Nat) : 1 <<< (k + 8) = 256 * 1 <<< k := by
  simp only [Nat.one_shiftLeft, Nat.pow_add]
  omega

theorem ofLittle_toLittle (width n : Nat) :
    ofLittle (toLittle width n) = n % 1 <<< (8 * width) := by
  induction width generalizing n with
  | zero => simp [toLittle, ofLittle, Nat.mod_one]
  | succ width ih =>
    have split := @Nat.mod_mul 256 (1 <<< (8 * width)) n
    rw [toLittle, ofLittle, ih, UInt8.toNat_ofNat', Nat.mul_succ, shift_add_eight]
    omega

theorem length_toLittle (width n : Nat) : (toLittle width n).length = width := by
  induction width generalizing n with
  | zero => rfl
  | succ width ih => simp [toLittle, ih]

theorem decode_encode (order : ByteOrder) (width n : Nat) :
    order.decode (order.encode width n) = n % 1 <<< (8 * width) := by
  cases order <;> simp [decode, encode, ofLittle_toLittle]

theorem length_encode (order : ByteOrder) (width n : Nat) :
    (order.encode width n).length = width := by
  cases order <;> simp [encode, length_toLittle]

theorem toLittle_ofLittle (bytes : List UInt8) :
    toLittle bytes.length (ofLittle bytes) = bytes := by
  induction bytes with
  | nil => rfl
  | cons b bytes ih =>
    have hlow : UInt8.ofNat (b.toNat + 256 * ofLittle bytes) = b := by
      apply UInt8.toNat_inj.1
      have := b.toNat_lt
      rw [UInt8.toNat_ofNat']
      omega
    have hhigh : (b.toNat + 256 * ofLittle bytes) / 256 = ofLittle bytes := by
      have := b.toNat_lt
      omega
    rw [List.length_cons, ofLittle, toLittle, hlow, hhigh, ih]

theorem encode_decode (order : ByteOrder) (bytes : List UInt8) :
    order.encode bytes.length (order.decode bytes) = bytes := by
  cases order with
  | little => exact toLittle_ofLittle bytes
  | big =>
    have h := toLittle_ofLittle bytes.reverse
    rw [List.length_reverse] at h
    rw [encode, decode, h, List.reverse_reverse]

theorem decode_singleton (order : ByteOrder) (b : UInt8) : order.decode [b] = b.toNat := by
  cases order <;> simp [decode, ofLittle]

theorem ofLittle_lt (bytes : List UInt8) : ofLittle bytes < 1 <<< (8 * bytes.length) := by
  induction bytes with
  | nil => simp [ofLittle]
  | cons b bytes ih =>
    have := b.toNat_lt
    rw [ofLittle, List.length_cons, Nat.mul_succ, shift_add_eight]
    omega

theorem decode_lt (order : ByteOrder) (bytes : List UInt8) :
    order.decode bytes < 1 <<< (8 * bytes.length) := by
  cases order
  · exact ofLittle_lt bytes
  · simpa [decode] using ofLittle_lt bytes.reverse

/-- The first bytes of many are those of a number. -/
theorem exists_encode (order : ByteOrder) {width : Nat} {bytes : List UInt8}
    (h : width ≤ bytes.length) :
    ∃ n rest, bytes = order.encode width n ++ rest ∧ n < 1 <<< (8 * width) := by
  have hlength : (bytes.take width).length = width := List.length_take_of_le h
  refine ⟨order.decode (bytes.take width), bytes.drop width, ?_, ?_⟩
  · have hencode := order.encode_decode (bytes.take width)
    rw [hlength] at hencode
    rw [hencode, List.take_append_drop]
  · have hlt := order.decode_lt (bytes.take width)
    rw [hlength] at hlt
    exact hlt

end ByteOrder

end StackSurvey
