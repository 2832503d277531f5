import StackSurvey.Text.Utf8

namespace StackSurvey.Utf8

variable {n : Nat} {rest : List UInt8} {p : Pending}

def encode (s : String) : List UInt8 := s.toList.flatMap String.utf8EncodeChar

theorem lead_ofNat (hn : n < 256) :
    lead (.ofNat n) =
      if n < 0x80 then .inl (.ofNat n)
      else if n < 0xC2 then .inl replacement
      else if n < 0xE0 then .inr ⟨1, 0x80, 0xBF, n % 32⟩
      else if n = 0xE0 then .inr ⟨2, 0xA0, 0xBF, 0⟩
      else if n = 0xED then .inr ⟨2, 0x80, 0x9F, 13⟩
      else if n < 0xF0 then .inr ⟨2, 0x80, 0xBF, n % 16⟩
      else if n = 0xF0 then .inr ⟨3, 0x90, 0xBF, 0⟩
      else if n < 0xF4 then .inr ⟨3, 0x80, 0xBF, n % 8⟩
      else if n = 0xF4 then .inr ⟨3, 0x80, 0x8F, 4⟩
      else .inl replacement := by
  have htoNat : (UInt8.ofNat n).toNat = n := UInt8.toNat_ofNat_of_lt' hn
  simp only [lead, UInt8.lt_iff_toNat_lt, ← UInt8.toNat_inj, htoNat]
  rfl

theorem chars_some_ofNat (hn : n < 256) (hlow : p.low.toNat ≤ n) (hhigh : n ≤ p.high.toNat) :
    chars (some p) (.ofNat n :: rest) =
      if p.owed ≤ 1 then .ofNat (p.bits * 64 + n % 64) :: chars none rest
      else chars (some ⟨p.owed - 1, 0x80, 0xBF, p.bits * 64 + n % 64⟩) rest := by
  have htoNat : (UInt8.ofNat n).toNat = n := UInt8.toNat_ofNat_of_lt' hn
  have hrange : p.low ≤ .ofNat n ∧ .ofNat n ≤ p.high := by
    simp only [UInt8.le_iff_toNat_le, htoNat]
    exact ⟨hlow, hhigh⟩
  rw [chars, if_pos hrange, htoNat]

theorem chars_of_lead {b : UInt8} (h : lead b = .inr p) :
    chars none (b :: rest) = chars (some p) rest := by
  rw [chars, h]

section Leads

variable {v : Nat}

theorem lead_two (hlow : 0x80 ≤ v) (hhigh : v ≤ 0x7ff) :
    lead (.ofNat (v / 64 % 32 + 0xc0)) = .inr ⟨1, 0x80, 0xBF, v / 64⟩ := by
  have hbits : (v / 64 % 32 + 0xc0) % 32 = v / 64 := by omega
  rw [lead_ofNat (by omega), if_neg (by omega), if_neg (by omega), if_pos (by omega), hbits]

/-- The first byte bounds the second one so that no character is written too long, and none is a
surrogate. -/
theorem lead_three (hlow : 0x800 ≤ v) (hhigh : v ≤ 0xffff) (hvalid : v < 0xD800 ∨ 0xDFFF < v) :
    ∃ low high, lead (.ofNat (v / 4096 % 16 + 0xe0)) = .inr ⟨2, low, high, v / 4096⟩ ∧
      low.toNat ≤ v / 64 % 64 + 0x80 ∧ v / 64 % 64 + 0x80 ≤ high.toNat := by
  have hmax : (0xBF : UInt8).toNat = 0xBF := rfl
  have hmin : (0x80 : UInt8).toNat = 0x80 := rfl
  rw [lead_ofNat (by omega), if_neg (by omega), if_neg (by omega), if_neg (by omega)]
  by_cases hfirst : v / 4096 = 0
  · have hbound : (0xA0 : UInt8).toNat = 0xA0 := rfl
    rw [if_pos (by omega), hfirst]
    exact ⟨_, _, rfl, by omega, by omega⟩
  · rw [if_neg (by omega)]
    by_cases hsurrogates : v / 4096 = 13
    · have hbound : (0x9F : UInt8).toNat = 0x9F := rfl
      rw [if_pos (by omega), hsurrogates]
      exact ⟨_, _, rfl, by omega, by omega⟩
    · have hbits : (v / 4096 % 16 + 0xe0) % 16 = v / 4096 := by omega
      rw [if_neg (by omega), if_pos (by omega), hbits]
      exact ⟨_, _, rfl, by omega, by omega⟩

theorem lead_four (hlow : 0x10000 ≤ v) (hhigh : v < 0x110000) :
    ∃ low high, lead (.ofNat (v / 262144 % 8 + 0xf0)) = .inr ⟨3, low, high, v / 262144⟩ ∧
      low.toNat ≤ v / 4096 % 64 + 0x80 ∧ v / 4096 % 64 + 0x80 ≤ high.toNat := by
  have hmax : (0xBF : UInt8).toNat = 0xBF := rfl
  have hmin : (0x80 : UInt8).toNat = 0x80 := rfl
  rw [lead_ofNat (by omega), if_neg (by omega), if_neg (by omega), if_neg (by omega),
    if_neg (by omega), if_neg (by omega), if_neg (by omega)]
  by_cases hfirst : v / 262144 = 0
  · have hbound : (0x90 : UInt8).toNat = 0x90 := rfl
    rw [if_pos (by omega), hfirst]
    exact ⟨_, _, rfl, by omega, by omega⟩
  · rw [if_neg (by omega)]
    by_cases hlast : v / 262144 = 4
    · have hbound : (0x8F : UInt8).toNat = 0x8F := rfl
      rw [if_neg (by omega), if_pos (by omega), hlast]
      exact ⟨_, _, rfl, by omega, by omega⟩
    · have hbits : (v / 262144 % 8 + 0xf0) % 8 = v / 262144 := by omega
      rw [if_pos (by omega), hbits]
      exact ⟨_, _, rfl, by omega, by omega⟩

theorem chars_pending (owed : Nat) (low high : UInt8) (bits : Nat)
    (hlow : low.toNat ≤ v % 64 + 0x80) (hhigh : v % 64 + 0x80 ≤ high.toNat)
    (hbits : bits = v / 64) :
    chars (some ⟨owed, low, high, bits⟩) (.ofNat (v % 64 + 0x80) :: rest) =
      if owed ≤ 1 then .ofNat v :: chars none rest
      else chars (some ⟨owed - 1, 0x80, 0xBF, v⟩) rest := by
  have hall : bits * 64 + (v % 64 + 0x80) % 64 = v := by omega
  rw [chars_some_ofNat (by omega) hlow hhigh, hall]

theorem chars_pending_any (owed bits : Nat) (hbits : bits = v / 64) :
    chars (some ⟨owed, 0x80, 0xBF, bits⟩) (.ofNat (v % 64 + 0x80) :: rest) =
      if owed ≤ 1 then .ofNat v :: chars none rest
      else chars (some ⟨owed - 1, 0x80, 0xBF, v⟩) rest := by
  have hmin : (0x80 : UInt8).toNat = 0x80 := rfl
  have hmax : (0xBF : UInt8).toNat = 0xBF := rfl
  exact chars_pending owed _ _ bits (by omega) (by omega) hbits

end Leads

theorem chars_utf8EncodeChar (c : Char) (rest : List UInt8) :
    chars none (String.utf8EncodeChar c ++ rest) = c :: chars none rest := by
  have hvalid : c.toNat < 0xD800 ∨ (0xDFFF < c.toNat ∧ c.toNat < 0x110000) := c.valid
  have hc : Char.ofNat c.toNat = c := Char.ofNat_toNat c
  rw [String.utf8EncodeChar]
  change chars none ((if c.toNat ≤ 0x7f then _ else if c.toNat ≤ 0x7ff then _ else
    if c.toNat ≤ 0xffff then _ else _) ++ rest) = _
  by_cases hone : c.toNat ≤ 0x7f
  · rw [if_pos hone]
    change chars none (.ofNat c.toNat :: rest) = _
    rw [chars, lead_ofNat (by omega), if_pos (by omega)]
    exact congrArg (· :: chars none rest) hc
  · rw [if_neg hone]
    by_cases htwo : c.toNat ≤ 0x7ff
    · rw [if_pos htwo]
      change chars none (.ofNat (c.toNat / 64 % 32 + 0xc0) ::
        .ofNat (c.toNat % 64 + 0x80) :: rest) = _
      rw [chars_of_lead (lead_two (by omega) htwo), chars_pending_any _ _ rfl,
        if_pos (Nat.le_refl 1), hc]
    · rw [if_neg htwo]
      by_cases hthree : c.toNat ≤ 0xffff
      · obtain ⟨low, high, hlead, hlow, hhigh⟩ :=
          lead_three (v := c.toNat) (by omega) hthree (by omega)
        rw [if_pos hthree]
        change chars none (.ofNat (c.toNat / 4096 % 16 + 0xe0) ::
          .ofNat (c.toNat / 64 % 64 + 0x80) :: .ofNat (c.toNat % 64 + 0x80) :: rest) = _
        rw [chars_of_lead hlead, chars_pending _ _ _ _ hlow hhigh (by omega), if_neg (by decide),
          chars_pending_any _ _ rfl, if_pos (Nat.le_refl 1), hc]
      · obtain ⟨low, high, hlead, hlow, hhigh⟩ := lead_four (v := c.toNat) (by omega) (by omega)
        rw [if_neg hthree]
        change chars none (.ofNat (c.toNat / 262144 % 8 + 0xf0) ::
          .ofNat (c.toNat / 4096 % 64 + 0x80) :: .ofNat (c.toNat / 64 % 64 + 0x80) ::
          .ofNat (c.toNat % 64 + 0x80) :: rest) = _
        rw [chars_of_lead hlead, chars_pending _ _ _ _ hlow hhigh (by omega), if_neg (by decide),
          chars_pending_any _ _ (by omega), if_neg (by decide), chars_pending_any _ _ rfl,
          if_pos (Nat.le_refl 1), hc]

theorem lossy_encode (s : String) : lossy (encode s) = s := by
  have hchars (text : List Char) : chars none (text.flatMap String.utf8EncodeChar) = text := by
    induction text with
    | nil => rfl
    | cons c text ih => rw [List.flatMap_cons, chars_utf8EncodeChar, ih]
  rw [lossy, encode, hchars, String.ofList_toList]

theorem eq_of_zero_mem {c : Char} (h : 0 ∈ String.utf8EncodeChar c) : c = '\x00' := by
  have hzero : (0 : UInt8).toNat = 0 := rfl
  rw [String.utf8EncodeChar] at h
  rw [← Char.toNat_inj]
  change c.val.toNat = 0
  generalize c.val.toNat = v at h
  split at h
  · rw [List.mem_singleton, ← UInt8.toNat_inj, UInt8.toNat_ofNat', hzero] at h
    omega
  · -- The bytes of a longer character are all above those of ASCII.
    have hnone : ∀ bytes : List UInt8, (∀ b ∈ bytes, 0x80 ≤ b.toNat) → (0 : UInt8) ∉ bytes := by
      intro bytes hbytes hmem
      have := hbytes 0 hmem
      omega
    refine absurd h (hnone _ ?_)
    split
    · simp [UInt8.toNat_ofNat']
      omega
    · split
      · simp [UInt8.toNat_ofNat']
        omega
      · simp [UInt8.toNat_ofNat']
        omega

theorem zero_notMem_encode {s : String} (h : '\x00' ∉ s.toList) : 0 ∉ encode s := by
  intro hmem
  obtain ⟨c, hc, hzero⟩ := List.mem_flatMap.1 hmem
  exact h (eq_of_zero_mem hzero ▸ hc)

end StackSurvey.Utf8
