import StackSurvey.Bytes.Leb128
import StackSurvey.Bytes.Order
import StackSurvey.Dwarf.Fault
import StackSurvey.Text.Utf8

namespace StackSurvey.Dwarf

/-- Width of lengths and of offsets into sections. -/
inductive Format where
  | bits32
  | bits64
deriving DecidableEq, Inhabited

namespace Format

def offsetSize : Format → Nat
  | bits32 => 4
  | bits64 => 8

/-- Bytes in the length that a unit begins with, escape included. -/
def lengthSize : Format → Nat
  | bits32 => 4
  | bits64 => 12

end Format

/-- The part of a buffer from `start` up to `stop`, and the encoding used in it. -/
structure Region where
  start : Nat
  stop : Nat
  format : Format := .bits32
  order : ByteOrder
  addressSize : Nat := 8
deriving DecidableEq, Inhabited

namespace Region

/-- All of a buffer. -/
def whole (data : ByteArray) (order : ByteOrder) : Region :=
  { start := 0, stop := data.size, order }

def size (r : Region) : Nat := r.stop - r.start

/-- True of the offsets in the region. -/
def contains (r : Region) (offset : Nat) : Bool := r.start ≤ offset && offset < r.stop

end Region

def isAddressSize (size : Nat) : Bool := size == 1 || size == 2 || size == 4 || size == 8

/-- A buffer and the region of it that is decoded. -/
structure Window where
  data : ByteArray
  region : Region

namespace Window

/-- The first position that cannot be read. -/
def limit (w : Window) : Nat := min w.region.stop w.data.size

/-- Bytes from `pos` up to the limit. -/
def remaining (w : Window) (pos : Nat) : Nat := w.limit - pos

def slice (w : Window) (pos n : Nat) : List UInt8 := (w.data.extract pos (pos + n)).data.toList

theorem lt_size_of_lt_limit {w : Window} {pos : Nat} (h : pos < w.limit) : pos < w.data.size :=
  Nat.lt_of_lt_of_le h (Nat.min_le_right ..)

/-- The first position from `pos` on whose byte satisfies `p`. -/
def find? (w : Window) (p : UInt8 → Bool) (pos : Nat) : Option Nat :=
  if h : pos < w.limit then
    have := lt_size_of_lt_limit h
    if p w.data[pos] then some pos else w.find? p (pos + 1)
  else
    none
termination_by w.limit - pos

theorem find?_bounds {w : Window} {p : UInt8 → Bool} {pos found : Nat}
    (h : w.find? p pos = some found) : pos ≤ found ∧ found < w.limit := by
  induction pos using find?.induct w p with
  | case1 pos hlt _ hp =>
    unfold find? at h
    simp only [hlt, hp, dite_true, if_true, Option.some.injEq] at h
    omega
  | case2 pos hlt _ hp ih =>
    unfold find? at h
    simp only [hlt, hp, dite_true] at h
    have := ih h
    omega
  | case3 pos hlt =>
    unfold find? at h
    simp [hlt] at h

end Window

/-- A computation that reads a window from a position on. The position is kept when a read fails. -/
abbrev Decoder (α : Type) : Type := ReaderT Window (EStateM Fault Nat) α

namespace Decoder

variable {α β σ : Type}

/-- A success leaves the position further on, within the limit. -/
def Advances (d : Decoder α) : Prop :=
  ∀ ⦃w pos a next⦄, d w pos = .ok a next → pos < next ∧ next ≤ w.limit

/-- A success never moves the position back, nor past the limit. -/
def Progresses (d : Decoder α) : Prop :=
  ∀ ⦃w pos a next⦄, d w pos = .ok a next → pos ≤ next ∧ (pos ≤ w.limit → next ≤ w.limit)

theorem Advances.progresses {d : Decoder α} (h : d.Advances) : d.Progresses := by
  intro w pos a next e
  have := h e
  omega

theorem bind_eq_ok {d : Decoder α} {f : α → Decoder β} {w : Window} {pos next : Nat} {b : β}
    (h : (d >>= f) w pos = .ok b next) :
    ∃ a mid, d w pos = .ok a mid ∧ f a w mid = .ok b next := by
  change EStateM.bind (d w) (fun a => f a w) pos = _ at h
  unfold EStateM.bind at h
  split at h
  · exact ⟨_, _, ‹_›, h⟩
  · cases h

theorem progresses_pure (a : α) : (pure a : Decoder α).Progresses := by
  intro w pos b next h
  cases h
  omega

theorem progresses_throw (e : Fault) : (throw e : Decoder α).Progresses := by
  intro w pos b next h
  cases h

theorem advances_throw (e : Fault) : (throw e : Decoder α).Advances := by
  intro w pos b next h
  cases h

theorem progresses_read : (read : Decoder Window).Progresses := by
  intro w pos b next h
  cases h
  omega

theorem progresses_get : (get : Decoder Nat).Progresses := by
  intro w pos b next h
  cases h
  omega

theorem Progresses.bind {d : Decoder α} {f : α → Decoder β} (hd : d.Progresses)
    (hf : ∀ a, (f a).Progresses) : (d >>= f).Progresses := by
  intro w pos b next h
  obtain ⟨a, mid, h₁, h₂⟩ := bind_eq_ok h
  have := hd h₁
  have := hf a h₂
  omega

theorem Advances.bind {d : Decoder α} {f : α → Decoder β} (hd : d.Advances)
    (hf : ∀ a, (f a).Progresses) : (d >>= f).Advances := by
  intro w pos b next h
  obtain ⟨a, mid, h₁, h₂⟩ := bind_eq_ok h
  have := hd h₁
  have := hf a h₂
  omega

theorem Progresses.bind_advances {d : Decoder α} {f : α → Decoder β} (hd : d.Progresses)
    (hf : ∀ a, (f a).Advances) : (d >>= f).Advances := by
  intro w pos b next h
  obtain ⟨a, mid, h₁, h₂⟩ := bind_eq_ok h
  have := hd h₁
  have := hf a h₂
  omega

theorem Progresses.map {d : Decoder α} (hd : d.Progresses) (f : α → β) :
    (f <$> d).Progresses :=
  hd.bind fun a => progresses_pure (f a)

theorem Advances.map {d : Decoder α} (hd : d.Advances) (f : α → β) : (f <$> d).Advances :=
  hd.bind fun a => progresses_pure (f a)

/-- Runs `step` until it answers with a result. -/
def iterate (step : σ → Decoder (σ ⊕ β)) (advances : ∀ s, (step s).Advances) (s : σ) :
    Decoder β := fun w pos =>
  match _h : step s w pos with
  | .ok (.inl s') next => iterate step advances s' w next
  | .ok (.inr b) next => .ok b next
  | .error e next => .error e next
termination_by w pos => w.limit - pos
decreasing_by
  have := advances s _h
  omega

theorem progresses_iterate (step : σ → Decoder (σ ⊕ β)) (advances : ∀ s, (step s).Advances)
    (s : σ) : (iterate step advances s).Progresses := by
  intro w pos b next h
  induction s, pos using iterate.induct step advances w with
  | case1 s pos s' mid hs ih =>
    unfold iterate at h
    split at h <;> rename_i hs' <;> rw [hs] at hs' <;> cases hs'
    have := ih h
    have := advances s hs
    omega
  | case2 s pos b' mid hs =>
    unfold iterate at h
    split at h <;> rename_i hs' <;> rw [hs] at hs' <;> cases hs'
    cases h
    have := advances s hs
    omega
  | case3 s pos e mid hs =>
    unfold iterate at h
    split at h <;> rename_i hs' <;> rw [hs] at hs' <;> cases hs'
    cases h

/-- Decodes items up to the one that `item` answers with nothing. -/
def manyUntil (item : Decoder (Option α)) (advances : item.Advances) : Decoder (Array α) :=
  iterate (fun items => return match ← item with
      | some a => .inl (items.push a)
      | none => .inr items)
    (fun _ => advances.bind fun _ => progresses_pure _) #[]

def drain (step : σ → Decoder σ) (advances : ∀ s, (step s).Advances) (s : σ) : Decoder σ :=
  fun w pos =>
    if pos < w.limit then
      match _h : step s w pos with
      | .ok s' next => drain step advances s' w next
      | .error e next => .error e next
    else
      .ok s pos
termination_by w pos => w.limit - pos
decreasing_by
  have := advances s _h
  omega

def times (n : Nat) (item : Decoder α) : Decoder (Array α) := go n #[]
where
  /-- Decodes `n` items after those of `items`. -/
  go : Nat → Array α → Decoder (Array α)
    | 0, items => pure items
    | n + 1, items => do go n (items.push (← item))

theorem Progresses.times {item : Decoder α} (h : item.Progresses) (n : Nat) :
    (times n item).Progresses := by
  suffices ∀ items, (times.go item n items).Progresses from this #[]
  induction n with
  | zero => exact fun items => progresses_pure items
  | succ n ih => exact fun items => h.bind fun a => ih (items.push a)

def position : Decoder Nat := get

/-- Moves to a position, within the window or not. -/
def seek (pos : Nat) : Decoder Unit := set pos

def region : Decoder Region := return (← read).region

/-- Runs a decoder as if the region's address size were `size`. -/
def withAddressSize (size : Nat) (d : Decoder α) : Decoder α := fun w pos =>
  d { w with region.addressSize := size } pos

def ensure (needed : Nat) : Decoder Unit := fun w pos =>
  if pos + needed ≤ w.limit then .ok () pos
  else .error (.truncated pos needed (w.remaining pos)) pos

def skip (n : Nat) : Decoder Unit := fun w pos =>
  if pos + n ≤ w.limit then .ok () (pos + n)
  else .error (.truncated pos n (w.remaining pos)) pos

def byte : Decoder UInt8 := fun w pos =>
  if h : pos < w.limit then
    have := Window.lt_size_of_lt_limit h
    .ok w.data[pos] (pos + 1)
  else
    .error (.truncated pos 1 (w.remaining pos)) pos

def bytes (n : Nat) : Decoder (List UInt8) := fun w pos =>
  if pos + n ≤ w.limit then .ok (w.slice pos n) (pos + n)
  else .error (.truncated pos n (w.remaining pos)) pos

/-- The next `width` bytes as a number. -/
def unsigned (width : Nat) : Decoder Nat := do
  let order := (← region).order
  order.decode <$> bytes width

/-- The next `width` bytes as a two's complement number. -/
def signed (width : Nat) : Decoder Int :=
  (fun n : Nat => Int.bmod n (1 <<< (8 * width))) <$> unsigned width

/-- The next eight bytes as a word. -/
def word : Decoder UInt64 := UInt64.ofNat <$> unsigned 8

/-- A number of one to eight bytes. -/
def sized (width : Nat) : Decoder UInt64 :=
  if width = 0 ∨ 8 < width then throw .integerWidth else UInt64.ofNat <$> unsigned width

def offset : Decoder UInt64 := do sized (← region).format.offsetSize

def address : Decoder UInt64 := do
  let size := (← region).addressSize
  if isAddressSize size then sized size else throw (.unsupportedAddressSize size)

/-- The bytes of one LEB128 group; a group cut off moves the position to the limit. -/
def leb128 : Decoder (List UInt8) := fun w pos =>
  match w.find? Leb128.isLast pos with
  | some last => .ok (w.slice pos (last + 1 - pos)) (last + 1)
  | none => .error (.truncated (max pos w.limit) 1 0) (max pos w.limit)

def uleb128 : Decoder UInt64 := Leb128.unsigned <$> leb128

def sleb128 : Decoder Int64 := Leb128.signed <$> leb128

/-- The bytes before the next zero byte, which is passed over. -/
def terminated : Decoder (List UInt8) := fun w pos =>
  match w.find? (· == 0) pos with
  | some stop => .ok (w.slice pos (stop - pos)) (stop + 1)
  | none => .error (.unterminatedString pos) pos

/-- The text before the next zero byte. -/
def text : Decoder String := Utf8.lossy <$> terminated

/-- Moves past the length that a unit begins with. -/
def skipLength : Decoder Unit := do skip (← region).format.lengthSize

/-- The length that a unit begins with: the width of its offsets and its size, the length
included. -/
def unitLength : Decoder (Format × Nat) := do
  let length ← unsigned 4
  if length < 0xfffffff0 then
    return (.bits32, length + 4)
  else if length = 0xffffffff then
    return (.bits64, min ((← unsigned 8) + 12) 0xffffffffffffffff)
  else
    throw (.reservedLength length)

/-- The region of the unit that begins here, which is passed over. -/
def unit : Decoder Region := do
  let start ← position
  let (format, size) ← unitLength
  seek start
  skip size
  return { (← region) with start, stop := start + size, format }

theorem progresses_position : position.Progresses := progresses_get

theorem progresses_region : region.Progresses := progresses_read.bind fun _ => progresses_pure _

theorem progresses_skip (n : Nat) : (skip n).Progresses := by
  intro w pos a next h
  unfold skip at h
  split at h <;> cases h
  omega

theorem advances_byte : byte.Advances := by
  intro w pos a next h
  unfold byte at h
  split at h <;> cases h
  omega

theorem progresses_bytes (n : Nat) : (bytes n).Progresses := by
  intro w pos a next h
  unfold bytes at h
  split at h <;> cases h
  omega

theorem advances_bytes {n : Nat} (hn : 0 < n) : (bytes n).Advances := by
  intro w pos a next h
  unfold bytes at h
  split at h <;> cases h
  omega

theorem progresses_unsigned (width : Nat) : (unsigned width).Progresses :=
  progresses_region.bind fun _ => (progresses_bytes width).map _

theorem advances_unsigned {width : Nat} (h : 0 < width) : (unsigned width).Advances :=
  progresses_region.bind_advances fun _ => (advances_bytes h).map _

theorem advances_sized (width : Nat) : (sized width).Advances := by
  unfold sized
  split
  · exact advances_throw _
  · exact (advances_unsigned (by omega)).map _

theorem advances_offset : offset.Advances :=
  progresses_region.bind_advances fun _ => advances_sized _

theorem advances_address : address.Advances := by
  refine progresses_region.bind_advances fun r => ?_
  dsimp only
  split
  · exact advances_sized _
  · exact advances_throw _

theorem advances_leb128 : leb128.Advances := by
  intro w pos a next h
  unfold leb128 at h
  split at h <;> cases h
  have := Window.find?_bounds ‹_›
  omega

theorem advances_uleb128 : uleb128.Advances := advances_leb128.map _

theorem advances_sleb128 : sleb128.Advances := advances_leb128.map _

theorem advances_terminated : terminated.Advances := by
  intro w pos a next h
  unfold terminated at h
  split at h <;> cases h
  have := Window.find?_bounds ‹_›
  omega

theorem advances_text : text.Advances := advances_terminated.map _

end Decoder

end StackSurvey.Dwarf
