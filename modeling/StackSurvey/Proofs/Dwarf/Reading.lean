import StackSurvey.Dwarf.Decoder

namespace StackSurvey

namespace Leb128

/-- The bytes of one number. -/
inductive IsGroup : List UInt8 → Prop
  | last {b : UInt8} (h : isLast b = true) : IsGroup [b]
  | cons {b : UInt8} {bytes : List UInt8} (h : isLast b = false) (hrest : IsGroup bytes) :
      IsGroup (b :: bytes)

theorem IsGroup.length_pos {bytes : List UInt8} (h : IsGroup bytes) : 0 < bytes.length := by
  cases h <;> exact Nat.succ_pos _

theorem IsGroup.ne_nil {bytes : List UInt8} (h : IsGroup bytes) : bytes ≠ [] :=
  List.ne_nil_of_length_pos h.length_pos

theorem isGroup_iff {bytes : List UInt8} :
    IsGroup bytes ↔
      ∃ before b, bytes = before ++ [b] ∧ (∀ x ∈ before, isLast x = false) ∧ isLast b = true := by
  constructor
  · intro h
    induction h with
    | last h => exact ⟨[], _, rfl, List.forall_mem_nil _, h⟩
    | cons h _ ih =>
      obtain ⟨before, b, rfl, hbefore, hb⟩ := ih
      exact ⟨_ :: before, b, rfl, List.forall_mem_cons.2 ⟨h, hbefore⟩, hb⟩
  · rintro ⟨before, b, rfl, hbefore, hb⟩
    induction before with
    | nil => exact .last hb
    | cons x before ih =>
      obtain ⟨hx, hrest⟩ := List.forall_mem_cons.1 hbefore
      exact .cons hx (ih hrest)

end Leb128

namespace Dwarf

namespace Window

variable {w : Window} {pos : Nat}

/-- The window has these bytes from a position on. -/
structure Holds (w : Window) (pos : Nat) (bytes : List UInt8) : Prop where
  le_limit : pos + bytes.length ≤ w.limit
  slice_eq : w.slice pos bytes.length = bytes

theorem slice_eq_take (w : Window) (pos n : Nat) :
    w.slice pos n = (w.data.data.toList.drop pos).take n := by
  rw [slice, ByteArray.data_extract, Array.toList_extract, List.extract_eq_take_drop,
    Nat.add_sub_cancel_left]

theorem slice_add (w : Window) (pos m n : Nat) :
    w.slice pos (m + n) = w.slice pos m ++ w.slice (pos + m) n := by
  rw [slice_eq_take, slice_eq_take, slice_eq_take, List.take_add, List.drop_drop]

theorem length_slice {n : Nat} (h : pos + n ≤ w.limit) : (w.slice pos n).length = n := by
  have hle : w.limit ≤ w.data.data.toList.length := Nat.min_le_right ..
  rw [slice_eq_take, List.length_take, List.length_drop]
  omega

theorem holds_nil (h : pos ≤ w.limit) : w.Holds pos [] where
  le_limit := h
  slice_eq := by rw [slice_eq_take, List.length_nil, List.take_zero]

theorem holds_append {xs ys : List UInt8} :
    w.Holds pos (xs ++ ys) ↔ w.Holds pos xs ∧ w.Holds (pos + xs.length) ys := by
  constructor
  · rintro ⟨hle, hslice⟩
    rw [List.length_append] at hle hslice
    rw [slice_add] at hslice
    obtain ⟨hxs, hys⟩ := List.append_inj hslice (length_slice (by omega))
    exact ⟨⟨by omega, hxs⟩, ⟨by omega, hys⟩⟩
  · rintro ⟨⟨_, hxs⟩, ⟨hle, hys⟩⟩
    refine ⟨by rw [List.length_append]; omega, ?_⟩
    rw [List.length_append, slice_add, hxs, hys]

theorem holds_cons {b : UInt8} {bytes : List UInt8} :
    w.Holds pos (b :: bytes) ↔ w.Holds pos [b] ∧ w.Holds (pos + 1) bytes := by
  rw [← List.singleton_append, holds_append]
  rfl

/-- The window has these bytes from a position on, and nothing behind them. -/
structure EndsWith (w : Window) (pos : Nat) (bytes : List UInt8) : Prop where
  holds : w.Holds pos bytes
  limit_eq : w.limit = pos + bytes.length

/-- All of a buffer is what it holds. -/
theorem endsWith_whole {data : ByteArray} {order : ByteOrder} {bytes : List UInt8}
    (h : data.data.toList = bytes) : (Window.mk data (.whole data order)).EndsWith 0 bytes := by
  have hlength : data.size = bytes.length := congrArg List.length h
  have hlimit : (Window.mk data (.whole data order)).limit = 0 + bytes.length := by
    rw [Nat.zero_add]
    exact (Nat.min_self data.size).trans hlength
  refine ⟨⟨Nat.le_of_eq hlimit.symm, ?_⟩, hlimit⟩
  rw [slice_eq_take, List.drop_zero]
  change data.data.toList.take _ = _
  rw [h, List.take_length]

theorem EndsWith.append {xs ys : List UInt8} (h : w.EndsWith pos (xs ++ ys)) :
    w.Holds pos xs ∧ w.EndsWith (pos + xs.length) ys := by
  obtain ⟨hxs, hys⟩ := holds_append.1 h.holds
  refine ⟨hxs, hys, ?_⟩
  rw [h.limit_eq, List.length_append, Nat.add_assoc]

theorem EndsWith.cons {b : UInt8} {bytes : List UInt8} (h : w.EndsWith pos (b :: bytes)) :
    w.Holds pos [b] ∧ w.EndsWith (pos + 1) bytes := by
  rw [← List.singleton_append] at h
  exact h.append

theorem EndsWith.isPrefix {xs ys : List UInt8} (h : w.EndsWith pos xs) (hys : w.Holds pos ys) :
    ys <+: xs := by
  have hle : ys.length ≤ xs.length := by
    have := hys.le_limit
    have := h.limit_eq
    omega
  have htake := congrArg (List.take ys.length) h.holds.slice_eq
  rw [slice_eq_take, List.take_take, Nat.min_eq_left hle, ← slice_eq_take, hys.slice_eq] at htake
  rw [htake]
  exact List.take_prefix _ xs

theorem Holds.lt_limit {b : UInt8} {bytes : List UInt8} (h : w.Holds pos (b :: bytes)) :
    pos < w.limit := by
  have := h.le_limit
  rw [List.length_cons] at this
  omega

theorem Holds.getElem {b : UInt8} {bytes : List UInt8} (h : w.Holds pos (b :: bytes))
    (hlt : pos < w.data.size) : w.data[pos] = b := by
  have hslice := (holds_cons.1 h).1.slice_eq
  have hlt : pos < w.data.data.toList.length := hlt
  rw [slice_eq_take, List.drop_eq_getElem_cons hlt] at hslice
  exact (List.cons.inj hslice).1

theorem find?_of_lt (p : UInt8 → Bool) (hlt : pos < w.limit) (hsize : pos < w.data.size) :
    w.find? p pos = if p w.data[pos] then some pos else w.find? p (pos + 1) := by
  rw [find?, dif_pos hlt]

theorem find?_of_not_lt (p : UInt8 → Bool) (hlt : ¬ pos < w.limit) : w.find? p pos = none := by
  rw [find?, dif_neg hlt]

/-- A search stops at the first byte that satisfies the predicate. -/
theorem find?_of_holds {p : UInt8 → Bool} {before : List UInt8} {b : UInt8}
    (hbefore : ∀ x ∈ before, p x = false) (hb : p b = true) (h : w.Holds pos (before ++ [b])) :
    w.find? p pos = some (pos + before.length) := by
  induction before generalizing pos with
  | nil =>
    rw [find?, dif_pos h.lt_limit]
    simp only [h.getElem, hb, if_true]
    rfl
  | cons x before ih =>
    obtain ⟨hx, hrest⟩ := List.forall_mem_cons.1 hbefore
    rw [find?, dif_pos h.lt_limit]
    simp only [h.getElem, hx]
    rw [List.length_cons, Nat.add_comm before.length, ← Nat.add_assoc]
    exact ih hrest (holds_cons.1 h).2

end Window

namespace Decoder

variable {α β : Type} {d : Decoder α} {r : Region} {xs ys : List UInt8} {a : α}

/-- In every window of a region that holds some bytes, a decoder turns them into a value and stops
behind them. -/
def Reads (d : Decoder α) (r : Region) (bytes : List UInt8) (a : α) : Prop :=
  ∀ ⦃w : Window⦄ ⦃pos : Nat⦄, w.region = r → w.Holds pos bytes →
    d w pos = .ok a (pos + bytes.length)

theorem bind_of_eq_ok {w : Window} {pos mid : Nat} (f : α → Decoder β) (h : d w pos = .ok a mid) :
    (d >>= f) w pos = f a w mid := by
  change EStateM.bind (d w) (fun a => f a w) pos = _
  rw [EStateM.bind, h]

theorem bind_of_eq_error {w : Window} {pos mid : Nat} {fault : Fault} (f : α → Decoder β)
    (h : d w pos = .error fault mid) : (d >>= f) w pos = .error fault mid := by
  change EStateM.bind (d w) (fun a => f a w) pos = _
  rw [EStateM.bind, h]

theorem Reads.bind {f : α → Decoder β} {b : β} (hd : d.Reads r xs a) (hf : (f a).Reads r ys b) :
    (d >>= f).Reads r (xs ++ ys) b := by
  intro w pos hr h
  obtain ⟨hxs, hys⟩ := Window.holds_append.1 h
  rw [bind_of_eq_ok f (hd hr hxs), hf hr hys, List.length_append, Nat.add_assoc]

theorem reads_pure (a : α) : (pure a : Decoder α).Reads r [] a := fun _ _ _ _ => rfl

theorem Reads.bind_nil {f : α → Decoder β} {b : β} (hd : d.Reads r xs a)
    (hf : (f a).Reads r [] b) : (d >>= f).Reads r xs b := by
  have h := hd.bind hf
  rw [List.append_nil] at h
  exact h

theorem Reads.map {f : α → β} (hd : d.Reads r xs a) : (f <$> d).Reads r xs (f a) :=
  hd.bind_nil (reads_pure (f a))

theorem position_eq (w : Window) (pos : Nat) : position w pos = .ok pos pos := rfl

theorem ensure_of_le {w : Window} {pos n : Nat} (h : pos + n ≤ w.limit) :
    ensure n w pos = .ok () pos := by
  rw [ensure, if_pos h]

theorem reads_region : region.Reads r [] r := by
  rintro w pos rfl _
  rfl

theorem reads_skip (bytes : List UInt8) : (skip bytes.length).Reads r bytes () := by
  intro w pos _ h
  rw [skip, if_pos h.le_limit]

theorem reads_byte (b : UInt8) : byte.Reads r [b] b := by
  intro w pos _ h
  rw [byte, dif_pos h.lt_limit]
  simp only [h.getElem]
  rfl

theorem reads_bytes (xs : List UInt8) : (bytes xs.length).Reads r xs xs := by
  intro w pos _ h
  rw [bytes, if_pos h.le_limit, h.slice_eq]

theorem reads_unsigned (xs : List UInt8) : (unsigned xs.length).Reads r xs (r.order.decode xs) :=
  reads_region.bind (reads_bytes xs).map

theorem reads_unsigned_of_length {width : Nat} (h : xs.length = width) :
    (unsigned width).Reads r xs (r.order.decode xs) := by
  subst h
  exact reads_unsigned xs

theorem reads_leb128 (h : Leb128.IsGroup xs) : leb128.Reads r xs xs := by
  obtain ⟨before, b, rfl, hbefore, hb⟩ := Leb128.isGroup_iff.1 h
  intro w pos _ hxs
  rw [leb128, Window.find?_of_holds hbefore hb hxs]
  have hlen : pos + before.length + 1 - pos = (before ++ [b]).length := by
    rw [List.length_append, List.length_singleton]
    omega
  simp only [hlen, hxs.slice_eq]
  rw [List.length_append, Nat.add_assoc, List.length_singleton]

theorem reads_uleb128 (h : Leb128.IsGroup xs) : uleb128.Reads r xs (Leb128.unsigned xs) :=
  (reads_leb128 h).map

theorem reads_sleb128 (h : Leb128.IsGroup xs) : sleb128.Reads r xs (Leb128.signed xs) :=
  (reads_leb128 h).map

theorem reads_terminated (h : 0 ∉ xs) : terminated.Reads r (xs ++ [0]) xs := by
  intro w pos _ hxs
  have hbefore : ∀ x ∈ xs, (x == 0) = false :=
    fun x hx => beq_false_of_ne (ne_of_mem_of_not_mem hx h)
  rw [terminated, Window.find?_of_holds hbefore rfl hxs]
  simp only [Nat.add_sub_cancel_left, (Window.holds_append.1 hxs).1.slice_eq]
  rw [List.length_append, Nat.add_assoc, List.length_singleton]

section Read

variable {w : Window} {pos next n : Nat}

theorem map_eq_ok {f : α → β} {b : β} (h : (f <$> d) w pos = .ok b next) :
    ∃ a, d w pos = .ok a next ∧ b = f a := by
  obtain ⟨a, mid, hd, hb⟩ := bind_eq_ok (f := fun a => pure (f a)) h
  cases hb
  exact ⟨a, hd, rfl⟩

/-- What has been read was there. -/
theorem holds_of_bytes (h : bytes n w pos = .ok xs next) :
    w.Holds pos xs ∧ xs.length = n ∧ next = pos + xs.length := by
  rw [bytes] at h
  split at h
  · rename_i hle
    cases h
    have hlength := Window.length_slice hle
    exact ⟨⟨hlength.symm ▸ hle, by rw [hlength]⟩, hlength, by rw [hlength]⟩
  · cases h

theorem holds_of_skip (h : skip n w pos = .ok () next) :
    ∃ xs, w.Holds pos xs ∧ xs.length = n ∧ next = pos + xs.length := by
  rw [skip] at h
  split at h
  · rename_i hle
    cases h
    have hread : bytes n w pos = .ok (w.slice pos n) (pos + n) := by rw [bytes, if_pos hle]
    exact ⟨_, holds_of_bytes hread⟩
  · cases h

theorem holds_of_unsigned {width : Nat} (h : unsigned width w pos = .ok n next) :
    ∃ xs, w.Holds pos xs ∧ xs.length = width ∧ n = w.region.order.decode xs ∧
      next = pos + xs.length := by
  obtain ⟨_, _, h₁, h⟩ := bind_eq_ok h
  cases h₁
  obtain ⟨xs, h₂, rfl⟩ := map_eq_ok h
  obtain ⟨hholds, hlength, hnext⟩ := holds_of_bytes h₂
  exact ⟨xs, hholds, hlength, rfl, hnext⟩

end Read

section Loops

variable {σ : Type} {w : Window} {pos next : Nat} {s s' : σ}

theorem iterate_of_inl {step : σ → Decoder (σ ⊕ β)} {advances : ∀ s, (step s).Advances}
    (h : step s w pos = .ok (.inl s') next) :
    iterate step advances s w pos = iterate step advances s' w next := by
  rw [iterate]
  split <;> rename_i hstep <;> rw [h] at hstep <;> cases hstep
  rfl

theorem iterate_of_inr {step : σ → Decoder (σ ⊕ β)} {advances : ∀ s, (step s).Advances} {b : β}
    (h : step s w pos = .ok (.inr b) next) : iterate step advances s w pos = .ok b next := by
  rw [iterate]
  split <;> rename_i hstep <;> rw [h] at hstep <;> cases hstep
  rfl

/-- One step of decoding items up to an end. -/
def collect (item : Decoder (Option α)) (before : Array α) : Decoder (Array α ⊕ Array α) :=
  return match ← item with
    | some a => .inl (before.push a)
    | none => .inr before

variable {ι : Type} {item : Decoder (Option α)} {items : List ι} {value : ι → α}
  {bytes : ι → List UInt8} {stop : List UInt8}

theorem reads_iterate_collect (advances : ∀ before, (collect item before).Advances)
    (hitems : ∀ x ∈ items, item.Reads r (bytes x) (some (value x)))
    (hstop : item.Reads r stop none) (before : Array α) :
    (iterate (collect item) advances before).Reads r (items.flatMap bytes ++ stop)
      (before ++ (items.map value).toArray) := by
  induction items generalizing before with
  | nil =>
    intro w pos hr h
    have hstep : collect item before w pos = .ok (.inr before) (pos + stop.length) :=
      bind_of_eq_ok _ (hstop hr h)
    rw [iterate_of_inr hstep, List.map_nil, Array.append_empty]
    rfl
  | cons x items ih =>
    intro w pos hr h
    obtain ⟨hx, hrest⟩ := List.forall_mem_cons.1 hitems
    rw [List.flatMap_cons, List.append_assoc] at h ⊢
    obtain ⟨hbytes, hnext⟩ := Window.holds_append.1 h
    have hstep : collect item before w pos = .ok (.inl (before.push (value x)))
        (pos + (bytes x).length) :=
      bind_of_eq_ok _ (hx hr hbytes)
    rw [iterate_of_inl hstep, ih hrest (before.push (value x)) hr hnext, List.length_append,
      Nat.add_assoc]
    simp

/-- Items up to an end are read as the items. -/
theorem reads_manyUntil (advances : item.Advances)
    (hitems : ∀ x ∈ items, item.Reads r (bytes x) (some (value x)))
    (hstop : item.Reads r stop none) :
    (manyUntil item advances).Reads r (items.flatMap bytes ++ stop)
      (items.map value).toArray := by
  have h := reads_iterate_collect (fun _ => advances.bind fun _ => progresses_pure _) hitems hstop
    #[]
  rw [Array.empty_append] at h
  exact h

theorem reads_times_go {item : Decoder α} {value : ι → α}
    (hitems : ∀ x ∈ items, item.Reads r (bytes x) (value x)) (before : Array α) :
    (times.go item items.length before).Reads r (items.flatMap bytes)
      (before ++ (items.map value).toArray) := by
  induction items generalizing before with
  | nil =>
    rw [List.map_nil, Array.append_empty]
    exact reads_pure before
  | cons x items ih =>
    obtain ⟨hx, hrest⟩ := List.forall_mem_cons.1 hitems
    have hpush : before ++ ((x :: items).map value).toArray =
        before.push (value x) ++ (items.map value).toArray := by simp
    rw [hpush]
    exact hx.bind (f := fun a => times.go item items.length (before.push a))
      (ih hrest (before.push (value x)))

/-- As many items as there are to be are read as the items. -/
theorem reads_times {item : Decoder α} {value : ι → α}
    (hitems : ∀ x ∈ items, item.Reads r (bytes x) (value x)) :
    (times items.length item).Reads r (items.flatMap bytes) (items.map value).toArray := by
  have h := reads_times_go hitems #[]
  rw [Array.empty_append] at h
  exact h

theorem drain_of_eq_ok {step : σ → Decoder σ} {advances : ∀ s, (step s).Advances}
    (h : step s w pos = .ok s' next) (hlt : pos < w.limit) :
    drain step advances s w pos = drain step advances s' w next := by
  rw [drain, if_pos hlt]
  split <;> rename_i hstep <;> rw [h] at hstep <;> cases hstep
  rfl

/-- Steps over all that is left in a window fold the items that are written there. -/
theorem drain_of_reads {step : σ → Decoder σ} (advances : ∀ s, (step s).Advances) {f : σ → ι → σ}
    (hitems : ∀ x ∈ items, ∀ s, (step s).Reads r (bytes x) (f s x)) (hr : w.region = r)
    (h : w.EndsWith pos (items.flatMap bytes)) (s : σ) :
    drain step advances s w pos = .ok (items.foldl f s) w.limit := by
  induction items generalizing pos s with
  | nil =>
    have hpos : w.limit = pos := h.limit_eq
    rw [drain, if_neg (Nat.not_lt_of_le (Nat.le_of_eq hpos)), hpos]
    rfl
  | cons x items ih =>
    obtain ⟨hx, hrest⟩ := List.forall_mem_cons.1 hitems
    rw [List.flatMap_cons] at h
    obtain ⟨hbytes, hnext⟩ := h.append
    have hstep := hx s hr hbytes
    -- A step that succeeds advances within the limit, so it does not begin there.
    obtain ⟨hadvance, hle⟩ := advances s hstep
    rw [drain_of_eq_ok hstep (Nat.lt_of_lt_of_le hadvance hle), ih hrest hnext (f s x)]
    rfl

end Loops

end Decoder

end Dwarf

end StackSurvey
