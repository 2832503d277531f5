import StackSurvey.Dwarf.DebugSections
import StackSurvey.Proofs.Dwarf.ValueBytes

namespace StackSurvey.Dwarf

open Decoder

/-- True of the faults that more bytes could have averted. -/
def Fault.isTruncation : Fault → Bool
  | truncated .. => true
  | _ => false

namespace Window

variable {w v : Window} {pos found : Nat}

theorem holds_getElem (hlt : pos < w.limit) (hsize : pos < w.data.size) :
    w.Holds pos [w.data[pos]] where
  le_limit := hlt
  slice_eq := by
    have hlist : pos < w.data.data.toList.length := hsize
    rw [slice_eq_take, List.drop_eq_getElem_cons hlist]
    rfl

theorem holds_of_find? {p : UInt8 → Bool} (h : w.find? p pos = some found) :
    ∃ before b, w.Holds pos (before ++ [b]) ∧ found = pos + before.length ∧
      (∀ x ∈ before, p x = false) ∧ p b = true := by
  induction pos using find?.induct w p with
  | case1 pos hlt hsize hp =>
    rw [find?_of_lt p hlt hsize, if_pos hp] at h
    cases h
    exact ⟨[], _, holds_getElem hlt hsize, rfl, List.forall_mem_nil _, hp⟩
  | case2 pos hlt hsize hp ih =>
    rw [find?_of_lt p hlt hsize, if_neg hp] at h
    obtain ⟨before, b, hholds, rfl, hbefore, hb⟩ := ih h
    refine ⟨_ :: before, b, holds_cons.2 ⟨holds_getElem hlt hsize, hholds⟩, ?_, ?_, hb⟩
    · rw [List.length_cons]
      omega
    · exact List.forall_mem_cons.2 ⟨Bool.eq_false_iff.2 hp, hbefore⟩
  | case3 pos hlt =>
    rw [find?_of_not_lt p hlt] at h
    cases h

theorem size_extract (data : ByteArray) (n : Nat) : (data.extract 0 n).size = min n data.size := by
  rw [ByteArray.size_extract, Nat.sub_zero]

theorem le_limit_extract {data : ByteArray} {r : Region} {n : Nat}
    (h : pos ≤ (Window.mk data r).limit) (hle : pos ≤ n) :
    pos ≤ (Window.mk (data.extract 0 n) r).limit := by
  simp only [limit, size_extract] at *
  omega

theorem holds_of_extract {data : ByteArray} {r : Region} {n : Nat} {bytes : List UInt8}
    (h : (Window.mk (data.extract 0 n) r).Holds pos bytes) :
    (Window.mk data r).Holds pos bytes ∧ pos + bytes.length ≤ n := by
  obtain ⟨hle, hslice⟩ := h
  have hlist : (data.extract 0 n).data.toList = data.data.toList.take n := by
    rw [ByteArray.data_extract, Array.toList_extract, List.extract_eq_take_drop, List.drop_zero,
      Nat.sub_zero]
  simp only [limit, size_extract] at hle
  rw [slice_eq_take] at hslice
  simp only [hlist, List.drop_take, List.take_take] at hslice
  have hcount : min bytes.length (n - pos) = bytes.length := by omega
  refine ⟨⟨by simp only [limit]; omega, ?_⟩, by omega⟩
  rw [slice_eq_take]
  rwa [hcount] at hslice

end Window

namespace Decoder

variable {α β γ : Type} {d : Decoder α} {f : α → Decoder β}

/-- A success has read the bytes that it moves past: it is the same wherever they are. -/
def Exact (d : Decoder α) : Prop :=
  ∀ ⦃w : Window⦄ ⦃pos next : Nat⦄ ⦃a : α⦄, pos ≤ w.limit → d w pos = .ok a next →
    ∃ bytes, w.Holds pos bytes ∧ next = pos + bytes.length ∧ d.Reads w.region bytes a

theorem exact_pure (a : α) : (pure a : Decoder α).Exact := by
  intro w pos next b hpos h
  cases h
  exact ⟨[], Window.holds_nil hpos, rfl, reads_pure a⟩

theorem exact_throw (fault : Fault) : (throw fault : Decoder α).Exact := by
  intro w pos next a _ h
  cases h

theorem exact_ofExcept (e : Except Fault α) : (ofExcept e : Decoder α).Exact := by
  cases e with
  | ok a => exact exact_pure a
  | error fault => exact exact_throw fault

theorem exact_region : region.Exact := by
  intro w pos next r hpos h
  cases h
  exact ⟨[], Window.holds_nil hpos, rfl, reads_region⟩

theorem Exact.bind (hd : d.Exact) (hf : ∀ a, (f a).Exact) : (d >>= f).Exact := by
  intro w pos next b hpos h
  obtain ⟨a, mid, hfirst, hsecond⟩ := bind_eq_ok h
  obtain ⟨xs, hxs, rfl, hreads⟩ := hd hpos hfirst
  obtain ⟨ys, hys, rfl, hreads'⟩ := hf a hxs.le_limit hsecond
  refine ⟨xs ++ ys, Window.holds_append.2 ⟨hxs, hys⟩, ?_, hreads.bind hreads'⟩
  rw [List.length_append, Nat.add_assoc]

theorem Exact.map (hd : d.Exact) (g : α → β) : (g <$> d).Exact :=
  hd.bind fun a => exact_pure (g a)

theorem exact_byte : byte.Exact := by
  intro w pos next b _ h
  rw [byte] at h
  split at h
  · rename_i hlt
    cases h
    exact ⟨_, Window.holds_getElem hlt (Window.lt_size_of_lt_limit hlt), rfl, reads_byte _⟩
  · cases h

theorem exact_bytes (n : Nat) : (bytes n).Exact := by
  intro w pos next xs _ h
  obtain ⟨hholds, rfl, hnext⟩ := holds_of_bytes h
  exact ⟨xs, hholds, hnext, reads_bytes xs⟩

theorem exact_unsigned (width : Nat) : (unsigned width).Exact :=
  exact_region.bind fun _ => (exact_bytes width).map _

theorem exact_signed (width : Nat) : (signed width).Exact := (exact_unsigned width).map _

theorem exact_sized (width : Nat) : (sized width).Exact := by
  unfold sized
  split
  · exact exact_throw _
  · exact (exact_unsigned width).map _

theorem exact_offset : offset.Exact := exact_region.bind fun _ => exact_sized _

theorem exact_address : address.Exact := by
  apply exact_region.bind
  intro r
  dsimp only
  split
  · exact exact_sized _
  · exact exact_throw _

/-- The search for the end of a number stops at the first byte that ends one. -/
theorem holds_of_leb128 {w : Window} {pos next : Nat} {xs : List UInt8}
    (h : leb128 w pos = .ok xs next) :
    w.Holds pos xs ∧ Leb128.IsGroup xs ∧ next = pos + xs.length := by
  rw [leb128] at h
  split at h
  · rename_i last hlast
    cases h
    obtain ⟨before, b, hholds, rfl, hbefore, hb⟩ := Window.holds_of_find? hlast
    have hlength : pos + before.length + 1 - pos = (before ++ [b]).length := by
      rw [List.length_append, List.length_singleton]
      omega
    rw [hlength, hholds.slice_eq]
    refine ⟨hholds, Leb128.isGroup_iff.2 ⟨before, b, rfl, hbefore, hb⟩, ?_⟩
    rw [List.length_append, Nat.add_assoc, List.length_singleton]
  · cases h

theorem exact_leb128 : leb128.Exact := by
  intro w pos next xs _ h
  obtain ⟨hholds, hgroup, hnext⟩ := holds_of_leb128 h
  exact ⟨xs, hholds, hnext, reads_leb128 hgroup⟩

theorem exact_uleb128 : uleb128.Exact := exact_leb128.map _

theorem exact_sleb128 : sleb128.Exact := exact_leb128.map _

theorem exact_terminated : terminated.Exact := by
  intro w pos next xs _ h
  rw [terminated] at h
  split at h
  · rename_i stop hstop
    cases h
    obtain ⟨before, b, hholds, rfl, hbefore, hb⟩ := Window.holds_of_find? hstop
    obtain rfl : b = 0 := beq_iff_eq.1 hb
    have hzero : 0 ∉ before := fun hmem => by simpa using hbefore 0 hmem
    rw [Nat.add_sub_cancel_left, (Window.holds_append.1 hholds).1.slice_eq]
    refine ⟨before ++ [0], hholds, ?_, reads_terminated hzero⟩
    rw [List.length_append, Nat.add_assoc, List.length_singleton]
  · cases h

theorem exact_text : text.Exact := exact_terminated.map _

/-- A success is one from any other buffer that holds the same bytes up to its end. -/
theorem Exact.of_holds_slice {w v : Window} {pos next stop : Nat} {a : α} (hd : d.Exact)
    (hpos : pos ≤ w.limit) (h : d w pos = .ok a next) (hnext : next ≤ stop)
    (hv : v.Holds pos (w.slice pos (stop - pos))) (hregion : v.region = w.region) :
    d v pos = .ok a next := by
  obtain ⟨bytes, hbytes, rfl, hreads⟩ := hd hpos h
  -- What the decoder has read is the beginning of what the other buffer holds too.
  obtain ⟨n, hn⟩ : ∃ n, stop - pos = bytes.length + n := ⟨stop - pos - bytes.length, by omega⟩
  rw [hn, Window.slice_add, hbytes.slice_eq] at hv
  exact hreads hregion (Window.holds_append.1 hv).1

/-- A success in the beginning of a buffer is one in the buffer, and ends within that beginning. -/
theorem Exact.of_extract {data : ByteArray} {r : Region} {pos next n : Nat} {a : α} (hd : d.Exact)
    (hpos : pos ≤ (Window.mk (data.extract 0 n) r).limit)
    (h : d ⟨data.extract 0 n, r⟩ pos = .ok a next) : d ⟨data, r⟩ pos = .ok a next ∧ next ≤ n := by
  obtain ⟨bytes, hbytes, rfl, hreads⟩ := hd hpos h
  obtain ⟨hholds, hle⟩ := Window.holds_of_extract hbytes
  exact ⟨hreads rfl hholds, hle⟩

/-- Where `s` succeeds, `d` ends in the same place or fails, but not for want of bytes. -/
def EndsLike (d : Decoder α) (s : Decoder γ) : Prop :=
  ∀ ⦃w : Window⦄ ⦃pos next : Nat⦄ ⦃c : γ⦄, s w pos = .ok c next →
    (∃ a, d w pos = .ok a next) ∨
      ∃ fault mid, d w pos = .error fault mid ∧ fault.isTruncation = false

theorem EndsLike.next_eq {s : Decoder γ} {w : Window} {pos next stop : Nat} {a : α} {c : γ}
    (h : d.EndsLike s) (hs : s w pos = .ok c stop) (hd : d w pos = .ok a next) : next = stop := by
  rcases h hs with ⟨_, hd'⟩ | ⟨_, _, hd', -⟩
  · rw [hd] at hd'
    cases hd'
    rfl
  · rw [hd] at hd'
    cases hd'

theorem endsLike_self (d : Decoder α) : d.EndsLike d := fun _ _ _ a h => .inl ⟨a, h⟩

theorem endsLike_throw {fault : Fault} (h : fault.isTruncation = false) (s : Decoder γ) :
    (throw fault : Decoder α).EndsLike s := fun _ pos _ _ _ => .inr ⟨fault, pos, rfl, h⟩

theorem EndsLike.bind {s : α → Decoder γ} (h : ∀ a, (f a).EndsLike (s a)) :
    (d >>= f).EndsLike (d >>= s) := by
  intro w pos next c hs
  obtain ⟨a, mid, hd, hs⟩ := bind_eq_ok hs
  rw [bind_of_eq_ok f hd]
  exact h a hs

theorem EndsLike.andThen {s : Decoder γ} {g : α → Except Fault β} (h : d.EndsLike s)
    (hg : ∀ a fault, g a = .error fault → fault.isTruncation = false) :
    (d >>= fun a => (ofExcept (g a) : Decoder β)).EndsLike s := by
  intro w pos next c hs
  rcases h hs with ⟨a, hd⟩ | ⟨fault, mid, hd, hfault⟩
  · rw [bind_of_eq_ok _ hd]
    cases hga : g a with
    | ok b => exact .inl ⟨b, rfl⟩
    | error fault => exact .inr ⟨fault, next, rfl, hg a fault hga⟩
  · rw [bind_of_eq_error _ hd]
    exact .inr ⟨fault, mid, rfl, hfault⟩

theorem EndsLike.map {s : Decoder γ} (h : d.EndsLike s) (g : α → β) : (g <$> d).EndsLike s :=
  h.andThen (g := fun a => .ok (g a)) fun _ _ hfault => by cases hfault

theorem EndsLike.region {s : Decoder γ} {f : Region → Decoder β} (h : ∀ r, (f r).EndsLike s) :
    (region >>= f).EndsLike s := fun w _ _ _ hs => h w.region hs

theorem endsLike_bytes (n : Nat) : (bytes n).EndsLike (skip n) := by
  intro w pos next _ h
  rw [skip] at h
  split at h
  · rename_i hle
    cases h
    exact .inl ⟨_, if_pos hle⟩
  · cases h

theorem endsLike_byte : byte.EndsLike (skip 1) := by
  intro w pos next _ h
  rw [skip] at h
  split at h
  · rename_i hlt
    cases h
    exact .inl ⟨_, dif_pos hlt⟩
  · cases h

theorem endsLike_unsigned (width : Nat) : (unsigned width).EndsLike (skip width) :=
  .region fun _ => (endsLike_bytes width).map _

theorem endsLike_signed (width : Nat) : (signed width).EndsLike (skip width) :=
  (endsLike_unsigned width).map _

theorem endsLike_sized (width : Nat) : (sized width).EndsLike (skip width) := by
  unfold sized
  split
  · exact endsLike_throw rfl _
  · exact (endsLike_unsigned width).map _

theorem endsLike_offset (version : Nat) : offset.EndsLike (Extent.offset.skip version) :=
  .bind fun _ => endsLike_sized _

theorem endsLike_address (version : Nat) : address.EndsLike (Extent.address.skip version) := by
  apply EndsLike.bind
  intro r
  dsimp only
  split
  · exact endsLike_sized _
  · exact endsLike_throw rfl _

theorem endsLike_ignored (d : Decoder α) : d.EndsLike (d >>= fun _ => pure ()) := by
  intro w pos next _ h
  obtain ⟨a, mid, hd, h⟩ := bind_eq_ok h
  cases h
  exact .inl ⟨a, hd⟩

theorem isTruncation_of_text {w : Window} {pos mid : Nat} {fault : Fault}
    (h : text w pos = .error fault mid) : fault.isTruncation = false := by
  change (terminated >>= fun bytes => pure (Utf8.lossy bytes)) w pos = _ at h
  cases hstop : w.find? (· == 0) pos with
  | some stop =>
    have hterminated : terminated w pos = .ok (w.slice pos (stop - pos)) (stop + 1) := by
      rw [terminated, hstop]
    rw [bind_of_eq_ok _ hterminated] at h
    cases h
  | none =>
    have hterminated : terminated w pos = .error (.unterminatedString pos) pos := by
      rw [terminated, hstop]
    rw [bind_of_eq_error _ hterminated] at h
    cases h
    rfl

end Decoder

theorem DebugSections.isTruncation_of_textAt {sections : DebugSections} {name : DebugSection}
    {offset : UInt64} {order : ByteOrder} {fault : Fault}
    (h : sections.textAt name offset order = .error fault) : fault.isTruncation = false := by
  unfold textAt decodeAt at h
  split at h
  · cases h
    rfl
  · split at h
    · split at h
      · cases h
      · rename_i htext
        cases h
        exact isTruncation_of_text htext
    · cases h
      rfl

end StackSurvey.Dwarf
