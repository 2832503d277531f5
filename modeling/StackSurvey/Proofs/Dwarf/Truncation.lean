import StackSurvey.Proofs.Dwarf.Reading

namespace StackSurvey

theorem Leb128.IsGroup.isLast_eq_false {bytes read : List UInt8} (h : IsGroup bytes)
    (hread : read <+: bytes) (hne : read ≠ bytes) : ∀ b ∈ read, isLast b = false := by
  obtain ⟨before, b, rfl, hbefore, _⟩ := isGroup_iff.1 h
  rcases List.prefix_concat_iff.1 hread with heq | hread
  · exact absurd heq hne
  · intro x hx
    exact hbefore x (hread.subset hx)

namespace Dwarf

namespace Window

variable {w : Window} {pos : Nat}

theorem find?_of_endsWith {p : UInt8 → Bool} {bytes : List UInt8}
    (hbytes : ∀ b ∈ bytes, p b = false) (h : w.EndsWith pos bytes) : w.find? p pos = none := by
  induction bytes generalizing pos with
  | nil => exact find?_of_not_lt p (Nat.not_lt_of_le (Nat.le_of_eq h.limit_eq))
  | cons b bytes ih =>
    obtain ⟨hb, hrest⟩ := List.forall_mem_cons.1 hbytes
    have hlt := h.holds.lt_limit
    rw [find?_of_lt p hlt (lt_size_of_lt_limit hlt), h.holds.getElem,
      if_neg (Bool.eq_false_iff.1 hb)]
    exact ih hrest h.cons.2

end Window

namespace Decoder

variable {α β σ : Type} {d : Decoder α} {r : Region} {xs ys : List UInt8} {a : α}

/-- In every window of a region that ends inside some bytes, a decoder finds the next byte
missing. -/
def NeedsAll (d : Decoder α) (r : Region) (bytes : List UInt8) : Prop :=
  ∀ ⦃w : Window⦄ ⦃pos : Nat⦄ ⦃read : List UInt8⦄, w.region = r → read <+: bytes → read ≠ bytes →
    w.EndsWith pos read → d w pos = .error (.truncated w.limit 1 0) w.limit

/-- What is missing of a sequence is missing of its first part, or of the second one behind all of
the first. -/
theorem NeedsAll.bind {f : α → Decoder β} (hd : d.NeedsAll r xs) (hreads : d.Reads r xs a)
    (hf : (f a).NeedsAll r ys) : (d >>= f).NeedsAll r (xs ++ ys) := by
  intro w pos read hr hread hne hw
  rcases List.prefix_or_prefix_of_prefix hread (List.prefix_append xs ys) with hxs | ⟨rest, rfl⟩
  · by_cases hall : read = xs
    · subst hall
      have hys : ys ≠ [] := fun hnil => hne (hnil ▸ (List.append_nil read).symm)
      have hend : w.EndsWith (pos + read.length) [] :=
        (Window.EndsWith.append ((List.append_nil read).symm ▸ hw)).2
      rw [bind_of_eq_ok f (hreads hr hw.holds)]
      exact hf hr (List.nil_prefix) hys.symm hend
    · exact bind_of_eq_error f (hd hr hxs hall hw)
  · obtain ⟨hhead, hrest⟩ := hw.append
    have hprefix : rest <+: ys := (List.prefix_append_right_inj xs).1 hread
    have hshort : rest ≠ ys := fun heq => hne (heq ▸ rfl)
    rw [bind_of_eq_ok f (hreads hr hhead)]
    exact hf hr hprefix hshort hrest

theorem NeedsAll.bind_nil {f : α → Decoder β} (hd : d.NeedsAll r xs) : (d >>= f).NeedsAll r xs := by
  intro w pos read hr hread hne hw
  exact bind_of_eq_error f (hd hr hread hne hw)

theorem NeedsAll.map {f : α → β} (hd : d.NeedsAll r xs) : (f <$> d).NeedsAll r xs := hd.bind_nil

theorem needsAll_byte (b : UInt8) : byte.NeedsAll r [b] := by
  intro w pos read _ hread hne hw
  rcases List.prefix_cons_iff.1 hread with rfl | ⟨rest, rfl, hrest⟩
  · have hlimit : w.limit = pos := hw.limit_eq
    have hnone : ¬ pos < w.limit := Nat.not_lt_of_le (Nat.le_of_eq hlimit)
    rw [byte, dif_neg hnone, Window.remaining, hlimit, Nat.sub_self]
  · rw [List.prefix_nil.1 hrest] at hne
    exact absurd rfl hne

theorem needsAll_leb128 (h : Leb128.IsGroup xs) : leb128.NeedsAll r xs := by
  intro w pos read _ hread hne hw
  have hle : pos ≤ w.limit := Nat.le_trans (Nat.le_add_right ..) hw.holds.le_limit
  rw [leb128, Window.find?_of_endsWith (h.isLast_eq_false hread hne) hw]
  simp only [Nat.max_eq_right hle]

theorem needsAll_uleb128 (h : Leb128.IsGroup xs) : uleb128.NeedsAll r xs := (needsAll_leb128 h).map

theorem needsAll_sleb128 (h : Leb128.IsGroup xs) : sleb128.NeedsAll r xs := (needsAll_leb128 h).map

/-- Repetition is one step, and what is left to do after it. -/
theorem iterate_eq_bind (step : σ → Decoder (σ ⊕ β)) (advances : ∀ s, (step s).Advances) (s : σ) :
    iterate step advances s = step s >>= fun
      | .inl s' => iterate step advances s'
      | .inr b => pure b := by
  funext w pos
  cases hstep : step s w pos with
  | ok answer next =>
    rw [bind_of_eq_ok _ hstep]
    cases answer with
    | inl s' => exact iterate_of_inl hstep
    | inr b => exact iterate_of_inr hstep
  | error fault next =>
    rw [bind_of_eq_error _ hstep, iterate]
    split <;> rename_i hstep' <;> rw [hstep] at hstep' <;> cases hstep'
    rfl

variable {ι : Type} {item : Decoder (Option α)} {items : List ι} {value : ι → α}
  {bytes : ι → List UInt8} {stop : List UInt8}

theorem needsAll_iterate_collect (advances : ∀ before, (collect item before).Advances)
    (hitems : ∀ x ∈ items, item.Reads r (bytes x) (some (value x)))
    (hall : ∀ x ∈ items, item.NeedsAll r (bytes x)) (hstop : item.NeedsAll r stop)
    (before : Array α) :
    (iterate (collect item) advances before).NeedsAll r (items.flatMap bytes ++ stop) := by
  induction items generalizing before with
  | nil =>
    rw [iterate_eq_bind]
    exact (NeedsAll.map hstop).bind_nil
  | cons x items ih =>
    obtain ⟨hx, hitems⟩ := List.forall_mem_cons.1 hitems
    obtain ⟨hxall, hall⟩ := List.forall_mem_cons.1 hall
    have hread : (collect item before).Reads r (bytes x) (.inl (before.push (value x))) :=
      hx.bind_nil (reads_pure _)
    rw [iterate_eq_bind, List.flatMap_cons, List.append_assoc]
    exact (NeedsAll.bind_nil hxall).bind hread (ih hitems hall _)

/-- Items up to an end are all needed, and so is the end. -/
theorem needsAll_manyUntil (advances : item.Advances)
    (hitems : ∀ x ∈ items, item.Reads r (bytes x) (some (value x)))
    (hall : ∀ x ∈ items, item.NeedsAll r (bytes x)) (hstop : item.NeedsAll r stop) :
    (manyUntil item advances).NeedsAll r (items.flatMap bytes ++ stop) :=
  needsAll_iterate_collect (fun _ => advances.bind fun _ => progresses_pure _) hitems hall hstop #[]

end Decoder

end Dwarf

end StackSurvey
