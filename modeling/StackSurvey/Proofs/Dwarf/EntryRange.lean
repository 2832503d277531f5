import StackSurvey.Proofs.Dwarf.Traversal

namespace StackSurvey.Dwarf

theorem left_le_max (a b : UInt64) : a ≤ max a b := by
  change a ≤ if a ≤ b then b else a
  split
  · assumption
  · exact UInt64.le_refl a

theorem right_le_max (a b : UInt64) : b ≤ max a b := by
  change b ≤ if a ≤ b then b else a
  split
  · exact UInt64.le_refl b
  · exact (UInt64.le_total a b).resolve_left ‹_›

namespace Entry

variable {u : DebugUnit} {resolver : Resolver} {e : Entry}

/-- The bounds of an entry that lists ranges are those of the ranges. -/
def WellBounded (e : Entry) : Prop := e.ranges = [] ∨ e.pcRange = hull? e.ranges

theorem unresolved_of_decode {w : Window} {pos next : Nat} (h : decode u w pos = .ok e next) :
    e.ranges = [] ∧ e.pcRange = none := by
  obtain ⟨offset, p₁, h₁, h⟩ := Decoder.bind_eq_ok h
  obtain ⟨code, p₂, h₂, h⟩ := Decoder.bind_eq_ok h
  split at h
  · obtain ⟨_, p₃, h₃, h⟩ := Decoder.bind_eq_ok h
    cases h
    exact ⟨rfl, rfl⟩
  · obtain ⟨_, p₃, h₃, h⟩ := Decoder.bind_eq_ok h
    obtain ⟨_, p₄, h₄, h⟩ := Decoder.bind_eq_ok h
    obtain ⟨_, p₅, h₅, h⟩ := Decoder.bind_eq_ok h
    obtain ⟨_, p₆, h₆, h⟩ := Decoder.bind_eq_ok h
    cases h
    exact ⟨rfl, rfl⟩

/-- An entry has no addresses before it is resolved. -/
theorem unresolved_of_find {offset : Nat} (h : u.find offset = .ok e) :
    e.ranges = [] ∧ e.pcRange = none := by
  unfold DebugUnit.find DebugUnit.decodeAt at h
  split at h
  · split at h <;> cases h
    exact unresolved_of_decode ‹_›
  · cases h

theorem wellBounded_withPc (h : e.ranges = []) (source : PcSource) :
    (e.withPc u resolver source).WellBounded := by
  unfold withPc withRanges
  split
  · exact .inl h
  · exact .inl h
  · split
    · split
      · exact .inr (Eq.symm ‹_›)
      · exact .inl h
    · exact .inl h

theorem ranges_withDeclaration (e : Entry) (lineTable : Option LineTable) (d : Declaration) :
    (e.withDeclaration lineTable d).ranges = e.ranges := by
  unfold withDeclaration
  split <;> rfl

theorem wellBounded_listed {depth : Nat} (h : e.ranges = []) :
    (u.listed resolver depth e).WellBounded := by
  change (e.resolve u resolver).WellBounded
  unfold resolve
  refine wellBounded_withPc ?_ _
  split
  · rw [ranges_withDeclaration]
    exact h
  · exact h

theorem wellBounded_of_mem_entryList (he : e ∈ u.entryList) : e.WellBounded :=
  DebugUnit.forall_mem_walk (fun _ _ _ hf => wellBounded_listed (unresolved_of_find hf).1) _ _ e he

theorem hull?_eq_none {ranges : List (UInt64 × UInt64)} : hull? ranges = none ↔ ranges = [] := by
  cases ranges <;> simp [hull?]

/-- The hull of ranges reaches from below each of them to past each. -/
theorem hull?_bounds {ranges : List (UInt64 × UInt64)} {low high : UInt64}
    (h : hull? ranges = some (low, high)) :
    ∀ r ∈ ranges, low ≤ r.1 ∧ r.2 ≤ high := by
  cases ranges with
  | nil => cases h
  | cons first rest =>
    induction rest generalizing first with
    | nil =>
      cases h
      exact List.forall_mem_singleton.2 ⟨UInt64.le_refl _, UInt64.le_refl _⟩
    | cons next rest ih =>
      -- The first two ranges count as one that reaches over both.
      obtain ⟨hmin, hrest⟩ := List.forall_mem_cons.1
        (ih (min first.1 next.1, max first.2 next.2) h)
      refine List.forall_mem_cons.2 ⟨?_, List.forall_mem_cons.2 ⟨?_, hrest⟩⟩
      · exact ⟨UInt64.le_trans hmin.1 Std.min_le_left, UInt64.le_trans (left_le_max ..) hmin.2⟩
      · exact ⟨UInt64.le_trans hmin.1 Std.min_le_right, UInt64.le_trans (right_le_max ..) hmin.2⟩

/-- Every address of an entry lies between its bounds. -/
theorem WellBounded.bounds {address : UInt64} (h : e.WellBounded)
    (ha : e.containsAddress address = true) :
    ∃ low high, e.pcRange = some (low, high) ∧ low ≤ address ∧ address < high := by
  unfold containsAddress at ha
  split at ha
  · rename_i hne
    have hp := h.resolve_left hne
    obtain ⟨r, hr, hin⟩ := List.any_eq_true.1 ha
    cases hh : hull? e.ranges with
    | none => exact absurd (hull?_eq_none.1 hh) hne
    | some bounds =>
      obtain ⟨hlow, hhigh⟩ := hull?_bounds hh r hr
      simp only [Bool.and_eq_true, decide_eq_true_eq] at hin
      exact ⟨bounds.1, bounds.2, hp.trans hh, UInt64.le_trans hlow hin.1,
        UInt64.lt_of_lt_of_le hin.2 hhigh⟩
  · obtain ⟨⟨low, high⟩, hp, hin⟩ := (Option.any_eq_true ..).1 ha
    simp only [Bool.and_eq_true, decide_eq_true_eq] at hin
    exact ⟨low, high, hp, hin.1, hin.2⟩

end Entry

end StackSurvey.Dwarf
