import Mathlib.Data.List.Forall2
import StackSurvey.Proofs.Dwarf.Attribution

namespace StackSurvey.Dwarf

variable {address : UInt64} {entries : List Entry} {span : SourceSpan}

/-- An entry that contains an address and begins at `low`. No other one in the list begins further
on, and none behind it begins there too. -/
structure Closest (entries : List Entry) (address : UInt64) (e : Entry) (path : String)
    (low : UInt64) : Prop where
  locates : e.Locates address path low
  last : ∃ before after, entries = before ++ e :: after ∧
    (∀ other ∈ before, ∀ path' low', other.Locates address path' low' → low' ≤ low) ∧
      ∀ other ∈ after, ∀ path' low', other.Locates address path' low' → low' < low

theorem split_of_findRev? {α : Type} {p : α → Bool} {xs : List α} {x : α}
    (h : xs.findRev? p = some x) :
    ∃ before after, xs = before ++ x :: after ∧ p x = true ∧ ∀ y ∈ after, p y = false := by
  rw [List.findRev?_eq_find?_reverse] at h
  obtain ⟨hx, front, back, hxs, hfront⟩ := List.find?_eq_some_iff_append.1 h
  refine ⟨back.reverse, front.reverse, ?_, hx, ?_⟩
  · have hreverse := congrArg List.reverse hxs
    rw [List.reverse_reverse, List.reverse_append, List.reverse_cons, List.append_assoc] at hreverse
    exact hreverse
  · intro y hy
    exact Bool.not_eq_eq_eq_not.1 (hfront y (List.mem_reverse.1 hy))

/-- Sorting keeps the order of elements that stand in order. -/
theorem filter_mergeSort_eq {α : Type} {le : α → α → Bool} {q : α → Bool} {xs : List α}
    (trans : ∀ a b c, le a b → le b c → le a c) (total : ∀ a b, le a b || le b a)
    (h : (xs.filter q).Pairwise fun a b => le a b) :
    (xs.mergeSort le).filter q = xs.filter q := by
  have hsublist := (List.sublist_mergeSort trans total h List.filter_sublist).filter q
  rw [List.filter_filter] at hsublist
  simp only [Bool.and_self] at hsublist
  have hlength := ((List.mergeSort_perm xs le).filter q).length_eq
  exact (hsublist.eq_of_length hlength.symm).symm

namespace SourceIndex

/-- True of the spans that contain an address and begin at `low`. -/
def beginsAt (address low : UInt64) (span : SourceSpan) : Bool :=
  span.entry.containsAddress address && span.low == low

theorem filter_beginsAt_sortedSpans (address low : UInt64) (entries : List Entry) :
    (sortedSpans entries).filter (beginsAt address low) =
      (entries.filterMap SourceSpan.ofEntry?).filter (beginsAt address low) := by
  apply filter_mergeSort_eq
  · intro a b c hab hbc
    rw [decide_eq_true_eq] at *
    exact UInt64.le_trans hab hbc
  · intro a b
    rw [Bool.or_eq_true, decide_eq_true_eq, decide_eq_true_eq]
    exact UInt64.le_total ..
  · apply List.pairwise_of_forall_mem_list
    intro a ha b hb
    have hlow : a.low = low := eq_of_beq (Bool.and_eq_true_iff.1 (List.mem_filter.1 ha).2).2
    have hlow' : b.low = low := eq_of_beq (Bool.and_eq_true_iff.1 (List.mem_filter.1 hb).2).2
    rw [decide_eq_true_eq, hlow, hlow']
    exact UInt64.le_refl low

theorem low_le_of_find? {other : SourceSpan} (h : ∀ e ∈ entries, e.WellBounded)
    (hf : (ofEntries entries).find? address = some span)
    (hmem : other ∈ entries.filterMap SourceSpan.ofEntry?)
    (hother : other.entry.containsAddress address = true) : other.low ≤ span.low := by
  rw [find?_ofEntries h] at hf
  obtain ⟨lower, higher, hsorted, -, hhigher⟩ := split_of_findRev? hf
  have hpairwise := pairwise_sortedSpans entries
  have hmem : other ∈ sortedSpans entries := List.mem_mergeSort.2 hmem
  rw [hsorted] at hmem hpairwise
  rcases List.mem_append.1 hmem with hlower | hrest
  · exact (List.pairwise_append.1 hpairwise).2.2 other hlower span (List.mem_cons_self ..)
  · rcases List.mem_cons.1 hrest with rfl | hrest
    · exact UInt64.le_refl _
    · rw [hhigher other hrest] at hother
      cases hother

/-- Sorting has not moved the spans that begin where the found one does past each other, so it is
the last of them. -/
theorem filter_beginsAt_of_find? (h : ∀ e ∈ entries, e.WellBounded)
    (hf : (ofEntries entries).find? address = some span) :
    ∃ ties, (entries.filterMap SourceSpan.ofEntry?).filter (beginsAt address span.low) =
      ties ++ [span] := by
  rw [find?_ofEntries h] at hf
  obtain ⟨lower, higher, hsorted, hin, hhigher⟩ := split_of_findRev? hf
  have hbegins : beginsAt address span.low span = true := by
    rw [beginsAt, hin, beq_self_eq_true]
    rfl
  have hnone : higher.filter (beginsAt address span.low) = [] := by
    apply List.filter_eq_nil_iff.2
    intro other hother
    rw [beginsAt, hhigher other hother]
    exact Bool.false_ne_true
  exists lower.filter (beginsAt address span.low)
  rw [← filter_beginsAt_sortedSpans, hsorted, List.filter_append,
    List.filter_cons_of_pos hbegins, hnone]

/-- In the order of the entries, the span that is found stands last among those that begin
furthest on. -/
theorem spans_of_find? (h : ∀ e ∈ entries, e.WellBounded)
    (hf : (ofEntries entries).find? address = some span) :
    ∃ before after, entries.filterMap SourceSpan.ofEntry? = before ++ span :: after ∧
      (∀ other ∈ before, other.entry.containsAddress address = true → other.low ≤ span.low) ∧
        ∀ other ∈ after, other.entry.containsAddress address = true → other.low < span.low := by
  obtain ⟨ties, hties⟩ := filter_beginsAt_of_find? h hf
  obtain ⟨front, rest, hspans, -, hrest⟩ := List.filter_eq_append_iff.1 hties
  obtain ⟨middle, after, rfl, -, -, hafter⟩ := List.filter_eq_cons_iff.1 hrest
  rw [← List.append_assoc] at hspans
  refine ⟨front ++ middle, after, hspans, ?_, ?_⟩
  · intro other hmem
    apply low_le_of_find? h hf
    rw [hspans]
    exact List.mem_append_left _ hmem
  · intro other hmem hother
    have hbound : other.low ≤ span.low := by
      apply low_le_of_find? h hf _ hother
      rw [hspans]
      exact List.mem_append_right _ (List.mem_cons_of_mem _ hmem)
    apply UInt64.lt_of_le_of_ne hbound
    intro heq
    apply List.filter_eq_nil_iff.1 hafter other hmem
    rw [beginsAt, hother, heq, beq_self_eq_true]
    rfl

theorem exists_ofEntry?_of_locates {e : Entry} {path : String} {low : UInt64}
    (h : e.Locates address path low) :
    ∃ high, SourceSpan.ofEntry? e = some ⟨low, high, path, e⟩ := by
  obtain ⟨hpath, ⟨high, hpc⟩, -⟩ := h
  exact ⟨high, SourceSpan.ofEntry?_eq_some.2 ⟨hpath, hpc, rfl⟩⟩

theorem closest_of_find? (h : ∀ e ∈ entries, e.WellBounded)
    (hf : (ofEntries entries).find? address = some span) :
    Closest entries address span.entry span.path span.low := by
  obtain ⟨-, hlocates⟩ := locates_of_find? h hf
  obtain ⟨before, after, hspans, hbefore, hafter⟩ := spans_of_find? h hf
  obtain ⟨front, rest, rfl, rfl, hrest⟩ := List.filterMap_eq_append_iff.1 hspans
  obtain ⟨middle, e, back, rfl, hmiddle, he, rfl⟩ := List.filterMap_eq_cons_iff.1 hrest
  obtain ⟨-, -, rfl⟩ := SourceSpan.ofEntry?_eq_some.1 he
  refine ⟨hlocates, front ++ middle, back, (List.append_assoc ..).symm, ?_, ?_⟩
  · intro other hmem path low ho
    obtain ⟨high, hother⟩ := exists_ofEntry?_of_locates ho
    rcases List.mem_append.1 hmem with hfront | hmem
    · exact hbefore _ (List.mem_filterMap.2 ⟨other, hfront, hother⟩) ho.contains
    · rw [hmiddle other hmem] at hother
      cases hother
  · intro other hmem path low ho
    obtain ⟨high, hother⟩ := exists_ofEntry?_of_locates ho
    exact hafter _ (List.mem_filterMap.2 ⟨other, hmem, hother⟩) ho.contains

theorem find?_eq_none_iff (h : ∀ e ∈ entries, e.WellBounded) :
    (ofEntries entries).find? address = none ↔
      ∀ e ∈ entries, ∀ path low, ¬ e.Locates address path low := by
  constructor
  · intro hf e he path low
    exact not_locates_of_find? h hf he
  · intro hnone
    cases hf : (ofEntries entries).find? address with
    | none => rfl
    | some span =>
      obtain ⟨he, hlocates⟩ := locates_of_find? h hf
      exact absurd hlocates (hnone _ he _ _)

end SourceIndex

/-- The index of the entries of some units answers as testing each of them would: with nothing
where no entry with a source contains the address, else with the closest one, the last in the order
of the units and of the entries in them. -/
theorem find?_sourceLookup (d : DebugInfo) (address : UInt64) :
    ∃ listings : List (List Entry),
      List.Forall₂ (fun u listing => ∀ p, ∃ q, DebugUnit.entries u p = .ok listing q)
        d.units.toList listings ∧
      let found := (Session.start d).sourceLookup.1.index.find? address
      (found = none ↔ ∀ e ∈ listings.flatten, ∀ path low, ¬ e.Locates address path low) ∧
        ∀ span, found = some span →
          Closest listings.flatten address span.entry span.path span.low := by
  have hbounded : ∀ e ∈ d.units.toList.flatMap (·.entryList), e.WellBounded := by
    intro e he
    exact wellBounded_of_hasEntry (hasEntry_iff.2 he)
  refine ⟨d.units.toList.map (·.entryList), ?_, ?_⟩
  · apply List.forall₂_map_right_iff.2
    apply List.forall₂_same.2
    intro u _
    exact u.entries_eq
  · rw [sourceLookup_eq]
    exact ⟨SourceIndex.find?_eq_none_iff hbounded, fun _ => SourceIndex.closest_of_find? hbounded⟩

end StackSurvey.Dwarf
