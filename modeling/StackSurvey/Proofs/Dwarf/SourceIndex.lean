import StackSurvey.Dwarf.SourceIndex
import StackSurvey.Proofs.Dwarf.EntryRange

namespace StackSurvey.Dwarf

variable {address : UInt64}

/-- An entry that has a source and contains an address; it begins at `low`. -/
structure Entry.Locates (e : Entry) (address : UInt64) (path : String) (low : UInt64) : Prop where
  path_eq : e.path = some path
  pcRange_eq : ∃ high, e.pcRange = some (low, high)
  contains : e.containsAddress address = true

namespace SourceSpan

variable {e : Entry} {span : SourceSpan}

theorem ofEntry?_eq_some :
    ofEntry? e = some span ↔
      e.path = some span.path ∧ e.pcRange = some (span.low, span.high) ∧ span.entry = e := by
  obtain ⟨low, high, path, entry⟩ := span
  unfold ofEntry?
  simp only [Option.bind_eq_bind, Option.bind_eq_some_iff, Option.pure_def,
    Option.some.injEq, mk.injEq, Prod.exists]
  constructor
  · rintro ⟨_, hpath, _, _, hpc, rfl, rfl, rfl, rfl⟩
    exact ⟨hpath, hpc, rfl⟩
  · rintro ⟨hpath, hpc, rfl⟩
    exact ⟨path, hpath, low, high, hpc, rfl, rfl, rfl, rfl⟩

def Bounded (span : SourceSpan) : Prop :=
  ∀ address, span.entry.containsAddress address = true →
    span.low ≤ address ∧ address < span.high

theorem bounded_of_ofEntry? (he : e.WellBounded) (h : ofEntry? e = some span) : span.Bounded := by
  obtain ⟨_, hpc, rfl⟩ := ofEntry?_eq_some.1 h
  intro address ha
  obtain ⟨low, high, hpc', hlow, hhigh⟩ := he.bounds ha
  rw [hpc] at hpc'
  cases hpc'
  exact ⟨hlow, hhigh⟩

end SourceSpan

namespace SourceIndex

def sortedSpans (entries : List Entry) : List SourceSpan :=
  (entries.filterMap SourceSpan.ofEntry?).mergeSort fun a b => a.low ≤ b.low

theorem mem_sortedSpans {entries : List Entry} {span : SourceSpan} :
    span ∈ sortedSpans entries ↔ ∃ e ∈ entries, SourceSpan.ofEntry? e = some span := by
  rw [sortedSpans, List.mem_mergeSort, List.mem_filterMap]

theorem pairwise_sortedSpans (entries : List Entry) :
    (sortedSpans entries).Pairwise fun a b => a.low ≤ b.low := by
  have h := @List.pairwise_mergeSort SourceSpan (fun a b => decide (a.low ≤ b.low))
    (fun a b c hab hbc => by
      rw [decide_eq_true_eq] at *
      exact UInt64.le_trans hab hbc)
    (fun a b => by
      rw [Bool.or_eq_true, decide_eq_true_eq, decide_eq_true_eq]
      exact UInt64.le_total ..)
    (entries.filterMap SourceSpan.ofEntry?)
  exact h.imp fun hab => of_decide_eq_true hab

theorem map_withReach (reach : UInt64) (spans : List SourceSpan) :
    (withReach reach spans).map (·.span) = spans := by
  induction spans generalizing reach with
  | nil => rfl
  | cons span spans ih => rw [withReach, List.map_cons, ih]

theorem length_withReach (reach : UInt64) (spans : List SourceSpan) :
    (withReach reach spans).length = spans.length := by
  rw [← List.length_map IndexedSpan.span, map_withReach]

theorem span_withReach {reach : UInt64} {spans : List SourceSpan} {i : Nat} {x : IndexedSpan}
    (h : (withReach reach spans)[i]? = some x) : spans[i]? = some x.span := by
  have hmap := congrArg (·[i]?) (map_withReach reach spans)
  rw [List.getElem?_map, h] at hmap
  exact hmap.symm

theorem le_reach_of_mem {reach : UInt64} {spans : List SourceSpan} {x : IndexedSpan}
    (h : x ∈ withReach reach spans) : reach ≤ x.reach := by
  induction spans generalizing reach with
  | nil => cases h
  | cons span spans ih =>
    rcases List.mem_cons.1 h with rfl | h
    · exact left_le_max ..
    · exact UInt64.le_trans (left_le_max ..) (ih h)

/-- No span up to a place goes past the reach at that place. -/
theorem high_le_reach {reach : UInt64} {spans : List SourceSpan} {i : Nat} {x : IndexedSpan}
    (hx : (withReach reach spans)[i]? = some x) :
    ∀ span ∈ spans.take (i + 1), span.high ≤ x.reach := by
  induction spans generalizing reach i with
  | nil => cases hx
  | cons first spans ih =>
    rw [withReach] at hx
    cases i with
    | zero =>
      cases hx
      intro span hspan
      rw [List.mem_singleton.1 hspan]
      exact right_le_max ..
    | succ i =>
      rw [List.getElem?_cons_succ] at hx
      refine List.forall_mem_cons.2 ⟨?_, ih hx⟩
      exact UInt64.le_trans (right_le_max ..) (le_reach_of_mem (List.mem_of_getElem? hx))

theorem findRev?_take_add_one {α : Type} {p : α → Bool} {xs : List α} {i : Nat} {x : α}
    (h : xs[i]? = some x) :
    (xs.take (i + 1)).findRev? p = if p x then some x else (xs.take i).findRev? p := by
  rw [List.take_add_one, h]
  simp only [Option.toList_some, List.findRev?_eq_find?_reverse, List.reverse_append,
    List.reverse_singleton, List.singleton_append, List.find?_cons]
  cases p x <;> rfl

/-- Where the search ends early, no earlier span contains the address. -/
theorem findBelow?_eq {spans : List SourceSpan} (hspans : ∀ span ∈ spans, span.Bounded)
    (count : Nat) :
    findBelow? ⟨(withReach 0 spans).toArray⟩ address count =
      (spans.take count).findRev? (·.entry.containsAddress address) := by
  induction count with
  | zero => rfl
  | succ count ih =>
    rw [findBelow?.eq_def]
    simp only [List.getElem?_toArray]
    cases hx : (withReach 0 spans)[count]? with
    | none =>
      have hlen := List.getElem?_eq_none_iff.1 hx
      rw [length_withReach] at hlen
      rw [ih, List.take_of_length_le hlen, List.take_of_length_le (Nat.le_succ_of_le hlen)]
    | some x =>
      by_cases hreach : x.reach ≤ address
      · simp only [hreach, if_true]
        rw [List.findRev?_eq_find?_reverse, eq_comm, List.find?_eq_none]
        intro span hmem hin
        have hmem := List.mem_reverse.1 hmem
        have hhigh := (hspans span (List.mem_of_mem_take hmem) address hin).2
        have hle := UInt64.le_trans (high_le_reach hx span hmem) hreach
        exact absurd (UInt64.lt_of_lt_of_le hhigh hle) (UInt64.lt_irrefl _)
      · simp only [hreach, if_false]
        rw [findRev?_take_add_one (span_withReach hx), ih]

/-- The spans that begin at or below an address stand before the others. -/
theorem lt_partitionPoint_withReach_iff (address : UInt64) {spans : List SourceSpan}
    (h : spans.Pairwise fun a b => a.low ≤ b.low) (i : Nat) (hi : i < spans.length) :
    i < partitionPoint (·.span.low ≤ address) (withReach 0 spans).toArray ↔
      spans[i].low ≤ address := by
  have hsize : (withReach 0 spans).toArray.size = spans.length := length_withReach 0 spans
  have hspan (i : Nat) (hi : i < (withReach 0 spans).toArray.size) (hi' : i < spans.length) :
      (withReach 0 spans).toArray[i].span = spans[i] := by
    have hx := span_withReach (List.getElem?_eq_getElem (l := withReach 0 spans) hi)
    exact (List.getElem_of_getElem? hx).2.symm
  have hmono : ∀ i j (_ : i ≤ j) (_ : j < (withReach 0 spans).toArray.size),
      decide ((withReach 0 spans).toArray[j].span.low ≤ address) →
        decide ((withReach 0 spans).toArray[i].span.low ≤ address) := by
    intro i j hij hj hle
    have hj' : j < spans.length := hsize ▸ hj
    have hi' : i < spans.length := Nat.lt_of_le_of_lt hij hj'
    rw [decide_eq_true_eq, hspan j hj hj'] at hle
    rw [decide_eq_true_eq, hspan i _ hi']
    rcases Nat.eq_or_lt_of_le hij with rfl | hlt
    · exact hle
    · exact UInt64.le_trans (List.pairwise_iff_getElem.1 h i j hi' hj' hlt) hle
  rw [lt_partitionPoint_iff hmono i (hsize ▸ hi), decide_eq_true_eq, hspan i _ hi]

/-- An index gives the last span that contains an address. -/
theorem find?_ofEntries {entries : List Entry} (h : ∀ e ∈ entries, e.WellBounded) :
    (ofEntries entries).find? address =
      (sortedSpans entries).findRev? (·.entry.containsAddress address) := by
  have hbounded : ∀ span ∈ sortedSpans entries, span.Bounded := by
    intro span hspan
    obtain ⟨e, he, hof⟩ := mem_sortedSpans.1 hspan
    exact SourceSpan.bounded_of_ofEntry? (h e he) hof
  change findBelow? ⟨(withReach 0 (sortedSpans entries)).toArray⟩ address
    (partitionPoint (·.span.low ≤ address) (withReach 0 (sortedSpans entries)).toArray) = _
  have hlow := lt_partitionPoint_withReach_iff address (pairwise_sortedSpans entries)
  generalize partitionPoint (·.span.low ≤ address)
    (withReach 0 (sortedSpans entries)).toArray = count at hlow ⊢
  generalize sortedSpans entries = spans at hbounded hlow ⊢
  -- The spans from `count` on begin past the address.
  have hpast : (spans.drop count).reverse.find? (·.entry.containsAddress address) = none := by
    rw [List.find?_eq_none]
    intro span hspan hin
    obtain ⟨i, hi, rfl⟩ := List.mem_iff_getElem.1 (List.mem_reverse.1 hspan)
    rw [List.getElem_drop] at hin
    have hle := (hbounded _ (List.getElem_mem _) address hin).1
    have hlt := (hlow _ _).2 hle
    omega
  rw [findBelow?_eq hbounded, List.findRev?_eq_find?_reverse, List.findRev?_eq_find?_reverse]
  conv => rhs; rw [← List.take_append_drop count spans, List.reverse_append, List.find?_append,
    hpast, Option.none_or]

theorem locates_of_find? {entries : List Entry} {span : SourceSpan}
    (h : ∀ e ∈ entries, e.WellBounded) (hf : (ofEntries entries).find? address = some span) :
    span.entry ∈ entries ∧ span.entry.Locates address span.path span.low := by
  rw [find?_ofEntries h, List.findRev?_eq_find?_reverse] at hf
  obtain ⟨e, he, hof⟩ := mem_sortedSpans.1 (List.mem_reverse.1 (List.mem_of_find?_eq_some hf))
  have hcontains := List.find?_some hf
  obtain ⟨hpath, hpc, rfl⟩ := SourceSpan.ofEntry?_eq_some.1 hof
  exact ⟨he, hpath, ⟨_, hpc⟩, hcontains⟩

theorem not_locates_of_find? {entries : List Entry} (h : ∀ e ∈ entries, e.WellBounded)
    (hf : (ofEntries entries).find? address = none) {e : Entry} (he : e ∈ entries) {path : String}
    {low : UInt64} : ¬ e.Locates address path low := by
  rintro ⟨hpath, ⟨high, hpc⟩, hcontains⟩
  rw [find?_ofEntries h, List.findRev?_eq_find?_reverse, List.find?_eq_none] at hf
  refine hf ⟨low, high, path, e⟩ (List.mem_reverse.2 (mem_sortedSpans.2 ⟨e, he, ?_⟩)) hcontains
  exact SourceSpan.ofEntry?_eq_some.2 ⟨hpath, hpc, rfl⟩

end SourceIndex

end StackSurvey.Dwarf
