import StackSurvey.Proofs.StackReport.ReportedFrames

namespace StackSurvey

namespace StackReport

/-- What each text that names a function tells of it. -/
def tellings (texts : List String) (name : String) : List (List StackUsage) :=
  (texts.map (reported · name)).filter (· ≠ [])

section Lists

variable {α : Type} {lists : List (List α)}

theorem length_le_length_flatten (h : ∀ l ∈ lists, l ≠ []) :
    lists.length ≤ lists.flatten.length := by
  induction lists with
  | nil => rfl
  | cons l lists ih =>
    obtain ⟨hl, h⟩ := List.forall_mem_cons.1 h
    have hpos := List.length_pos_iff.2 hl
    have hrest := ih h
    rw [List.flatten_cons, List.length_append, List.length_cons]
    omega

/-- Lists that are not empty have as many elements as they are exactly if each has one. -/
theorem length_flatten_eq_iff (h : ∀ l ∈ lists, l ≠ []) :
    lists.flatten.length = lists.length ↔ ∀ l ∈ lists, l.length = 1 := by
  induction lists with
  | nil => simp
  | cons l lists ih =>
    obtain ⟨hl, h⟩ := List.forall_mem_cons.1 h
    have hpos := List.length_pos_iff.2 hl
    have hle := length_le_length_flatten h
    rw [List.forall_mem_cons, ← ih h, List.flatten_cons, List.length_append, List.length_cons]
    omega

end Lists

variable {texts : List String} {symbols : SymbolTable} {hasDebugInfo : Bool} {name : String}
  {first : List StackUsage} {rest : List (List StackUsage)}

theorem mem_tellings {l : List StackUsage} :
    l ∈ tellings texts name ↔ (∃ text ∈ texts, reported text name = l) ∧ l ≠ [] := by
  rw [tellings, List.mem_filter, List.mem_map, decide_eq_true_iff]

theorem flatten_tellings (texts : List String) (name : String) :
    (tellings texts name).flatten = texts.flatMap (reported · name) := by
  rw [tellings, List.flatten_filter_ne_nil, List.flatMap]

theorem tellings_cons {text : String} (h : reported text name ≠ []) (texts : List String) :
    tellings (text :: texts) name = reported text name :: tellings texts name := by
  rw [tellings, List.map_cons, List.filter_cons, if_pos (decide_eq_true h), tellings]

theorem tellings_perm {others : List String} (h : others.Perm texts) (name : String) :
    (tellings others name).Perm (tellings texts name) :=
  (h.map _).filter _

/-- Each text counts its own lines on a function. -/
theorem map_usages_parse (texts : List String) (name : String) :
    (usages (texts.map parse) name).map (·.duplicates + 1) =
      (tellings texts name).map List.length := by
  induction texts with
  | nil => rfl
  | cons text texts ih =>
    rw [List.map_cons, usages, List.filterMap_cons]
    cases hname : (parse text)[name]? with
    | none =>
      have hnil := getElem?_parse_eq_none_iff.1 hname
      rw [tellings, List.map_cons, List.filter_cons, hnil, if_neg (by simp)]
      exact ih
    | some u =>
      have hcount := (summarises_of_getElem?_parse hname).duplicates_add_one
      have hne : reported text name ≠ [] := by
        rintro hnil
        rw [hnil] at hcount
        cases hcount
      rw [tellings_cons hne, List.map_cons, List.map_cons, hcount]
      exact congrArg _ ih

theorem duplicates_foldl_combine (prefers : StackUsage → StackUsage → Bool) (u : StackUsage)
    (usages : List StackUsage) :
    (usages.foldl (StackUsage.combine prefers) u).duplicates = u.duplicates + usages.length := by
  induction usages generalizing u with
  | nil => rfl
  | cons v usages ih =>
    have hstep : (u.combine prefers v).duplicates = u.duplicates + 1 := rfl
    rw [List.foldl_cons, ih, hstep, List.length_cons]
    omega

/-- A merged report counts the lines of the first text that names a function, and one for each
further text. -/
theorem exists_duplicates_merge (symbols : SymbolTable) (hasDebugInfo : Bool)
    (h : tellings texts name = first :: rest) :
    ∃ u, (merge (texts.map parse) symbols hasDebugInfo)[name]? = some u ∧
      u.duplicates + 1 = first.length + rest.length := by
  have hcounts := map_usages_parse texts name
  rw [h, List.map_cons, List.map_eq_cons_iff] at hcounts
  obtain ⟨u, others, husages, hu, hothers⟩ := hcounts
  have hlength : others.length = rest.length := by
    rw [← List.length_map, hothers, List.length_map]
  rw [getElem?_merge, husages]
  refine ⟨_, rfl, ?_⟩
  rw [List.tail_cons, duplicates_foldl_combine, hlength]
  omega

theorem length_eq_of_forall_perm (symbols : SymbolTable) (hasDebugInfo : Bool)
    (h : tellings texts name = first :: rest)
    (hall : ∀ others : List String, others.Perm texts →
      ∃ u, (merge (others.map parse) symbols hasDebugInfo)[name]? = some u ∧
        u.duplicates + 1 = first.length + rest.length) :
    ∀ l ∈ rest, l.length = first.length := by
  intro l hl
  have hmem : l ∈ tellings texts name := h ▸ List.mem_cons_of_mem _ hl
  obtain ⟨⟨text, htext, rfl⟩, hne⟩ := mem_tellings.1 hmem
  -- The text may as well come first.
  have hperm := (List.perm_cons_erase htext).symm
  have hcons := tellings_cons hne (texts.erase text)
  have hlength := (tellings_perm hperm name).length_eq
  rw [hcons, h, List.length_cons, List.length_cons] at hlength
  obtain ⟨u, hu, hcount⟩ := hall _ hperm
  obtain ⟨v, hv, hcount'⟩ := exists_duplicates_merge symbols hasDebugInfo hcons
  cases Option.some_inj.1 (hu.symm.trans hv)
  omega

theorem exists_merge_of_perm (symbols : SymbolTable) (hasDebugInfo : Bool)
    (h : tellings texts name = first :: rest) (hsame : ∀ l ∈ rest, l.length = first.length)
    {others : List String} (hothers : others.Perm texts) :
    ∃ u, (merge (others.map parse) symbols hasDebugInfo)[name]? = some u ∧
      u.duplicates + 1 = first.length + rest.length := by
  have hperm := tellings_perm hothers name
  have hall : ∀ l ∈ tellings texts name, l.length = first.length := by
    rw [h]
    exact List.forall_mem_cons.2 ⟨rfl, hsame⟩
  cases hcons : tellings others name with
  | nil =>
    rw [hcons, h] at hperm
    cases hperm.nil_eq
  | cons l more =>
    have hl : l.length = first.length := hall l (hperm.mem_iff.1 (hcons ▸ List.mem_cons_self))
    have hlength := hperm.length_eq
    rw [hcons, h, List.length_cons, List.length_cons] at hlength
    obtain ⟨u, hu, hcount⟩ := exists_duplicates_merge symbols hasDebugInfo hcons
    exact ⟨u, hu, by omega⟩

/-- The lines on a function are all counted exactly if no text but the first has several; the count
is the same in every order exactly if all texts that have the function have as many. -/
theorem duplicates_merge (texts : List String) (symbols : SymbolTable) (hasDebugInfo : Bool)
    (name : String) (h : tellings texts name = first :: rest) :
    ∃ u, (merge (texts.map parse) symbols hasDebugInfo)[name]? = some u ∧
      u.duplicates + 1 = first.length + rest.length ∧
      (u.duplicates + 1 = (texts.flatMap (reported · name)).length ↔
        ∀ l ∈ rest, l.length = 1) ∧
      ((∀ others : List String, others.Perm texts →
        ∃ v, (merge (others.map parse) symbols hasDebugInfo)[name]? = some v ∧
          v.duplicates = u.duplicates) ↔
        ∀ l ∈ rest, l.length = first.length) := by
  obtain ⟨u, hu, hcount⟩ := exists_duplicates_merge symbols hasDebugInfo h
  have hne : ∀ l ∈ rest, l ≠ [] := fun l hl =>
    (mem_tellings.1 (h ▸ List.mem_cons_of_mem _ hl)).2
  refine ⟨u, hu, hcount, ?_, ?_, ?_⟩
  · rw [← length_flatten_eq_iff hne, ← flatten_tellings, h, List.flatten_cons, List.length_append,
      hcount]
    omega
  · intro hall
    refine length_eq_of_forall_perm symbols hasDebugInfo h fun others hothers => ?_
    obtain ⟨v, hv, heq⟩ := hall others hothers
    exact ⟨v, hv, heq ▸ hcount⟩
  · intro hsame others hothers
    obtain ⟨v, hv, hcount'⟩ := exists_merge_of_perm symbols hasDebugInfo h hsame hothers
    exact ⟨v, hv, by omega⟩

def singleText : String := "a.c:1:1:f\t8\tstatic\n"

def doubleText : String := "b.c:1:1:f\t8\tstatic\nb.c:5:1:f\t16\tstatic\n"

theorem length_reported_singleText : (reported singleText "f").length = 1 := by decide

theorem length_reported_doubleText : (reported doubleText "f").length = 2 := by decide

theorem tellings_of_pair {text other : String} (h : reported text name ≠ [])
    (h' : reported other name ≠ []) :
    tellings [text, other] name = [reported text name, reported other name] := by
  rw [tellings_cons h, tellings_cons h']
  rfl

theorem duplicates_merge_doubleText :
    ∃ u, (merge ([doubleText, singleText].map parse) {} false)["f"]? = some u ∧
      u.duplicates + 1 = ([doubleText, singleText].flatMap (reported · "f")).length := by
  have hdouble : reported doubleText "f" ≠ [] := by decide
  have hsingle : reported singleText "f" ≠ [] := by decide
  have htellings := tellings_of_pair hdouble hsingle
  obtain ⟨u, hu, -, hall, -⟩ := duplicates_merge _ {} false "f" htellings
  exact ⟨u, hu, hall.2 (List.forall_mem_singleton.2 length_reported_singleText)⟩

/-- Of three lines on a function only two are counted if the text with two of them comes last. -/
theorem not_duplicates_merge_singleText :
    ∃ u, (merge ([singleText, doubleText].map parse) {} false)["f"]? = some u ∧
      u.duplicates = 1 ∧ ([singleText, doubleText].flatMap (reported · "f")).length = 3 ∧
      ∃ v, (merge ([doubleText, singleText].map parse) {} false)["f"]? = some v ∧
        v.duplicates = 2 := by
  have hdouble : reported doubleText "f" ≠ [] := by decide
  have hsingle : reported singleText "f" ≠ [] := by decide
  obtain ⟨u, hu, hcount⟩ :=
    exists_duplicates_merge {} false (tellings_of_pair hsingle hdouble)
  obtain ⟨v, hv, hcount'⟩ :=
    exists_duplicates_merge {} false (tellings_of_pair hdouble hsingle)
  rw [length_reported_singleText, List.length_singleton] at hcount
  rw [length_reported_doubleText, List.length_singleton] at hcount'
  have hall : ([singleText, doubleText].flatMap (reported · "f")).length = 3 := by decide
  exact ⟨u, hu, Nat.succ_inj.1 hcount, hall, v, hv, Nat.succ_inj.1 hcount'⟩

end StackReport

end StackSurvey
