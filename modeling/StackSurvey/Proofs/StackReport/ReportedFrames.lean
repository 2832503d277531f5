import StackSurvey.Proofs.StackReport.AcceptedLines
import StackSurvey.Proofs.StackReport.MergedReports

namespace StackSurvey

open Text

/-- A line that a report goes by. -/
def Accepted (line : List Char) : Prop := ∃ l : AcceptedLine, l.text = line

theorem isSome_ofLine?_iff {line : List Char} :
    (StackUsage.ofLine? line).isSome = true ↔ Accepted line := by
  rw [Option.isSome_iff_exists]
  constructor
  · rintro ⟨entry, hentry⟩
    obtain ⟨l, hl, -⟩ := AcceptedLine.ofLine?_eq_some_iff.1 hentry
    exact ⟨l, hl⟩
  · rintro ⟨l, hl⟩
    exact ⟨l.entry, AcceptedLine.ofLine?_eq_some_iff.2 ⟨l, hl, rfl⟩⟩

instance : DecidablePred Accepted := fun _ => decidable_of_iff _ isSome_ofLine?_iff

namespace StackReport

/-- The accepted lines among these that have a name tell these usages, in order. -/
inductive Tells (name : String) : List (List Char) → List StackUsage → Prop
  | nil : Tells name [] []
  | accepted {lines usages} (l : AcceptedLine) :
      .ofList l.function = name → Tells name lines usages →
        Tells name (l.text :: lines) (l.usage :: usages)
  | other {line lines usages} :
      (∀ l : AcceptedLine, l.text = line → .ofList l.function ≠ name) →
        Tells name lines usages → Tells name (line :: lines) usages

/-- What a line tells of a function. -/
def told (name : String) (line : List Char) : Option StackUsage :=
  (StackUsage.ofLine? line).bind fun entry => if entry.1 = name then some entry.2 else none

/-- What the lines of a report tell of a function, in order. -/
def reported (text name : String) : List StackUsage := (lines text.toList).filterMap (told name)

end StackReport

namespace StackUsage

variable {all : List StackUsage} {u v : StackUsage}

/-- A usage has the first of the largest frames, counts the others and has no symbols. -/
structure Summarises (all : List StackUsage) (u : StackUsage) : Prop where
  largest : u.HasLargest all
  duplicates_add_one : u.duplicates + 1 = all.length
  mangledNames_eq : u.mangledNames = ∅

/-- No report was read before this one, and no call graph. -/
structure Fresh (u : StackUsage) : Prop where
  duplicates_eq : u.duplicates = 0
  mangledNames_eq : u.mangledNames = ∅

theorem fresh_usage (l : AcceptedLine) : l.usage.Fresh := ⟨rfl, rfl⟩

theorem sameFrame_again_new (h : u.stack < v.stack) : (u.again v).SameFrame v := by
  rw [again, if_pos h]
  exact ⟨rfl, rfl, rfl, rfl, rfl⟩

theorem sameFrame_again_old (h : ¬ u.stack < v.stack) : (u.again v).SameFrame u := by
  rw [again, if_neg h]
  exact ⟨rfl, rfl, rfl, rfl, rfl⟩

theorem mangledNames_again (hu : u.mangledNames = ∅) (hv : v.mangledNames = ∅) :
    (u.again v).mangledNames = ∅ := by
  unfold again
  split
  · exact hv
  · exact hu

theorem Summarises.single (h : u.Fresh) : Summarises [u] u where
  largest := .single u
  duplicates_add_one := by rw [h.duplicates_eq, List.length_singleton]
  mangledNames_eq := h.mangledNames_eq

theorem Summarises.again (h : Summarises all u) (hv : v.Fresh) :
    Summarises (all ++ [v]) (u.again v) where
  largest := h.largest.add sameFrame_again_new sameFrame_again_old
  duplicates_add_one := by
    rw [List.length_append, List.length_singleton, ← h.duplicates_add_one]
    rfl
  mangledNames_eq := mangledNames_again h.mangledNames_eq hv.mangledNames_eq

theorem Summarises.unique (h : Summarises all u) (h' : Summarises all v) : u = v := by
  obtain ⟨hstack, hqualifier, hpath, hline, hcolumn⟩ := h.largest.sameFrame h'.largest
  have hduplicates : u.duplicates = v.duplicates :=
    Nat.succ_inj.1 (h.duplicates_add_one.trans h'.duplicates_add_one.symm)
  have hmangled := h.mangledNames_eq.trans h'.mangledNames_eq.symm
  cases u
  cases v
  simp_all

end StackUsage

namespace StackReport

variable {name : String} {line : List Char} {u : StackUsage}

theorem told_eq_some_iff :
    told name line = some u ↔
      ∃ l : AcceptedLine, l.text = line ∧ .ofList l.function = name ∧ l.usage = u := by
  rw [told, Option.bind_eq_some_iff]
  constructor
  · rintro ⟨entry, hentry, hname⟩
    obtain ⟨l, rfl, rfl⟩ := AcceptedLine.ofLine?_eq_some_iff.1 hentry
    obtain ⟨hname, hu⟩ := Option.ite_none_right_eq_some.1 hname
    exact ⟨l, rfl, hname, Option.some_inj.1 hu⟩
  · rintro ⟨l, rfl, rfl, rfl⟩
    exact ⟨l.entry, l.ofLine?_text, if_pos rfl⟩

theorem told_eq_none_iff :
    told name line = none ↔ ∀ l : AcceptedLine, l.text = line → .ofList l.function ≠ name := by
  rw [← Option.not_isSome_iff_eq_none, Option.isSome_iff_exists]
  constructor
  · exact fun h l hl hname => h ⟨l.usage, told_eq_some_iff.2 ⟨l, hl, hname, rfl⟩⟩
  · rintro h ⟨u, hu⟩
    obtain ⟨l, hl, hname, -⟩ := told_eq_some_iff.1 hu
    exact h l hl hname

theorem tells_filterMap (name : String) (lines : List (List Char)) :
    Tells name lines (lines.filterMap (told name)) := by
  induction lines with
  | nil => exact .nil
  | cons line lines ih =>
    cases htold : told name line with
    | none =>
      rw [List.filterMap_cons_none htold]
      exact .other (told_eq_none_iff.1 htold) ih
    | some u =>
      rw [List.filterMap_cons_some htold]
      obtain ⟨l, rfl, hname, rfl⟩ := told_eq_some_iff.1 htold
      exact .accepted l hname ih

theorem mem_reported {text : String} :
    u ∈ reported text name ↔
      ∃ l : AcceptedLine, l.text ∈ lines text.toList ∧ .ofList l.function = name ∧ l.usage = u := by
  rw [reported, List.mem_filterMap]
  constructor
  · rintro ⟨line, hline, htold⟩
    obtain ⟨l, rfl, hname, hu⟩ := told_eq_some_iff.1 htold
    exact ⟨l, hline, hname, hu⟩
  · rintro ⟨l, hline, hname, hu⟩
    exact ⟨l.text, hline, told_eq_some_iff.2 ⟨l, rfl, hname, hu⟩⟩

theorem getElem?_addLine (report : StackReport) (line : List Char) :
    (report.addLine line)[name]? =
      (told name line).elim report[name]? fun u =>
        some (report[name]?.elim u fun old => old.again u) := by
  unfold addLine told
  split
  · rename_i added usage hline
    rw [hline, Std.TreeMap.getElem?_alter, Option.bind_some]
    simp only [Std.compare_eq_iff_eq]
    split
    · subst name
      cases report[added]? <;> rfl
    · rfl
  · rename_i hline
    rw [hline]
    rfl

/-- The usage of a function is what the first accepted line with its name tells, with those of the
others added in turn. -/
theorem getElem?_parse (text name : String) :
    (parse text)[name]? =
      (reported text name).head?.map fun first =>
        (reported text name).tail.foldl StackUsage.again first := by
  have hfold (lines : List (List Char)) (report : StackReport) :
      (lines.foldl addLine report)[name]? =
        (lines.filterMap (told name)).foldl
          (fun old usage => some (old.elim usage fun old => old.again usage)) report[name]? := by
    induction lines generalizing report with
    | nil => rfl
    | cons line lines ih =>
      rw [List.foldl_cons, ih, getElem?_addLine]
      cases htold : told name line with
      | none => rw [List.filterMap_cons_none htold, Option.elim_none]
      | some u => rw [List.filterMap_cons_some htold, Option.elim_some, List.foldl_cons]
  rw [parse, hfold, Std.TreeMap.getElem?_emptyc]
  exact StackUsage.foldl_elim _ _

theorem getElem?_parse_eq_none_iff {text : String} :
    (parse text)[name]? = none ↔ reported text name = [] := by
  rw [getElem?_parse, Option.map_eq_none_iff, List.head?_eq_none_iff]

theorem fresh_of_mem_reported {text : String} (h : u ∈ reported text name) : u.Fresh := by
  obtain ⟨l, -, -, rfl⟩ := mem_reported.1 h
  exact StackUsage.fresh_usage l

theorem summarises_of_getElem?_parse {text : String} (h : (parse text)[name]? = some u) :
    u.Summarises (reported text name) := by
  rw [getElem?_parse, Option.map_eq_some_iff] at h
  obtain ⟨first, hfirst, rfl⟩ := h
  obtain ⟨rest, hall⟩ := List.head?_eq_some_iff.1 hfirst
  have hfresh : ∀ v ∈ reported text name, v.Fresh := fun v => fresh_of_mem_reported
  rw [hall] at hfresh ⊢
  obtain ⟨hfirst, hrest⟩ := List.forall_mem_cons.1 hfresh
  exact StackUsage.foldl_usages (P := StackUsage.Summarises) (.single hfirst)
    fun v hv _ _ h => h.again (hrest v hv)

theorem getElem?_parse_eq_some_iff {text : String} :
    (parse text)[name]? = some u ↔ u.Summarises (reported text name) := by
  refine ⟨summarises_of_getElem?_parse, fun h => ?_⟩
  cases hname : (parse text)[name]? with
  | none =>
    have hlength := h.duplicates_add_one
    rw [getElem?_parse_eq_none_iff.1 hname] at hlength
    cases hlength
  | some v => rw [(summarises_of_getElem?_parse hname).unique h]

theorem mem_parse_iff {text : String} :
    name ∈ parse text ↔
      ∃ l : AcceptedLine, l.text ∈ lines text.toList ∧ .ofList l.function = name := by
  rw [Std.TreeMap.mem_iff_isSome_getElem?, ← Option.ne_none_iff_isSome, Ne,
    getElem?_parse_eq_none_iff]
  constructor
  · intro hne
    obtain ⟨u, hu⟩ := List.exists_mem_of_ne_nil _ hne
    obtain ⟨l, hl, hname, -⟩ := mem_reported.1 hu
    exact ⟨l, hl, hname⟩
  · rintro ⟨l, hl, hname⟩
    exact List.ne_nil_of_mem (mem_reported.2 ⟨l, hl, hname, rfl⟩)

theorem addLine_of_not_accepted (report : StackReport) {line : List Char} (h : ¬ Accepted line) :
    report.addLine line = report := by
  have hline : StackUsage.ofLine? line = none :=
    Option.not_isSome_iff_eq_none.1 (mt isSome_ofLine?_iff.1 h)
  rw [addLine, hline]

/-- Lines that are not accepted can as well be left out. -/
theorem parse_accepted (text : String) :
    parse (.ofList (LineEnd.newline.terminate ((lines text.toList).filter Accepted))) =
      parse text := by
  have hfold (all : List (List Char)) (report : StackReport) :
      (all.filter Accepted).foldl addLine report = all.foldl addLine report := by
    induction all generalizing report with
    | nil => rfl
    | cons line all ih =>
      by_cases hline : Accepted line
      · rw [List.filter_cons, if_pos (decide_eq_true hline), List.foldl_cons, List.foldl_cons, ih]
      · rw [List.filter_cons, if_neg (by simpa using hline), List.foldl_cons,
          addLine_of_not_accepted report hline, ih]
  have hlines : ∀ line ∈ (lines text.toList).filter Accepted, IsLine line := fun line hline =>
    isLine_of_mem_lines (List.mem_of_mem_filter hline)
  rw [parse, parse, String.toList_ofList, lines_terminate .newline hlines, hfold]

/-- A report has the functions that accepted lines name. Of each it has the first of the largest
frames that these lines tell and the number of the others; it depends on no other line. -/
theorem parse_summarises (text name : String) :
    Tells name (lines text.toList) (reported text name) ∧
      (name ∈ parse text ↔
        ∃ l : AcceptedLine, l.text ∈ lines text.toList ∧ .ofList l.function = name) ∧
      (∀ u, (parse text)[name]? = some u ↔ u.Summarises (reported text name)) ∧
      parse (.ofList (LineEnd.newline.terminate ((lines text.toList).filter Accepted))) =
        parse text :=
  ⟨tells_filterMap name _, mem_parse_iff, fun _ => getElem?_parse_eq_some_iff, parse_accepted text⟩

end StackReport

end StackSurvey
