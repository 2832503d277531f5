import Mathlib.Data.Option.Basic
import StackSurvey.Proofs.Text.Lines
import StackSurvey.StackReport

namespace StackSurvey

open Text

def isSeparator (c : Char) : Bool := c = '/' || c = '\\'

/-- A line that tells where a function is, its name and the size of its frame, which is static.
There may be further fields behind these. -/
structure AcceptedLine where
  directory : List Char
  file : List Char
  row : List Char
  column : List Char
  function : List Char
  size : List Char
  qualifier : List Char
  rest : List Char
  rowNumber : Nat
  columnNumber : Nat
  stack : Nat
  /-- A directory is written with the separator behind it. -/
  directory_ends : ∀ c ∈ directory.getLast?, isSeparator c = true
  file_plain : ∀ c ∈ file, isSeparator c = false ∧ c ≠ ':'
  function_plain : ∀ c ∈ function, isSeparator c = false
  function_ne_nil : function ≠ []
  row_eq : word? row = some rowNumber
  column_eq : word? column = some columnNumber
  size_eq : word? (trim size) = some stack
  qualifier_eq : trim qualifier = "static".toList
  unbroken : ∀ field ∈ [directory, file, function, size, qualifier], '\t' ∉ field
  rest_begins : ∀ c ∈ rest.head?, c = '\t'

namespace AcceptedLine

/-- Where the function is, and its name, without the directory. -/
def place (l : AcceptedLine) : List Char :=
  l.file ++ ':' :: (l.row ++ ':' :: (l.column ++ ':' :: l.function))

def text (l : AcceptedLine) : List Char :=
  l.directory ++ l.place ++ '\t' :: (l.size ++ '\t' :: (l.qualifier ++ l.rest))

def usage (l : AcceptedLine) : StackUsage :=
  { stack := l.stack, qualifier := "static", path := .ofList (l.directory ++ l.file)
    line := l.rowNumber, column := l.columnNumber }

def entry (l : AcceptedLine) : String × StackUsage := (.ofList l.function, l.usage)

end AcceptedLine

section Numbers

variable {text : List Char} {n : Nat}

theorem isDigit_of_digitsToWord? (h : digitsToWord? text = some n) :
    ∀ c ∈ text, c.isDigit = true := by
  obtain ⟨hdigits, -⟩ := Option.filter_eq_some_iff.1 h
  rw [ofDigits?] at hdigits
  split at hdigits
  · rename_i hall
    exact List.all_eq_true.1 hall.2
  · cases hdigits

theorem forall_mem_of_word? {P : Char → Prop} (h : word? text = some n) (hplus : P '+')
    (hdigit : ∀ c, c.isDigit = true → P c) : ∀ c ∈ text, P c := by
  unfold word? at h
  split at h
  · exact List.forall_mem_cons.2 ⟨hplus, fun c hc => hdigit c (isDigit_of_digitsToWord? h c hc)⟩
  · exact fun c hc => hdigit c (isDigit_of_digitsToWord? h c hc)

end Numbers

namespace StackUsage

section Places

variable {directory rest : List Char}

theorem not_isSeparator_eq :
    (fun c : Char => decide (c ≠ '/') && decide (c ≠ '\\')) = fun c => !isSeparator c := by
  funext c
  simp [isSeparator]

theorem cutDirectory_append (hdirectory : ∀ c ∈ directory.getLast?, isSeparator c = true)
    (hrest : ∀ c ∈ rest, isSeparator c = false) :
    cutDirectory (directory ++ rest) = (directory, rest) := by
  have hstop : directory.reverse.takeWhile (fun c => !isSeparator c) = [] := by
    rcases List.eq_nil_or_concat directory with rfl | ⟨before, c, rfl⟩
    · rfl
    · have hc := hdirectory c (by simp)
      simp [hc]
  have htake : (directory ++ rest).reverse.takeWhile (fun c => !isSeparator c) = rest.reverse := by
    rw [List.reverse_append, List.takeWhile_append_of_pos, hstop, List.append_nil]
    intro c hc
    rw [hrest c (List.mem_reverse.1 hc)]
    rfl
  rw [cutDirectory, not_isSeparator_eq, htake]
  simp

/-- A location is a directory and a rest without separators, and in one way only. -/
theorem cutDirectory_eq_iff {location : List Char} :
    cutDirectory location = (directory, rest) ↔
      location = directory ++ rest ∧ (∀ c ∈ directory.getLast?, isSeparator c = true) ∧
        ∀ c ∈ rest, isSeparator c = false := by
  constructor
  · intro h
    have hcut := location.rdropWhile_append_rtakeWhile (p := (!isSeparator ·))
    have hends : ∀ c ∈ (location.rdropWhile (!isSeparator ·)).getLast?, isSeparator c = true := by
      intro c hc
      obtain ⟨hne, rfl⟩ := List.mem_getLast?_eq_getLast hc
      simpa using List.rdropWhile_last_not _ _ hne
    have hplain : ∀ c ∈ location.rtakeWhile (!isSeparator ·), isSeparator c = false := by
      intro c hc
      simpa using List.mem_rtakeWhile_imp hc
    have hparts := cutDirectory_append hends hplain
    rw [hcut, h] at hparts
    cases hparts
    exact ⟨hcut.symm, hends, hplain⟩
  · rintro ⟨rfl, hdirectory, hrest⟩
    exact cutDirectory_append hdirectory hrest

end Places

end StackUsage

namespace AcceptedLine

variable {line : List Char} {entry : String × StackUsage}

theorem forall_mem_place {P : Char → Prop} (l : AcceptedLine) (hfile : ∀ c ∈ l.file, P c)
    (hfunction : ∀ c ∈ l.function, P c) (hcolon : P ':') (hplus : P '+')
    (hdigit : ∀ c, c.isDigit = true → P c) : ∀ c ∈ l.place, P c := by
  have hrow := forall_mem_of_word? l.row_eq hplus hdigit
  have hcolumn := forall_mem_of_word? l.column_eq hplus hdigit
  simp only [place, List.forall_mem_append, List.forall_mem_cons]
  exact ⟨hfile, hcolon, hrow, hcolon, hcolumn, hcolon, hfunction⟩

theorem plain_place (l : AcceptedLine) : ∀ c ∈ l.place, isSeparator c = false := by
  apply l.forall_mem_place (fun c hc => (l.file_plain c hc).1) l.function_plain rfl rfl
  intro c hc
  have hslash : c ≠ '/' := by rintro rfl; cases hc
  have hbackslash : c ≠ '\\' := by rintro rfl; cases hc
  simp [isSeparator, hslash, hbackslash]

theorem cutFirst?_number {number : List Char} {n : Nat} (h : word? number = some n)
    (rest : List Char) : cutFirst? (· == ':') (number ++ ':' :: rest) = some (number, rest) := by
  refine cutFirst?_append (forall_mem_of_word? (P := fun c => (c == ':') = false) h rfl ?_) rfl rest
  intro c hc
  refine beq_false_of_ne ?_
  rintro rfl
  cases hc

theorem splitAt_text (l : AcceptedLine) :
    ∃ more, splitAt (· == '\t') l.text =
      (l.directory ++ l.place) :: l.size :: l.qualifier :: more := by
  have hplain {field : List Char} (h : '\t' ∉ field) : ∀ c ∈ field, (c == '\t') = false :=
    fun c hc => beq_false_of_ne (ne_of_mem_of_not_mem hc h)
  have hunbroken := l.unbroken
  simp only [List.forall_mem_cons] at hunbroken
  obtain ⟨hdirectory, hfile, hfunction, hsize, hqualifier, -⟩ := hunbroken
  have hplace : ∀ c ∈ l.place, (c == '\t') = false := by
    apply l.forall_mem_place (hplain hfile) (hplain hfunction) rfl rfl
    intro c hc
    refine beq_false_of_ne ?_
    rintro rfl
    cases hc
  have hrest : ∀ c ∈ l.rest.head?, (c == '\t') = true := fun c hc =>
    beq_iff_eq.2 (l.rest_begins c hc)
  obtain ⟨more, hmore⟩ := exists_splitAt_append (hplain hqualifier) hrest
  have hlocation := List.forall_mem_append.2 ⟨hplain hdirectory, hplace⟩
  refine ⟨more, ?_⟩
  rw [text, splitAt_append_cons hlocation rfl, splitAt_append_cons (hplain hsize) rfl, hmore]

theorem ofLine?_text (l : AcceptedLine) : StackUsage.ofLine? l.text = some l.entry := by
  obtain ⟨more, hfields⟩ := l.splitAt_text
  have hcut := StackUsage.cutDirectory_append l.directory_ends l.plain_place
  have hfile : cutFirst? (· == ':') l.place = some (l.file, _) :=
    cutFirst?_append (fun c hc => beq_false_of_ne (l.file_plain c hc).2) rfl _
  have hstatic : String.ofList (trim l.qualifier) = "static" := by rw [l.qualifier_eq]; decide
  -- Every step of reading a line finds what stands there.
  rw [StackUsage.ofLine?, hfields]
  refine Option.bind_eq_some_iff.2 ⟨_, rfl, ?_⟩
  refine Option.bind_eq_some_iff.2 ⟨_, rfl, ?_⟩
  refine Option.bind_eq_some_iff.2 ⟨_, l.size_eq, ?_⟩
  refine Option.bind_eq_some_iff.2 ⟨(), if_pos hstatic, ?_⟩
  rw [hcut]
  refine Option.bind_eq_some_iff.2 ⟨_, hfile, ?_⟩
  refine Option.bind_eq_some_iff.2 ⟨_, cutFirst?_number l.row_eq _, ?_⟩
  refine Option.bind_eq_some_iff.2 ⟨_, l.row_eq, ?_⟩
  refine Option.bind_eq_some_iff.2 ⟨_, cutFirst?_number l.column_eq _, ?_⟩
  refine Option.bind_eq_some_iff.2 ⟨_, l.column_eq, ?_⟩
  refine Option.bind_eq_some_iff.2 ⟨(), if_pos l.function_ne_nil, ?_⟩
  exact congrArg (fun qualifier => some (String.ofList l.function, { l.usage with qualifier }))
    hstatic

/-- The first three fields of a line are what stands before its first three tabs. -/
theorem eq_append_of_fields {first second third : List Char} {more : List (List Char)}
    (h : splitAt (· == '\t') line = first :: second :: third :: more) :
    ∃ rest, line = first ++ '\t' :: (second ++ '\t' :: (third ++ rest)) ∧
      (∀ c ∈ rest.head?, c = '\t') ∧ ∀ field ∈ [first, second, third], '\t' ∉ field := by
  have hplain {field : List Char} (h : ∀ c ∈ field, (c == '\t') = false) : '\t' ∉ field :=
    fun hmem => absurd (h _ hmem) (by decide)
  obtain ⟨hfirst, ⟨-, hnil⟩ | ⟨_, second', htab, rfl, hsecond'⟩⟩ := eq_append_of_splitAt h
  · cases hnil
  obtain rfl := beq_iff_eq.1 htab
  obtain ⟨hsecond, ⟨-, hnil⟩ | ⟨_, third', htab, rfl, hthird'⟩⟩ := eq_append_of_splitAt hsecond'
  · cases hnil
  obtain rfl := beq_iff_eq.1 htab
  obtain ⟨hthird, hrest⟩ := eq_append_of_splitAt hthird'
  have hall : ∀ field ∈ [first, second, third], '\t' ∉ field := by
    simp only [List.forall_mem_cons]
    exact ⟨hplain hfirst, hplain hsecond, hplain hthird, List.forall_mem_nil _⟩
  rcases hrest with ⟨rfl, -⟩ | ⟨_, rest, htab, rfl, -⟩
  · exact ⟨[], by rw [List.append_nil], by simp, hall⟩
  · obtain rfl := beq_iff_eq.1 htab
    exact ⟨'\t' :: rest, rfl, by simp, hall⟩

theorem exists_fields {fields : List (List Char)} {first second : List Char}
    (hfirst : fields[0]? = some first) (hsecond : fields[1]? = some second)
    (hthird : trim (fields[2]?.getD []) ≠ []) :
    ∃ third more, fields = first :: second :: third :: more := by
  rcases fields with _ | ⟨_, _ | ⟨_, _ | ⟨third, more⟩⟩⟩
  · cases hfirst
  · cases hsecond
  · exact absurd rfl hthird
  · cases hfirst
    cases hsecond
    exact ⟨third, more, rfl⟩

theorem eq_append_of_place {place file row column function first second : List Char}
    (hfile : cutFirst? (· == ':') place = some (file, first))
    (hrow : cutFirst? (· == ':') first = some (row, second))
    (hcolumn : cutFirst? (· == ':') second = some (column, function)) :
    place = file ++ ':' :: (row ++ ':' :: (column ++ ':' :: function)) ∧ ∀ c ∈ file, c ≠ ':' := by
  obtain ⟨_, ⟨hcolon, hplain⟩, rfl⟩ := eq_append_of_cutFirst? hfile
  obtain rfl := beq_iff_eq.1 hcolon
  obtain ⟨_, ⟨hcolon, -⟩, rfl⟩ := eq_append_of_cutFirst? hrow
  obtain rfl := beq_iff_eq.1 hcolon
  obtain ⟨_, ⟨hcolon, -⟩, rfl⟩ := eq_append_of_cutFirst? hcolumn
  obtain rfl := beq_iff_eq.1 hcolon
  exact ⟨rfl, fun c hc => ne_of_beq_false (hplain c hc)⟩

/-- A line that is read has the parts of an accepted line. -/
theorem exists_of_ofLine? (h : StackUsage.ofLine? line = some entry) :
    ∃ l : AcceptedLine, l.text = line ∧ l.entry = entry := by
  unfold StackUsage.ofLine? at h
  obtain ⟨location, hlocation, h⟩ := Option.bind_eq_some_iff.1 h
  obtain ⟨size, hsizeField, h⟩ := Option.bind_eq_some_iff.1 h
  obtain ⟨stack, hsize, h⟩ := Option.bind_eq_some_iff.1 h
  obtain ⟨_, hstatic, h⟩ := Option.bind_eq_some_iff.1 h
  obtain ⟨directory, place, hcut⟩ :
      ∃ directory place, StackUsage.cutDirectory location = (directory, place) := ⟨_, _, rfl⟩
  rw [hcut] at h
  obtain ⟨⟨file, first⟩, hfile, h⟩ := Option.bind_eq_some_iff.1 h
  obtain ⟨⟨row, second⟩, hrow, h⟩ := Option.bind_eq_some_iff.1 h
  obtain ⟨rowNumber, hrowNumber, h⟩ := Option.bind_eq_some_iff.1 h
  obtain ⟨⟨column, function⟩, hcolumn, h⟩ := Option.bind_eq_some_iff.1 h
  obtain ⟨columnNumber, hcolumnNumber, h⟩ := Option.bind_eq_some_iff.1 h
  obtain ⟨_, hfunction, h⟩ := Option.bind_eq_some_iff.1 h
  cases h
  have hstatic := (Option.guard_eq_some' _).1 hstatic
  -- The third field is there, for nothing but a field reads `static`.
  have hqualifier : trim ((splitAt (· == '\t') line)[2]?.getD []) = "static".toList :=
    String.ofList_inj.1 (hstatic.trans (by decide))
  have hne : trim ((splitAt (· == '\t') line)[2]?.getD []) ≠ [] := by
    rw [hqualifier]
    decide
  obtain ⟨qualifier, more, hfields⟩ := exists_fields hlocation hsizeField hne
  obtain ⟨rest, rfl, hrest, hunbroken⟩ := eq_append_of_fields hfields
  obtain ⟨rfl, hcolon⟩ := eq_append_of_place hfile hrow hcolumn
  obtain ⟨rfl, hdirectory, hplain⟩ := StackUsage.cutDirectory_eq_iff.1 hcut
  simp only [List.forall_mem_append, List.forall_mem_cons] at hplain
  obtain ⟨hfilePlain, -, -, -, -, -, hfunctionPlain⟩ := hplain
  simp only [List.forall_mem_cons] at hunbroken
  obtain ⟨hlocationTab, hsizeTab, hqualifierTab, -⟩ := hunbroken
  simp only [List.mem_append, List.mem_cons, not_or] at hlocationTab
  obtain ⟨hdirectoryTab, hfileTab, -, -, -, -, -, hfunctionTab⟩ := hlocationTab
  let l : AcceptedLine :=
    { directory, file, row, column, function, size, qualifier, rest, rowNumber, columnNumber, stack
      directory_ends := hdirectory
      file_plain := fun c hc => ⟨hfilePlain c hc, hcolon c hc⟩
      function_plain := hfunctionPlain
      function_ne_nil := (Option.guard_eq_some' _).1 hfunction
      row_eq := hrowNumber
      column_eq := hcolumnNumber
      size_eq := hsize
      qualifier_eq := by rwa [hfields] at hqualifier
      unbroken := by
        simp only [List.forall_mem_cons]
        exact ⟨hdirectoryTab, hfileTab, hfunctionTab, hsizeTab, hqualifierTab,
          List.forall_mem_nil _⟩
      rest_begins := hrest }
  refine ⟨l, rfl, ?_⟩
  exact congrArg (fun qualifier => (String.ofList function, { l.usage with qualifier }))
    hstatic.symm

/-- A line is accepted exactly when it has the parts of an accepted line. -/
theorem ofLine?_eq_some_iff :
    StackUsage.ofLine? line = some entry ↔
      ∃ l : AcceptedLine, l.text = line ∧ l.entry = entry := by
  constructor
  · exact exists_of_ofLine?
  · rintro ⟨l, rfl, rfl⟩
    exact l.ofLine?_text

end AcceptedLine

end StackSurvey
