import StackSurvey.Proofs.StackReport.ReportedFrames

namespace StackSurvey

open Text

/-- What a report says of a function: where it is defined, its name and the size of its frame. -/
structure ReportLine where
  directory : List Char
  file : List Char
  row : Nat
  column : Nat
  function : List Char
  stack : Nat
  /-- A directory is written with the separator behind it. -/
  directory_ends : ∀ c ∈ directory.getLast?, isSeparator c = true
  file_plain : ∀ c ∈ file, isSeparator c = false ∧ c ≠ ':'
  function_ne_nil : function ≠ []
  /-- The location is one field of one line. -/
  unbroken : ∀ c ∈ directory ++ file ++ function, c ≠ '\t' ∧ c ≠ '\n'
  row_lt : row < wordBound
  column_lt : column < wordBound
  stack_lt : stack < wordBound

namespace ReportLine

/-- Where the function is defined, and its name, without the directory. -/
def place (l : ReportLine) : List Char :=
  l.file ++ ':' :: (Nat.toDigits 10 l.row ++ ':' :: (Nat.toDigits 10 l.column ++ ':' :: l.function))

def text (l : ReportLine) : List Char :=
  l.directory ++ l.place ++ '\t' :: (Nat.toDigits 10 l.stack ++ '\t' :: "static".toList)

def usage (l : ReportLine) : StackUsage :=
  { stack := l.stack, qualifier := "static", path := .ofList (l.directory ++ l.file)
    line := l.row, column := l.column }

def entry (l : ReportLine) : String × StackUsage := (.ofList l.function, l.usage)

/-- The name of the function is free of separators. -/
def Plain (l : ReportLine) : Prop := ∀ c ∈ l.function, isSeparator c = false

variable {l : ReportLine}

theorem unbroken_location (l : ReportLine) :
    ∀ c ∈ l.directory ++ l.place, c ≠ '\t' ∧ c ≠ '\n' := by
  have hunbroken := l.unbroken
  simp only [List.forall_mem_append] at hunbroken
  obtain ⟨⟨hdirectory, hfile⟩, hfunction⟩ := hunbroken
  have hcolon : ':' ≠ '\t' ∧ ':' ≠ '\n' := by decide
  have hdigits {n : Nat} : ∀ c ∈ Nat.toDigits 10 n, c ≠ '\t' ∧ c ≠ '\n' := fun c hc =>
    ⟨ne_of_mem_toDigits hc rfl, ne_of_mem_toDigits hc rfl⟩
  simp only [place, List.forall_mem_append, List.forall_mem_cons]
  exact ⟨hdirectory, hfile, hcolon, hdigits, hcolon, hdigits, hcolon, hfunction⟩

/-- The line as one that a report goes by. -/
def accepted (l : ReportLine) (h : l.Plain) : AcceptedLine where
  directory := l.directory
  file := l.file
  row := Nat.toDigits 10 l.row
  column := Nat.toDigits 10 l.column
  function := l.function
  size := Nat.toDigits 10 l.stack
  qualifier := "static".toList
  rest := []
  rowNumber := l.row
  columnNumber := l.column
  stack := l.stack
  directory_ends := l.directory_ends
  file_plain := l.file_plain
  function_plain := h
  function_ne_nil := l.function_ne_nil
  row_eq := word?_toDigits l.row_lt
  column_eq := word?_toDigits l.column_lt
  size_eq := by
    rw [trim_eq_self fun c hc => isBlank_of_mem_toDigits hc]
    exact word?_toDigits l.stack_lt
  qualifier_eq := by decide
  unbroken := by
    have hunbroken := l.unbroken
    have hdigits : '\t' ∉ Nat.toDigits 10 l.stack := fun hmem => ne_of_mem_toDigits hmem rfl rfl
    have hplain {field : List Char} (h : ∀ c ∈ field, c ≠ '\t' ∧ c ≠ '\n') : '\t' ∉ field :=
      fun hmem => (h _ hmem).1 rfl
    simp only [List.forall_mem_append] at hunbroken
    obtain ⟨⟨hdirectory, hfile⟩, hfunction⟩ := hunbroken
    simp only [List.forall_mem_cons]
    exact ⟨hplain hdirectory, hplain hfile, hplain hfunction, hdigits, by decide,
      List.forall_mem_nil _⟩
  rest_begins := by simp

theorem text_accepted (h : l.Plain) : (l.accepted h).text = l.text := by
  simp [AcceptedLine.text, text, accepted, AcceptedLine.place, place]

theorem ofLine?_text (h : l.Plain) : StackUsage.ofLine? l.text = some l.entry :=
  text_accepted h ▸ (l.accepted h).ofLine?_text

theorem isLine_text (l : ReportLine) : IsLine l.text := by
  have hlocation : '\n' ∉ l.directory ++ l.place := fun hmem => (l.unbroken_location _ hmem).2 rfl
  have hstack : '\n' ∉ Nat.toDigits 10 l.stack := fun hmem => ne_of_mem_toDigits hmem rfl rfl
  have hsplit : l.text = (l.directory ++ l.place ++ '\t' :: (Nat.toDigits 10 l.stack ++ ['\t'])) ++
      "static".toList := by
    simp [text]
  -- The line ends in a word, so it ends in no carriage return.
  rw [hsplit]
  apply isLine_append _ (isLine_of_forall (List.all_iff_forall_prop.1 (by decide))) (by decide)
  simp_all

end ReportLine

namespace StackReport

variable {report : StackReport} {name : String} {usage : StackUsage} {written : List ReportLine}

/-- The report names the functions of these lines and no others, each with its usage. -/
def Lists (report : StackReport) (written : List ReportLine) : Prop :=
  ∀ (name : String) usage, report[name]? = some usage ↔ ∃ l ∈ written, l.entry = (name, usage)

def PlainNames (report : StackReport) : Prop :=
  ∀ (name : String) usage, report[name]? = some usage → ∀ c ∈ name.toList, isSeparator c = false

theorem plainNames_parse (text : String) : (parse text).PlainNames := by
  intro name usage hname
  have hmem : name ∈ parse text := by
    rw [Std.TreeMap.mem_iff_isSome_getElem?, hname, Option.isSome_some]
  obtain ⟨l, -, rfl⟩ := mem_parse_iff.1 hmem
  rw [String.toList_ofList]
  exact l.function_plain

theorem told_text {l : ReportLine} (h : l.Plain) (name : String) :
    told name l.text = if .ofList l.function = name then some l.usage else none := by
  rw [told, ReportLine.ofLine?_text h, Option.bind_some]
  rfl

theorem getElem?_addLine_of_new {l : ReportLine} (h : l.Plain)
    (hnew : report[String.ofList l.function]? = none) (name : String) :
    (report.addLine l.text)[name]? =
      if .ofList l.function = name then some l.usage else report[name]? := by
  rw [getElem?_addLine, told_text h]
  split
  · subst name
    rw [hnew, Option.elim_some, Option.elim_none]
  · rfl

/-- Lines on functions that are all different add what each of them says. -/
theorem getElem?_foldl_addLine (hplain : ∀ l ∈ written, l.Plain)
    (hdistinct : (written.map (·.function)).Nodup)
    (hnew : ∀ l ∈ written, report[String.ofList l.function]? = none) :
    ((written.map (·.text)).foldl addLine report)[name]? = some usage ↔
      report[name]? = some usage ∨ ∃ l ∈ written, l.entry = (name, usage) := by
  induction written generalizing report with
  | nil => simp
  | cons l written ih =>
    obtain ⟨hl, hplain⟩ := List.forall_mem_cons.1 hplain
    obtain ⟨hlnew, hnew⟩ := List.forall_mem_cons.1 hnew
    obtain ⟨hother, hdistinct⟩ := List.nodup_cons.1 hdistinct
    have hadd := getElem?_addLine_of_new hl hlnew
    -- The functions of the other lines are still new.
    have hrest : ∀ m ∈ written, (report.addLine l.text)[String.ofList m.function]? = none := by
      intro m hm
      have hne : String.ofList l.function ≠ String.ofList m.function := by
        intro heq
        exact hother (List.mem_map.2 ⟨m, hm, (String.ofList_inj.1 heq).symm⟩)
      rw [hadd, if_neg hne]
      exact hnew m hm
    have hentry : (if String.ofList l.function = name then some l.usage else report[name]?) =
        some usage ↔ report[name]? = some usage ∨ l.entry = (name, usage) := by
      split
      · subst name
        simp [hlnew, ReportLine.entry]
      · simp [*, ReportLine.entry]
    rw [List.map_cons, List.foldl_cons, ih hplain hdistinct hrest, hadd, hentry]
    simp only [List.exists_mem_cons_iff, or_assoc]

/-- Lines on different functions are read back exactly when no name of a function has a separator
in it: a name such as `operator/` counts as the end of a path. -/
theorem lists_parse_iff (hdistinct : (written.map (·.function)).Nodup) (e : LineEnd) :
    (parse (.ofList (e.terminate (written.map (·.text))))).Lists written ↔
      ∀ l ∈ written, l.Plain := by
  have hline : ∀ line ∈ written.map (·.text), IsLine line :=
    List.forall_mem_map.2 fun l _ => l.isLine_text
  have hlines := lines_terminate e hline
  constructor
  · -- No report has a name with a separator, so one that lists the lines tells of their names.
    intro hlists l hl c hc
    apply plainNames_parse _ _ _ ((hlists _ _).2 ⟨l, hl, rfl⟩)
    rwa [String.toList_ofList]
  · intro hplain name usage
    rw [parse, String.toList_ofList, hlines, getElem?_foldl_addLine hplain hdistinct (by simp)]
    simp

/-- A method of a file whose path has a drive letter. -/
def drawLine : ReportLine where
  directory := "C:\\proj\\".toList
  file := "widget.cpp".toList
  row := 12
  column := 6
  function := "void ns::Widget::draw(int)".toList
  stack := 144
  directory_ends := by simp [isSeparator]
  file_plain := List.all_iff_forall_prop.1 (by decide)
  function_ne_nil := by decide
  unbroken := List.all_iff_forall_prop.1 (by decide)
  row_lt := by decide
  column_lt := by decide
  stack_lt := by decide

/-- An operator of a file that is named without a directory. -/
def divideLine : ReportLine where
  directory := []
  file := "a.cpp".toList
  row := 1
  column := 2
  function := "operator/".toList
  stack := 16
  directory_ends := by simp
  file_plain := List.all_iff_forall_prop.1 (by decide)
  function_ne_nil := by decide
  unbroken := List.all_iff_forall_prop.1 (by decide)
  row_lt := by decide
  column_lt := by decide
  stack_lt := by decide

theorem lists_parse_drawLine :
    ([drawLine].map (·.function)).Nodup ∧
      (parse (.ofList (LineEnd.returnNewline.terminate [drawLine.text]))).Lists [drawLine] := by
  have hdistinct : ([drawLine].map (·.function)).Nodup := by simp
  refine ⟨hdistinct, (lists_parse_iff hdistinct .returnNewline).2 ?_⟩
  simp only [List.forall_mem_singleton]
  exact List.all_iff_forall_prop.1 (by decide)

theorem not_lists_parse_divideLine :
    divideLine.text = "a.cpp:1:2:operator/\t16\tstatic".toList ∧
      ¬(parse (.ofList (LineEnd.newline.terminate [divideLine.text]))).Lists [divideLine] := by
  refine ⟨by decide, fun hlists => ?_⟩
  have hlisted := (hlists "operator/" divideLine.usage).2 ⟨divideLine, by simp, rfl⟩
  have hslash := plainNames_parse _ _ _ hlisted '/' (by decide)
  exact absurd hslash (by decide)

end StackReport

end StackSurvey
