import StackSurvey.Proofs.CallGraph.ByteOffsets

namespace StackSurvey.CallGraph

open Text

/-- A line that ends a table: the closing line, or one of more than two bytes that neither begins
with a blank nor declares a function. -/
def EndsTable (line : List Char) : Prop :=
  Dump.closing <+: line ∨
    line.head?.any isBlank = false ∧ (¬∃ d : Declaration, d.line = line) ∧ 2 < Dump.byteSize line

/-- A line that declares a function with too large a number. -/
def Overflows (line : List Char) : Prop :=
  ∃ d : Declaration, d.line = line ∧ wordBound ≤ d.number

/-- The lines between the first line that opens a table and the first after it that ends one. -/
def HasTable (text : List Char) (table : List (List Char)) : Prop :=
  ∃ before start after, lines text = before ++ start :: (table ++ after) ∧
    (∀ line ∈ before, ¬Dump.opening <+: line) ∧ Dump.opening <+: start ∧
    (∀ line ∈ table, ¬EndsTable line) ∧ ∀ line ∈ after.head?, EndsTable line

section Lines

variable {line : List Char} {table after : List (List Char)}

theorem not_endsTable_line (d : Declaration) : ¬EndsTable d.line := by
  rintro (hclosing | ⟨-, hnot, -⟩)
  · exact d.not_closing_line hclosing
  · exact hnot ⟨d, rfl⟩

theorem Overflows.head (h : Overflows line) : line.head?.any isBlank = false := by
  obtain ⟨d, rfl, -⟩ := h
  exact d.head?_line

theorem overflows_line_iff {d : Declaration} : Overflows d.line ↔ wordBound ≤ d.number := by
  constructor
  · rintro ⟨d', hline, hnumber⟩
    rwa [← Declaration.number_eq_of_line_eq hline]
  · exact fun hnumber => ⟨d, rfl, hnumber⟩

/-- A line that begins with a blank says something of the function before it, or nothing. -/
theorem exists_addLines_blank (g : CallGraph) (hopen : ¬Dump.closing.isPrefixOf line)
    (hhead : line.head?.any isBlank = true) :
    ∃ g', ∀ rest, Dump.addLines g (line :: rest) = Dump.addLines g' rest := by
  cases hcalls : after? Dump.callsLabel line with
  | some text =>
    refine ⟨Dump.changeLast g fun node => { node with calls := node.calls ++ Dump.calls text },
      fun rest => ?_⟩
    rw [Dump.addLines, if_neg hopen, hcalls]
  | none =>
    cases htype : after? Dump.typeLabel line with
    | some text =>
      refine ⟨Dump.changeLast g fun node => { node with nodeType := .ofList (trim text) },
        fun rest => ?_⟩
      rw [Dump.addLines, if_neg hopen, hcalls, htype]
    | none =>
      refine ⟨g, fun rest => ?_⟩
      rw [Dump.addLines, if_neg hopen, hcalls, htype]
      exact if_pos hhead

theorem addLines_unknown (g : CallGraph) (hopen : ¬Dump.closing.isPrefixOf line)
    (hhead : line.head?.any isBlank = false) (hnode : Dump.nodeLine? line = none)
    (rest : List (List Char)) :
    Dump.addLines g (line :: rest) =
      if 2 < Dump.byteSize line then .ok g else Dump.addLines g rest := by
  rw [Dump.addLines, if_neg hopen, after?_of_head rfl hhead, after?_of_head rfl hhead, hhead, hnode]
  rfl

/-- What a line does to a graph: it ends the table, cannot be read, or changes the graph. -/
theorem addLines_cons_cases (g : CallGraph) (line : List Char) :
    (EndsTable line ∧ ∀ rest, Dump.addLines g (line :: rest) = .ok g) ∨
    (¬EndsTable line ∧ Overflows line ∧
      ∀ rest, Dump.addLines g (line :: rest) = .error .symbolNumberTooLarge) ∨
    (¬EndsTable line ∧ ¬Overflows line ∧
      ∃ g', ∀ rest, Dump.addLines g (line :: rest) = Dump.addLines g' rest) := by
  -- A line that begins with a blank never ends a table; of the others only a declaration goes on.
  by_cases hclosing : Dump.closing <+: line
  · refine .inl ⟨.inl hclosing, fun rest => ?_⟩
    rw [Dump.addLines, if_pos (List.isPrefixOf_iff_prefix.2 hclosing)]
  have hopen : ¬Dump.closing.isPrefixOf line := mt List.isPrefixOf_iff_prefix.1 hclosing
  cases hhead : line.head?.any isBlank with
  | true =>
    have hgoes : ¬EndsTable line := by
      rintro (hends | ⟨hnot, -⟩)
      · exact hclosing hends
      · cases hhead.symm.trans hnot
    have hfits : ¬Overflows line := fun hover => Bool.noConfusion (hhead.symm.trans hover.head)
    exact .inr (.inr ⟨hgoes, hfits, exists_addLines_blank g hopen hhead⟩)
  | false =>
    cases hnode : Dump.nodeLine? line with
    | none =>
      have hnot : ¬∃ d : Declaration, d.line = line := by
        rintro ⟨d, rfl⟩
        cases hnode.symm.trans d.nodeLine?_line
      by_cases hlong : 2 < Dump.byteSize line
      · refine .inl ⟨.inr ⟨hhead, hnot, hlong⟩, fun rest => ?_⟩
        rw [addLines_unknown g hopen hhead hnode, if_pos hlong]
      · have hgoes : ¬EndsTable line := fun hends => hends.elim hclosing fun h => hlong h.2.2
        have hfits : ¬Overflows line := fun hover => hnot (hover.imp fun _ h => h.1)
        refine .inr (.inr ⟨hgoes, hfits, g, fun rest => ?_⟩)
        rw [addLines_unknown g hopen hhead hnode, if_neg hlong]
    | some n =>
      obtain ⟨d, rfl, -⟩ := exists_declaration hnode hhead
      have hgoes := not_endsTable_line d
      by_cases hover : Overflows d.line
      · refine .inr (.inl ⟨hgoes, hover, fun rest => ?_⟩)
        rw [d.addLines_line, if_neg (Nat.not_lt.2 (overflows_line_iff.1 hover))]
      · refine .inr (.inr ⟨hgoes, hover, g.addNode d.node, fun rest => ?_⟩)
        rw [d.addLines_line, if_pos (Nat.lt_of_not_le (mt overflows_line_iff.2 hover))]

theorem addLines_append_after (hafter : ∀ line ∈ after.head?, EndsTable line) (g : CallGraph)
    (table : List (List Char)) : Dump.addLines g (table ++ after) = Dump.addLines g table := by
  induction table generalizing g with
  | nil =>
    cases after with
    | nil => rfl
    | cons line rest =>
      rcases addLines_cons_cases g line with ⟨-, hends⟩ | ⟨hgoes, -⟩ | ⟨hgoes, -⟩
      · exact hends rest
      · exact absurd (hafter line rfl) hgoes
      · exact absurd (hafter line rfl) hgoes
  | cons line table ih =>
    rw [List.cons_append]
    rcases addLines_cons_cases g line with ⟨-, hends⟩ | ⟨-, -, herror⟩ | ⟨-, -, g', hnext⟩
    · rw [hends, hends]
    · rw [herror, herror]
    · rw [hnext, hnext, ih]

/-- A table is unreadable exactly if one of its numbers is too large. -/
theorem exists_addLines_error_iff (htable : ∀ line ∈ table, ¬EndsTable line) (g : CallGraph) :
    (∃ fault, Dump.addLines g table = .error fault) ↔ ∃ line ∈ table, Overflows line := by
  induction table generalizing g with
  | nil => simp [Dump.addLines]
  | cons line table ih =>
    obtain ⟨hline, htable⟩ := List.forall_mem_cons.1 htable
    rw [List.exists_mem_cons_iff]
    rcases addLines_cons_cases g line with ⟨hends, -⟩ | ⟨-, hover, herror⟩ | ⟨-, hfits, g', hnext⟩
    · exact absurd hends hline
    · rw [herror]
      exact iff_of_true ⟨_, rfl⟩ (.inl hover)
    · rw [hnext, ih htable, or_iff_right hfits]

end Lines

section Table

variable {text : List Char} {table : List (List Char)}

theorem not_isPrefixOf_opening {line : List Char} :
    (!(Dump.opening.isPrefixOf line)) = true ↔ ¬Dump.opening <+: line := by
  rw [Bool.not_eq_true', ← Bool.not_eq_true, List.isPrefixOf_iff_prefix]

/-- The table is what stands behind the first opening line and before the first end. -/
theorem hasTable_iff : HasTable text table ↔
    ∃ start after,
      (lines text).dropWhile (fun line => !(Dump.opening.isPrefixOf line)) =
        start :: (table ++ after) ∧
      (∀ line ∈ table, ¬EndsTable line) ∧ ∀ line ∈ after.head?, EndsTable line := by
  constructor
  · rintro ⟨before, start, after, hlines, hbefore, hstart, htable, hafter⟩
    refine ⟨start, after, ?_, htable, hafter⟩
    rw [hlines]
    refine dropWhile_append_of_head
      (fun line hline => not_isPrefixOf_opening.2 (hbefore line hline)) (fun line hline => ?_)
    cases hline
    exact Bool.eq_false_iff.2 fun hnot => not_isPrefixOf_opening.1 hnot hstart
  · rintro ⟨start, after, hdrop, htable, hafter⟩
    refine ⟨(lines text).takeWhile fun line => !(Dump.opening.isPrefixOf line), start, after, ?_,
      fun line hline => ?_, ?_, htable, hafter⟩
    · rw [← hdrop, List.takeWhile_append_dropWhile]
    · have hnot := List.mem_takeWhile_imp hline
      exact not_isPrefixOf_opening.1 hnot
    · have hhead := List.head?_dropWhile_not (fun line => !(Dump.opening.isPrefixOf line))
        (lines text)
      rw [hdrop] at hhead
      exact not_not.1 fun hstart => Bool.eq_false_iff.1 hhead (not_isPrefixOf_opening.2 hstart)

theorem existsUnique_hasTable (h : ∃ line ∈ lines text, Dump.opening <+: line) :
    ∃! table, HasTable text table := by
  classical
  obtain ⟨start, rest, hdrop⟩ : ∃ start rest,
      (lines text).dropWhile (fun line => !(Dump.opening.isPrefixOf line)) = start :: rest := by
    refine List.exists_cons_of_ne_nil fun hnil => ?_
    obtain ⟨line, hline, hopening⟩ := h
    exact not_isPrefixOf_opening.1 (List.dropWhile_eq_nil_iff.1 hnil line hline) hopening
  refine ⟨rest.takeWhile fun line => !decide (EndsTable line), hasTable_iff.2
    ⟨start, rest.dropWhile fun line => !decide (EndsTable line), ?_, fun line hline => ?_,
      fun line hline => ?_⟩, fun table htable => ?_⟩
  · rw [List.takeWhile_append_dropWhile, hdrop]
  · simpa using List.mem_takeWhile_imp hline
  · have hhead := List.head?_dropWhile_not (fun line => !decide (EndsTable line)) rest
    rw [Option.mem_def.1 hline] at hhead
    simpa using hhead
  · obtain ⟨start', after, hdrop', htable, hafter⟩ := hasTable_iff.1 htable
    obtain ⟨-, rfl⟩ := List.cons_eq_cons.1 (hdrop.symm.trans hdrop')
    exact (takeWhile_append_of_head (fun line hline => by simpa using htable line hline)
      fun line hline => by simpa using hafter line hline).symm

theorem HasTable.parse_eq {text : String} (h : HasTable text.toList table) :
    parse text = Dump.addLines {} table := by
  obtain ⟨start, after, hdrop, -, hafter⟩ := hasTable_iff.1 h
  rw [parse, hdrop, List.drop_one, List.tail_cons, addLines_append_after hafter]

theorem HasTable.not_endsTable (h : HasTable text table) : ∀ line ∈ table, ¬EndsTable line := by
  obtain ⟨start, after, -, htable, -⟩ := hasTable_iff.1 h
  exact htable

theorem parse_of_not_opening {text : String}
    (h : ∀ line ∈ lines text.toList, ¬Dump.opening <+: line) : parse text = .ok {} := by
  have hdrop := List.dropWhile_eq_nil_iff.2 fun line hline =>
    not_isPrefixOf_opening.2 (h line hline)
  rw [parse, hdrop]
  rfl

end Table

/-- No text makes the reader lower a count at zero, cut inside a character or loop without end. A
text is refused exactly if its table declares a function with too large a number; what the graph
holds depends on the table alone, and there is nothing in it without one. -/
theorem parse_reads_table (text : String) :
    Offset.parse text = .ok (parse text) ∧
      ((∃ fault, parse text = .error fault) ↔
        ∃ table, HasTable text.toList table ∧ ∃ line ∈ table, Overflows line) ∧
      (∀ (other : String) (table : List (List Char)), HasTable text.toList table →
        HasTable other.toList table → parse other = parse text) ∧
      ((∀ line ∈ lines text.toList, ¬Dump.opening <+: line) → parse text = .ok {}) := by
  refine ⟨parse_offset text, ⟨fun herror => ?_, ?_⟩, fun other table htext hother => ?_,
    parse_of_not_opening⟩
  · by_cases hopening : ∃ line ∈ lines text.toList, Dump.opening <+: line
    · obtain ⟨table, htable, -⟩ := existsUnique_hasTable hopening
      rw [htable.parse_eq] at herror
      exact ⟨table, htable, (exists_addLines_error_iff htable.not_endsTable {}).1 herror⟩
    · obtain ⟨fault, herror⟩ := herror
      rw [parse_of_not_opening (by simpa using hopening)] at herror
      cases herror
  · rintro ⟨table, htable, hover⟩
    rw [htable.parse_eq]
    exact (exists_addLines_error_iff htable.not_endsTable {}).2 hover
  · rw [htext.parse_eq, hother.parse_eq]

/-- A function whose number is the first that does not fit. -/
def oversized : Declaration where
  symbol := "g".toList
  digits := Nat.toDigits 10 wordBound
  name := "g".toList
  blanks := [' ']
  address := "@0x2".toList
  rest := " x".toList
  symbol_ne_nil := by decide
  blank_notMem_symbol := by decide
  isBlank_head c hc := by
    cases hc
    decide
  digits_ne_nil := Nat.toDigits_ne_nil
  isDigit_digits _ hc := Nat.isDigit_of_mem_toDigits (by decide) (by decide) hc
  name_ne_nil := by decide
  isBlank_blanks := by simp [isBlank]
  address_ne_nil := by decide
  address_word := List.all_iff_forall_prop.1 (by decide)
  isBlank_rest c hc := by
    cases hc
    decide
  not_close_later hwithin := absurd (hwithin.subset List.mem_cons_self) (by decide)

/-- Parentheses that are not in pairs, characters of several bytes, and a short line. -/
def oversizedTable : List (List Char) :=
  [leaf.toDeclaration.line, "  Calls: )é( é/2 ((é".toList, "é".toList, oversized.line]

theorem not_endsTable_oversizedTable : ∀ line ∈ oversizedTable, ¬EndsTable line := by
  simp only [oversizedTable, List.forall_mem_cons]
  refine ⟨not_endsTable_line _, fun hends => ?_, fun hends => ?_, not_endsTable_line _, by simp⟩
  · exact hends.elim (by decide) fun h => Bool.noConfusion h.1
  · exact hends.elim (by decide) fun h => absurd h.2.2 (by decide)

def oversizedDump : String :=
  "é( \nOptimized Symbol table:)\nf/1 (f) @0x1\n  Calls: )é( é/2 ((é\né\n" ++
    "g/18446744073709551616 (g)  @0x2 x\nMaterializing clones\nOptimized Symbol table:\n"

def oversizedBare : String :=
  "Optimized Symbol table:\nf/1 (f) @0x1\n  Calls: )é( é/2 ((é\né\n" ++
    "g/18446744073709551616 (g)  @0x2 x\n"

theorem parse_reads_table_oversizedDump :
    HasTable oversizedDump.toList oversizedTable ∧ HasTable oversizedBare.toList oversizedTable ∧
      Offset.parse oversizedDump = .ok (parse oversizedDump) ∧
      (∃ fault, parse oversizedDump = .error fault) ∧
      parse oversizedBare = parse oversizedDump := by
  have hdump : HasTable oversizedDump.toList oversizedTable := by
    refine ⟨["é( ".toList], "Optimized Symbol table:)".toList,
      ["Materializing clones".toList, "Optimized Symbol table:".toList], by decide +kernel,
      by decide, by decide, not_endsTable_oversizedTable, fun line hline => .inl ?_⟩
    cases hline
    decide
  have hbare : HasTable oversizedBare.toList oversizedTable :=
    ⟨[], "Optimized Symbol table:".toList, [], by decide +kernel, by simp, by decide,
      not_endsTable_oversizedTable, by simp⟩
  obtain ⟨hsafe, herror, hsame, -⟩ := parse_reads_table oversizedDump
  have hover : Overflows oversized.line :=
    overflows_line_iff.2 (Nat.le_of_eq Nat.ofDigitChars_ten_toDigits.symm)
  exact ⟨hdump, hbare, hsafe, herror.2 ⟨_, hdump, _, by simp [oversizedTable], hover⟩,
    hsame _ _ hdump hbare⟩

end StackSurvey.CallGraph
