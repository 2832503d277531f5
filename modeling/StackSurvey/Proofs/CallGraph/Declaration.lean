import Mathlib.Data.Option.Basic
import StackSurvey.CallGraph.Dump
import StackSurvey.Proofs.Text.Lines

namespace StackSurvey.CallGraph

open Text

section Pieces

variable {name digits text : List Char}

theorem splitSymbol?_append (hname : name ≠ []) (hdigits : digits ≠ [])
    (hall : digits.all Char.isDigit = true) :
    Dump.splitSymbol? (name ++ '/' :: digits) = some (name, digits) := by
  have hslash : ∀ c ∈ digits, (c == '/') = false := by
    intro c hc
    refine beq_false_of_ne ?_
    rintro rfl
    exact absurd (List.all_eq_true.1 hall _ hc) (by decide)
  rw [Dump.splitSymbol?, cutLast?_append (by decide) hslash]
  exact if_pos ⟨hname, hdigits, hall⟩

theorem eq_append_of_splitSymbol? (h : Dump.splitSymbol? text = some (name, digits)) :
    text = name ++ '/' :: digits ∧ name ≠ [] ∧ digits ≠ [] ∧ digits.all Char.isDigit = true := by
  rw [Dump.splitSymbol?] at h
  split at h
  · rename_i hcut
    obtain ⟨c, hc, rfl⟩ := eq_append_of_cutLast? hcut
    split at h
    · rename_i hparts
      cases h
      rw [beq_iff_eq.1 hc]
      exact ⟨rfl, hparts⟩
    · cases h
  · cases h

theorem cutClose?_append {after : List Char} (hafter : ¬[' ', ')'] <:+: after)
    (before : List Char) :
    Dump.cutClose? (after ++ ' ' :: ')' :: before) = some (after, before) := by
  induction after with
  | nil => rfl
  | cons c after ih =>
    obtain ⟨hfirst, hrest⟩ := not_or.1 (mt List.infix_cons_iff.2 hafter)
    rw [List.cons_append, Dump.cutClose?, ih hrest, Option.map_some]
    -- No occurrence reaches beyond what stands before the one that is found.
    rintro before rfl hnext
    cases after with
    | nil => cases hnext
    | cons d after =>
      cases hnext
      exact hfirst ⟨after, rfl⟩

theorem eq_append_of_cutClose? {after before : List Char}
    (h : Dump.cutClose? text = some (after, before)) :
    text = after ++ ' ' :: ')' :: before ∧ ¬[' ', ')'] <:+: after := by
  induction text using Dump.cutClose?.induct generalizing after before with
  | case1 =>
    cases h
    exact ⟨rfl, by simp⟩
  | case2 c rest hnot ih =>
    rw [Dump.cutClose?.eq_2 _ _ hnot] at h
    obtain ⟨⟨after, before⟩, hrest, heq⟩ := Option.map_eq_some_iff.1 h
    cases heq
    obtain ⟨rfl, hafter⟩ := ih hrest
    refine ⟨rfl, fun hwithin => ?_⟩
    rcases List.infix_cons_iff.1 hwithin with ⟨others, hprefix⟩ | hwithin
    · cases hprefix
      exact hnot _ rfl rfl
    · exact hafter hwithin
  | case3 => cases h

theorem cutClose?_reverse {after : List Char} (hafter : ¬[')', ' '] <:+: after)
    (before : List Char) :
    Dump.cutClose? (before ++ ')' :: ' ' :: after).reverse =
      some (after.reverse, before.reverse) := by
  have hreverse : (before ++ ')' :: ' ' :: after).reverse =
      after.reverse ++ ' ' :: ')' :: before.reverse := by simp
  have hnot : ¬[')', ' '].reverse <:+: after.reverse := mt List.reverse_infix.1 hafter
  rw [hreverse, cutClose?_append hnot]

theorem eq_append_of_cutClose?_reverse {after before : List Char}
    (h : Dump.cutClose? text.reverse = some (after, before)) :
    text = before.reverse ++ ')' :: ' ' :: after.reverse ∧ ¬[')', ' '] <:+: after.reverse := by
  obtain ⟨htext, hafter⟩ := eq_append_of_cutClose? h
  have hnot : ¬[' ', ')'].reverse <:+: after.reverse := mt List.reverse_infix.1 hafter
  refine ⟨?_, hnot⟩
  rw [← text.reverse_reverse, htext]
  simp

/-- The first word of a text, with the blanks before it. -/
theorem exists_firstWord (text : List Char) :
    ∃ blanks rest, blanks ++ ((trimLeft text).takeWhile (fun c => !isBlank c) ++ rest) = text ∧
      (∀ c ∈ blanks, isBlank c = true) ∧ ∀ c ∈ rest.head?, isBlank c = true := by
  refine ⟨text.takeWhile isBlank, (trimLeft text).dropWhile fun c => !isBlank c, ?_,
    fun c hc => List.mem_takeWhile_imp hc, fun c hc => ?_⟩
  · rw [List.takeWhile_append_dropWhile]
    exact List.takeWhile_append_dropWhile
  · have hhead := List.head?_dropWhile_not (fun c => !isBlank c) (trimLeft text)
    rw [Option.mem_def.1 hc] at hhead
    simpa using hhead

end Pieces

/-- A line that declares a function, in its parts. It does not begin with a blank. -/
structure Declaration where
  symbol : List Char
  digits : List Char
  name : List Char
  blanks : List Char
  address : List Char
  rest : List Char
  symbol_ne_nil : symbol ≠ []
  blank_notMem_symbol : ' ' ∉ symbol
  isBlank_head : ∀ c ∈ symbol.head?, isBlank c = false
  digits_ne_nil : digits ≠ []
  isDigit_digits : ∀ c ∈ digits, c.isDigit = true
  name_ne_nil : name ≠ []
  isBlank_blanks : ∀ c ∈ blanks, isBlank c = true
  address_ne_nil : address ≠ []
  address_word : ∀ c ∈ address, isBlank c = false
  isBlank_rest : ∀ c ∈ rest.head?, isBlank c = true
  /-- The name ends at the last of these. -/
  not_close_later : ¬[')', ' '] <:+: blanks ++ (address ++ rest)

namespace Declaration

def line (d : Declaration) : List Char :=
  d.symbol ++ '/' :: (d.digits ++
    ' ' :: '(' :: (d.name ++ ')' :: ' ' :: (d.blanks ++ (d.address ++ d.rest))))

/-- The number that the digits write. -/
def number (d : Declaration) : Nat := Nat.ofDigitChars 10 d.digits 0

def nodeLine (d : Declaration) : Dump.NodeLine :=
  { mangledName := .ofList d.symbol, digits := d.digits, name := .ofList d.name
    address := .ofList d.address }

theorem head?_line (d : Declaration) : d.line.head?.any isBlank = false := by
  have hhead := d.isBlank_head
  obtain ⟨c, symbol, hsymbol⟩ := List.exists_cons_of_ne_nil d.symbol_ne_nil
  rw [hsymbol] at hhead
  rw [line, hsymbol]
  exact hhead c rfl

theorem cutFirst?_line (d : Declaration) :
    cutFirst? (· == ' ') d.line = some (d.symbol ++ '/' :: d.digits,
      '(' :: (d.name ++ ')' :: ' ' :: (d.blanks ++ (d.address ++ d.rest)))) := by
  have hsplit : d.line = (d.symbol ++ '/' :: d.digits) ++
      ' ' :: '(' :: (d.name ++ ')' :: ' ' :: (d.blanks ++ (d.address ++ d.rest))) := by
    simp [line]
  have hdigits : ' ' ∉ d.digits := fun hmem => absurd (d.isDigit_digits _ hmem) (by decide)
  have hword : ' ' ∉ d.symbol ++ '/' :: d.digits := by
    simp [d.blank_notMem_symbol, hdigits]
  rw [hsplit]
  exact cutFirst?_append (fun c hc => beq_false_of_ne (ne_of_mem_of_not_mem hc hword)) rfl _

/-- The first word of the line that closes a table has no slash in it. -/
theorem not_closing_line (d : Declaration) : ¬Dump.closing <+: d.line := by
  rintro ⟨after, hafter⟩
  have hword : ∀ c ∈ "Materializing".toList, (c == ' ') = false :=
    List.all_iff_forall_prop.1 (by decide)
  have hfirst := cutFirst?_append hword (c := ' ') rfl ("clones".toList ++ after)
  have hsplit : Dump.closing ++ after =
      "Materializing".toList ++ ' ' :: ("clones".toList ++ after) := rfl
  rw [← hsplit, hafter, cutFirst?_line] at hfirst
  have htoken : d.symbol ++ '/' :: d.digits = "Materializing".toList := by
    injection hfirst with h
    injection h
  have hslash : '/' ∈ d.symbol ++ '/' :: d.digits := by simp
  rw [htoken] at hslash
  exact absurd hslash (by decide)

theorem nodeLine?_line (d : Declaration) : Dump.nodeLine? d.line = some d.nodeLine := by
  have hsymbol := splitSymbol?_append d.symbol_ne_nil d.digits_ne_nil
    (List.all_eq_true.2 d.isDigit_digits)
  have hhead : ∀ c ∈ (d.address ++ d.rest).head?, isBlank c = false := by
    intro c hc
    rw [List.head?_append_of_ne_nil _ d.address_ne_nil] at hc
    exact d.address_word c (List.mem_of_mem_head? hc)
  have htrim : trimLeft (d.blanks ++ (d.address ++ d.rest)) = d.address ++ d.rest :=
    dropWhile_append_of_head d.isBlank_blanks hhead
  have haddress : (d.address ++ d.rest).takeWhile (fun c => !isBlank c) = d.address :=
    takeWhile_append_of_head (fun c hc => by rw [d.address_word c hc]; rfl)
      (fun c hc => by rw [d.isBlank_rest c hc]; rfl)
  have hname : d.name.reverse ≠ [] := mt List.reverse_eq_nil_iff.1 d.name_ne_nil
  refine Option.bind_eq_some_iff.2 ⟨_, d.cutFirst?_line, ?_⟩
  refine Option.bind_eq_some_iff.2 ⟨_, hsymbol, ?_⟩
  refine Option.bind_eq_some_iff.2 ⟨_, after?_append ['('] _, ?_⟩
  refine Option.bind_eq_some_iff.2 ⟨_, cutClose?_reverse d.not_close_later d.name, ?_⟩
  simp only [List.reverse_reverse, htrim, haddress]
  exact Option.bind_eq_some_iff.2 ⟨(), if_pos ⟨d.address_ne_nil, hname⟩, rfl⟩

/-- The function, if its number has at most 64 bits. -/
def node (d : Declaration) : CallNode :=
  { mangledName := .ofList d.symbol, symbolNumber := d.number, name := .ofList d.name
    address := .ofList d.address }

theorem addLines_line (d : Declaration) (g : CallGraph) (rest : List (List Char)) :
    Dump.addLines g (d.line :: rest) =
      if d.number < wordBound then Dump.addLines (g.addNode d.node) rest
      else .error .symbolNumberTooLarge := by
  have hnumber : digitsToWord? d.digits =
      if d.number < wordBound then some d.number else none :=
    digitsToWord?_of_all d.digits_ne_nil (List.all_eq_true.2 d.isDigit_digits)
  have hopen : ¬Dump.closing.isPrefixOf d.line :=
    mt List.isPrefixOf_iff_prefix.1 d.not_closing_line
  rw [Dump.addLines, if_neg hopen, after?_of_head rfl d.head?_line, after?_of_head rfl d.head?_line,
    d.head?_line, d.nodeLine?_line]
  simp only [Bool.false_eq_true, if_false, nodeLine, hnumber]
  by_cases hfits : d.number < wordBound
  · rw [if_pos hfits, if_pos hfits]
    rfl
  · rw [if_neg hfits, if_neg hfits]

theorem number_eq_of_line_eq {d d' : Declaration} (h : d.line = d'.line) :
    d.number = d'.number := by
  have hnode := d.nodeLine?_line
  rw [h, d'.nodeLine?_line] at hnode
  have hdigits : d'.digits = d.digits := congrArg Dump.NodeLine.digits (Option.some.inj hnode)
  rw [number, number, hdigits]

end Declaration

/-- Nothing but a declaration is read as one. -/
theorem exists_declaration {line : List Char} {n : Dump.NodeLine}
    (h : Dump.nodeLine? line = some n) (hhead : line.head?.any isBlank = false) :
    ∃ d : Declaration, d.line = line ∧ d.nodeLine = n := by
  obtain ⟨⟨token, rest⟩, hfirst, h⟩ := Option.bind_eq_some_iff.1 h
  obtain ⟨⟨symbol, digits⟩, hsymbol, h⟩ := Option.bind_eq_some_iff.1 h
  obtain ⟨rest, hopen, h⟩ := Option.bind_eq_some_iff.1 h
  obtain ⟨⟨after, name⟩, hclose, h⟩ := Option.bind_eq_some_iff.1 h
  obtain ⟨_, hguard, hnode⟩ := Option.bind_eq_some_iff.1 h
  obtain ⟨haddress, hname⟩ := (Option.guard_eq_some' _).1 hguard
  obtain ⟨c, ⟨hc, hblank⟩, rfl⟩ := eq_append_of_cutFirst? hfirst
  obtain ⟨rfl, hsymbol, hdigits, hall⟩ := eq_append_of_splitSymbol? hsymbol
  obtain rfl := eq_append_of_after? hopen
  obtain ⟨rfl, hlast⟩ := eq_append_of_cutClose?_reverse hclose
  obtain ⟨blanks, others, hafter, hblanks, hothers⟩ := exists_firstWord after.reverse
  have hhead : ∀ c ∈ symbol.head?, isBlank c = false := by
    intro c hc
    simpa [Option.mem_def.1 hc] using hhead
  have hline : symbol ++ '/' :: (digits ++ ' ' :: '(' :: (name.reverse ++ ')' :: ' ' ::
      (blanks ++ ((trimLeft after.reverse).takeWhile (fun c => !isBlank c) ++ others)))) =
      (symbol ++ '/' :: digits) ++ c :: ('(' :: (name.reverse ++ ')' :: ' ' :: after.reverse)) := by
    rw [hafter, beq_iff_eq.1 hc]
    simp
  refine ⟨{ symbol, digits, name := name.reverse, blanks, rest := others
            address := (trimLeft after.reverse).takeWhile fun c => !isBlank c
            symbol_ne_nil := hsymbol
            blank_notMem_symbol := fun hmem => ?_
            isBlank_head := hhead
            digits_ne_nil := hdigits
            isDigit_digits := List.all_eq_true.1 hall
            name_ne_nil := mt List.reverse_eq_nil_iff.1 hname
            isBlank_blanks := hblanks
            address_ne_nil := haddress
            address_word := fun c hc => ?_
            isBlank_rest := hothers
            not_close_later := by rwa [hafter] }, hline, Option.some.inj hnode⟩
  · exact absurd (hblank ' ' (List.mem_append_left _ hmem)) (by decide)
  · simpa using List.mem_takeWhile_imp hc

end StackSurvey.CallGraph
