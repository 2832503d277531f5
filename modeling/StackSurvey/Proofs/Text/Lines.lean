import Mathlib.Data.Bool.AllAny
import Mathlib.Data.List.DropRight
import StackSurvey.Text.Number
import StackSurvey.Text.Split

namespace StackSurvey.Text

variable {p : Char → Bool} {c : Char} {word rest line text : List Char} {n : Nat}

section Pieces

theorem takeWhile_append_of_head {α : Type} {p : α → Bool} {xs ys : List α}
    (hxs : ∀ x ∈ xs, p x = true) (hys : ∀ y ∈ ys.head?, p y = false) :
    (xs ++ ys).takeWhile p = xs := by
  rw [List.takeWhile_append_of_pos hxs]
  cases ys with
  | nil => simp
  | cons y ys => rw [List.takeWhile_cons_of_neg (by simp [hys y rfl]), List.append_nil]

theorem dropWhile_append_of_head {α : Type} {p : α → Bool} {xs ys : List α}
    (hxs : ∀ x ∈ xs, p x = true) (hys : ∀ y ∈ ys.head?, p y = false) :
    (xs ++ ys).dropWhile p = ys := by
  rw [List.dropWhile_append_of_pos hxs]
  cases ys with
  | nil => rfl
  | cons y ys => exact List.dropWhile_cons_of_neg (by simp [hys y rfl])

/-- A word that holds no separator is part of the first piece. -/
theorem splitAt_append {first : List Char} {others : List (List Char)}
    (hword : ∀ x ∈ word, p x = false) (h : splitAt p rest = first :: others) :
    splitAt p (word ++ rest) = (word ++ first) :: others := by
  induction word with
  | nil => exact h
  | cons x word ih =>
    obtain ⟨hx, hword⟩ := List.forall_mem_cons.1 hword
    rw [List.cons_append, splitAt, hx, if_neg Bool.false_ne_true, ih hword]
    rfl

theorem splitAt_of_forall (hword : ∀ x ∈ word, p x = false) : splitAt p word = [word] := by
  have hsplit := splitAt_append hword (show splitAt p [] = [] :: [] from rfl)
  rwa [List.append_nil] at hsplit

theorem splitAt_append_cons (hword : ∀ x ∈ word, p x = false) (hc : p c = true)
    (rest : List Char) : splitAt p (word ++ c :: rest) = word :: splitAt p rest := by
  have h : splitAt p (c :: rest) = [] :: splitAt p rest := by rw [splitAt, if_pos hc]
  rw [splitAt_append hword h, List.append_nil]

theorem splitAt_ne_nil (p : Char → Bool) (text : List Char) : splitAt p text ≠ [] := by
  cases text with
  | nil => exact List.cons_ne_nil _ _
  | cons c text =>
    rw [splitAt]
    split
    · exact List.cons_ne_nil _ _
    · split <;> exact List.cons_ne_nil _ _

/-- A separator takes a text apart into the pieces before it and those behind it. -/
theorem splitAt_append_separator (hc : p c = true) (before rest : List Char) :
    splitAt p (before ++ c :: rest) = splitAt p before ++ splitAt p rest := by
  induction before with
  | nil =>
    have h : splitAt p (c :: rest) = [] :: splitAt p rest := by rw [splitAt, if_pos hc]
    exact h
  | cons x before ih =>
    simp only [List.cons_append, splitAt, ih]
    split
    · rfl
    · obtain ⟨first, others, hfirst⟩ := List.exists_cons_of_ne_nil (splitAt_ne_nil p before)
      rw [hfirst]
      rfl

/-- The first piece is what stands before the first separator, and the others are the pieces of what
stands behind it. -/
theorem eq_append_of_splitAt {pieces : List (List Char)} (h : splitAt p text = word :: pieces) :
    (∀ x ∈ word, p x = false) ∧
      (text = word ∧ pieces = [] ∨
        ∃ c rest, p c = true ∧ text = word ++ c :: rest ∧ splitAt p rest = pieces) := by
  induction text generalizing word pieces with
  | nil =>
    cases h
    exact ⟨List.forall_mem_nil _, .inl ⟨rfl, rfl⟩⟩
  | cons x text ih =>
    rw [splitAt] at h
    split at h
    · cases h
      exact ⟨List.forall_mem_nil _, .inr ⟨x, text, ‹_›, rfl, rfl⟩⟩
    · rename_i hx
      obtain ⟨first, others, hothers⟩ := List.exists_cons_of_ne_nil (splitAt_ne_nil p text)
      obtain ⟨hfirst, hcases⟩ := ih hothers
      rw [hothers] at h
      cases h
      refine ⟨List.forall_mem_cons.2 ⟨Bool.eq_false_iff.2 hx, hfirst⟩, ?_⟩
      rcases hcases with ⟨rfl, rfl⟩ | ⟨c, rest, hc, rfl, hrest⟩
      · exact .inl ⟨rfl, rfl⟩
      · exact .inr ⟨c, rest, hc, rfl, hrest⟩

theorem exists_splitAt_append (hword : ∀ x ∈ word, p x = false)
    (hrest : ∀ c ∈ rest.head?, p c = true) :
    ∃ pieces, splitAt p (word ++ rest) = word :: pieces := by
  cases rest with
  | nil => exact ⟨[], by rw [List.append_nil, splitAt_of_forall hword]⟩
  | cons c rest => exact ⟨_, splitAt_append_cons hword (hrest c rfl) rest⟩

theorem not_of_mem_splitAt {piece : List Char} (h : piece ∈ splitAt p text) :
    ∀ x ∈ piece, p x = false := by
  induction text generalizing piece with
  | nil =>
    obtain rfl := List.mem_singleton.1 h
    exact List.forall_mem_nil _
  | cons x text ih =>
    obtain ⟨first, others, hothers⟩ := List.exists_cons_of_ne_nil (splitAt_ne_nil p text)
    rw [splitAt] at h
    split at h
    · rcases List.mem_cons.1 h with rfl | h
      · exact List.forall_mem_nil _
      · exact ih h
    · rename_i hx
      rw [hothers] at h ih
      rcases List.mem_cons.1 h with rfl | h
      · exact List.forall_mem_cons.2 ⟨Bool.eq_false_iff.2 hx, ih List.mem_cons_self⟩
      · exact ih (List.mem_cons_of_mem _ h)

theorem cutFirst?_append (hword : ∀ x ∈ word, p x = false) (hc : p c = true) (rest : List Char) :
    cutFirst? p (word ++ c :: rest) = some (word, rest) := by
  induction word with
  | nil => rw [List.nil_append, cutFirst?, if_pos hc]
  | cons x word ih =>
    obtain ⟨hx, hword⟩ := List.forall_mem_cons.1 hword
    rw [List.cons_append, cutFirst?, hx, if_neg Bool.false_ne_true, ih hword]
    rfl

theorem eq_append_of_cutFirst? {before : List Char} (h : cutFirst? p text = some (before, rest)) :
    ∃ c, (p c = true ∧ ∀ x ∈ before, p x = false) ∧ text = before ++ c :: rest := by
  induction text generalizing before with
  | nil => cases h
  | cons x text ih =>
    rw [cutFirst?] at h
    split at h
    · cases h
      exact ⟨x, ⟨‹_›, by simp⟩, rfl⟩
    · rename_i hx
      obtain ⟨⟨before, rest⟩, hcut, heq⟩ := Option.map_eq_some_iff.1 h
      cases heq
      obtain ⟨c, ⟨hc, hbefore⟩, rfl⟩ := ih hcut
      exact ⟨c, ⟨hc, List.forall_mem_cons.2 ⟨Bool.eq_false_iff.2 hx, hbefore⟩⟩, rfl⟩

theorem cutLast?_append (hc : p c = true) (hrest : ∀ x ∈ rest, p x = false) (word : List Char) :
    cutLast? p (word ++ c :: rest) = some (word, rest) := by
  have hreverse : (word ++ c :: rest).reverse = rest.reverse ++ c :: word.reverse := by simp
  have hrest : ∀ x ∈ rest.reverse, p x = false := fun x hx => hrest x (List.mem_reverse.1 hx)
  rw [cutLast?, hreverse, cutFirst?_append hrest hc, Option.map_some]
  simp only [List.reverse_reverse]

theorem eq_append_of_cutLast? (h : cutLast? p text = some (word, rest)) :
    ∃ c, p c = true ∧ text = word ++ c :: rest := by
  obtain ⟨⟨after, before⟩, hcut, heq⟩ := Option.map_eq_some_iff.1 h
  cases heq
  obtain ⟨c, ⟨hc, -⟩, hreverse⟩ := eq_append_of_cutFirst? hcut
  refine ⟨c, hc, ?_⟩
  rw [← text.reverse_reverse, hreverse]
  simp

theorem after?_append (start text : List Char) : after? start (start ++ text) = some text := by
  induction start with
  | nil => rfl
  | cons c start ih => rw [List.cons_append, after?, if_pos rfl, ih]

theorem eq_append_of_after? {start : List Char} (h : after? start text = some rest) :
    text = start ++ rest := by
  induction start generalizing text with
  | nil => exact Option.some.inj h
  | cons c start ih =>
    cases text with
    | nil => cases h
    | cons x text =>
      rw [after?] at h
      split at h
      · subst c
        rw [ih h, List.cons_append]
      · cases h

theorem after?_of_head {label : List Char} (hlabel : label.head? = some ' ')
    (hline : line.head?.any isBlank = false) : after? label line = none := by
  obtain ⟨label, rfl⟩ := List.head?_eq_some_iff.1 hlabel
  cases line with
  | nil => rfl
  | cons c line =>
    refine if_neg ?_
    rintro rfl
    cases hline

theorem not_infix_of_beforeLast? (hword : word ≠ []) (h : beforeLast? word text = none) :
    ¬word <:+: text := by
  induction text with
  | nil => rwa [List.infix_nil]
  | cons c text ih =>
    rw [beforeLast?] at h
    split at h
    · cases h
    · rename_i hrest
      split at h
      · cases h
      · rename_i hprefix
        rw [List.infix_cons_iff, not_or]
        exact ⟨mt List.isPrefixOf_iff_prefix.2 hprefix, ih hrest⟩

theorem eq_append_of_beforeLast? (hword : word ≠ []) {before : List Char}
    (h : beforeLast? word text = some before) :
    ∃ after, text = before ++ (word ++ after) ∧ ¬word <:+: (word ++ after).tail := by
  induction text generalizing before with
  | nil => cases h
  | cons c text ih =>
    rw [beforeLast?] at h
    split at h
    · rename_i before hbefore
      cases h
      obtain ⟨after, rfl, hafter⟩ := ih hbefore
      exact ⟨after, rfl, hafter⟩
    · rename_i hrest
      split at h
      · rename_i hprefix
        cases h
        obtain ⟨after, hafter⟩ := List.isPrefixOf_iff_prefix.1 hprefix
        refine ⟨after, hafter.symm, ?_⟩
        rw [hafter]
        exact not_infix_of_beforeLast? hword hrest
      · cases h

theorem isBlank_of_trimLeft_eq_cons (h : trimLeft text = c :: rest) : isBlank c = false := by
  have hhead := List.head?_dropWhile_not isBlank text
  rw [trimLeft] at h
  rwa [h] at hhead

theorem trimLeft_eq_self (htext : ∀ x ∈ text, isBlank x = false) : trimLeft text = text := by
  cases text with
  | nil => rfl
  | cons c text =>
    exact List.dropWhile_cons_of_neg (Bool.eq_false_iff.1 (List.forall_mem_cons.1 htext).1)

theorem trim_eq_self (htext : ∀ x ∈ text, isBlank x = false) : trim text = text := by
  have hreverse : trimLeft text.reverse = text.reverse :=
    trimLeft_eq_self fun x hx => htext x (List.mem_reverse.1 hx)
  rw [trim, trimLeft_eq_self htext]
  exact (congrArg List.reverse hreverse).trans text.reverse_reverse

end Pieces

section Lines

inductive LineEnd where
  | newline
  | returnNewline
deriving DecidableEq

def LineEnd.chars : LineEnd → List Char
  | newline => ['\n']
  | returnNewline => ['\r', '\n']

/-- Lines, each with its end. -/
def LineEnd.terminate (e : LineEnd) (written : List (List Char)) : List Char :=
  written.flatMap (· ++ e.chars)

/-- Text that stands on one line and does not end in what a line end can begin with. -/
structure IsLine (line : List Char) : Prop where
  newline_notMem : '\n' ∉ line
  rdropWhile_eq : line.rdropWhile (· == '\r') = line

theorem isLine_append (h : '\n' ∉ word) (hline : IsLine line) (hne : line ≠ []) :
    IsLine (word ++ line) where
  newline_notMem hmem := (List.mem_append.1 hmem).elim h hline.newline_notMem
  rdropWhile_eq := by
    have hlast := List.rdropWhile_eq_self_iff.1 hline.rdropWhile_eq hne
    refine List.rdropWhile_eq_self_iff.2 fun _ => ?_
    rwa [List.getLast_append_of_right_ne_nil _ _ hne]

theorem isLine_of_forall (h : ∀ x ∈ line, isBlank x = false) : IsLine line where
  newline_notMem hmem := absurd (h _ hmem) (by decide)
  rdropWhile_eq := by
    refine List.rdropWhile_eq_self_iff.2 fun hne hlast => ?_
    have hreturn : line.getLast hne = '\r' := beq_iff_eq.1 hlast
    have hblank := h _ (List.getLast_mem hne)
    rw [hreturn] at hblank
    exact absurd hblank (by decide)

theorem IsLine.append (hword : IsLine word) (hline : IsLine line) : IsLine (word ++ line) := by
  rcases eq_or_ne line [] with rfl | hne
  · rwa [List.append_nil]
  · exact isLine_append hword.newline_notMem hline hne

theorem IsLine.nil : IsLine [] where
  newline_notMem := List.not_mem_nil
  rdropWhile_eq := rfl

theorem IsLine.flatMap {ι : Type} {items : List ι} {print : ι → List Char}
    (h : ∀ item ∈ items, IsLine (print item)) : IsLine (items.flatMap print) := by
  induction items with
  | nil => exact .nil
  | cons item items ih =>
    obtain ⟨hitem, h⟩ := List.forall_mem_cons.1 h
    exact hitem.append (ih h)

theorem isLine_of_trim_eq (h : trim line = line) (hline : '\n' ∉ line) : IsLine line where
  newline_notMem := hline
  rdropWhile_eq := by
    refine List.rdropWhile_eq_self_iff.2 fun hne hlast => ?_
    have hblank : line.rdropWhile isBlank = line := by
      rw [← h]
      exact List.rdropWhile_idempotent isBlank (trimLeft line)
    have hnot := List.rdropWhile_eq_self_iff.1 hblank hne
    rw [beq_iff_eq.1 hlast] at hnot
    exact hnot rfl

theorem isLine_of_mem_lines (h : line ∈ lines text) : IsLine line := by
  rw [lines] at h
  obtain ⟨piece, hpiece, rfl⟩ := List.mem_map.1 h
  have hmem : piece ∈ splitAt (· == '\n') text := by
    split at hpiece
    · exact (List.dropLast_subset _) hpiece
    · exact hpiece
  constructor
  · intro hnewline
    have hnewline := List.dropWhile_subset _ (List.mem_reverse.1 hnewline)
    have hnot := not_of_mem_splitAt hmem '\n' (List.mem_reverse.1 hnewline)
    exact absurd hnot (by decide)
  · exact List.rdropWhile_idempotent _ piece

theorem lines_append_newline (hline : '\n' ∉ line) (rest : List Char) :
    lines (line ++ '\n' :: rest) = line.rdropWhile (· == '\r') :: lines rest := by
  have hpieces : splitAt (· == '\n') (line ++ '\n' :: rest) =
      line :: splitAt (· == '\n') rest :=
    splitAt_append_cons (fun x hx => beq_false_of_ne (ne_of_mem_of_not_mem hx hline)) rfl rest
  have hne := splitAt_ne_nil (· == '\n') rest
  rw [lines, lines, hpieces]
  simp only [List.getLast?_cons_of_ne_nil hne, List.dropLast_cons_of_ne_nil hne]
  split <;> rfl

theorem lines_append_end (e : LineEnd) (hline : '\n' ∉ line) (rest : List Char) :
    lines (line ++ e.chars ++ rest) = line.rdropWhile (· == '\r') :: lines rest := by
  cases e with
  | newline => rw [List.append_assoc]; exact lines_append_newline hline rest
  | returnNewline =>
    have hreturn : '\n' ∉ line ++ ['\r'] := by simp [hline]
    have h := lines_append_newline hreturn rest
    rw [List.rdropWhile_concat_pos _ _ _ (by decide)] at h
    simpa [LineEnd.chars] using h

/-- Lines are read back without what ends them. -/
theorem lines_terminate_append (e : LineEnd) {written : List (List Char)}
    (h : ∀ line ∈ written, '\n' ∉ line) (rest : List Char) :
    lines (e.terminate written ++ rest) =
      written.map (·.rdropWhile (· == '\r')) ++ lines rest := by
  induction written with
  | nil => rfl
  | cons line written ih =>
    obtain ⟨hline, h⟩ := List.forall_mem_cons.1 h
    rw [LineEnd.terminate, List.flatMap_cons, List.append_assoc, lines_append_end e hline,
      List.map_cons, List.cons_append]
    exact congrArg _ (ih h)

theorem lines_terminate_append_of_isLine (e : LineEnd) {written : List (List Char)}
    (h : ∀ line ∈ written, IsLine line) (rest : List Char) :
    lines (e.terminate written ++ rest) = written ++ lines rest := by
  have hmap : written.map (·.rdropWhile (· == '\r')) = written.map id :=
    List.map_congr_left fun line hline => (h line hline).rdropWhile_eq
  rw [lines_terminate_append e fun line hline => (h line hline).newline_notMem, hmap, List.map_id]

/-- Lines that are written one below the other are the lines of the text. -/
theorem lines_terminate (e : LineEnd) {written : List (List Char)}
    (h : ∀ line ∈ written, IsLine line) : lines (e.terminate written) = written := by
  have happend := lines_terminate_append_of_isLine e h []
  rwa [List.append_nil, show lines [] = [] from rfl, List.append_nil] at happend

theorem exists_lines_append (hline : IsLine line) (hne : line ≠ []) (rest : List Char) :
    ∃ first others, lines (line ++ rest) = (line ++ first) :: others := by
  have hdrop (rest : List Char) :
      ∃ first, (line ++ rest).rdropWhile (· == '\r') = line ++ first := by
    have hself : (line.reverse.dropWhile (· == '\r')).reverse = line := hline.rdropWhile_eq
    rw [List.rdropWhile, List.reverse_append, List.dropWhile_append]
    split
    · exact ⟨[], by rw [hself, List.append_nil]⟩
    · exact ⟨_, by rw [List.reverse_append, List.reverse_reverse]⟩
  obtain ⟨piece, pieces, hrest⟩ := List.exists_cons_of_ne_nil (splitAt_ne_nil (· == '\n') rest)
  have hword : ∀ x ∈ line, (x == '\n') = false := fun x hx =>
    beq_false_of_ne (ne_of_mem_of_not_mem hx hline.newline_notMem)
  obtain ⟨first, hfirst⟩ := hdrop piece
  rw [lines, splitAt_append hword hrest]
  cases pieces with
  | nil => exact ⟨first, [], by simpa [hne, List.rdropWhile] using hfirst⟩
  | cons second pieces =>
    split
    · exact ⟨first, _, congrArg (· :: _) hfirst⟩
    · exact ⟨first, _, congrArg (· :: _) hfirst⟩

end Lines

section Numbers

theorem isBlank_of_isDigit (h : c.isDigit = true) : isBlank c = false := by
  have hbounds : 48 ≤ c.toNat ∧ c.toNat ≤ 57 := by
    simpa [Char.isDigit, UInt32.le_iff_toNat_le] using h
  simp [isBlank, Char.le_def, UInt32.le_iff_toNat_le, ← Char.toNat_inj]
  omega

theorem ne_of_mem_toDigits {d : Char} (h : c ∈ Nat.toDigits 10 n) (hd : d.isDigit = false) :
    c ≠ d := by
  rintro rfl
  rw [Nat.isDigit_of_mem_toDigits (by decide) (by decide) h] at hd
  cases hd

theorem digitsToWord?_of_all (hne : text ≠ []) (hall : text.all Char.isDigit = true) :
    digitsToWord? text =
      if Nat.ofDigitChars 10 text 0 < wordBound then some (Nat.ofDigitChars 10 text 0)
      else none := by
  rw [digitsToWord?, ofDigits?, if_pos ⟨hne, hall⟩, ← Nat.ofDigitChars_eq_foldl]
  simp only [Option.filter_some, decide_eq_true_eq]

theorem digitsToWord?_toDigits (h : n < wordBound) :
    digitsToWord? (Nat.toDigits 10 n) = some n := by
  have hall : (Nat.toDigits 10 n).all Char.isDigit = true :=
    List.all_eq_true.2 fun c hc => Nat.isDigit_of_mem_toDigits (by decide) (by decide) hc
  rw [digitsToWord?_of_all Nat.toDigits_ne_nil hall, Nat.ofDigitChars_ten_toDigits, if_pos h]

theorem word?_toDigits (h : n < wordBound) : word? (Nat.toDigits 10 n) = some n := by
  unfold word?
  split
  · rename_i digits hdigits
    have hmem : '+' ∈ Nat.toDigits 10 n := hdigits ▸ List.mem_cons_self
    exact absurd (Nat.isDigit_of_mem_toDigits (by decide) (by decide) hmem) (by decide)
  · exact digitsToWord?_toDigits h

theorem isBlank_of_mem_toDigits (h : c ∈ Nat.toDigits 10 n) : isBlank c = false :=
  isBlank_of_isDigit (Nat.isDigit_of_mem_toDigits (by decide) (by decide) h)

end Numbers

end StackSurvey.Text
