import StackSurvey.Proofs.CallGraph.Declaration

namespace StackSurvey.CallGraph

open Text

/-- Text whose parentheses come in pairs. -/
inductive Balanced : List Char → Prop
  | nil : Balanced []
  | char {c : Char} {text : List Char} (hopen : c ≠ '(') (hclose : c ≠ ')') (h : Balanced text) :
      Balanced (c :: text)
  | group {inner text : List Char} (hinner : Balanced inner) (h : Balanced text) :
      Balanced ('(' :: (inner ++ ')' :: text))

structure WrittenSymbol where
  name : List Char
  number : Nat
  name_ne_nil : name ≠ []
  name_word : ∀ c ∈ name, isBlank c = false
  number_lt : number < wordBound

def WrittenSymbol.text (s : WrittenSymbol) : List Char := s.name ++ '/' :: Nat.toDigits 10 s.number

/-- A note on a call, without the parentheses around it. -/
structure WrittenNote where
  inner : List Char
  balanced : Balanced inner
  newline_notMem : '\n' ∉ inner

namespace WrittenNote

def text (n : WrittenNote) : List Char := '(' :: (n.inner ++ [')'])

def isInlined (n : WrittenNote) : Bool := n.inner = "inlined".toList

end WrittenNote

structure WrittenCall where
  symbol : WrittenSymbol
  notes : List WrittenNote
  /-- What begins like a note is not taken for a symbol. -/
  not_open : symbol.name.head? ≠ some '('

namespace WrittenCall

/-- The call and its notes, each with a blank behind it. -/
def text (c : WrittenCall) : List Char :=
  c.symbol.text ++ ' ' :: c.notes.flatMap fun n => n.text ++ [' ']

def call (c : WrittenCall) : Call :=
  { name := .ofList c.symbol.name, symbolNumber := c.symbol.number
    inlined := c.notes.any (·.isInlined) }

end WrittenCall

/-- A line of a table that says nothing of functions, types or calls. -/
structure IsRemark (line : List Char) : Prop extends IsLine line where
  head_blank : ∀ c ∈ line.head?, isBlank c = true
  not_calls : after? Dump.callsLabel line = none
  not_type : after? Dump.typeLabel line = none

/-- A function as a dump prints it, and what it prints about it besides. -/
structure WrittenNode where
  symbol : WrittenSymbol
  name : List Char
  address : List Char
  nodeType : List Char
  remarks : List (List Char)
  calls : List WrittenCall
  name_ne_nil : name ≠ []
  newline_notMem_name : '\n' ∉ name
  address_ne_nil : address ≠ []
  address_word : ∀ c ∈ address, isBlank c = false
  trim_nodeType : trim nodeType = nodeType
  newline_notMem_nodeType : '\n' ∉ nodeType
  isRemark : ∀ line ∈ remarks, IsRemark line

namespace WrittenNode

def declaration (w : WrittenNode) : List Char :=
  w.symbol.text ++ ' ' :: '(' :: (w.name ++ ')' :: ' ' :: w.address)

def lines (w : WrittenNode) : List (List Char) :=
  w.declaration :: (Dump.typeLabel ++ w.nodeType) ::
    (w.remarks ++ [Dump.callsLabel ++ w.calls.flatMap (·.text)])

def node (w : WrittenNode) : CallNode :=
  { mangledName := .ofList w.symbol.name, symbolNumber := w.symbol.number, name := .ofList w.name
    address := .ofList w.address, nodeType := .ofList w.nodeType, calls := w.calls.map (·.call) }

end WrittenNode

namespace WrittenSymbol

variable {s : WrittenSymbol}

theorem text_word (s : WrittenSymbol) : ∀ c ∈ s.text, isBlank c = false := by
  refine List.forall_mem_append.2 ⟨s.name_word, List.forall_mem_cons.2 ⟨by decide, ?_⟩⟩
  intro c hc
  exact isBlank_of_mem_toDigits hc

theorem splitSymbol?_text (s : WrittenSymbol) :
    Dump.splitSymbol? s.text = some (s.name, Nat.toDigits 10 s.number) := by
  have hall : (Nat.toDigits 10 s.number).all Char.isDigit = true :=
    List.all_eq_true.2 fun c hc => Nat.isDigit_of_mem_toDigits (by decide) (by decide) hc
  exact splitSymbol?_append s.name_ne_nil Nat.toDigits_ne_nil hall

theorem call?_text (s : WrittenSymbol) :
    Dump.call? s.text = some { name := .ofList s.name, symbolNumber := s.number } := by
  refine Option.bind_eq_some_iff.2 ⟨_, s.splitSymbol?_text, ?_⟩
  exact Option.bind_eq_some_iff.2 ⟨_, digitsToWord?_toDigits s.number_lt, rfl⟩

end WrittenSymbol

section Calls

variable {before : List Call} {text rest : List Char}

theorem cutNote_cons {c : Char} {depth next : Nat} (hc : ¬(c = ')' ∧ depth ≤ 1))
    (hnext : (if c = '(' then depth + 1 else if c = ')' then depth - 1 else depth) = next) :
    Dump.cutNote depth (c :: rest) =
      (c :: (Dump.cutNote next rest).1, (Dump.cutNote next rest).2) := by
  rw [Dump.cutNote, if_neg hc]
  simp only [hnext]

theorem Balanced.cutNote_append {inner : List Char} (h : Balanced inner) {depth : Nat}
    (hdepth : 0 < depth) (rest : List Char) :
    Dump.cutNote depth (inner ++ rest) =
      (inner ++ (Dump.cutNote depth rest).1, (Dump.cutNote depth rest).2) := by
  -- The depth is the same behind balanced text as before it, and never so low that a note ends.
  induction h generalizing depth rest with
  | nil => rfl
  | char hopen hclose _ ih =>
    rw [List.cons_append, cutNote_cons (fun h => hclose h.1) (if_neg hopen), if_neg hclose,
      ih hdepth, List.cons_append]
  | @group inner text _ _ ihinner ih =>
    have hopen : ¬('(' = ')' ∧ depth ≤ 1) := fun h => absurd h.1 (by decide)
    have hclose : ¬(')' = ')' ∧ depth + 1 ≤ 1) := by omega
    have hafter : (if ')' = '(' then depth + 1 + 1 else if ')' = ')' then depth + 1 - 1
        else depth + 1) = depth := rfl
    rw [List.cons_append, List.append_assoc, cutNote_cons hopen (if_pos rfl),
      ihinner (Nat.succ_pos depth), List.cons_append, cutNote_cons hclose hafter, ih hdepth]
    simp

theorem WrittenNote.cutNote_text (n : WrittenNote) (rest : List Char) :
    Dump.cutNote 0 (n.text ++ rest) = (n.text, rest) := by
  have hopen : ¬('(' = ')' ∧ 0 ≤ 1) := by decide
  rw [text, List.cons_append, List.append_assoc, cutNote_cons hopen (if_pos rfl), Nat.zero_add,
    n.balanced.cutNote_append Nat.one_pos, List.singleton_append, Dump.cutNote,
    if_pos ⟨rfl, le_rfl⟩]

theorem callsFrom_nil (h : trimLeft text = []) : Dump.callsFrom before text = before := by
  rw [Dump.callsFrom]
  split
  · rfl
  · rename_i hcons
    rw [h] at hcons
    cases hcons

theorem callsFrom_note (h : trimLeft text = '(' :: rest) :
    Dump.callsFrom before text =
      Dump.callsFrom (if (Dump.cutNote 0 ('(' :: rest)).1 = "(inlined)".toList then
        Dump.markInlined before else before) (Dump.cutNote 0 ('(' :: rest)).2 := by
  rw [Dump.callsFrom]
  split
  · rename_i hnil
    rw [h] at hnil
    cases hnil
  · rename_i hcons
    rw [h] at hcons
    cases hcons
    exact if_pos rfl

theorem callsFrom_token {c : Char} (h : trimLeft text = c :: rest) (hc : c ≠ '(') :
    Dump.callsFrom before text =
      Dump.callsFrom (match Dump.call? (c :: rest.takeWhile fun c => !isBlank c) with
        | some call => call :: before
        | none => before) (rest.dropWhile fun c => !isBlank c) := by
  rw [Dump.callsFrom]
  split
  · rename_i hnil
    rw [h] at hnil
    cases hnil
  · rename_i hcons
    rw [h] at hcons
    cases hcons
    exact if_neg hc

theorem callsFrom_blank {c : Char} (hc : isBlank c = true) :
    Dump.callsFrom before (c :: text) = Dump.callsFrom before text := by
  have hskip : trimLeft (c :: text) = trimLeft text := List.dropWhile_cons_of_pos hc
  cases htext : trimLeft text with
  | nil => rw [callsFrom_nil htext, callsFrom_nil (hskip.trans htext)]
  | cons c rest =>
    by_cases hopen : c = '('
    · subst c
      rw [callsFrom_note htext, callsFrom_note (hskip.trans htext)]
    · rw [callsFrom_token htext hopen, callsFrom_token (hskip.trans htext) hopen]

theorem WrittenNote.text_eq_iff (n : WrittenNote) :
    n.text = "(inlined)".toList ↔ n.inner = "inlined".toList := by
  have hsplit : "(inlined)".toList = '(' :: ("inlined".toList ++ [')']) := rfl
  rw [text, hsplit, List.cons_inj_right, List.append_left_inj]

theorem callsFrom_writtenNote (n : WrittenNote) (call : Call) :
    Dump.callsFrom (call :: before) (n.text ++ ' ' :: rest) =
      Dump.callsFrom ({ call with inlined := call.inlined || n.isInlined } :: before) rest := by
  have htrim : trimLeft (n.text ++ ' ' :: rest) = '(' :: (n.inner ++ [')'] ++ ' ' :: rest) :=
    List.dropWhile_cons_of_neg (by decide)
  have hcut : Dump.cutNote 0 ('(' :: (n.inner ++ [')'] ++ ' ' :: rest)) = (n.text, ' ' :: rest) :=
    n.cutNote_text _
  rw [callsFrom_note htrim, hcut, callsFrom_blank rfl]
  by_cases hinlined : n.inner = "inlined".toList
  · rw [if_pos (n.text_eq_iff.2 hinlined), Dump.markInlined, WrittenNote.isInlined,
      decide_eq_true hinlined, Bool.or_true]
  · rw [if_neg (mt n.text_eq_iff.1 hinlined), WrittenNote.isInlined, decide_eq_false hinlined,
      Bool.or_false]

theorem callsFrom_notes (notes : List WrittenNote) (call : Call) :
    Dump.callsFrom (call :: before) ((notes.flatMap fun n => n.text ++ [' ']) ++ rest) =
      Dump.callsFrom
        ({ call with inlined := call.inlined || notes.any (·.isInlined) } :: before) rest := by
  induction notes generalizing call with
  | nil => simp
  | cons n notes ih =>
    have hsplit : ((n :: notes).flatMap fun n => n.text ++ [' ']) ++ rest =
        n.text ++ ' ' :: ((notes.flatMap fun n => n.text ++ [' ']) ++ rest) := by simp
    rw [hsplit, callsFrom_writtenNote, ih, List.any_cons, Bool.or_assoc]

theorem callsFrom_symbol (s : WrittenSymbol) (hopen : s.name.head? ≠ some '(') :
    Dump.callsFrom before (s.text ++ ' ' :: rest) =
      Dump.callsFrom ({ name := .ofList s.name, symbolNumber := s.number } :: before) rest := by
  obtain ⟨c, name, hname⟩ := List.exists_cons_of_ne_nil s.name_ne_nil
  have htext : s.text = c :: (name ++ '/' :: Nat.toDigits 10 s.number) := by
    rw [WrittenSymbol.text, hname, List.cons_append]
  have hcall := s.call?_text
  have hblank := s.text_word
  rw [htext] at hcall hblank ⊢
  generalize name ++ '/' :: Nat.toDigits 10 s.number = word at hcall hblank
  obtain ⟨hc, hword⟩ := List.forall_mem_cons.1 hblank
  have hc_ne : c ≠ '(' := by
    rintro rfl
    exact hopen (by rw [hname, List.head?_cons])
  have hnot : ∀ x ∈ word, (!isBlank x) = true := fun x hx => by rw [hword x hx]; rfl
  have htrim : trimLeft (c :: word ++ ' ' :: rest) = c :: (word ++ ' ' :: rest) :=
    List.dropWhile_cons_of_neg (Bool.eq_false_iff.1 hc)
  have htake : (word ++ ' ' :: rest).takeWhile (fun c => !isBlank c) = word := by
    rw [List.takeWhile_append_of_pos hnot, List.takeWhile_cons_of_neg (by decide), List.append_nil]
  have hdrop : (word ++ ' ' :: rest).dropWhile (fun c => !isBlank c) = ' ' :: rest := by
    rw [List.dropWhile_append_of_pos hnot, List.dropWhile_cons_of_neg (by decide)]
  rw [callsFrom_token htrim hc_ne, htake, hdrop, hcall, callsFrom_blank rfl]

theorem callsFrom_writtenCall (c : WrittenCall) :
    Dump.callsFrom before (c.text ++ rest) = Dump.callsFrom (c.call :: before) rest := by
  rw [WrittenCall.text, List.append_assoc, List.cons_append, callsFrom_symbol _ c.not_open,
    callsFrom_notes, Bool.false_or, WrittenCall.call]

theorem calls_written (written : List WrittenCall) :
    Dump.calls (written.flatMap (·.text)) = written.map (·.call) := by
  -- The calls that have been read are kept in reverse.
  have hfrom (before : List Call) : Dump.callsFrom before (written.flatMap (·.text)) =
      (written.map (·.call)).reverse ++ before := by
    induction written generalizing before with
    | nil => exact callsFrom_nil rfl
    | cons c written ih =>
      rw [List.flatMap_cons, callsFrom_writtenCall, ih]
      simp
  rw [Dump.calls, hfrom, List.append_nil, List.reverse_reverse]

end Calls

section Lines

variable {g : CallGraph} {line : List Char} {rest : List (List Char)} {w : WrittenNode}

namespace WrittenNode

def toDeclaration (w : WrittenNode) : Declaration where
  symbol := w.symbol.name
  digits := Nat.toDigits 10 w.symbol.number
  name := w.name
  blanks := []
  address := w.address
  rest := []
  symbol_ne_nil := w.symbol.name_ne_nil
  blank_notMem_symbol hmem := absurd (w.symbol.name_word _ hmem) (by decide)
  isBlank_head c hc := w.symbol.name_word c (List.mem_of_mem_head? hc)
  digits_ne_nil := Nat.toDigits_ne_nil
  isDigit_digits _ hc := Nat.isDigit_of_mem_toDigits (by decide) (by decide) hc
  name_ne_nil := w.name_ne_nil
  isBlank_blanks := by simp
  address_ne_nil := w.address_ne_nil
  address_word := w.address_word
  isBlank_rest := by simp
  not_close_later hwithin := by
    have hmem : ' ' ∈ [] ++ (w.address ++ []) := hwithin.subset (by simp)
    rw [List.nil_append, List.append_nil] at hmem
    exact absurd (w.address_word _ hmem) (by decide)

theorem line_toDeclaration (w : WrittenNode) : w.toDeclaration.line = w.declaration := by
  simp [toDeclaration, Declaration.line, declaration, WrittenSymbol.text]

end WrittenNode

theorem changeLast_addNode (g : CallGraph) (node : CallNode) (change : CallNode → CallNode)
    (h : (change node).symbolNumber = node.symbolNumber) :
    Dump.changeLast (g.addNode node) change = g.addNode (change node) := by
  -- The function that a line changes is the one added last.
  have hpush : (g.nodes.push node).modify ((g.nodes.push node).size - 1) change =
      g.nodes.push (change node) := by
    ext i
    · simp
    · simp only [Array.getElem_modify, Array.getElem_push, Array.size_push, Nat.add_sub_cancel]
      grind
  rw [Dump.changeLast, CallGraph.modify, CallGraph.addNode, hpush, CallGraph.addNode, h]

theorem addLines_declaration (w : WrittenNode) :
    Dump.addLines g (w.declaration :: rest) =
      Dump.addLines (g.addNode { w.node with nodeType := "", calls := [] }) rest := by
  have hnumber : w.toDeclaration.number = w.symbol.number := Nat.ofDigitChars_ten_toDigits
  rw [← w.line_toDeclaration, w.toDeclaration.addLines_line, Declaration.node, hnumber,
    if_pos w.symbol.number_lt]
  rfl

theorem addLines_type (g : CallGraph) (node : CallNode) (text : List Char) :
    Dump.addLines (g.addNode node) ((Dump.typeLabel ++ text) :: rest) =
      Dump.addLines (g.addNode { node with nodeType := .ofList (trim text) }) rest := by
  have hclosing : ¬Dump.closing.isPrefixOf (Dump.typeLabel ++ text) := Bool.false_ne_true
  have hcalls : after? Dump.callsLabel (Dump.typeLabel ++ text) = none := rfl
  have hchange := changeLast_addNode g node
    (fun node => { node with nodeType := .ofList (trim text) }) rfl
  rw [Dump.addLines, if_neg hclosing, hcalls, after?_append, ← hchange]

theorem addLines_calls (g : CallGraph) (node : CallNode) (text : List Char) :
    Dump.addLines (g.addNode node) ((Dump.callsLabel ++ text) :: rest) =
      Dump.addLines (g.addNode { node with calls := node.calls ++ Dump.calls text }) rest := by
  have hclosing : ¬Dump.closing.isPrefixOf (Dump.callsLabel ++ text) := Bool.false_ne_true
  have hchange := changeLast_addNode g node
    (fun node => { node with calls := node.calls ++ Dump.calls text }) rfl
  rw [Dump.addLines, if_neg hclosing, after?_append, ← hchange]

theorem addLines_remark (g : CallGraph) (h : IsRemark line) :
    Dump.addLines g (line :: rest) = Dump.addLines g rest := by
  rw [Dump.addLines]
  cases hhead : line.head? with
  | none =>
    obtain rfl := List.head?_eq_none_iff.1 hhead
    rfl
  | some c =>
    have hc := h.head_blank c hhead
    have hclosing : ¬Dump.closing.isPrefixOf line := by
      intro hprefix
      obtain ⟨line, rfl⟩ := List.head?_eq_some_iff.1 hhead
      obtain ⟨hfirst, -⟩ := Bool.and_eq_true_iff.1 hprefix
      rw [← beq_iff_eq.1 hfirst] at hc
      cases hc
    rw [if_neg hclosing, h.not_calls, h.not_type]
    exact if_pos hc

theorem addLines_remarks (g : CallGraph) {remarks : List (List Char)}
    (h : ∀ line ∈ remarks, IsRemark line) :
    Dump.addLines g (remarks ++ rest) = Dump.addLines g rest := by
  induction remarks with
  | nil => rfl
  | cons line remarks ih =>
    obtain ⟨hline, h⟩ := List.forall_mem_cons.1 h
    rw [List.cons_append, addLines_remark g hline, ih h]

theorem addLines_node (w : WrittenNode) :
    Dump.addLines g (w.lines ++ rest) = Dump.addLines (g.addNode w.node) rest := by
  rw [WrittenNode.lines, List.cons_append, List.cons_append, List.append_assoc,
    addLines_declaration, addLines_type, addLines_remarks _ w.isRemark, List.singleton_append,
    addLines_calls, calls_written, w.trim_nodeType]
  rfl

theorem addLines_nodes (written : List WrittenNode) :
    Dump.addLines g (written.flatMap (·.lines) ++ rest) =
      Dump.addLines ((written.map (·.node)).foldl addNode g) rest := by
  induction written generalizing g with
  | nil => rfl
  | cons w written ih => rw [List.flatMap_cons, List.append_assoc, addLines_node, ih]; rfl

end Lines

/-- A dump: what is printed first, the table with its functions, and what is printed after it. -/
structure WrittenDump where
  lineEnd : LineEnd
  before : List (List Char)
  leading : List (List Char)
  functions : List WrittenNode
  trailing : List (List Char)
  after : List Char
  newline_notMem : ∀ line ∈ before, '\n' ∉ line
  not_opening : ∀ line ∈ before, ¬Dump.opening <+: line
  isRemark : ∀ line ∈ leading ++ trailing, IsRemark line

namespace WrittenDump

def table (d : WrittenDump) : List (List Char) :=
  d.leading ++ (d.functions.flatMap (·.lines) ++ d.trailing)

def text (d : WrittenDump) : List Char :=
  d.lineEnd.terminate d.before ++
    (d.lineEnd.terminate (Dump.opening :: d.table) ++ (Dump.closing ++ d.after))

def nodes (d : WrittenDump) : List CallNode := d.functions.map (·.node)

end WrittenDump

theorem WrittenCall.isLine_text (c : WrittenCall) : IsLine c.text := by
  have hblank : IsLine [' '] := ⟨by decide, rfl⟩
  have hnote : ∀ n ∈ c.notes, IsLine (n.text ++ [' ']) := by
    intro n _
    refine isLine_append ?_ hblank (List.cons_ne_nil _ _)
    simp [WrittenNote.text, n.newline_notMem]
  have hnotes := hblank.append (.flatMap hnote)
  exact (isLine_of_forall c.symbol.text_word).append hnotes

theorem WrittenNode.isLine_lines (w : WrittenNode) : ∀ line ∈ w.lines, IsLine line := by
  have hdeclaration : IsLine w.declaration := by
    have hsymbol := (isLine_of_forall w.symbol.text_word).newline_notMem
    have hword : '\n' ∉ w.symbol.text ++ ' ' :: '(' :: (w.name ++ [')', ' ']) := by
      simp [hsymbol, w.newline_notMem_name]
    have haddress := isLine_append hword (isLine_of_forall w.address_word) w.address_ne_nil
    simpa [declaration] using haddress
  have htype : IsLine (Dump.typeLabel ++ w.nodeType) :=
    .append ⟨by decide, by decide⟩ (isLine_of_trim_eq w.trim_nodeType w.newline_notMem_nodeType)
  have hcalls : IsLine (Dump.callsLabel ++ w.calls.flatMap (·.text)) :=
    .append ⟨by decide, by decide⟩ (.flatMap fun c _ => c.isLine_text)
  rw [lines]
  simp only [List.forall_mem_cons, List.forall_mem_append]
  exact ⟨hdeclaration, htype, fun line hline => (w.isRemark line hline).toIsLine, hcalls, by simp⟩

theorem nodes_foldl_addNode (g : CallGraph) (nodes : List CallNode) :
    (nodes.foldl addNode g).nodes = g.nodes ++ nodes.toArray := by
  induction nodes generalizing g with
  | nil => simp
  | cons node nodes ih =>
    rw [List.foldl_cons, ih]
    simp [addNode]

namespace WrittenDump

theorem isLine_table (d : WrittenDump) : ∀ line ∈ Dump.opening :: d.table, IsLine line := by
  obtain ⟨hleading, htrailing⟩ := List.forall_mem_append.1 d.isRemark
  refine List.forall_mem_cons.2 ⟨⟨by decide, by decide⟩, ?_⟩
  refine List.forall_mem_append.2 ⟨fun line hline => (hleading line hline).toIsLine, ?_⟩
  refine List.forall_mem_append.2 ⟨?_, fun line hline => (htrailing line hline).toIsLine⟩
  intro line hline
  obtain ⟨w, -, hmem⟩ := List.mem_flatMap.1 hline
  exact w.isLine_lines line hmem

theorem not_opening_rdropWhile (d : WrittenDump) :
    ∀ line ∈ d.before.map (·.rdropWhile (· == '\r')),
      (!Dump.opening.isPrefixOf line) = true := by
  refine List.forall_mem_map.2 fun line hline => ?_
  rw [Bool.not_eq_true', Bool.eq_false_iff]
  intro hprefix
  have hstripped := List.isPrefixOf_iff_prefix.1 hprefix
  exact d.not_opening line hline (hstripped.trans (List.rdropWhile_prefix _ _))

/-- The functions of a dump are read back in order, and nothing else is. -/
theorem parse_text (d : WrittenDump) :
    (parse (.ofList d.text)).map (·.nodes.toList) = .ok d.nodes := by
  obtain ⟨hleading, htrailing⟩ := List.forall_mem_append.1 d.isRemark
  -- Text that follows the marker of the end may begin on its line, where it changes nothing.
  have hline : IsLine Dump.closing := ⟨by decide, by decide⟩
  obtain ⟨first, others, hclosing⟩ := exists_lines_append hline (by decide) d.after
  have hlines : lines d.text = d.before.map (·.rdropWhile (· == '\r')) ++
      Dump.opening :: (d.table ++ (Dump.closing ++ first) :: others) := by
    rw [text, lines_terminate_append _ d.newline_notMem,
      lines_terminate_append_of_isLine _ d.isLine_table, hclosing, List.cons_append]
  have hopening : Dump.opening.isPrefixOf Dump.opening = true := by decide
  have hend : Dump.closing.isPrefixOf (Dump.closing ++ first) = true :=
    List.isPrefixOf_iff_prefix.2 (List.prefix_append _ _)
  rw [parse, String.toList_ofList, hlines, List.dropWhile_append_of_pos d.not_opening_rdropWhile,
    List.dropWhile_cons_of_neg (by simp [hopening]), List.drop_one, List.tail_cons, table,
    List.append_assoc, addLines_remarks _ hleading, List.append_assoc, addLines_nodes,
    addLines_remarks _ htrailing, Dump.addLines, if_pos hend, Except.map, nodes_foldl_addNode,
    nodes]
  simp

end WrittenDump

theorem one_lt_wordBound : 1 < wordBound := by
  decide

/-- A function that calls nothing. -/
def leaf : WrittenNode where
  symbol :=
    { name := "f".toList, number := 1, name_ne_nil := by decide
      name_word := List.all_iff_forall_prop.1 (by decide), number_lt := one_lt_wordBound }
  name := "f".toList
  address := "@0x1".toList
  nodeType := []
  remarks := []
  calls := []
  name_ne_nil := by decide
  newline_notMem_name := by decide
  address_ne_nil := by decide
  address_word := List.all_iff_forall_prop.1 (by decide)
  trim_nodeType := rfl
  newline_notMem_nodeType := List.not_mem_nil
  isRemark := by simp

theorem balanced_of_forall {text : List Char} (h : ∀ c ∈ text, c ≠ '(' ∧ c ≠ ')') :
    Balanced text := by
  induction text with
  | nil => exact .nil
  | cons c text ih =>
    obtain ⟨hc, h⟩ := List.forall_mem_cons.1 h
    exact .char hc.1 hc.2 (ih h)

theorem balanced_perCall : Balanced "(1.00) per call".toList := by
  have hcount : Balanced "1.00".toList :=
    balanced_of_forall (List.all_iff_forall_prop.1 (by decide))
  have hrest : Balanced " per call".toList :=
    balanced_of_forall (List.all_iff_forall_prop.1 (by decide))
  exact .group hcount hrest

/-- A method that calls the leaf, inlined. -/
def caller : WrittenNode where
  symbol :=
    { name := "_ZNK1A1gEv".toList, number := 5, name_ne_nil := by decide
      name_word := List.all_iff_forall_prop.1 (by decide), number_lt := by decide }
  name := "A::g() const (.part) [a/b]".toList
  address := "@0x7f00".toList
  nodeType := "function definition".toList
  remarks := ["  Visibility: public".toList]
  calls :=
    [{ symbol := leaf.symbol
       notes :=
        [{ inner := "inlined".toList
           balanced := balanced_of_forall (List.all_iff_forall_prop.1 (by decide))
           newline_notMem := by decide },
         { inner := "(1.00) per call".toList
           balanced := balanced_perCall
           newline_notMem := by decide }]
       not_open := by decide }]
  name_ne_nil := by decide
  newline_notMem_name := by decide
  address_ne_nil := by decide
  address_word := List.all_iff_forall_prop.1 (by decide)
  trim_nodeType := by decide
  newline_notMem_nodeType := by decide
  isRemark := by
    simp only [List.forall_mem_singleton]
    exact ⟨⟨by decide, by decide⟩, by simp [isBlank], by decide, by decide⟩

def inlinedDump : WrittenDump where
  lineEnd := .returnNewline
  before := ["IPA function summary".toList]
  leading := [[]]
  functions := [caller, leaf]
  trailing := [[]]
  after := "\nignored/99 (ignored) @0x0\n".toList
  newline_notMem := by decide
  not_opening := by decide
  isRemark := by
    intro line hline
    obtain rfl : line = [] := by simpa using hline
    exact ⟨.nil, by simp, by decide, by decide⟩

theorem parse_inlinedDump :
    inlinedDump.text =
        "IPA function summary\r\nOptimized Symbol table:\r\n\r\n".toList ++
        "_ZNK1A1gEv/5 (A::g() const (.part) [a/b]) @0x7f00\r\n".toList ++
        "  Type: function definition\r\n  Visibility: public\r\n".toList ++
        "  Calls: f/1 (inlined) ((1.00) per call) \r\n".toList ++
        "f/1 (f) @0x1\r\n  Type: \r\n  Calls: \r\n\r\n".toList ++
        "Materializing clones\nignored/99 (ignored) @0x0\n".toList ∧
      (parse (.ofList inlinedDump.text)).map (·.nodes.toList) =
        .ok [{ caller.node with
            calls := [{ name := "f", symbolNumber := 1, inlined := true }] }, leaf.node] := by
  exact ⟨by decide +kernel, inlinedDump.parse_text⟩

theorem addLines_leaf (text : List Char) (rest : List (List Char)) :
    Dump.addLines {} ("f/1 (f) @0x1".toList :: (Dump.typeLabel ++ text) :: rest) =
      Dump.addLines (addNode {} { leaf.node with nodeType := .ofList (trim text) }) rest := by
  rw [show "f/1 (f) @0x1".toList = leaf.declaration by decide, addLines_declaration, addLines_type]
  rfl

def unnamedCall : String :=
  "Optimized Symbol table:\nf/1 (f) @0x1\n  Type: \n  Calls: /5 \nMaterializing clones\n"

def brokenType : String :=
  "Optimized Symbol table:\nf/1 (f) @0x1\n  Type: a\nb\n  Calls: \nMaterializing clones\n"

def brokenNote : String :=
  "Optimized Symbol table:\nf/1 (f) @0x1\n  Type: \n  Calls: g/2 (a\nb) \n" ++
    "g/2 (g) @0x2\n  Type: \n  Calls: \nMaterializing clones\n"

theorem calls_unnamed : Dump.calls "/5 ".toList = [] := by
  have htrim : trimLeft "/5 ".toList = '/' :: "5 ".toList := rfl
  rw [Dump.calls, callsFrom_token htrim (by decide)]
  exact congrArg List.reverse (callsFrom_nil rfl)

/-- A call without a name is dropped, a type ends with its line, and a line that a note begins ends
the table. -/
theorem parse_unreadable :
    (parse unnamedCall).map (·.nodes.toList.map (·.calls)) = .ok [[]] ∧
      (parse brokenType).map (·.nodes.toList.map (·.nodeType)) = .ok ["a"] ∧
      (parse brokenNote).map (·.nodes.toList.map (·.name)) = .ok ["f"] := by
  refine ⟨?_, ?_, ?_⟩
  · have hlines : lines unnamedCall.toList =
        [Dump.opening, "f/1 (f) @0x1".toList, Dump.typeLabel ++ [],
          Dump.callsLabel ++ "/5 ".toList, Dump.closing] := by decide
    rw [parse, hlines]
    change (Dump.addLines {} (_ :: _ :: _)).map _ = _
    rw [addLines_leaf, addLines_calls, calls_unnamed]
    rfl
  · have hlines : lines brokenType.toList =
        [Dump.opening, "f/1 (f) @0x1".toList, Dump.typeLabel ++ "a".toList, "b".toList,
          Dump.callsLabel ++ [], Dump.closing] := by decide
    rw [parse, hlines]
    change (Dump.addLines {} (_ :: _ :: _)).map _ = _
    rw [addLines_leaf]
    rfl
  · have hlines : lines brokenNote.toList =
        [Dump.opening, "f/1 (f) @0x1".toList, Dump.typeLabel ++ [],
          Dump.callsLabel ++ "g/2 (a".toList, "b) ".toList, "g/2 (g) @0x2".toList,
          Dump.typeLabel ++ [], Dump.callsLabel ++ [], Dump.closing] := by decide +kernel
    rw [parse, hlines]
    change (Dump.addLines {} (_ :: _ :: _)).map _ = _
    rw [addLines_leaf, addLines_calls]
    rfl

end StackSurvey.CallGraph
