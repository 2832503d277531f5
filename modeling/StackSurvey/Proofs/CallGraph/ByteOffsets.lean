import StackSurvey.Proofs.CallGraph.WrittenDump

namespace StackSurvey.CallGraph

open Text

/-- What can go wrong where text is read by the offsets of its bytes. -/
inductive Hazard where
  /-- A count is lowered at zero. -/
  | underflow
  /-- Text is cut inside a character or behind its end. -/
  | offBoundary
  /-- A round of a loop takes nothing. -/
  | endless
deriving DecidableEq

namespace Offset

/-- The text before and after an offset. -/
def cutAt : Nat → List Char → Except Hazard (List Char × List Char)
  | 0, text => .ok ([], text)
  | _ + 1, [] => .error .offBoundary
  | offset + 1, c :: text =>
    if offset + 1 < c.utf8Size then .error .offBoundary
    else do
      let (before, after) ← cutAt (offset + 1 - c.utf8Size) text
      return (c :: before, after)

/-- The offset of the first character that satisfies `p`. -/
def find? (p : Char → Bool) : List Char → Option Nat
  | [] => none
  | c :: text => if p c then some 0 else (find? p text).map (c.utf8Size + ·)

/-- The offset behind the parenthesis that closes `depth` open ones, or that of the end; the text
begins at `offset`. -/
def noteEnd (depth offset : Nat) : List Char → Except Hazard Nat
  | [] => .ok offset
  | c :: text =>
    if c = '(' then noteEnd (depth + 1) (offset + c.utf8Size) text
    else if c = ')' then
      if depth = 0 then .error .underflow
      else if depth - 1 = 0 then .ok (offset + 1)
      else noteEnd (depth - 1) (offset + c.utf8Size) text
    else noteEnd depth (offset + c.utf8Size) text

/-- One round of the loop over calls: a note or a token, and the blanks behind it. -/
def callRound (before : List Call) (rest : List Char) :
    Except Hazard (List Call × List Char) :=
  if rest.head? = some '(' then do
    let stop ← noteEnd 0 0 rest
    let (note, rest) ← cutAt stop rest
    return (if note = "(inlined)".toList then Dump.markInlined before else before, trimLeft rest)
  else do
    let (token, rest) ← cutAt ((find? isBlank rest).getD (Dump.byteSize rest)) rest
    let calls := match Dump.call? token with
      | some call => call :: before
      | none => before
    return (calls, trimLeft rest)

def callRounds (before : List Call) (rest : List Char) : Except Hazard (List Call) :=
  if rest = [] then .ok before
  else match callRound before rest with
    | .error hazard => .error hazard
    | .ok (calls, left) =>
      if left.length < rest.length then callRounds calls left else .error .endless
termination_by rest.length

def calls (text : List Char) : Except Hazard (List Call) :=
  List.reverse <$> callRounds [] (trimLeft text)

/-- What a line of a function says before the name, the text that begins with the name, and the
offset in it of the last `") "`. -/
def fields? (line : List Char) : Option (List Char × List Char × List Char × Nat) := do
  let (symbol, rest) ← cutFirst? (· == ' ') line
  let (mangledName, digits) ← Dump.splitSymbol? symbol
  let rest ← after? ['('] rest
  let before ← beforeLast? [')', ' '] rest
  return (mangledName, digits, rest, Dump.byteSize before)

def nodeLine? (line : List Char) : Except Hazard (Option Dump.NodeLine) :=
  match fields? line with
  | none => .ok none
  | some (mangledName, digits, rest, close) => do
    let (name, _) ← cutAt close rest
    let (_, after) ← cutAt (close + 2) rest
    let address := (trimLeft after).takeWhile fun c => !isBlank c
    return do
      guard (address ≠ [] ∧ name ≠ [])
      return { mangledName := .ofList mangledName, digits, name := .ofList name,
               address := .ofList address }

def addLines (g : CallGraph) : List (List Char) → Except Hazard (Except DumpFault CallGraph)
  | [] => .ok (.ok g)
  | line :: lines =>
    if Dump.closing.isPrefixOf line then .ok (.ok g)
    else match after? Dump.callsLabel line, after? Dump.typeLabel line with
      | some text, _ => do
        let calls ← calls text
        addLines (Dump.changeLast g fun node => { node with calls := node.calls ++ calls }) lines
      | none, some text =>
        addLines (Dump.changeLast g fun node => { node with nodeType := .ofList (trim text) }) lines
      | none, none =>
        if line.head?.any isBlank then addLines g lines
        else do
          match ← nodeLine? line with
          | some { mangledName, digits, name, address } =>
            match digitsToWord? digits with
            | some symbolNumber =>
              addLines (g.addNode { mangledName, symbolNumber, name, address }) lines
            | none => return .error .symbolNumberTooLarge
          | none => if 2 < Dump.byteSize line then return .ok g else addLines g lines

def parse (text : String) : Except Hazard (Except DumpFault CallGraph) :=
  addLines {}
    (((lines text.toList).dropWhile fun line => !(Dump.opening.isPrefixOf line)).drop 1)

end Offset

section Sizes

theorem byteSize_nil : Dump.byteSize [] = 0 := by
  rw [Dump.byteSize, String.ofList_nil, String.utf8ByteSize_empty]

theorem byteSize_append (before after : List Char) :
    Dump.byteSize (before ++ after) = Dump.byteSize before + Dump.byteSize after := by
  rw [Dump.byteSize, String.ofList_append, String.utf8ByteSize_append]
  rfl

theorem byteSize_cons (c : Char) (text : List Char) :
    Dump.byteSize (c :: text) = c.utf8Size + Dump.byteSize text := by
  rw [Dump.byteSize, String.ofList_cons, String.utf8ByteSize_append,
    String.utf8ByteSize_singleton]
  rfl

/-- An offset between two characters is the size of the text before it. -/
theorem Offset.cutAt_append (before after : List Char) :
    Offset.cutAt (Dump.byteSize before) (before ++ after) = .ok (before, after) := by
  induction before with
  | nil => rw [byteSize_nil, List.nil_append, Offset.cutAt]
  | cons c before ih =>
    obtain ⟨size, hsize⟩ : ∃ size, c.utf8Size + Dump.byteSize before = size + 1 :=
      Nat.exists_eq_add_one.2 (Nat.add_pos_left c.utf8Size_pos _)
    have hle : ¬size + 1 < c.utf8Size := by omega
    have hrest : size + 1 - c.utf8Size = Dump.byteSize before := by omega
    rw [byteSize_cons, hsize, List.cons_append, Offset.cutAt, if_neg hle, hrest, ih]
    rfl

theorem Offset.getD_find? (p : Char → Bool) (text : List Char) :
    (Offset.find? p text).getD (Dump.byteSize text) =
      Dump.byteSize (text.takeWhile fun c => !p c) := by
  induction text with
  | nil => rfl
  | cons c text ih =>
    rw [Offset.find?]
    by_cases hc : p c = true
    · rw [if_pos hc, List.takeWhile_cons_of_neg (by simp [hc]), byteSize_nil, Option.getD_some]
    · rw [if_neg hc, List.takeWhile_cons_of_pos (by simpa using hc), byteSize_cons, byteSize_cons,
        ← ih]
      cases Offset.find? p text <;> rfl

end Sizes

section Notes

theorem cutNote_append (depth : Nat) (text : List Char) :
    (Dump.cutNote depth text).1 ++ (Dump.cutNote depth text).2 = text := by
  induction text generalizing depth with
  | nil => rfl
  | cons c text ih =>
    by_cases hc : c = ')' ∧ depth ≤ 1
    · rw [Dump.cutNote, if_pos hc, List.singleton_append]
    · rw [cutNote_cons hc rfl, List.cons_append, ih]

/-- While a parenthesis is open the count of them can be lowered. -/
theorem noteEnd_of_pos {depth : Nat} (hdepth : 0 < depth) (offset : Nat) (text : List Char) :
    Offset.noteEnd depth offset text =
      .ok (offset + Dump.byteSize (Dump.cutNote depth text).1) := by
  induction text generalizing depth offset with
  | nil => rfl
  | cons c text ih =>
    by_cases hopen : c = '('
    · subst hopen
      have hnot : ¬('(' = ')' ∧ depth ≤ 1) := fun h => absurd h.1 (by decide)
      rw [Offset.noteEnd, if_pos rfl, ih (Nat.succ_pos depth), cutNote_cons hnot (if_pos rfl),
        byteSize_cons, Nat.add_assoc]
    by_cases hclose : c = ')'
    · subst hclose
      rw [Offset.noteEnd, if_neg hopen, if_pos rfl, if_neg (Nat.ne_of_gt hdepth)]
      by_cases hlast : depth - 1 = 0
      · have hend : Dump.cutNote depth (')' :: text) = ([')'], text) := by
          rw [Dump.cutNote, if_pos ⟨rfl, by omega⟩]
        rw [if_pos hlast, hend, byteSize_cons, byteSize_nil]
        rfl
      · have hnot : ¬(')' = ')' ∧ depth ≤ 1) := by omega
        have hnext : (if ')' = '(' then depth + 1 else if ')' = ')' then depth - 1 else depth) =
            depth - 1 := rfl
        rw [if_neg hlast, ih (Nat.pos_of_ne_zero hlast), cutNote_cons hnot hnext, byteSize_cons,
          Nat.add_assoc]
    · rw [Offset.noteEnd, if_neg hopen, if_neg hclose, ih hdepth,
        cutNote_cons (fun h => hclose h.1) (if_neg hopen), if_neg hclose, byteSize_cons,
        Nat.add_assoc]

/-- A note begins with a parenthesis, which is counted before any is taken back. -/
theorem noteEnd_open (text : List Char) :
    Offset.noteEnd 0 0 ('(' :: text) =
      .ok (Dump.byteSize (Dump.cutNote 0 ('(' :: text)).1) := by
  have hnot : ¬('(' = ')' ∧ 0 ≤ 1) := by decide
  rw [Offset.noteEnd, if_pos rfl, noteEnd_of_pos Nat.one_pos, cutNote_cons hnot (if_pos rfl),
    byteSize_cons, Nat.zero_add]

end Notes

theorem bind_of_safe {α β : Type} {x : Except Hazard α} {a : α} (h : x = .ok a)
    (f : α → Except Hazard β) : (x >>= f) = f a := by
  rw [h]
  rfl

section Calls

variable {before : List Call} {rest : List Char}

theorem callRound_note (before : List Call) (rest : List Char) :
    Offset.callRound before ('(' :: rest) =
      .ok (if (Dump.cutNote 0 ('(' :: rest)).1 = "(inlined)".toList then
          Dump.markInlined before else before,
        trimLeft (Dump.cutNote 0 ('(' :: rest)).2) := by
  have hcut := Offset.cutAt_append (Dump.cutNote 0 ('(' :: rest)).1
    (Dump.cutNote 0 ('(' :: rest)).2
  rw [cutNote_append] at hcut
  rw [Offset.callRound, List.head?_cons, if_pos rfl, bind_of_safe (noteEnd_open rest),
    bind_of_safe hcut]
  rfl

theorem callRound_token {c : Char} (hc : isBlank c = false) (hopen : c ≠ '(') :
    Offset.callRound before (c :: rest) =
      .ok (match Dump.call? (c :: rest.takeWhile fun c => !isBlank c) with
          | some call => call :: before
          | none => before,
        trimLeft (rest.dropWhile fun c => !isBlank c)) := by
  have hpos : (!isBlank c) = true := by rw [hc]; rfl
  have htake : (c :: rest).takeWhile (fun c => !isBlank c) =
      c :: rest.takeWhile fun c => !isBlank c := List.takeWhile_cons_of_pos hpos
  have hcut := Offset.cutAt_append (c :: rest.takeWhile fun c => !isBlank c)
    (rest.dropWhile fun c => !isBlank c)
  rw [List.cons_append, List.takeWhile_append_dropWhile] at hcut
  have hne : (c :: rest).head? ≠ some '(' := fun h => hopen (Option.some.inj h)
  rw [Offset.callRound, if_neg hne, Offset.getD_find?, htake, bind_of_safe hcut]
  rfl

/-- The loop over calls takes a character in each round, and its offsets are those of the notes and
tokens. -/
theorem callRounds_trimLeft (before : List Call) (text : List Char) :
    Offset.callRounds before (trimLeft text) = .ok (Dump.callsFrom before text) := by
  -- A round leaves less than it found, so the induction is on the length and not on the text.
  induction hlength : text.length using Nat.strong_induction_on generalizing before text with
  | _ length ih =>
    subst hlength
    have htrim := Dump.length_trimLeft text
    cases htext : trimLeft text with
    | nil => rw [Offset.callRounds, if_pos rfl, callsFrom_nil htext]
    | cons c rest =>
      rw [htext, List.length_cons] at htrim
      rw [Offset.callRounds, if_neg (List.cons_ne_nil c rest)]
      by_cases hopen : c = '('
      · subst hopen
        have hnote := Dump.length_cutNote 0 ('(' :: rest)
        have hleft := Dump.length_trimLeft (Dump.cutNote 0 ('(' :: rest)).2
        rw [List.length_cons] at hnote
        simp only [callRound_note]
        rw [if_pos (by rw [List.length_cons]; omega), callsFrom_note htext]
        exact ih _ (by omega) _ _ rfl
      · have hblank := isBlank_of_trimLeft_eq_cons htext
        have htoken := (List.dropWhile_sublist (fun c => !isBlank c) (l := rest)).length_le
        have hleft := Dump.length_trimLeft (rest.dropWhile fun c => !isBlank c)
        simp only [callRound_token hblank hopen]
        rw [if_pos (by rw [List.length_cons]; omega), callsFrom_token htext hopen]
        exact ih _ (by omega) _ _ rfl

theorem calls_eq (text : List Char) : Offset.calls text = .ok (Dump.calls text) := by
  rw [Offset.calls, callRounds_trimLeft]
  rfl

end Calls

section NodeLines

variable {rest : List Char}

theorem cutClose?_reverse_of_none (h : beforeLast? [')', ' '] rest = none) :
    Dump.cutClose? rest.reverse = none := by
  refine Option.eq_none_iff_forall_ne_some.2 fun ⟨after, name⟩ hcut => ?_
  obtain ⟨hrest, -⟩ := eq_append_of_cutClose?_reverse hcut
  refine not_infix_of_beforeLast? (List.cons_ne_nil _ _) h ⟨name.reverse, after.reverse, ?_⟩
  rw [hrest, List.append_assoc]
  rfl

/-- Both ends of the last `") "` are offsets between two characters. -/
theorem cutAt_beforeLast? {name : List Char} (h : beforeLast? [')', ' '] rest = some name) :
    ∃ after, Offset.cutAt (Dump.byteSize name) rest = .ok (name, [')', ' '] ++ after) ∧
      Offset.cutAt (Dump.byteSize name + 2) rest = .ok (name ++ [')', ' '], after) ∧
      Dump.cutClose? rest.reverse = some (after.reverse, name.reverse) := by
  obtain ⟨after, rfl, hlast⟩ := eq_append_of_beforeLast? (List.cons_ne_nil _ _) h
  have hbehind := Offset.cutAt_append (name ++ [')', ' ']) after
  have hsize : Dump.byteSize (name ++ [')', ' ']) = Dump.byteSize name + 2 :=
    byteSize_append name [')', ' ']
  rw [List.append_assoc, hsize] at hbehind
  have hafter : ¬[')', ' '] <:+: after := fun hwithin =>
    hlast (hwithin.trans (List.suffix_cons ' ' after).isInfix)
  exact ⟨after, Offset.cutAt_append _ _, hbehind, cutClose?_reverse hafter name⟩

theorem nodeLine?_eq (line : List Char) : Offset.nodeLine? line = .ok (Dump.nodeLine? line) := by
  rw [Offset.nodeLine?, Offset.fields?, Dump.nodeLine?]
  cases cutFirst? (· == ' ') line with
  | none => rfl
  | some cut =>
    obtain ⟨symbol, rest⟩ := cut
    cases hsymbol : Dump.splitSymbol? symbol with
    | none => simp [hsymbol]
    | some parts =>
      cases hopen : after? ['('] rest with
      | none => simp [hsymbol, hopen]
      | some rest =>
        cases hclose : beforeLast? [')', ' '] rest with
        | none => simp [hsymbol, hopen, hclose, cutClose?_reverse_of_none hclose]
        | some name =>
          obtain ⟨after, hname, hafter, hcut⟩ := cutAt_beforeLast? hclose
          simp only [Option.bind_eq_bind, Option.bind_some, hsymbol, hopen, hclose, hcut, pure,
            List.reverse_reverse, ne_eq, List.reverse_eq_nil_iff]
          rw [bind_of_safe hname, bind_of_safe hafter]
          rfl

end NodeLines

section Lines

theorem addLines_eq (g : CallGraph) (lines : List (List Char)) :
    Offset.addLines g lines = .ok (Dump.addLines g lines) := by
  induction lines generalizing g with
  | nil => rfl
  | cons line lines ih =>
    rw [Offset.addLines, Dump.addLines, bind_of_safe (nodeLine?_eq line)]
    by_cases hclosing : Dump.closing.isPrefixOf line
    · rw [if_pos hclosing, if_pos hclosing]
    rw [if_neg hclosing, if_neg hclosing]
    cases after? Dump.callsLabel line with
    | some text => exact (bind_of_safe (calls_eq text) _).trans (ih _)
    | none =>
      cases after? Dump.typeLabel line with
      | some text => exact ih _
      | none =>
        by_cases hblank : line.head?.any isBlank
        · rw [if_pos hblank, if_pos hblank]
          exact ih g
        rw [if_neg hblank, if_neg hblank]
        cases Dump.nodeLine? line with
        | none =>
          by_cases hlong : 2 < Dump.byteSize line
          · rw [if_pos hlong, if_pos hlong]
            rfl
          · rw [if_neg hlong, if_neg hlong]
            exact ih g
        | some node =>
          cases hnumber : digitsToWord? node.digits with
          | none => simp only [hnumber]; rfl
          | some symbolNumber => simpa only [hnumber] using ih _

/-- No text makes the reader do anything that the offsets of its bytes forbid. -/
theorem parse_offset (text : String) : Offset.parse text = .ok (parse text) :=
  addLines_eq _ _

end Lines

end StackSurvey.CallGraph
