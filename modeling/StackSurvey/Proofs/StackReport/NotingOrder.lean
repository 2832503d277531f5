import StackSurvey.CallGraph.Dump
import StackSurvey.Proofs.CallGraph.Recomputation
import StackSurvey.Proofs.StackReport.ReportedFrames
import StackSurvey.Proofs.SymbolTable.Passes

namespace StackSurvey

namespace StackReport

/-- Notes a usage on the symbols with one of its names, and counts them. -/
def applyName (entry : String × StackUsage) (state : SymbolTable × Nat) (mangled : String) :
    SymbolTable × Nat :=
  ((applyTo entry.1 entry.2 state.1 mangled).1,
    state.2 + (applyTo entry.1 entry.2 state.1 mangled).2)

def applyEntry (state : SymbolTable × Nat) (entry : String × StackUsage) : SymbolTable × Nat :=
  entry.2.mangledNames.toList.foldl (applyName entry) state

/-- Notes usages in the order given, and counts the symbols. -/
def applyEntries (entries : List (String × StackUsage)) (t : SymbolTable) : SymbolTable × Nat :=
  entries.foldl applyEntry (t, 0)

/-- Two functions have a symbol name in common, and what they note of it differs: their names, if it
is a mangled one, or the sizes of their frames. -/
structure Rivals (mangled : String) (a b : String × StackUsage) : Prop where
  ne : a.1 ≠ b.1
  left : mangled ∈ a.2.mangledNames
  right : mangled ∈ b.2.mangledNames
  differ : Mangling.isMangled mangled = true ∨
    0 < a.2.stack ∧ 0 < b.2.stack ∧ a.2.stack ≠ b.2.stack

/-- Two functions of a report are rivals for a symbol name. -/
def Contested (report : StackReport) (mangled : String) : Prop :=
  ∃ a ∈ report.toList, ∃ b ∈ report.toList, Rivals mangled a b

variable {a b : String × StackUsage} {mangled : String} {t : SymbolTable}
  {entries : List (String × StackUsage)} {report : StackReport}

theorem apply_eq (report : StackReport) (t : SymbolTable) :
    report.apply t = applyEntries report.toList t := by
  rw [apply, Std.TreeMap.foldl_eq_foldl_toList, applyEntries]
  congr 1
  funext state entry
  rw [Std.TreeSet.foldl_eq_foldl_toList]
  rfl

section Notes

theorem note_note (function mangled : String) (usage : StackUsage) (notes : Annotation) :
    note function mangled usage (note function mangled usage notes) =
      note function mangled usage notes := by
  unfold note
  split <;> split <;> rfl

theorem demangled_note (h : Mangling.isMangled mangled = true) (function : String)
    (usage : StackUsage) (notes : Annotation) :
    (note function mangled usage notes).demangled = some function := by
  rw [note, if_pos h]
  split <;> rfl

theorem localStack_note {usage : StackUsage} (h : 0 < usage.stack) (function mangled : String)
    (notes : Annotation) :
    (note function mangled usage notes).localStack = some usage.stack := by
  rw [note, if_pos h]

/-- Of two rivals the one that comes last has its notes kept. -/
theorem note_ne (h : Rivals mangled a b) (notes : Annotation) :
    note b.1 mangled b.2 (note a.1 mangled a.2 notes) ≠
      note a.1 mangled a.2 (note b.1 mangled b.2 notes) := by
  intro heq
  rcases h.differ with hmangled | ⟨ha, hb, hne⟩
  · have hname := congrArg Annotation.demangled heq
    rw [demangled_note hmangled, demangled_note hmangled] at hname
    exact h.ne (Option.some_inj.1 hname).symm
  · have hstack := congrArg Annotation.localStack heq
    rw [localStack_note hb, localStack_note ha] at hstack
    exact hne (Option.some_inj.1 hstack).symm

theorem note_comm (hname : Mangling.isMangled mangled = true → a.1 = b.1)
    (hstack : 0 < a.2.stack → 0 < b.2.stack → a.2.stack = b.2.stack) (notes : Annotation) :
    note b.1 mangled b.2 (note a.1 mangled a.2 notes) =
      note a.1 mangled a.2 (note b.1 mangled b.2 notes) := by
  unfold note
  grind

/-- What a usage makes of the notes on a symbol. -/
def noted (entry : String × StackUsage) (s : AnnotatedSymbol) : Annotation :=
  if s.symbol.name ∈ entry.2.mangledNames then note entry.1 s.symbol.name entry.2 s.notes
  else s.notes

theorem noted_comm (hne : a.1 ≠ b.1) {s : AnnotatedSymbol} (h : ¬ Rivals s.symbol.name a b) :
    noted b { s with notes := noted a s } = noted a { s with notes := noted b s } := by
  by_cases ha : s.symbol.name ∈ a.2.mangledNames
  · by_cases hb : s.symbol.name ∈ b.2.mangledNames
    · simp only [noted, if_pos ha, if_pos hb]
      apply note_comm
      · exact fun hmangled => absurd ⟨hne, ha, hb, .inl hmangled⟩ h
      · intro hu hv
        exact Classical.byContradiction fun hstack => h ⟨hne, ha, hb, .inr ⟨hu, hv, hstack⟩⟩
    · simp only [noted, if_neg hb]
  · simp only [noted, if_neg ha]

theorem foldl_note (function : String) (usage : StackUsage) (name : String) (names : List String)
    (notes : Annotation) :
    names.foldl
        (fun notes mangled => if name = mangled then note function mangled usage notes else notes)
        notes =
      if name ∈ names then note function name usage notes else notes := by
  induction names generalizing notes with
  | nil => simp
  | cons mangled names ih =>
    rw [List.foldl_cons, ih]
    by_cases hname : name = mangled
    · subst mangled
      simp [note_note]
    · simp [hname]

end Notes

section Tables

theorem fst_applyName {state : SymbolTable × Nat} (h : state.1.Indexed)
    (entry : String × StackUsage) (mangled : String) :
    (applyName entry state mangled).1 =
      state.1.annotateAll fun s =>
        if s.symbol.name = mangled then note entry.1 mangled entry.2 s.notes else s.notes :=
  SymbolTable.foldl_annotate_indicesByName h
    (fun s => note_note entry.1 mangled entry.2 s.notes) mangled

theorem fst_applyEntry {state : SymbolTable × Nat} (h : state.1.Indexed)
    (entry : String × StackUsage) :
    (applyEntry state entry).1 = state.1.annotateAll (noted entry) := by
  rw [applyEntry, SymbolTable.foldl_eq_annotateAll Prod.fst _
    (fun state mangled hstate => fst_applyName hstate entry mangled) _ h]
  congr 1
  funext s
  simp only [foldl_note, Std.TreeSet.mem_toList, noted]

theorem fst_applyEntries (h : t.Indexed) (entries : List (String × StackUsage)) :
    (applyEntries entries t).1 =
      t.annotateAll fun s =>
        entries.foldl (fun notes entry => noted entry { s with notes }) s.notes :=
  SymbolTable.foldl_eq_annotateAll Prod.fst noted
    (fun _ entry hstate => fst_applyEntry hstate entry) entries (s := (t, 0)) h

theorem eq_of_fst_eq (ha : a ∈ report.toList) (hb : b ∈ report.toList) (h : a.1 = b.1) : a = b := by
  have hleft := Std.TreeMap.mem_toList_iff_getElem?_eq_some.1 ha
  have hright := Std.TreeMap.mem_toList_iff_getElem?_eq_some.1 hb
  rw [h, hright] at hleft
  exact Prod.ext h (Option.some_inj.1 hleft).symm

/-- Where no name of a symbol is contested, usages may come in any order. -/
theorem fst_applyEntries_of_perm (h : t.Indexed)
    (hcontested : ∀ s ∈ t.symbols, ¬ Contested report s.symbol.name)
    (hperm : entries.Perm report.toList) : (applyEntries entries t).1 = (report.apply t).1 := by
  rw [apply_eq, fst_applyEntries h, fst_applyEntries h]
  refine SymbolTable.ext_symbols (fun i => ?_) rfl rfl
  rw [SymbolTable.getElem?_annotateAll, SymbolTable.getElem?_annotateAll]
  refine Option.map_congr fun s hs => ?_
  have hfold := hperm.foldl_eq' (f := fun notes entry => noted entry { s with notes })
    (fun a ha b hb notes => ?_) s.notes
  · rw [hfold]
  · by_cases heq : a.1 = b.1
    · rw [eq_of_fst_eq (hperm.mem_iff.1 ha) (hperm.mem_iff.1 hb) heq]
    · refine noted_comm (s := { s with notes }) heq fun hrivals => ?_
      exact hcontested s (Array.mem_of_getElem? hs)
        ⟨a, hperm.mem_iff.1 ha, b, hperm.mem_iff.1 hb, hrivals⟩

/-- Where two usages contest the name of a symbol, it has what the last of them notes. -/
theorem fst_applyEntries_ne {s : AnnotatedSymbol} (h : t.Indexed) (hs : s ∈ t.symbols)
    (hrivals : Rivals s.symbol.name a b) (entries : List (String × StackUsage)) :
    (applyEntries (entries ++ [a, b]) t).1 ≠ (applyEntries (entries ++ [b, a]) t).1 := by
  intro heq
  obtain ⟨i, hi⟩ := Array.getElem?_of_mem hs
  have hnotes := congrArg (fun t => t.symbols[i]?.map (·.notes)) heq
  simp only [fst_applyEntries h, SymbolTable.getElem?_annotateAll, hi, Option.map_some,
    List.foldl_append, List.foldl_cons, List.foldl_nil, noted, if_pos hrivals.left,
    if_pos hrivals.right] at hnotes
  exact note_ne hrivals _ (Option.some_inj.1 hnotes)

theorem exists_perm_append_pair {α : Type} {all : List α} {a b : α} (ha : a ∈ all) (hb : b ∈ all)
    (hne : a ≠ b) : ∃ rest, (rest ++ [a, b]).Perm all := by
  obtain ⟨before, after, rfl⟩ := List.append_of_mem ha
  have hmem : b ∈ before ++ after := by
    simpa [hne.symm] using hb
  obtain ⟨first, second, hrest⟩ := List.append_of_mem hmem
  refine ⟨first ++ second, ?_⟩
  calc
    List.Perm (first ++ second ++ [a, b]) (a :: b :: (first ++ second)) := List.perm_append_comm
    List.Perm _ (a :: (first ++ b :: second)) := List.perm_middle.symm.cons a
    List.Perm _ (before ++ a :: after) := hrest ▸ List.perm_middle.symm

theorem exists_perm_of_contested {s : AnnotatedSymbol} (h : t.Indexed) (hs : s ∈ t.symbols)
    (hcontested : Contested report s.symbol.name) :
    ∃ entries, entries.Perm report.toList ∧ (applyEntries entries t).1 ≠ (report.apply t).1 := by
  obtain ⟨a, ha, b, hb, hrivals⟩ := hcontested
  obtain ⟨rest, hperm⟩ := exists_perm_append_pair ha hb fun heq => hrivals.ne (congrArg _ heq)
  have hswap : (rest ++ [b, a]).Perm (rest ++ [a, b]) := (List.Perm.swap a b []).append_left rest
  have hne := fst_applyEntries_ne h hs hrivals rest
  by_cases heq : (applyEntries (rest ++ [a, b]) t).1 = (report.apply t).1
  · exact ⟨_, hswap.trans hperm, fun hother => hne (heq.trans hother.symm)⟩
  · exact ⟨_, hperm, heq⟩

end Tables

section Counts

theorem renotes_applyName (entry : String × StackUsage) (state : SymbolTable × Nat)
    (mangled : String) : SymbolTable.Renotes state.1 (applyName entry state mangled).1 :=
  SymbolTable.renotes_applyTo entry.1 entry.2 state.1 mangled

theorem renotes_applyEntry (state : SymbolTable × Nat) (entry : String × StackUsage) :
    SymbolTable.Renotes state.1 (applyEntry state entry).1 :=
  SymbolTable.Renotes.foldl Prod.fst (renotes_applyName entry) _ state

theorem snd_applyEntry (state : SymbolTable × Nat) (entry : String × StackUsage) :
    (applyEntry state entry).2 =
      state.2 + (entry.2.mangledNames.toList.flatMap state.1.indicesByName).length := by
  rw [applyEntry]
  induction entry.2.mangledNames.toList generalizing state with
  | nil => rfl
  | cons mangled names ih =>
    have hnames : (applyName entry state mangled).1.indicesByName = state.1.indicesByName :=
      (renotes_applyName entry state mangled).indicesByName_eq
    have hcount : (applyName entry state mangled).2 =
      state.2 + (state.1.indicesByName mangled).length := rfl
    rw [List.foldl_cons, ih, hnames, hcount, List.flatMap_cons, List.length_append]
    omega

/-- A symbol is counted for each time that a usage has its name. -/
theorem snd_applyEntries (entries : List (String × StackUsage)) (t : SymbolTable) :
    (applyEntries entries t).2 =
      (entries.flatMap fun entry =>
        entry.2.mangledNames.toList.flatMap t.indicesByName).length := by
  have hfold (state : SymbolTable × Nat) : (entries.foldl applyEntry state).2 = state.2 +
      (entries.flatMap fun entry =>
        entry.2.mangledNames.toList.flatMap state.1.indicesByName).length := by
    induction entries generalizing state with
    | nil => rfl
    | cons entry entries ih =>
      rw [List.foldl_cons, ih, (renotes_applyEntry state entry).indicesByName_eq, snd_applyEntry,
        List.flatMap_cons, List.length_append]
      omega
  rw [applyEntries, hfold, Nat.zero_add]

theorem snd_applyEntries_of_perm (hperm : entries.Perm report.toList) (t : SymbolTable) :
    (applyEntries entries t).2 = (report.apply t).2 := by
  rw [apply_eq, snd_applyEntries, snd_applyEntries]
  exact (hperm.flatMap_right _).length_eq

end Counts

/-- The number of symbols that a report is noted on does not depend on the order of its usages. What
is noted does, exactly where the name of a symbol of the table is contested. -/
theorem apply_of_perm (sectionCount : Nat) (steps : List SymbolTable.Step) (report : StackReport) :
    let t := SymbolTable.runSteps steps (.empty sectionCount)
    (∀ entries : List (String × StackUsage), entries.Perm report.toList →
      (applyEntries entries t).2 = (report.apply t).2) ∧
      ((∀ entries : List (String × StackUsage), entries.Perm report.toList →
        (applyEntries entries t).1 = (report.apply t).1) ↔
          ∀ s ∈ t.symbols, ¬ Contested report s.symbol.name) := by
  intro t
  have ht : t.Indexed := (SymbolTable.indexed_empty sectionCount).runSteps steps
  refine ⟨fun entries hperm => snd_applyEntries_of_perm hperm t, ?_, ?_⟩
  · intro hall s hs hcontested
    obtain ⟨entries, hperm, hne⟩ := exists_perm_of_contested ht hs hcontested
    exact hne (hall entries hperm)
  · exact fun hcontested entries hperm => fst_applyEntries_of_perm ht hcontested hperm

def initUsage : StackUsage :=
  { stack := 16, mangledNames := (∅ : Std.TreeSet String).insert "init" }

/-- Two functions with a symbol name in common and frames of the same size. -/
def agreeingReport : StackReport :=
  ((∅ : StackReport).insert "f" initUsage).insert "g" initUsage

theorem eq_initUsage {entry : String × StackUsage} (h : entry ∈ agreeingReport.toList) :
    entry.2 = initUsage := by
  have hentry := Std.TreeMap.mem_toList_iff_getElem?_eq_some.1 h
  rw [agreeingReport, Std.TreeMap.getElem?_insert, Std.TreeMap.getElem?_insert] at hentry
  split at hentry
  · exact (Option.some_inj.1 hentry).symm
  · split at hentry
    · exact (Option.some_inj.1 hentry).symm
    · simp at hentry

theorem apply_reverse_agreeingReport :
    let t := SymbolTable.runSteps [.push { symbol := { name := "init" } }] (.empty 1)
    agreeingReport.toList.reverse.Perm agreeingReport.toList ∧
      (applyEntries agreeingReport.toList.reverse t).2 = (agreeingReport.apply t).2 ∧
      (applyEntries agreeingReport.toList.reverse t).1 = (agreeingReport.apply t).1 := by
  intro t
  have hperm := agreeingReport.toList.reverse_perm
  obtain ⟨hcount, htable⟩ :=
    apply_of_perm 1 [.push { symbol := { name := "init" } }] agreeingReport
  refine ⟨hperm, hcount _ hperm, htable.2 ?_ _ hperm⟩
  intro s hs
  obtain rfl : s = { symbol := { name := "init" } } := Array.mem_singleton.1 hs
  rintro ⟨a, ha, b, hb, hrivals⟩
  rcases hrivals.differ with hmangled | ⟨-, -, hstack⟩
  · exact absurd hmangled (by decide)
  · rw [eq_initUsage ha, eq_initUsage hb] at hstack
    exact hstack rfl

/-- A function that a text and a call graph know has the symbol name that the graph has for it. -/
theorem exists_mem_mangledNames_compute {text name : String} (hname : reported text name ≠ [])
    {g : CallGraph} {node : CallNode} (hnode : node ∈ g.nodes) (heq : node.name = name) :
    ∃ u, (g.compute (parse text)).2[name]? = some u ∧ node.mangledName ∈ u.mangledNames := by
  obtain ⟨u, hu⟩ := Option.ne_none_iff_exists'.1 (mt getElem?_parse_eq_none_iff.1 hname)
  refine ⟨u.link (g.symbolsNamed name), ?_, ?_⟩
  · exact (CallGraph.getElem?_linkReport ..).trans (hu ▸ rfl)
  · exact StackUsage.mem_link.2 (.inr (CallGraph.mem_symbolsNamed.2 ⟨node, hnode, heq, rfl⟩))

theorem exists_mem_mangledNames_merge {reports : List StackReport} {name : String}
    {u : StackUsage} (symbols : SymbolTable) (hasDebugInfo : Bool) (hreport : report ∈ reports)
    (hu : report[name]? = some u) (hmangled : mangled ∈ u.mangledNames) :
    ∃ v, (merge reports symbols hasDebugInfo)[name]? = some v ∧ mangled ∈ v.mangledNames := by
  have hmem : u ∈ usages reports name := List.mem_filterMap.2 ⟨report, hreport, hu⟩
  obtain ⟨v, hv, hunites⟩ := exists_getElem?_merge (P := fun all u => u.Unites all)
    StackUsage.Unites.single (fun all u h v => h.combine (prefers symbols hasDebugInfo name) v)
    (List.ne_nil_of_mem hmem)
  exact ⟨v, hv, (hunites mangled).2 ⟨u, hmem, hmangled⟩⟩

/-- The dump of a file that has one function. -/
def localDump (name : String) : String :=
  "Optimized Symbol table:\n_ZL4initv/1 (" ++ name ++ ") @0x1\nMaterializing clones\n"

def localNode (name : String) : CallNode :=
  { name, mangledName := "_ZL4initv", symbolNumber := 1, address := "@0x1" }

def voidReport : String := "a.cpp:1:13:void init()\t16\tstatic\n"

def intReport : String := "b.cpp:1:12:int init()\t24\tstatic\n"

theorem exists_parse_localDump :
    (∃ g, CallGraph.parse (localDump "void init()") = .ok g ∧
      g.nodes = #[localNode "void init()"]) ∧
    ∃ g, CallGraph.parse (localDump "int init()") = .ok g ∧
      g.nodes = #[localNode "int init()"] :=
  ⟨CallGraph.exists_of_map_parse (by decide +kernel),
    CallGraph.exists_of_map_parse (by decide +kernel)⟩

def localSymbol : AnnotatedSymbol := { symbol := { name := "_ZL4initv" } }

/-- Two files that each have a function of their own with the same mangled name. Which of the two
the symbol is said to be depends on the order. -/
theorem not_apply_localsReport :
    ∃ g h, CallGraph.parse (localDump "void init()") = .ok g ∧
      CallGraph.parse (localDump "int init()") = .ok h ∧
      let reports := [(g.compute (parse voidReport)).2, (h.compute (parse intReport)).2]
      let report := merge reports {} false
      ∃ entries : List (String × StackUsage), entries.Perm report.toList ∧
        (applyEntries entries (.ofSymbols 1 [localSymbol])).1 ≠
          (report.apply (.ofSymbols 1 [localSymbol])).1 := by
  obtain ⟨⟨g, hg, hvoid⟩, ⟨h, hh, hint⟩⟩ := exists_parse_localDump
  refine ⟨g, h, hg, hh, ?_⟩
  have hnode (name : String) : localNode name ∈ #[localNode name] := Array.mem_singleton.2 rfl
  have hfirst : reported voidReport "void init()" ≠ [] := by decide
  have hsecond : reported intReport "int init()" ≠ [] := by decide
  obtain ⟨u, hu, hleft⟩ := exists_mem_mangledNames_compute hfirst (hvoid ▸ hnode _) rfl
  obtain ⟨v, hv, hright⟩ := exists_mem_mangledNames_compute hsecond (hint ▸ hnode _) rfl
  intro reports report
  obtain ⟨u, hu, hleft⟩ := exists_mem_mangledNames_merge {} false (.head _) hu hleft
  obtain ⟨v, hv, hright⟩ := exists_mem_mangledNames_merge {} false (.tail _ (.head _)) hv hright
  have hsymbol : localSymbol ∈ (SymbolTable.ofSymbols 1 [localSymbol]).symbols :=
    Array.mem_of_getElem? (i := 0) (SymbolTable.getElem?_symbols_ofSymbols ..)
  have hne : "void init()" ≠ "int init()" := by decide
  have hmangled : Mangling.isMangled localSymbol.symbol.name = true := by decide
  exact exists_perm_of_contested (SymbolTable.indexed_ofSymbols 1 [localSymbol]) hsymbol
    ⟨_, Std.TreeMap.mem_toList_iff_getElem?_eq_some.2 hu, _,
      Std.TreeMap.mem_toList_iff_getElem?_eq_some.2 hv, hne, hleft, hright, .inl hmangled⟩

end StackReport

end StackSurvey
