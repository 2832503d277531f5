import StackSurvey.Proofs.KeyedFold
import StackSurvey.StackReport

namespace StackSurvey

namespace StackUsage

/-- Usages of the same size for the same place. -/
structure SameFrame (u v : StackUsage) : Prop where
  stack : u.stack = v.stack
  qualifier : u.qualifier = v.qualifier
  path : u.path = v.path
  line : u.line = v.line
  column : u.column = v.column

/-- The symbols of a usage are those of all of some usages. -/
def Unites (usages : List StackUsage) (u : StackUsage) : Prop :=
  ∀ mangled, mangled ∈ u.mangledNames ↔ ∃ v ∈ usages, mangled ∈ v.mangledNames

/-- A usage has the frame of the first of the largest usages. -/
def HasLargest (usages : List StackUsage) (u : StackUsage) : Prop :=
  ∃ before v after, usages = before ++ v :: after ∧ u.SameFrame v ∧
    (∀ w ∈ before, w.stack < v.stack) ∧ ∀ w ∈ after, w.stack ≤ v.stack

/-- A usage has the size of one that agrees with a declaration if there is one, and otherwise the
frame of the first usage. -/
structure HasAgreeing (agrees : StackUsage → Prop) (usages : List StackUsage) (u : StackUsage) :
    Prop where
  stack_of_agrees : (∃ v ∈ usages, agrees v) → ∃ v ∈ usages, agrees v ∧ u.stack = v.stack
  first : (∀ v ∈ usages, ¬ agrees v) → ∃ v, usages.head? = some v ∧ u.SameFrame v

end StackUsage

namespace StackReport

/-- A usage is for the file that some symbol which is shown under the name is declared in. -/
def Agrees (symbols : SymbolTable) (name : String) (u : StackUsage) : Prop :=
  ∃ s ∈ symbols.symbols, s.displayName = name ∧
    ∃ source, s.notes.source = some source ∧ Path.endsWith source.path u.path = true

/-- The usages that reports give for a function, in order. -/
def usages (reports : List StackReport) (name : String) : List StackUsage :=
  reports.filterMap (·[name]?)

end StackReport

namespace StackUsage

variable {prefers : StackUsage → StackUsage → Bool} {all : List StackUsage} {u v : StackUsage}

theorem SameFrame.refl (u : StackUsage) : u.SameFrame u := ⟨rfl, rfl, rfl, rfl, rfl⟩

theorem SameFrame.trans {w : StackUsage} (h : u.SameFrame v) (h' : v.SameFrame w) :
    u.SameFrame w :=
  ⟨h.stack.trans h'.stack, h.qualifier.trans h'.qualifier, h.path.trans h'.path,
    h.line.trans h'.line, h.column.trans h'.column⟩

theorem SameFrame.symm (h : u.SameFrame v) : v.SameFrame u :=
  ⟨h.stack.symm, h.qualifier.symm, h.path.symm, h.line.symm, h.column.symm⟩

theorem sameFrame_combine_new (hstack : u.stack ≠ v.stack) (hprefers : prefers u v = true) :
    (u.combine prefers v).SameFrame v := by
  rw [combine, if_pos ⟨hstack, hprefers⟩]
  exact ⟨rfl, rfl, rfl, rfl, rfl⟩

theorem sameFrame_combine_old (h : u.stack = v.stack ∨ prefers u v = false) :
    (u.combine prefers v).SameFrame u := by
  have hkept : ¬ (u.stack ≠ v.stack ∧ prefers u v = true) := by
    rintro ⟨hstack, hprefers⟩
    rcases h with h | h
    · exact hstack h
    · rw [h] at hprefers
      cases hprefers
  rw [combine, if_neg hkept]
  exact ⟨rfl, rfl, rfl, rfl, rfl⟩

theorem Unites.single (u : StackUsage) : Unites [u] u := by
  simp [Unites]

theorem Unites.combine (h : Unites all u) (prefers : StackUsage → StackUsage → Bool)
    (v : StackUsage) : Unites (all ++ [v]) (u.combine prefers v) := by
  intro mangled
  change mangled ∈ u.mangledNames.insertMany v.mangledNames.toList ↔ _
  rw [Std.TreeSet.mem_insertMany_list, h mangled]
  simp

theorem HasLargest.single (u : StackUsage) : HasLargest [u] u :=
  ⟨[], u, [], rfl, .refl u, List.forall_mem_nil _, List.forall_mem_nil _⟩

/-- One more usage is gone by if it is larger than all before it. -/
theorem HasLargest.add {w : StackUsage} (h : HasLargest all u)
    (hlarger : u.stack < v.stack → w.SameFrame v) (hkept : ¬ u.stack < v.stack → w.SameFrame u) :
    HasLargest (all ++ [v]) w := by
  obtain ⟨before, largest, after, rfl, hframe, hbefore, hafter⟩ := h
  by_cases hlt : u.stack < v.stack
  · have hall : ∀ x ∈ before ++ largest :: after, x.stack < v.stack := by
      have hlargest : largest.stack < v.stack := hframe.stack ▸ hlt
      refine List.forall_mem_append.2 ⟨fun x hx => Nat.lt_trans (hbefore x hx) hlargest, ?_⟩
      exact List.forall_mem_cons.2
        ⟨hlargest, fun x hx => Nat.lt_of_le_of_lt (hafter x hx) hlargest⟩
    exact ⟨_, v, [], rfl, hlarger hlt, hall, List.forall_mem_nil _⟩
  · have hv : v.stack ≤ largest.stack := hframe.stack ▸ Nat.le_of_not_lt hlt
    refine ⟨before, largest, after ++ [v], by simp, (hkept hlt).trans hframe, hbefore, ?_⟩
    exact List.forall_mem_append.2 ⟨hafter, List.forall_mem_singleton.2 hv⟩

theorem HasLargest.combine (h : HasLargest all u)
    (hprefers : ∀ a b : StackUsage, prefers a b = true ↔ a.stack < b.stack) (v : StackUsage) :
    HasLargest (all ++ [v]) (u.combine prefers v) := by
  apply h.add
  · exact fun hlt => sameFrame_combine_new (Nat.ne_of_lt hlt) ((hprefers u v).2 hlt)
  · exact fun hlt => sameFrame_combine_old (.inr (Bool.eq_false_iff.2 (mt (hprefers u v).1 hlt)))

/-- Usages have one largest frame. -/
theorem HasLargest.sameFrame (h : HasLargest all u) (h' : HasLargest all v) : u.SameFrame v := by
  obtain ⟨before, w, after, rfl, hu, hbefore, hafter⟩ := h
  obtain ⟨before', w', after', heq, hv, hbefore', hafter'⟩ := h'
  -- Of two that are first among the largest, neither stands before the other.
  rcases List.append_eq_append_iff.1 heq with ⟨_ | ⟨x, between⟩, rfl, hrest⟩ |
    ⟨_ | ⟨x, between⟩, rfl, hrest⟩
  · cases hrest
    exact hu.trans hv.symm
  · cases hrest
    have hlt := hbefore' w (by simp)
    exact absurd (hafter w' (by simp)) (Nat.not_le.2 hlt)
  · cases hrest
    exact hu.trans hv.symm
  · cases hrest
    have hlt := hbefore w' (by simp)
    exact absurd (hafter' w (by simp)) (Nat.not_le.2 hlt)

/-- What usages leave when one that agrees with a declaration replaces one of another size that does
not: where such a one is kept, those that agree are all of its size. -/
structure KeepsAgreeing (agrees : StackUsage → Prop) (all : List StackUsage) (u : StackUsage) :
    Prop where
  frame : ∃ v ∈ all, u.SameFrame v
  stack_eq : ¬ agrees u → ∀ v ∈ all, agrees v → v.stack = u.stack
  first : (∀ v ∈ all, ¬ agrees v) → ∃ v, all.head? = some v ∧ u.SameFrame v

variable {agrees : StackUsage → Prop}

theorem KeepsAgreeing.single (u : StackUsage) : KeepsAgreeing agrees [u] u where
  frame := ⟨u, List.mem_singleton_self u, .refl u⟩
  stack_eq hnot := List.forall_mem_singleton.2 fun hu => absurd hu hnot
  first _ := ⟨u, rfl, .refl u⟩

theorem KeepsAgreeing.combine (h : KeepsAgreeing agrees all u)
    (hpath : ∀ a b : StackUsage, a.path = b.path → (agrees a ↔ agrees b))
    (hprefers : ∀ a b, prefers a b = true ↔ ¬ agrees a ∧ agrees b) (v : StackUsage) :
    KeepsAgreeing agrees (all ++ [v]) (u.combine prefers v) := by
  obtain ⟨w, hw, hframe⟩ := h.frame
  by_cases hreplaced : u.stack ≠ v.stack ∧ prefers u v = true
  · obtain ⟨hstack, hprefer⟩ := hreplaced
    have hnew := sameFrame_combine_new hstack hprefer
    have hv := ((hprefers u v).1 hprefer).2
    refine ⟨⟨v, by simp, hnew⟩, fun hnot => absurd ((hpath _ _ hnew.path).2 hv) hnot, ?_⟩
    exact fun hnone => absurd hv (hnone v (by simp))
  · have hold : (u.combine prefers v).SameFrame u :=
      sameFrame_combine_old (by simpa [Decidable.or_iff_not_imp_left] using hreplaced)
    refine ⟨⟨w, List.mem_append_left _ hw, hold.trans hframe⟩, ?_, ?_⟩
    · intro hnot
      have hu : ¬ agrees u := mt (hpath _ _ hold.path).2 hnot
      rw [hold.stack]
      refine List.forall_mem_append.2 ⟨h.stack_eq hu, List.forall_mem_singleton.2 fun hv => ?_⟩
      -- A usage that agrees did not replace one that does not, so it is of the same size.
      exact Classical.byContradiction fun hne =>
        hreplaced ⟨Ne.symm hne, (hprefers u v).2 ⟨hu, hv⟩⟩
    · intro hnone
      obtain ⟨first, hfirst, hsame⟩ := h.first fun x hx => hnone x (List.mem_append_left _ hx)
      refine ⟨first, ?_, hold.trans hsame⟩
      rw [List.head?_append, hfirst, Option.some_or]

theorem KeepsAgreeing.hasAgreeing (h : KeepsAgreeing agrees all u)
    (hpath : ∀ a b : StackUsage, a.path = b.path → (agrees a ↔ agrees b)) :
    HasAgreeing agrees all u where
  stack_of_agrees := by
    rintro ⟨v, hv, hagrees⟩
    by_cases hu : agrees u
    · obtain ⟨w, hw, hframe⟩ := h.frame
      exact ⟨w, hw, (hpath _ _ hframe.path).1 hu, hframe.stack⟩
    · exact ⟨v, hv, hagrees, (h.stack_eq hu v hv hagrees).symm⟩
  first := h.first

/-- What holds of the first usage, and is kept when one more is added, holds in the end. -/
theorem foldl_usages {step : StackUsage → StackUsage → StackUsage}
    {P : List StackUsage → StackUsage → Prop} {rest : List StackUsage} (h : P all u)
    (hstep : ∀ v ∈ rest, ∀ all u, P all u → P (all ++ [v]) (step u v)) :
    P (all ++ rest) (rest.foldl step u) := by
  induction rest generalizing all u with
  | nil => rwa [List.append_nil]
  | cons v rest ih =>
    obtain ⟨hv, hstep⟩ := List.forall_mem_cons.1 hstep
    have hrest := ih (hv all u h) hstep
    rwa [List.append_assoc, List.singleton_append] at hrest

/-- Adding to what there is begins with the first usage. -/
theorem foldl_elim (step : StackUsage → StackUsage → StackUsage) (usages : List StackUsage) :
    usages.foldl (fun old usage => some (old.elim usage fun old => step old usage)) none =
      usages.head?.map fun first => usages.tail.foldl step first := by
  have hrest (first : StackUsage) (rest : List StackUsage) :
      rest.foldl (fun old usage => some (old.elim usage fun old => step old usage)) (some first) =
        some (rest.foldl step first) := by
    induction rest generalizing first with
    | nil => rfl
    | cons usage rest ih => exact ih _
  cases usages with
  | nil => rfl
  | cons first rest => exact hrest first rest

end StackUsage

namespace StackReport

variable {symbols : SymbolTable} {hasDebugInfo : Bool} {name : String} {merged : StackReport}

def joined (symbols : SymbolTable) (hasDebugInfo : Bool) (name : String) (old : Option StackUsage)
    (usage : StackUsage) : StackUsage :=
  old.elim usage fun old => old.combine (prefers symbols hasDebugInfo name) usage

theorem changesOwnKey_combine :
    ChangesOwnKey
      (fun (merged : StackReport) name (usage : StackUsage) =>
        merged.alter name fun
          | some old => some (old.combine (prefers symbols hasDebugInfo name) usage)
          | none => some usage)
      (fun name usage old => some (joined symbols hasDebugInfo name old usage)) := by
  intro merged name usage other
  rw [Std.TreeMap.getElem?_alter]
  simp only [Std.compare_eq_iff_eq]
  split
  · subst other
    cases merged[name]? <;> rfl
  · rfl

/-- A report adds the usage it has for a function, and changes nothing if it has none. -/
theorem getElem?_combine (merged report : StackReport) (name : String) :
    (combine symbols hasDebugInfo merged report)[name]? =
      report[name]?.elim merged[name]? fun usage =>
        some (joined symbols hasDebugInfo name merged[name]? usage) :=
  changesOwnKey_combine.getElem?_foldl report merged name

theorem getElem?_foldl_combine (reports : List StackReport) :
    (reports.foldl (combine symbols hasDebugInfo) merged)[name]? =
      (usages reports name).foldl
        (fun old usage => some (joined symbols hasDebugInfo name old usage)) merged[name]? := by
  induction reports generalizing merged with
  | nil => rfl
  | cons report reports ih =>
    rw [List.foldl_cons, ih, getElem?_combine, usages, usages, List.filterMap_cons]
    cases report[name]? <;> rfl

/-- The merged usage of a function is that of the first report which has one, with those of the
others combined in turn. -/
theorem getElem?_merge (reports : List StackReport) (symbols : SymbolTable) (hasDebugInfo : Bool)
    (name : String) :
    (merge reports symbols hasDebugInfo)[name]? =
      (usages reports name).head?.map fun first =>
        (usages reports name).tail.foldl
          (StackUsage.combine (prefers symbols hasDebugInfo name)) first := by
  rw [merge, getElem?_foldl_combine, Std.TreeMap.getElem?_emptyc]
  exact StackUsage.foldl_elim _ _

/-- What holds of the first usage of a function, and is kept when one more is combined, holds of its
merged usage. -/
theorem exists_getElem?_merge {P : List StackUsage → StackUsage → Prop}
    (hfirst : ∀ u, P [u] u)
    (hstep : ∀ all u, P all u → ∀ v,
      P (all ++ [v]) (u.combine (prefers symbols hasDebugInfo name) v))
    {reports : List StackReport} (h : usages reports name ≠ []) :
    ∃ u, (merge reports symbols hasDebugInfo)[name]? = some u ∧ P (usages reports name) u := by
  rw [getElem?_merge]
  obtain ⟨first, rest, hall⟩ := List.exists_cons_of_ne_nil h
  rw [hall]
  exact ⟨_, rfl, StackUsage.foldl_usages (hfirst first) fun v _ all u h => hstep all u h v⟩

theorem usages_eq_nil_iff {reports : List StackReport} :
    usages reports name = [] ↔ ∀ report ∈ reports, name ∉ report := by
  rw [usages, List.filterMap_eq_nil_iff]
  refine forall_congr' fun report => imp_congr_right fun _ => ?_
  rw [Std.TreeMap.mem_iff_isSome_getElem?, Option.not_isSome_iff_eq_none]

theorem prefers_false_iff (symbols : SymbolTable) (name : String) (a b : StackUsage) :
    prefers symbols false name a b = true ↔ a.stack < b.stack := by
  rw [prefers, if_neg Bool.false_ne_true, decide_eq_true_iff]

theorem declaredIn_iff (symbols : SymbolTable) (name : String) (u : StackUsage) :
    declaredIn symbols name u.path = true ↔ Agrees symbols name u := by
  simp only [declaredIn, Agrees, Array.any_eq_true', Bool.and_eq_true, beq_iff_eq,
    Option.any_eq_true]

theorem prefers_true_iff (symbols : SymbolTable) (name : String) (a b : StackUsage) :
    prefers symbols true name a b = true ↔
      ¬ Agrees symbols name a ∧ Agrees symbols name b := by
  rw [prefers, if_pos rfl, ← declaredIn_iff, ← declaredIn_iff]
  simp

theorem agrees_congr (symbols : SymbolTable) (name : String) (a b : StackUsage)
    (h : a.path = b.path) : Agrees symbols name a ↔ Agrees symbols name b := by
  rw [← declaredIn_iff, ← declaredIn_iff, h]

/-- Of the usages that reports have for a function, the merged report has the first of the largest
without debug information, and with it one of the size that a declaration asks for. All their
symbols are kept, and a function that no report has is not in the merged one. -/
theorem merge_usages (reports : List StackReport) (symbols : SymbolTable) (name : String) :
    ((∃ report ∈ reports, name ∈ report) →
      (∃ u, (merge reports symbols false)[name]? = some u ∧
        u.HasLargest (usages reports name) ∧ u.Unites (usages reports name)) ∧
      ∃ u, (merge reports symbols true)[name]? = some u ∧
        u.HasAgreeing (Agrees symbols name) (usages reports name) ∧
          u.Unites (usages reports name)) ∧
      ((∀ report ∈ reports, name ∉ report) →
        ∀ hasDebugInfo, name ∉ merge reports symbols hasDebugInfo) := by
  constructor
  · rintro ⟨report, hreport, hname⟩
    have hne : usages reports name ≠ [] := fun hnil => usages_eq_nil_iff.1 hnil report hreport hname
    constructor
    · refine exists_getElem?_merge (P := fun all u => u.HasLargest all ∧ u.Unites all)
        (fun u => ⟨.single u, .single u⟩) (fun all u h v => ⟨?_, ?_⟩) hne
      · exact h.1.combine (prefers_false_iff symbols name) v
      · exact h.2.combine _ v
    · obtain ⟨u, hu, hkeeps, hunites⟩ := exists_getElem?_merge
        (P := fun all u => u.KeepsAgreeing (Agrees symbols name) all ∧ u.Unites all)
        (fun u => ⟨.single u, .single u⟩) (fun all u h v => ⟨h.1.combine (agrees_congr symbols name)
          (prefers_true_iff symbols name) v, h.2.combine _ v⟩) hne
      exact ⟨u, hu, hkeeps.hasAgreeing (agrees_congr symbols name), hunites⟩
  · intro hnone hasDebugInfo
    rw [Std.TreeMap.mem_iff_isSome_getElem?, getElem?_merge, usages_eq_nil_iff.2 hnone]
    exact Bool.false_ne_true

def reportOn (usage : StackUsage) : StackReport := (∅ : StackReport).insert "f" usage

/-- Three usages of two sizes; the second has the size of the first and agrees with a
declaration. -/
def rivalUsages : List StackUsage :=
  [{ stack := 16, path := "b.c" }, { stack := 16, path := "a.c" },
    { stack := 40, path := "c.c" }]

def declaringTable : SymbolTable :=
  { symbols :=
      #[{ symbol := { name := "f" }
          notes := { source := some { path := "/w/a.c", line := 1, column := none } } }] }

theorem usages_reportOn (all : List StackUsage) : usages (all.map reportOn) "f" = all := by
  have hself (u : StackUsage) : (reportOn u)["f"]? = some u := by
    rw [reportOn, Std.TreeMap.getElem?_insert_self]
  induction all with
  | nil => rfl
  | cons u all ih =>
    rw [List.map_cons, usages, List.filterMap_cons, hself]
    exact congrArg (u :: ·) ih

theorem agrees_rivalUsages {u : StackUsage} (hu : u ∈ rivalUsages) :
    Agrees declaringTable "f" u ↔ u.path = "a.c" := by
  have hall : ∀ u ∈ rivalUsages,
      declaredIn declaringTable "f" u.path = true ↔ u.path = "a.c" := by
    simp only [rivalUsages, List.forall_mem_cons]
    decide +kernel
  rw [← declaredIn_iff, hall u hu]

theorem merge_usages_rivalUsages :
    (∃ report ∈ rivalUsages.map reportOn, "f" ∈ report) ∧
      (∃ u, (merge (rivalUsages.map reportOn) declaringTable false)["f"]? = some u ∧
        u.HasLargest rivalUsages) ∧
      ∃ u, (merge (rivalUsages.map reportOn) declaringTable true)["f"]? = some u ∧
        u.stack = 16 := by
  have hname : ∃ report ∈ rivalUsages.map reportOn, "f" ∈ report :=
    ⟨_, List.mem_cons_self, Std.TreeMap.mem_insert_self⟩
  obtain ⟨⟨u, hu, hlargest, -⟩, v, hv, hagreeing, -⟩ :=
    (merge_usages (rivalUsages.map reportOn) declaringTable "f").1 hname
  rw [usages_reportOn] at hlargest hagreeing
  have hsecond : { stack := 16, path := "a.c" } ∈ rivalUsages := by simp [rivalUsages]
  obtain ⟨w, hw, hagrees, hstack⟩ :=
    hagreeing.stack_of_agrees ⟨_, hsecond, (agrees_rivalUsages hsecond).2 rfl⟩
  have hpath := (agrees_rivalUsages hw).1 hagrees
  refine ⟨hname, ⟨u, hu, hlargest⟩, v, hv, ?_⟩
  simp only [rivalUsages, List.mem_cons, List.not_mem_nil, or_false] at hw
  obtain rfl | rfl | rfl := hw
  · exact absurd hpath (by decide)
  · exact hstack
  · exact absurd hpath (by decide)

end StackReport

end StackSurvey
