import StackSurvey.Path.Basic
import StackSurvey.Proofs.Text.Lines
import Std.Data.TreeMap

namespace StackSurvey.Path

variable {dir name path : String} {before rest text : List Char}

/-- The component that a path begins with and that is no part of it: the root, or a dot that the
path does not begin anew at. -/
def lead (text : List Char) : List Component :=
  if text.head? = some '/' then [.root]
  else if (parts text).head? = some ['.'] then [.current]
  else []

/-- The components that the parts of a path stand for. -/
def body (text : List Char) : List Component := (parts text).filterMap ofPart?

theorem components_eq (path : String) :
    components path = lead path.toList ++ body path.toList := by
  rw [components]
  split
  · rename_i rest heq
    rw [heq]
    rfl
  · rename_i hroot
    have hhead : path.toList.head? ≠ some '/' := by
      intro h
      obtain ⟨rest, hrest⟩ := List.head?_eq_some_iff.1 h
      exact hroot rest hrest
    rw [lead, if_neg hhead]
    dsimp only
    split <;> rfl

theorem head?_parts_append (before rest : List Char) :
    (parts (before ++ '/' :: rest)).head? = (parts before).head? := by
  obtain ⟨first, others, hfirst⟩ :=
    List.exists_cons_of_ne_nil (Text.splitAt_ne_nil (· == '/') before)
  rw [parts, parts, Text.splitAt_append_separator rfl, hfirst]
  rfl

/-- What a path begins with does not depend on what follows a slash. -/
theorem lead_append_slash (before rest : List Char) :
    lead (before ++ '/' :: rest) = lead (before ++ ['/']) := by
  rw [lead, lead, head?_parts_append, head?_parts_append]
  cases before <;> rfl

theorem lead_append_of_ne_nil (h : before ≠ []) (rest : List Char) :
    lead (before ++ '/' :: rest) = lead before := by
  obtain ⟨c, before, rfl⟩ := List.exists_cons_of_ne_nil h
  rw [lead, head?_parts_append]
  rfl

theorem body_append_slash (before rest : List Char) :
    body (before ++ '/' :: rest) = body before ++ body rest := by
  rw [body, parts, Text.splitAt_append_separator rfl, List.filterMap_append]
  rfl

/-- What the paths of the entries of a directory begin with. -/
def opening (dir : String) : List Char :=
  if dir.isEmpty ∨ dir.toList.getLast? = some '/' then dir.toList else dir.toList ++ ['/']

theorem toList_join (dir name : String) : (join dir name).toList = opening dir ++ name.toList := by
  rw [join, opening]
  split
  · exact String.toList_append
  · rw [String.toList_append, String.toList_append]
    rfl

theorem exists_opening (h : dir ≠ "") :
    ∃ before, opening dir = before ++ ['/'] ∧
      (before = dir.toList ∨ before ++ ['/'] = dir.toList) := by
  have hempty : ¬ dir.isEmpty = true := by rwa [String.isEmpty_iff]
  rw [opening]
  by_cases hlast : dir.toList.getLast? = some '/'
  · obtain ⟨before, hbefore⟩ := List.getLast?_eq_some_iff.1 hlast
    exact ⟨before, by rw [if_pos (.inr hlast), hbefore], .inr hbefore.symm⟩
  · exact ⟨dir.toList, by rw [if_neg (not_or.2 ⟨hempty, hlast⟩)], .inl rfl⟩

/-- The components of a name come behind those of its directory. -/
theorem components_join_of_ne_empty (h : dir ≠ "") (name : String) :
    components (join dir name) = components dir ++ body name.toList := by
  obtain ⟨before, hopening, hdir⟩ := exists_opening h
  have hjoin : (join dir name).toList = before ++ '/' :: name.toList := by
    rw [toList_join, hopening, List.append_assoc, List.singleton_append]
  rw [components_eq, components_eq, hjoin, body_append_slash, ← List.append_assoc]
  congr 1
  rcases hdir with hdir | hdir
  · have hne : before ≠ [] := by
      rw [hdir]
      exact mt String.toList_eq_nil_iff.1 h
    rw [lead_append_of_ne_nil hne, hdir]
  · rw [lead_append_slash, ← hdir, body_append_slash]
    exact congrArg _ (List.append_nil _).symm

/-- A name that an entry of a directory can have. -/
structure IsEntryName (name : String) : Prop where
  ne_empty : name ≠ ""
  ne_dot : name ≠ "."
  ne_dots : name ≠ ".."
  slash_notMem : '/' ∉ name.toList

namespace IsEntryName

theorem toList_ne (h : IsEntryName name) :
    name.toList ≠ [] ∧ name.toList ≠ ['.'] ∧ name.toList ≠ ['.', '.'] :=
  ⟨mt String.toList_eq_nil_iff.1 h.ne_empty, fun hdot => h.ne_dot (String.toList_inj.1 hdot),
    fun hdots => h.ne_dots (String.toList_inj.1 hdots)⟩

theorem parts_eq (h : IsEntryName name) : parts name.toList = [name.toList] := by
  have hword : ∀ c ∈ name.toList, (c == '/') = false := by
    intro c hc
    exact beq_false_of_ne fun hslash => h.slash_notMem (hslash ▸ hc)
  exact Text.splitAt_of_forall hword

theorem body_eq (h : IsEntryName name) : body name.toList = [.name name] := by
  obtain ⟨hnil, hdot, hdots⟩ := h.toList_ne
  have hpart : ofPart? name.toList = some (.name name) := by
    rw [ofPart?, if_neg (not_or.2 ⟨hnil, hdot⟩), if_neg hdots, String.ofList_toList]
  rw [body, h.parts_eq, List.filterMap_cons_some hpart, List.filterMap_nil]

theorem lead_eq (h : IsEntryName name) : lead name.toList = [] := by
  have hroot : name.toList.head? ≠ some '/' :=
    fun hhead => h.slash_notMem (List.mem_of_mem_head? hhead)
  have hcurrent : (parts name.toList).head? ≠ some ['.'] := by
    rw [h.parts_eq]
    exact fun hhead => h.toList_ne.2.1 (Option.some.inj hhead)
  rw [lead, if_neg hroot, if_neg hcurrent]

end IsEntryName

theorem components_join (h : IsEntryName name) (dir : String) :
    components (join dir name) = components dir ++ [.name name] := by
  by_cases hdir : dir = ""
  · have hjoin : join dir name = name := by
      rw [join, if_pos (.inl (String.isEmpty_iff.2 hdir)), hdir, String.empty_append]
    rw [hjoin, hdir, components_eq, h.lead_eq, h.body_eq]
    rfl
  · rw [components_join_of_ne_empty hdir, h.body_eq]

theorem opening_join (h : IsEntryName name) (dir : String) :
    opening (join dir name) = opening dir ++ (name.toList ++ ['/']) := by
  have hempty : ¬ (join dir name).isEmpty = true := by
    rw [String.isEmpty_iff, ← String.toList_eq_nil_iff, toList_join, List.append_eq_nil_iff]
    exact fun hnil => h.toList_ne.1 hnil.2
  have hlast : (join dir name).toList.getLast? ≠ some '/' := by
    rw [toList_join, List.getLast?_append_of_ne_nil _ h.toList_ne.1]
    exact fun hslash => h.slash_notMem (List.mem_of_getLast? hslash)
  rw [opening, if_neg (not_or.2 ⟨hempty, hlast⟩), toList_join, List.append_assoc]

section Order

instance : Std.TransCmp Component.compare :=
  inferInstanceAs (Std.TransCmp (compareLex (compareOn Component.rank) (compareOn Component.text)))

instance : Std.LawfulEqCmp Component.compare where
  compare_self := Std.ReflCmp.compare_self
  eq_of_compare := by
    intro a b h
    obtain ⟨hrank, htext⟩ := Ordering.then_eq_eq.1 h
    have hrank := Std.LawfulEqCmp.eq_of_compare hrank
    have htext := Std.LawfulEqCmp.eq_of_compare htext
    cases a <;> cases b <;> simp_all [Component.rank, Component.text]

theorem compare_go_eq_compareLex (a b : List Component) :
    compare.go a b = List.compareLex Component.compare a b := by
  induction a generalizing b with
  | nil => cases b <;> rfl
  | cons x a ih =>
    cases b with
    | nil => rfl
    | cons y b => rw [compare.go, ih, List.compareLex_cons_cons]

theorem compare_eq_compareLex (a b : String) :
    compare a b = List.compareLex Component.compare (components a) (components b) :=
  compare_go_eq_compareLex _ _

instance : Std.TransCmp compare where
  eq_swap := by
    intro a b
    rw [compare_eq_compareLex, compare_eq_compareLex]
    exact Std.OrientedCmp.eq_swap
  isLE_trans := by
    intro a b c hab hbc
    rw [compare_eq_compareLex] at *
    exact Std.TransCmp.isLE_trans hab hbc

/-- Paths are equal in the order of paths exactly if their components are the same. -/
theorem compare_eq_eq_iff {a b : String} : compare a b = .eq ↔ components a = components b := by
  rw [compare_eq_compareLex]
  exact Std.LawfulEqCmp.compare_eq_iff_eq

end Order

end StackSurvey.Path
