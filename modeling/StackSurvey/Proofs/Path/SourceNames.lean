import StackSurvey.Path.Source
import StackSurvey.Proofs.Path.Components

namespace StackSurvey.Path

variable {dir name path tail : String} {c : Component} {text : List Char}

/-- A name that has a component other than the dot it may begin with. -/
def NamesSomething (name : String) : Prop := ∃ c ∈ components (withSlashes name), c ≠ .current

theorem mem_body (h : c ∈ body text) : c ≠ .root ∧ c ≠ .current := by
  obtain ⟨part, -, hpart⟩ := List.mem_filterMap.1 h
  rw [ofPart?] at hpart
  split at hpart
  · cases hpart
  · split at hpart <;> cases hpart <;> exact ⟨Component.noConfusion, Component.noConfusion⟩

/-- The components that a path has to end with. -/
def wanted (tail : String) : List Component :=
  (components (withSlashes tail)).filter (· ≠ .current)

theorem namesSomething_iff : NamesSomething name ↔ wanted name ≠ [] := by
  rw [NamesSomething, wanted, ne_eq, List.filter_eq_nil_iff]
  simp

theorem wanted_of_rooted (h : (withSlashes tail).toList.head? = some '/') :
    wanted tail = components (withSlashes tail) ∧ (wanted tail).head? = some .root := by
  have hbody := List.filter_eq_self.2 fun c (hc : c ∈ body (withSlashes tail).toList) =>
    decide_eq_true (mem_body hc).2
  rw [wanted, components_eq, lead, if_pos h, List.singleton_append,
    List.filter_cons_of_pos (by decide), hbody]
  exact ⟨rfl, rfl⟩

theorem wanted_of_relative (h : (withSlashes tail).toList.head? ≠ some '/') :
    wanted tail = body (withSlashes tail).toList ∧ (wanted tail).head? ≠ some .root := by
  have hbody := List.filter_eq_self.2 fun c (hc : c ∈ body (withSlashes tail).toList) =>
    decide_eq_true (mem_body hc).2
  have hwanted : wanted tail = body (withSlashes tail).toList := by
    rw [wanted, components_eq, List.filter_append, hbody, lead, if_neg h]
    split <;> rfl
  refine ⟨hwanted, fun hhead => ?_⟩
  rw [hwanted] at hhead
  exact (mem_body (List.mem_of_mem_head? hhead)).1 rfl

theorem endsWith_iff :
    endsWith path tail = true ↔
      wanted tail ≠ [] ∧
        if (wanted tail).head? = some .root then components (withSlashes path) = wanted tail
        else wanted tail <:+ components (withSlashes path) := by
  have heq : endsWith path tail =
      if wanted tail = [] ∨ (components (withSlashes path)).length < (wanted tail).length then false
      else if (wanted tail).head? = some .root then components (withSlashes path) = wanted tail
      else (components (withSlashes path)).drop
        ((components (withSlashes path)).length - (wanted tail).length) = wanted tail := rfl
  rw [heq]
  by_cases hshort :
    wanted tail = [] ∨ (components (withSlashes path)).length < (wanted tail).length
  · -- A path with fewer components neither equals nor ends with the wanted ones.
    rw [if_pos hshort]
    refine iff_of_false Bool.false_ne_true fun ⟨hne, h⟩ => ?_
    refine Nat.not_le_of_lt (hshort.resolve_left hne) ?_
    split at h
    · exact Nat.le_of_eq (congrArg List.length h).symm
    · exact h.length_le
  · rw [if_neg hshort, and_iff_right (not_or.1 hshort).1]
    by_cases hroot : (wanted tail).head? = some .root
    · rw [if_pos hroot, if_pos hroot, decide_eq_true_iff]
    · rw [if_neg hroot, if_neg hroot, decide_eq_true_iff, List.suffix_iff_eq_drop, eq_comm]

/-- A relative tail ends a path exactly if its components are the last ones of the path. -/
theorem endsWith_iff_of_relative (h : (withSlashes tail).toList.head? ≠ some '/') :
    endsWith path tail = true ↔
      wanted tail ≠ [] ∧ body (withSlashes tail).toList <:+ components (withSlashes path) := by
  obtain ⟨hwanted, hhead⟩ := wanted_of_relative h
  rw [endsWith_iff, if_neg hhead, hwanted]

theorem endsWith_self (h : NamesSomething name) : endsWith name name = true := by
  rw [namesSomething_iff] at h
  by_cases hroot : (withSlashes name).toList.head? = some '/'
  · obtain ⟨hwanted, hhead⟩ := wanted_of_rooted hroot
    exact endsWith_iff.2 ⟨h, by rw [if_pos hhead, hwanted]⟩
  · refine (endsWith_iff_of_relative hroot).2 ⟨h, ?_⟩
    rw [components_eq]
    exact List.suffix_append ..

theorem toList_withSlashes (path : String) :
    (withSlashes path).toList = path.toList.map fun c => if c = '\\' then '/' else c := by
  rw [withSlashes, String.toList_map]

theorem head?_withSlashes_of_not_isComplete (h : ¬ isComplete name = true) :
    (withSlashes name).toList.head? ≠ some '/' := by
  intro hhead
  rw [toList_withSlashes, List.head?_map, Option.map_eq_some_iff] at hhead
  obtain ⟨c, hc, hslash⟩ := hhead
  obtain ⟨rest, hname⟩ := List.head?_eq_some_iff.1 hc
  refine h ?_
  rw [isComplete, hname]
  split at hslash
  · subst c
    rfl
  · subst c
    rfl

/-- A name that is joined to a directory ends the path. -/
theorem endsWith_join (hdir : dir ≠ "") (hname : (withSlashes name).toList.head? ≠ some '/')
    (h : NamesSomething name) : endsWith (join dir name) name = true := by
  refine (endsWith_iff_of_relative hname).2 ⟨namesSomething_iff.1 h, ?_⟩
  obtain ⟨before, hopening, -⟩ := exists_opening hdir
  rw [components_eq, toList_withSlashes, toList_withSlashes, toList_join, hopening,
    List.append_assoc, List.map_append, List.singleton_append, List.map_cons]
  change _ <:+ _ ++ body (_ ++ '/' :: _)
  rw [body_append_slash, ← List.append_assoc]
  exact List.suffix_append ..

/-- A name ends the path that it has from any directory exactly if it names something. -/
theorem endsWith_joinSource_iff (dir name : String) :
    endsWith (joinSource dir name) name = true ↔ NamesSomething name := by
  refine ⟨fun h => namesSomething_iff.2 (endsWith_iff.1 h).1, fun h => ?_⟩
  rw [joinSource]
  split
  · exact endsWith_self h
  · rename_i hrelative
    obtain ⟨hdir, hcomplete⟩ := not_or.1 hrelative
    split
    · rename_i hempty
      obtain ⟨c, hc, -⟩ := h
      rw [String.isEmpty_iff.1 hempty, components_eq, toList_withSlashes] at hc
      cases hc
    · have hdir : dir ≠ "" := fun hempty => hdir (String.isEmpty_iff.2 hempty)
      exact endsWith_join hdir (head?_withSlashes_of_not_isComplete hcomplete) h

end StackSurvey.Path
