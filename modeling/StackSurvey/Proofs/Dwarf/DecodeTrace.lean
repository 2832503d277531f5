import StackSurvey.Proofs.Dwarf.DecodeCount
import StackSurvey.Proofs.Dwarf.SiblingLinks

namespace StackSurvey.Dwarf

open Decoder

variable {u : DebugUnit} {e : Entry} {resolver : Resolver} {offset depth : Nat} {p q : Progress}

theorem Progress.counted_add (p : Progress) (m n : Nat) :
    (p.counted m).counted n = p.counted (m + n) :=
  congrArg (fun decodes => { p with decodes }) (Nat.add_assoc ..)

namespace DebugUnit

/-- The offsets that are decoded on the way over open lists of children. -/
def skipTrace (u : DebugUnit) (offset depth : Nat) : List Nat :=
  match _hf : u.find offset with
  | .error _ => [offset]
  | .ok e =>
    match _hs : e.stepOver u depth with
    | .done _ => [offset]
    | .on next depth => offset :: u.skipTrace next depth
termination_by u.region.stop - offset
decreasing_by
  have := find_bounds _hf
  have := Entry.lt_of_stepOver (by omega) _hs
  simp only [ListStep.offset] at this
  omega

theorem skipTrace_eq (u : DebugUnit) (offset depth : Nat) :
    u.skipTrace offset depth =
      match u.find offset with
      | .error _ => [offset]
      | .ok e =>
        match e.stepOver u depth with
        | .done _ => [offset]
        | .on next depth => offset :: u.skipTrace next depth := by
  rw [skipTrace]
  split <;> rename_i hf <;> simp only [hf]
  split <;> rename_i hs <;> simp only [hs]

theorem skipTrace_of_done {stop : Nat} (hfind : u.find offset = .ok e)
    (hstep : e.stepOver u depth = .done stop) : u.skipTrace offset depth = [offset] := by
  rw [skipTrace_eq, hfind]
  simp only [hstep]

theorem skipTrace_of_on {next depth' : Nat} (hfind : u.find offset = .ok e)
    (hstep : e.stepOver u depth = .on next depth') :
    u.skipTrace offset depth = offset :: u.skipTrace next depth' := by
  rw [skipTrace_eq, hfind]
  simp only [hstep]

/-- Where stepping over lists leads to does not depend on what has been decoded before, and what it
decodes is its trace. -/
theorem skipLists_eq_trace (u : DebugUnit) (offset depth : Nat) (p : Progress) :
    (u.skipLists offset depth).after p = p.counted (u.skipTrace offset depth).length ∧
      (u.skipLists offset depth).answer p = (u.skipLists offset depth).answer {} := by
  suffices ∃ answer : Except Fault Nat, ∀ p,
      (u.skipLists offset depth).after p = p.counted (u.skipTrace offset depth).length ∧
        (u.skipLists offset depth).answer p = answer by
    obtain ⟨answer, h⟩ := this
    exact ⟨(h p).1, (h p).2.trans (h {}).2.symm⟩
  induction offset, depth using skipTrace.induct u with
  | case1 offset depth fault hfind =>
    refine ⟨.error fault, fun p => ?_⟩
    have herror : u.skipLists offset depth p = .error fault p.count := by
      rw [skipLists_eq, hfind]
    have htrace : u.skipTrace offset depth = [offset] := by
      rw [skipTrace_eq, hfind]
    rw [Visit.after_of_error herror, htrace, Visit.answer, herror]
    exact ⟨rfl, rfl⟩
  | case2 offset depth e hfind stop hstep =>
    refine ⟨.ok stop, fun p => ?_⟩
    have hok := skipLists_of_done hfind hstep p
    rw [Visit.after_of_ok hok, skipTrace_of_done hfind hstep]
    exact ⟨rfl, Visit.answer_of_ok hok⟩
  | case3 offset depth e hfind next depth' hstep ih =>
    obtain ⟨answer, ih⟩ := ih
    refine ⟨answer, fun p => ?_⟩
    obtain ⟨hafter, hanswer⟩ := ih p.count
    have hon := skipLists_of_on hfind hstep p
    rw [Visit.after_congr hon, hafter, skipTrace_of_on hfind hstep, List.length_cons,
      p.counted_count]
    refine ⟨rfl, ?_⟩
    rw [← hanswer, Visit.answer, Visit.answer, hon]

/-- The offsets that are decoded on the way to the next sibling of an entry. -/
def siblingTrace (u : DebugUnit) (e : Entry) : List Nat :=
  if e.hasChildren = true ∧ e.siblingTarget? u = none then u.skipTrace e.nextOffset 1 else []

theorem siblingOffset_eq_trace (u : DebugUnit) (e : Entry) (p : Progress) :
    (u.siblingOffset e).after p = p.counted (u.siblingTrace e).length ∧
      (u.siblingOffset e).answer p = (u.siblingOffset e).answer {} := by
  rw [siblingTrace]
  cases hchildren : e.hasChildren with
  | false =>
    have hok := siblingOffset_of_leaf (u := u) hchildren
    rw [Visit.after_of_ok (hok p), Visit.answer_of_ok (hok p), Visit.answer_of_ok (hok {}),
      if_neg fun h => Bool.false_ne_true h.1]
    exact ⟨rfl, rfl⟩
  | true =>
    cases htarget : e.siblingTarget? u with
    | some target =>
      have hok := siblingOffset_of_target hchildren htarget
      rw [Visit.after_of_ok (hok p), Visit.answer_of_ok (hok p), Visit.answer_of_ok (hok {}),
        if_neg fun h => Option.some_ne_none target h.2]
      exact ⟨rfl, rfl⟩
    | none =>
      have hlist := siblingOffset_of_list hchildren htarget
      obtain ⟨hafter, hanswer⟩ := u.skipLists_eq_trace e.nextOffset 1 p
      rw [Visit.after_congr (hlist p), hafter, if_pos ⟨rfl, rfl⟩]
      refine ⟨rfl, ?_⟩
      rw [Visit.answer, hlist p, Visit.answer, hlist {}]
      exact hanswer

/-- The offsets that are decoded when siblings are read from an offset on, each of them fast. -/
def listTrace (u : DebugUnit) (offset : Nat) : List Nat :=
  match _hf : u.find offset with
  | .error _ => [offset]
  | .ok e =>
    if e.isTerminator then
      [offset]
    else
      match _hs : u.siblingOffset e {} with
      | .error _ _ => offset :: u.siblingTrace e
      | .ok next _ => offset :: (u.siblingTrace e ++ u.listTrace next)
termination_by u.region.stop - offset
decreasing_by
  have := find_bounds _hf
  have := lt_of_siblingOffset (by omega) _hs
  omega

theorem listTrace_eq (u : DebugUnit) (offset : Nat) :
    u.listTrace offset =
      match u.find offset with
      | .error _ => [offset]
      | .ok e =>
        if e.isTerminator then
          [offset]
        else
          match u.siblingOffset e {} with
          | .error _ _ => offset :: u.siblingTrace e
          | .ok next _ => offset :: (u.siblingTrace e ++ u.listTrace next) := by
  rw [listTrace]
  split <;> rename_i hf <;> simp only [hf]
  split
  · rfl
  · split <;> rename_i hs <;> simp only [hs]

theorem listTrace_of_terminator (hfind : u.find offset = .ok e) (h : e.isTerminator = true) :
    u.listTrace offset = [offset] := by
  rw [listTrace_eq, hfind]
  exact if_pos h

theorem listTrace_of_entry {next : Nat} (hfind : u.find offset = .ok e)
    (h : ¬ e.isTerminator = true) (hnext : u.siblingOffset e p = .ok next q) :
    u.listTrace offset = offset :: (u.siblingTrace e ++ u.listTrace next) := by
  obtain ⟨r, hnext⟩ : ∃ r, u.siblingOffset e {} = .ok next r :=
    Visit.exists_of_answer_eq_ok
      ((u.siblingOffset_eq_trace e p).2.symm.trans (Visit.answer_of_ok hnext))
  rw [listTrace_eq, hfind]
  dsimp only
  rw [if_neg h, hnext]

theorem read_fast_eq_ok (h : u.read resolver .fast offset p = .ok e q) :
    u.find offset = .ok e ∧ q = p.count := by
  unfold read at h
  cases hfind : u.find offset with
  | error fault =>
    rw [hfind] at h
    cases h
  | ok found =>
    rw [hfind] at h
    cases h
    exact ⟨rfl, rfl⟩

/-- What reading siblings decodes is its trace, whatever has been decoded before. -/
theorem after_siblings_fast {before found : Array Entry}
    (h : u.siblings resolver .fast depth offset before p = .ok found q) :
    q = p.counted (u.listTrace offset).length := by
  induction offset, before, p using siblings.induct u resolver .fast depth with
  | case1 offset before p fault r hread =>
    rw [siblings_of_read_error hread] at h
    cases h
  | case2 offset before p e r hread hterminator =>
    obtain ⟨hfind, rfl⟩ := read_fast_eq_ok hread
    rw [siblings_of_terminator hread hterminator] at h
    cases h
    rw [listTrace_of_terminator hfind hterminator]
    rfl
  | case3 offset before p e r hread hentry fault s hnext =>
    rw [siblings_of_next_error hread hentry hnext] at h
    cases h
  | case4 offset before p e r hread hentry next s hnext ih =>
    obtain ⟨hfind, rfl⟩ := read_fast_eq_ok hread
    have hafter := (u.siblingOffset_eq_trace e p.count).1
    rw [Visit.after_of_ok hnext, p.counted_count] at hafter
    rw [siblings_of_entry hread hentry hnext] at h
    rw [ih h, hafter, Progress.counted_add, listTrace_of_entry hfind hentry hnext,
      List.length_cons, List.length_append, Nat.add_right_comm]

/-- The offsets that are decoded when the children of an entry are read, each of them fast. -/
def childTrace (u : DebugUnit) (e : Entry) : List Nat :=
  if e.hasChildren then u.listTrace e.nextOffset else []

theorem after_children_fast {found : List Entry} (h : u.children e .fast p = .ok found q) :
    q = p.counted (u.childTrace e).length := by
  rw [childTrace]
  cases hchildren : e.hasChildren with
  | false =>
    rw [children, hchildren] at h
    cases h
    rfl
  | true =>
    rw [children, if_pos hchildren] at h
    obtain ⟨siblings, hsiblings, -⟩ := Visit.exists_of_map_eq_ok h
    exact after_siblings_fast hsiblings

end DebugUnit

end StackSurvey.Dwarf
