import StackSurvey.Dwarf.Visit

namespace StackSurvey.Dwarf

theorem Entry.abbreviation_resolve (u : DebugUnit) (resolver : Resolver) (e : Entry) :
    (e.resolve u resolver).abbreviation = e.abbreviation := by
  unfold resolve withPc withRanges withDeclaration
  repeat' split
  all_goals rfl

theorem Entry.slots_resolve (u : DebugUnit) (resolver : Resolver) (e : Entry) :
    (e.resolve u resolver).slots = e.slots := by
  unfold resolve withPc withRanges withDeclaration
  repeat' split
  all_goals rfl

theorem Entry.isTerminator_resolve (u : DebugUnit) (resolver : Resolver) (e : Entry) :
    (e.resolve u resolver).isTerminator = e.isTerminator := by
  rw [isTerminator, abbreviation_resolve]
  rfl

theorem Entry.hasChildren_resolve (u : DebugUnit) (resolver : Resolver) (e : Entry) :
    (e.resolve u resolver).hasChildren = e.hasChildren := by
  rw [hasChildren, abbreviation_resolve]
  rfl

namespace Entry

/-- What a mode reads of an entry that is found. -/
def readAs (u : DebugUnit) (resolver : Resolver) (e : Entry) : ReadMode → Entry
  | .fast => e
  | .full => e.resolve u resolver

variable {u : DebugUnit} (resolver : Resolver) (mode : ReadMode) (e : Entry)

theorem offset_readAs : (e.readAs u resolver mode).offset = e.offset := by
  cases mode with
  | fast => rfl
  | full => exact offset_resolve ..

theorem nextOffset_readAs : (e.readAs u resolver mode).nextOffset = e.nextOffset := by
  cases mode with
  | fast => rfl
  | full => exact nextOffset_resolve ..

theorem abbreviation_readAs : (e.readAs u resolver mode).abbreviation = e.abbreviation := by
  cases mode with
  | fast => rfl
  | full => exact abbreviation_resolve ..

theorem slots_readAs : (e.readAs u resolver mode).slots = e.slots := by
  cases mode with
  | fast => rfl
  | full => exact slots_resolve ..

theorem isTerminator_readAs : (e.readAs u resolver mode).isTerminator = e.isTerminator := by
  rw [isTerminator, abbreviation_readAs]
  rfl

theorem hasChildren_readAs : (e.readAs u resolver mode).hasChildren = e.hasChildren := by
  rw [hasChildren, abbreviation_readAs]
  rfl

theorem attr_readAs (name : UInt64) : (e.readAs u resolver mode).attr u name = e.attr u name := by
  rw [attr, slot?, slots_readAs]
  rfl

end Entry

namespace DebugUnit

variable {u : DebugUnit} {resolver : Resolver}

theorem read_of_find {offset : Nat} {e : Entry} (h : u.find offset = .ok e) (mode : ReadMode)
    (p : Progress) : ∃ q, u.read resolver mode offset p = .ok (e.readAs u resolver mode) q := by
  unfold read
  rw [h]
  cases mode
  · exact ⟨_, rfl⟩
  · exact ⟨_, rfl⟩

/-- An entry in full, as a traversal lists it at some depth. -/
def listed (u : DebugUnit) (resolver : Resolver) (depth : Nat) (e : Entry) : Entry :=
  { e.resolve u resolver with depth }

/-- The entries from an offset on, inside `depth` open lists of children. -/
def walk (u : DebugUnit) (resolver : Resolver) (offset depth : Nat) : List Entry :=
  if offset < u.region.stop then
    match _hf : u.find offset with
    | .error _ => []
    | .ok e =>
      if e.isTerminator then
        if depth ≤ 1 then [] else u.walk resolver e.nextOffset (depth - 1)
      else if e.hasChildren then
        u.listed resolver depth e :: u.walk resolver e.nextOffset (depth + 1)
      else if depth = 0 then [u.listed resolver depth e]
      else u.listed resolver depth e :: u.walk resolver e.nextOffset depth
  else
    []
termination_by u.region.stop - offset
decreasing_by
  all_goals
    have := find_bounds _hf
    omega

theorem walk_of_find {offset depth : Nat} {e : Entry} (h : u.find offset = .ok e) :
    u.walk resolver offset depth =
      if e.isTerminator then
        if depth ≤ 1 then [] else u.walk resolver e.nextOffset (depth - 1)
      else if e.hasChildren then
        u.listed resolver depth e :: u.walk resolver e.nextOffset (depth + 1)
      else if depth = 0 then [u.listed resolver depth e]
      else u.listed resolver depth e :: u.walk resolver e.nextOffset depth := by
  have hlt : offset < u.region.stop := (find_bounds h).2.2.2.2
  rw [walk, if_pos hlt]
  split
  · rename_i hf
    rw [h] at hf
    cases hf
  · rename_i hf
    rw [h] at hf
    cases hf
    rfl

theorem walk_of_error {offset depth : Nat} {fault : Fault} (h : u.find offset = .error fault) :
    u.walk resolver offset depth = [] := by
  rw [walk]
  split
  · split
    · rfl
    · rename_i hf
      rw [h] at hf
      cases hf
  · rfl

theorem walk_of_not_lt {offset depth : Nat} (h : ¬ offset < u.region.stop) :
    u.walk resolver offset depth = [] := by
  rw [walk, if_neg h]

theorem find_of_read_full {offset : Nat} {e : Entry} {p q : Progress}
    (h : u.read resolver .full offset p = .ok e q) :
    ∃ found, u.find offset = .ok found ∧ e = found.resolve u resolver := by
  unfold read at h
  cases hf : u.find offset with
  | error fault =>
    rw [hf] at h
    cases h
  | ok found =>
    rw [hf] at h
    cases h
    exact ⟨found, rfl, rfl⟩

theorem find_of_read_error {offset : Nat} {fault : Fault} {p q : Progress}
    (h : u.read resolver .full offset p = .error fault q) : u.find offset = .error fault := by
  unfold read at h
  cases hf : u.find offset with
  | error fault =>
    rw [hf] at h
    cases h
    rfl
  | ok found =>
    rw [hf] at h
    cases h

theorem entriesFrom_of_error {offset depth : Nat} {before : Array Entry} {fault : Fault}
    {p q : Progress} (hlt : offset < u.region.stop)
    (h : u.read resolver .full offset p = .error fault q) :
    u.entriesFrom resolver offset depth before p = (before, q) := by
  rw [entriesFrom, if_pos hlt]
  split
  · rename_i hread
    rw [h] at hread
    cases hread
    rfl
  · rename_i hread
    rw [h] at hread
    cases hread

theorem entriesFrom_of_read {offset depth : Nat} {before : Array Entry} {e : Entry}
    {p q : Progress} (hlt : offset < u.region.stop)
    (h : u.read resolver .full offset p = .ok e q) :
    u.entriesFrom resolver offset depth before p =
      if e.isTerminator then
        if depth ≤ 1 then (before, q)
        else u.entriesFrom resolver e.nextOffset (depth - 1) before q
      else if e.hasChildren then
        u.entriesFrom resolver e.nextOffset (depth + 1) (before.push { e with depth }) q
      else if depth = 0 then (before.push { e with depth }, q)
      else u.entriesFrom resolver e.nextOffset depth (before.push { e with depth }) q := by
  rw [entriesFrom, if_pos hlt]
  split
  · rename_i hr
    rw [h] at hr
    cases hr
  · rename_i hr
    rw [h] at hr
    cases hr
    rfl

theorem walk_of_read {offset depth : Nat} {e : Entry} {p q : Progress}
    (h : u.read resolver .full offset p = .ok e q) :
    u.walk resolver offset depth =
      if e.isTerminator then
        if depth ≤ 1 then [] else u.walk resolver e.nextOffset (depth - 1)
      else if e.hasChildren then
        { e with depth } :: u.walk resolver e.nextOffset (depth + 1)
      else if depth = 0 then [{ e with depth }]
      else { e with depth } :: u.walk resolver e.nextOffset depth := by
  obtain ⟨found, hf, rfl⟩ := find_of_read_full h
  rw [walk_of_find hf, ← Entry.isTerminator_resolve u resolver,
    ← Entry.hasChildren_resolve u resolver, ← Entry.nextOffset_resolve u resolver]
  rfl

/-- A traversal lists the walk after the entries before, whatever has been decoded. -/
theorem toList_entriesFrom (u : DebugUnit) (resolver : Resolver) (offset depth : Nat)
    (before : Array Entry) (p : Progress) :
    (u.entriesFrom resolver offset depth before p).1.toList =
      before.toList ++ u.walk resolver offset depth := by
  induction offset, depth, before, p using entriesFrom.induct u resolver with
  | case1 offset depth before p hlt fault q hr =>
    rw [entriesFrom_of_error hlt hr, walk_of_error (find_of_read_error hr), List.append_nil]
  | case2 offset depth before p hlt e q hr ht hd =>
    rw [entriesFrom_of_read hlt hr, walk_of_read hr, if_pos ht, if_pos ht, if_pos hd, if_pos hd,
      List.append_nil]
  | case3 offset depth before p hlt e q hr ht hd ih =>
    rw [entriesFrom_of_read hlt hr, walk_of_read hr, if_pos ht, if_pos ht, if_neg hd, if_neg hd, ih]
  | case4 offset depth before p hlt e q hr ht hc ih =>
    rw [entriesFrom_of_read hlt hr, walk_of_read hr, if_neg ht, if_neg ht, if_pos hc, if_pos hc, ih,
      Array.toList_push, List.append_assoc, List.singleton_append]
  | case5 offset before p hlt e q hr ht hc =>
    rw [entriesFrom_of_read hlt hr, walk_of_read hr, if_neg ht, if_neg ht, if_neg hc, if_neg hc,
      if_pos rfl, if_pos rfl, Array.toList_push]
  | case6 offset depth before p hlt e q hr ht hc hd ih =>
    rw [entriesFrom_of_read hlt hr, walk_of_read hr, if_neg ht, if_neg ht, if_neg hc, if_neg hc,
      if_neg hd, if_neg hd, ih, Array.toList_push, List.append_assoc, List.singleton_append]
  | case7 offset depth before p hlt =>
    rw [entriesFrom, if_neg hlt, walk_of_not_lt hlt, List.append_nil]

def entryList (u : DebugUnit) : List Entry := u.walk u.resolver u.header.rootOffset 0

theorem entries_eq (u : DebugUnit) (p : Progress) : ∃ q, u.entries p = .ok u.entryList q := by
  have h := u.toList_entriesFrom u.resolver u.header.rootOffset 0 #[] p
  rw [List.nil_append] at h
  change ∃ q, EStateM.Result.ok (u.entriesFrom _ _ _ _ p).1.toList _ = _
  rw [h]
  exact ⟨_, rfl⟩

/-- What holds of every entry that is found and resolved, at whatever depth it is listed, holds of
the entries of a unit. -/
theorem forall_mem_walk {motive : Entry → Prop}
    (found : ∀ e offset depth, u.find offset = .ok e → motive (u.listed resolver depth e))
    (offset depth : Nat) : ∀ e ∈ u.walk resolver offset depth, motive e := by
  induction offset, depth using walk.induct u with
  | case1 offset depth hlt fault hf =>
    rw [walk_of_error hf]
    exact fun _ h => by cases h
  | case2 offset depth hlt e hf ht hd =>
    rw [walk_of_find hf, if_pos ht, if_pos hd]
    exact fun _ h => by cases h
  | case3 offset depth hlt e hf ht hd ih =>
    rw [walk_of_find hf, if_pos ht, if_neg hd]
    exact ih
  | case4 offset depth hlt e hf ht hc ih =>
    rw [walk_of_find hf, if_neg ht, if_pos hc]
    exact List.forall_mem_cons.2 ⟨found e _ _ hf, ih⟩
  | case5 offset hlt e hf ht hc =>
    rw [walk_of_find hf, if_neg ht, if_neg hc, if_pos rfl]
    exact List.forall_mem_cons.2 ⟨found e _ _ hf, fun _ h => by cases h⟩
  | case6 offset depth hlt e hf ht hc hd ih =>
    rw [walk_of_find hf, if_neg ht, if_neg hc, if_neg hd]
    exact List.forall_mem_cons.2 ⟨found e _ _ hf, ih⟩
  | case7 offset depth hlt =>
    rw [walk_of_not_lt hlt]
    exact fun _ h => by cases h

end DebugUnit

end StackSurvey.Dwarf
