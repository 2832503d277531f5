import Mathlib.Logic.Relation
import StackSurvey.Proofs.Dwarf.Navigation

namespace StackSurvey.Dwarf

open Relation

variable {α : Type} {u : DebugUnit} {e : Entry} {mode : ReadMode} {resolver : Resolver}
  {offset depth : Nat} {fault : Fault} {p q : Progress}

namespace Visit

/-- What has been decoded after a visit, whether it succeeds or fails. -/
def after (visit : Visit α) (p : Progress) : Progress :=
  match visit p with
  | .ok _ q => q
  | .error _ q => q

theorem after_of_ok {visit : Visit α} {a : α} (h : visit p = .ok a q) :
    visit.after p = q := by
  rw [after, h]

theorem after_of_error {visit : Visit α} (h : visit p = .error fault q) :
    visit.after p = q := by
  rw [after, h]

theorem after_congr {visit visit' : Visit α} (h : visit p = visit' q) :
    visit.after p = visit'.after q := by
  rw [after, h]
  rfl

theorem after_map {β : Type} (visit : Visit α) (g : α → β) (p : Progress) :
    after (g <$> visit) p = visit.after p := by
  change after (EStateM.map g visit) p = _
  rw [after, after, EStateM.map]
  cases visit p <;> rfl

theorem exists_of_map_eq_ok {β : Type} {visit : Visit α} {g : α → β} {b : β}
    (h : (g <$> visit) p = .ok b q) : ∃ a, visit p = .ok a q ∧ b = g a := by
  change EStateM.map g visit p = _ at h
  rw [EStateM.map] at h
  cases hvisit : visit p with
  | ok a r =>
    rw [hvisit] at h
    cases h
    exact ⟨a, rfl, rfl⟩
  | error fault r =>
    rw [hvisit] at h
    cases h

end Visit

/-- Some more entries have been decoded. -/
def Progress.counted (p : Progress) (n : Nat) : Progress := { p with decodes := p.decodes + n }

theorem Progress.counted_count (p : Progress) (n : Nat) : p.count.counted n = p.counted (n + 1) :=
  congrArg (fun decodes => { p with decodes }) (by simp only [count]; omega)

namespace ReadMode

/-- How many decodes serve a whole unit: of its root, for the line table and for the base
address. -/
def loads : ReadMode → Nat
  | fast => 0
  | full => 2

/-- The entries decoded so far and those still to be decoded for the whole unit. -/
def charge (mode : ReadMode) (p : Progress) : Nat :=
  match mode with
  | fast => p.decodes
  | full => p.decodes + (!p.lineTable).toNat + (!p.base).toNat

theorem decodes_le_charge (mode : ReadMode) (p : Progress) : p.decodes ≤ mode.charge p := by
  cases mode with
  | fast => exact Nat.le_refl _
  | full =>
    rw [charge, Nat.add_assoc]
    exact Nat.le_add_right ..

theorem charge_le (mode : ReadMode) (p : Progress) :
    mode.charge p ≤ p.decodes + mode.loads := by
  cases mode with
  | fast => exact Nat.le_refl _
  | full =>
    have hline := Bool.toNat_le (!p.lineTable)
    have hbase := Bool.toNat_le (!p.base)
    simp only [charge, loads]
    omega

theorem charge_counted (mode : ReadMode) (p : Progress) (n : Nat) :
    mode.charge (p.counted n) = mode.charge p + n := by
  cases mode with
  | fast => rfl
  | full =>
    simp only [charge, Progress.counted]
    omega

theorem charge_count (mode : ReadMode) (p : Progress) :
    mode.charge p.count = mode.charge p + 1 := charge_counted mode p 1

theorem charge_needLineTable (p : Progress) : full.charge p.needLineTable = full.charge p := by
  rw [Progress.needLineTable]
  split
  · rfl
  · rename_i hline
    simp only [charge, Progress.count, Bool.eq_false_iff.2 hline, Bool.not_true, Bool.not_false,
      Bool.toNat_true, Bool.toNat_false]

theorem charge_needBase (p : Progress) : full.charge p.needBase = full.charge p := by
  rw [Progress.needBase]
  split
  · rfl
  · rename_i hbase
    simp only [charge, Progress.count, Bool.eq_false_iff.2 hbase, Bool.not_true, Bool.not_false,
      Bool.toNat_true, Bool.toNat_false]
    omega

/-- What an entry needs for the whole unit has been charged before. -/
theorem charge_resolving (u : DebugUnit) (e : Entry) (p : Progress) :
    full.charge (p.resolving u e) = full.charge p := by
  have hline : full.charge (if (e.declaration? u).isSome then p.needLineTable else p) =
      full.charge p := by
    split
    · exact charge_needLineTable p
    · rfl
  simp only [Progress.resolving]
  split
  · rw [charge_needBase, hline]
  · exact hline

end ReadMode

/-- Every read is charged once, whether it succeeds or fails. -/
theorem DebugUnit.charge_of_read (h : u.read resolver mode offset p = .ok e q) :
    mode.charge q = mode.charge p + 1 := by
  unfold read at h
  cases hfind : u.find offset with
  | error fault =>
    rw [hfind] at h
    cases h
  | ok found =>
    rw [hfind] at h
    cases mode with
    | fast =>
      cases h
      rfl
    | full =>
      cases h
      exact (ReadMode.charge_resolving u found p.count).trans (ReadMode.charge_count .full p)

theorem DebugUnit.charge_of_read_error (h : u.read resolver mode offset p = .error fault q) :
    mode.charge q = mode.charge p + 1 := by
  unfold read at h
  cases hfind : u.find offset with
  | error fault =>
    rw [hfind] at h
    cases h
    exact mode.charge_count p
  | ok found =>
    rw [hfind] at h
    cases mode with
    | fast => cases h
    | full => cases h

/-- An entry is one of a unit: its bytes are some of the unit's, past the header. -/
structure DebugUnit.Places (u : DebugUnit) (e : Entry) : Prop where
  contains : u.containsOffset e.offset = true
  lt_next : e.offset < e.nextOffset
  next_le : e.nextOffset ≤ u.region.stop

theorem DebugUnit.places_of_find (h : u.find offset = .ok e) : u.Places e := by
  obtain ⟨rfl, hnext, hlimit, hroot, hstop⟩ := find_bounds h
  refine ⟨?_, hnext, Nat.le_trans hlimit (Nat.min_le_left ..)⟩
  simp only [containsOffset, hroot, hstop, decide_true, Bool.and_self]

theorem DebugUnit.Places.lt_stop (h : u.Places e) : e.offset < u.region.stop :=
  Nat.lt_of_lt_of_le h.lt_next h.next_le

theorem DebugUnit.places_of_read (h : u.read resolver mode offset p = .ok e q) :
    u.Places e ∧ e.offset = offset := by
  obtain ⟨found, hfind, hoffset, hnext⟩ := find_of_read h
  have hfound := places_of_find hfind
  refine ⟨⟨?_, ?_, ?_⟩, hoffset.trans (find_bounds hfind).1⟩
  · exact hoffset ▸ hfound.contains
  · exact hoffset ▸ hnext ▸ hfound.lt_next
  · exact hnext ▸ hfound.next_le

/-- What has been decoded and what may still be does not grow with a read. -/
theorem DebugUnit.charge_add_of_read (h : u.read resolver mode offset p = .ok e q) :
    mode.charge q + (u.region.stop - e.nextOffset) ≤
      mode.charge p + (u.region.stop - offset) := by
  obtain ⟨hplaces, rfl⟩ := places_of_read h
  have hcharge := charge_of_read h
  have hnext := hplaces.lt_next
  have hstop := hplaces.lt_stop
  omega

theorem Attribute.lt_of_localReference {a : Attribute} {target : Nat}
    (h : a.localReference u = .ok target) : target < u.region.stop := by
  rw [localReference] at h
  cases hdistance : a.distance u with
  | error fault =>
    rw [hdistance] at h
    cases h
  | ok distance =>
    rw [hdistance] at h
    simp only [bind, Except.bind] at h
    split at h
    · rename_i hcontains
      cases h
      exact of_decide_eq_true (Bool.and_eq_true_iff.1 hcontains).2
    · cases h

/-- A sibling that is stated is used inside the unit only. -/
theorem Entry.siblingTarget?_lt {target : Nat} (h : e.siblingTarget? u = some target) :
    target < u.region.stop := by
  have hvalue := (Option.filter_eq_some_iff.1 h).1
  rw [value?, value] at hvalue
  cases hattr : e.attr u KnownAttribute.sibling.code with
  | error fault =>
    rw [hattr] at hvalue
    cases hvalue
  | ok a =>
    rw [hattr] at hvalue
    cases hlocal : a.localReference u with
    | error fault =>
      change (a.localReference u).toOption = _ at hvalue
      rw [hlocal] at hvalue
      cases hvalue
    | ok found =>
      change (a.localReference u).toOption = _ at hvalue
      rw [hlocal] at hvalue
      cases hvalue
      exact Attribute.lt_of_localReference hlocal

theorem Entry.eq_nextOffset_of_stepOver {stop : Nat} (h : e.stepOver u depth = .done stop) :
    stop = e.nextOffset := by
  rw [stepOver] at h
  split at h
  · split at h
    · cases h
      rfl
    · cases h
  · split at h
    · split at h
      · cases h
      · cases h
    · cases h

namespace DebugUnit

/-- One step over open lists of children: from an entry, inside as many lists as are open there, to
the next that is read. -/
def StepsOver (u : DebugUnit) (s t : Nat × Nat) : Prop :=
  ∃ e, u.find s.1 = .ok e ∧ e.stepOver u s.2 = .on t.1 t.2

namespace StepsOver

variable {s t : Nat × Nat}

theorem lt (h : u.StepsOver s t) : s.1 < t.1 := by
  obtain ⟨e, hfind, hstep⟩ := h
  obtain ⟨hoffset, hnext, -⟩ := find_bounds hfind
  have hlt := Entry.lt_of_stepOver (hoffset.symm ▸ hnext) hstep
  rwa [hoffset] at hlt

theorem lt_stop (h : u.StepsOver s t) : s.1 < u.region.stop :=
  let ⟨_, hfind, _⟩ := h
  (find_bounds hfind).2.2.2.2

/-- A list inside another is closed with its own end; only the outermost ends the steps. -/
theorem one_le (h : u.StepsOver s t) (hs : 1 ≤ s.2) : 1 ≤ t.2 := by
  obtain ⟨e, -, hstep⟩ := h
  rw [Entry.stepOver] at hstep
  split at hstep
  · split at hstep
    · cases hstep
    · injection hstep with _ hdepth
      omega
  · split at hstep
    · split at hstep
      · injection hstep with _ hdepth
        omega
      · injection hstep with _ hdepth
        omega
    · injection hstep with _ hdepth
      omega

/-- Some list is open wherever the steps from an open list lead. -/
theorem one_le_of_reflTransGen (h : ReflTransGen u.StepsOver s t) (hs : 1 ≤ s.2) : 1 ≤ t.2 := by
  induction h with
  | refl => exact hs
  | tail _ hstep ih => exact hstep.one_le ih

end StepsOver

/-- Stepping over lists ends, after steps that each lead forward, where no entry is found or where
the outermost list ends. -/
def SkipEnds (u : DebugUnit) (offset depth : Nat) (p : Progress) : Prop :=
  ∃ n s, ReflTransGen u.StepsOver (offset, depth) s ∧ offset + n ≤ s.1 ∧
    n ≤ u.region.stop - offset ∧
    ((∃ fault, u.find s.1 = .error fault ∧
        u.skipLists offset depth p = .error fault (p.counted (n + 1))) ∨
      ∃ e stop, u.find s.1 = .ok e ∧ e.stepOver u s.2 = .done stop ∧
        u.skipLists offset depth p = .ok stop (p.counted (n + 1)))

theorem skipEnds (u : DebugUnit) (offset depth : Nat) (p : Progress) :
    u.SkipEnds offset depth p := by
  induction offset, depth, p using skipLists.induct u with
  | case1 offset depth p fault hfind =>
    refine ⟨0, (offset, depth), .refl, Nat.le_refl _, Nat.zero_le _, .inl ⟨fault, hfind, ?_⟩⟩
    rw [skipLists_eq, hfind]
    rfl
  | case2 offset depth p e hfind stop hstep =>
    exact ⟨0, (offset, depth), .refl, Nat.le_refl _, Nat.zero_le _,
      .inr ⟨e, stop, hfind, hstep, skipLists_of_done hfind hstep p⟩⟩
  | case3 offset depth p e hfind next depth' hstep ih =>
    obtain ⟨n, s, hsteps, hle, hstop, hends⟩ := ih
    have hfirst : u.StepsOver (offset, depth) (next, depth') := ⟨e, hfind, hstep⟩
    have hlt : offset < next := hfirst.lt
    have hlt' : offset < u.region.stop := hfirst.lt_stop
    refine ⟨n + 1, s, hsteps.head hfirst, by omega, by omega, ?_⟩
    rwa [skipLists_of_on hfind hstep, ← p.counted_count]

theorem skipLists_eq_ok {found : Nat} (h : u.skipLists offset depth p = .ok found q) :
    found ≤ u.region.stop ∧ ∃ n, q = p.counted n ∧ offset + n ≤ found := by
  obtain ⟨n, s, -, hle, -, ⟨fault, -, herror⟩ | ⟨e, stop, hfind, hstep, hok⟩⟩ :=
    u.skipEnds offset depth p
  · rw [herror] at h
    cases h
  · rw [hok] at h
    cases h
    obtain rfl := Entry.eq_nextOffset_of_stepOver hstep
    obtain ⟨hoffset, hlt, -⟩ := find_bounds hfind
    exact ⟨(places_of_find hfind).next_le, n + 1, rfl, by omega⟩

theorem after_skipLists (u : DebugUnit) (offset depth : Nat) (p : Progress) :
    ∃ n, (u.skipLists offset depth).after p = p.counted n ∧ n ≤ u.region.stop - offset + 1 := by
  obtain ⟨n, s, -, -, hle, ⟨fault, -, herror⟩ | ⟨e, stop, -, -, hok⟩⟩ :=
    u.skipEnds offset depth p
  · exact ⟨n + 1, Visit.after_of_error herror, Nat.succ_le_succ hle⟩
  · exact ⟨n + 1, Visit.after_of_ok hok, Nat.succ_le_succ hle⟩

/-- The sibling of an entry is further on in the unit. The entries decoded on the way are behind the
entry and before its sibling. -/
theorem Places.siblingOffset_eq_ok (he : u.Places e) {found : Nat}
    (h : u.siblingOffset e p = .ok found q) :
    e.offset < found ∧ found ≤ u.region.stop ∧
      ∃ n, q = p.counted n ∧ e.offset + n < found := by
  have hnext := he.lt_next
  cases hchildren : e.hasChildren with
  | false =>
    rw [siblingOffset_of_leaf hchildren] at h
    cases h
    exact ⟨hnext, he.next_le, 0, rfl, hnext⟩
  | true =>
    cases htarget : e.siblingTarget? u with
    | some target =>
      rw [siblingOffset_of_target hchildren htarget] at h
      cases h
      have hlt := Entry.lt_of_siblingTarget? htarget
      exact ⟨hlt, Nat.le_of_lt (Entry.siblingTarget?_lt htarget), 0, rfl, hlt⟩
    | none =>
      rw [siblingOffset_of_list hchildren htarget] at h
      obtain ⟨hstop, n, hcount, hle⟩ := skipLists_eq_ok h
      exact ⟨by omega, hstop, n, hcount, by omega⟩

theorem Places.after_siblingOffset (he : u.Places e) (p : Progress) :
    ∃ n, (u.siblingOffset e).after p = p.counted n ∧ n ≤ u.region.stop - e.offset := by
  cases hchildren : e.hasChildren with
  | false =>
    exact ⟨0, Visit.after_of_ok (siblingOffset_of_leaf hchildren p), Nat.zero_le _⟩
  | true =>
    cases htarget : e.siblingTarget? u with
    | some target =>
      exact ⟨0, Visit.after_of_ok (siblingOffset_of_target hchildren htarget p), Nat.zero_le _⟩
    | none =>
      obtain ⟨n, hafter, hle⟩ := u.after_skipLists e.nextOffset 1 p
      have hnext := he.lt_next
      have hstop := he.lt_stop
      have hlist := siblingOffset_of_list hchildren htarget p
      exact ⟨n, (Visit.after_congr hlist).trans hafter, by omega⟩

/-- Reading siblings decodes each entry ahead at most once. -/
theorem charge_siblings (u : DebugUnit) (resolver : Resolver) (mode : ReadMode)
    (depth offset : Nat) (before : Array Entry) (p : Progress) :
    mode.charge ((u.siblings resolver mode depth offset before).after p) ≤
      mode.charge p + (u.region.stop - offset) + 1 := by
  induction offset, before, p using siblings.induct u resolver mode depth with
  | case1 offset before p fault r hread =>
    have hcharge := charge_of_read_error hread
    rw [Visit.after_of_error (siblings_of_read_error hread)]
    omega
  | case2 offset before p e r hread hterminator =>
    have hcharge := charge_of_read hread
    rw [Visit.after_of_ok (siblings_of_terminator hread hterminator)]
    omega
  | case3 offset before p e r hread hentry fault s hnext =>
    have hcharge := charge_of_read hread
    obtain ⟨hplaces, rfl⟩ := places_of_read hread
    obtain ⟨n, hafter, hn⟩ := hplaces.after_siblingOffset r
    rw [Visit.after_of_error hnext] at hafter
    rw [Visit.after_of_error (siblings_of_next_error hread hentry hnext), hafter,
      mode.charge_counted]
    omega
  | case4 offset before p e r hread hentry next s hnext ih =>
    have hcharge := charge_of_read hread
    obtain ⟨hplaces, rfl⟩ := places_of_read hread
    obtain ⟨-, hstop, n, rfl, hn⟩ := hplaces.siblingOffset_eq_ok hnext
    rw [mode.charge_counted] at ih
    rw [Visit.after_congr (siblings_of_entry hread hentry hnext)]
    omega

theorem Places.charge_children (he : u.Places e) (mode : ReadMode) (p : Progress) :
    mode.charge ((u.children e mode).after p) ≤
      mode.charge p + (u.region.stop - e.offset) := by
  have hnext := he.lt_next
  have hstop := he.lt_stop
  cases hchildren : e.hasChildren with
  | false =>
    rw [children, hchildren]
    exact Nat.le_add_right ..
  | true =>
    have hcharge := u.charge_siblings u.resolver mode (e.depth + 1) e.nextOffset #[] p
    rw [children, if_pos hchildren, Visit.after_map]
    omega

theorem charge_entriesFrom (u : DebugUnit) (resolver : Resolver) (offset depth : Nat)
    (before : Array Entry) (p : Progress) :
    ReadMode.full.charge (u.entriesFrom resolver offset depth before p).2 ≤
      ReadMode.full.charge p + (u.region.stop - offset) := by
  induction offset, depth, before, p using entriesFrom.induct u resolver with
  | case1 offset depth before p hlt fault q hread =>
    have hcharge := charge_of_read_error hread
    rw [entriesFrom_of_error hlt hread]
    change ReadMode.full.charge q ≤ _
    omega
  | case2 offset depth before p hlt e q hread hterminator hdepth =>
    rw [entriesFrom_of_read hlt hread, if_pos hterminator, if_pos hdepth]
    exact Nat.le_of_add_right_le (charge_add_of_read hread)
  | case3 offset depth before p hlt e q hread hterminator hdepth ih =>
    rw [entriesFrom_of_read hlt hread, if_pos hterminator, if_neg hdepth]
    exact Nat.le_trans ih (charge_add_of_read hread)
  | case4 offset depth before p hlt e q hread hentry hchildren ih =>
    rw [entriesFrom_of_read hlt hread, if_neg hentry, if_pos hchildren]
    exact Nat.le_trans ih (charge_add_of_read hread)
  | case5 offset before p hlt e q hread hentry hchildren =>
    rw [entriesFrom_of_read hlt hread, if_neg hentry, if_neg hchildren, if_pos rfl]
    exact Nat.le_of_add_right_le (charge_add_of_read hread)
  | case6 offset depth before p hlt e q hread hentry hchildren hdepth ih =>
    rw [entriesFrom_of_read hlt hread, if_neg hentry, if_neg hchildren, if_neg hdepth]
    exact Nat.le_trans ih (charge_add_of_read hread)
  | case7 offset depth before p hlt =>
    rw [entriesFrom, if_neg hlt]
    exact Nat.le_add_right ..

theorem decodes_entries (u : DebugUnit) (p : Progress) :
    (u.entries.after p).decodes ≤
      p.decodes + ReadMode.full.loads + (u.region.stop - u.header.rootOffset) := by
  have hcharge := u.charge_entriesFrom u.resolver u.header.rootOffset 0 #[] p
  have hloads := ReadMode.full.charge_le p
  have hdecodes := ReadMode.full.decodes_le_charge
    (u.entriesFrom u.resolver u.header.rootOffset 0 #[] p).2
  simp only [Visit.after, entries]
  split
  · omega
  · exact Nat.le_trans hdecodes (by omega)

end DebugUnit

end StackSurvey.Dwarf
