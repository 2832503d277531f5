import Mathlib.Data.List.Chain
import StackSurvey.Proofs.Dwarf.DecodeCount
import StackSurvey.Proofs.Dwarf.SiblingLinks

namespace StackSurvey.Dwarf

open Relation

variable {u : DebugUnit} {e : Entry} {mode : ReadMode} {offset depth : Nat} {p q : Progress}

/-- The depth rises from one entry to the next by at most one, and only past an entry with
children. -/
def Entry.LeadsTo (a b : Entry) : Prop :=
  b.depth ≤ a.depth + 1 ∧ (a.depth < b.depth → a.hasChildren = true)

namespace DebugUnit

/-- Entries of a unit at offsets that increase strictly, the first not before a given one. -/
structure AscendsFrom (u : DebugUnit) (offset : Nat) (entries : List Entry) : Prop where
  contains : ∀ e ∈ entries, u.containsOffset e.offset = true
  le : ∀ e ∈ entries, offset ≤ e.offset
  increasing : entries.Pairwise (·.offset < ·.offset)

namespace AscendsFrom

variable {next : Nat} {entries : List Entry}

theorem nil : u.AscendsFrom offset [] :=
  ⟨List.forall_mem_nil _, List.forall_mem_nil _, .nil⟩

theorem mono (h : u.AscendsFrom next entries) (hle : offset ≤ next) :
    u.AscendsFrom offset entries :=
  ⟨h.contains, fun e he => Nat.le_trans hle (h.le e he), h.increasing⟩

theorem cons (h : u.AscendsFrom next entries) (hcontains : u.containsOffset e.offset = true)
    (hlt : e.offset < next) : u.AscendsFrom e.offset (e :: entries) where
  contains := List.forall_mem_cons.2 ⟨hcontains, h.contains⟩
  le := List.forall_mem_cons.2
    ⟨Nat.le_refl _, fun x hx => Nat.le_trans (Nat.le_of_lt hlt) (h.le x hx)⟩
  increasing := List.pairwise_cons.2 ⟨fun x hx => Nat.lt_of_lt_of_le hlt (h.le x hx), h.increasing⟩

end AscendsFrom

/-- An entry as it can be read in a unit, at whatever depth it is listed. -/
def Yields (u : DebugUnit) (e : Entry) : Prop :=
  ∃ mode offset depth found p q, u.read u.resolver mode offset p = .ok found q ∧
    e = { found with depth }

theorem Yields.places (h : u.Yields e) : u.Places e := by
  obtain ⟨mode, offset, depth, found, p, q, hread, rfl⟩ := h
  obtain ⟨hplaces, -⟩ := places_of_read hread
  exact ⟨hplaces.contains, hplaces.lt_next, hplaces.next_le⟩

theorem siblings_eq_ok {before found : Array Entry}
    (h : u.siblings u.resolver mode depth offset before p = .ok found q) :
    ∃ new, found.toList = before.toList ++ new ∧ u.AscendsFrom offset new ∧
      ∀ e ∈ new, u.Yields e := by
  induction offset, before, p using siblings.induct u u.resolver mode depth with
  | case1 offset before p fault r hread =>
    rw [siblings_of_read_error hread] at h
    cases h
  | case2 offset before p e r hread hterminator =>
    rw [siblings_of_terminator hread hterminator] at h
    cases h
    exact ⟨[], (List.append_nil _).symm, .nil, List.forall_mem_nil _⟩
  | case3 offset before p e r hread hentry fault s hnext =>
    rw [siblings_of_next_error hread hentry hnext] at h
    cases h
  | case4 offset before p e r hread hentry next s hnext ih =>
    rw [siblings_of_entry hread hentry hnext] at h
    obtain ⟨new, hnew, hascends, hyields⟩ := ih h
    obtain ⟨hplaces, rfl⟩ := places_of_read hread
    obtain ⟨hlt, -⟩ := hplaces.siblingOffset_eq_ok hnext
    refine ⟨{ e with depth } :: new, ?_, ?_, ?_⟩
    · rw [hnew, Array.toList_push, List.append_assoc, List.singleton_append]
    · exact hascends.cons (e := { e with depth }) hplaces.contains hlt
    · exact List.forall_mem_cons.2 ⟨⟨mode, _, depth, e, p, r, hread, rfl⟩, hyields⟩

theorem Places.children_eq_ok (he : u.Places e) {found : List Entry}
    (h : u.children e mode p = .ok found q) :
    u.AscendsFrom e.offset (e :: found) ∧ ∀ c ∈ found, u.Yields c := by
  cases hchildren : e.hasChildren with
  | false =>
    rw [children, hchildren] at h
    cases h
    exact ⟨AscendsFrom.nil.cons he.contains he.lt_next, List.forall_mem_nil _⟩
  | true =>
    rw [children, if_pos hchildren] at h
    obtain ⟨siblings, hsiblings, rfl⟩ := Visit.exists_of_map_eq_ok h
    obtain ⟨new, hnew, hascends, hyields⟩ := siblings_eq_ok hsiblings
    rw [List.nil_append] at hnew
    exact hnew ▸ ⟨hascends.cons he.contains he.lt_next, hyields⟩

theorem yields_listed (hfind : u.find offset = .ok e) (depth : Nat) :
    u.Yields (u.listed u.resolver depth e) ∧ offset = (u.listed u.resolver depth e).offset ∧
      (u.listed u.resolver depth e).nextOffset = e.nextOffset := by
  obtain ⟨q, hread⟩ : ∃ q, u.read u.resolver .full offset {} = .ok (e.resolve u u.resolver) q :=
    read_of_find hfind .full {}
  exact ⟨⟨.full, offset, depth, _, {}, q, hread, rfl⟩, (places_of_read hread).2.symm,
    Entry.nextOffset_resolve ..⟩

theorem leadsTo_listed (resolver : Resolver) {depth' : Nat} {x : Entry}
    (hdepth : depth' = depth ∨ e.hasChildren = true ∧ depth' = depth + 1)
    (hle : x.depth ≤ depth') : (u.listed resolver depth e).LeadsTo x := by
  refine ⟨?_, fun hrise => ?_⟩
  · change x.depth ≤ depth + 1
    omega
  · change depth < x.depth at hrise
    rcases hdepth with rfl | ⟨hchildren, -⟩
    · omega
    · exact (Entry.hasChildren_resolve ..).trans hchildren

/-- Entries as they are listed from an offset on, inside some open lists of children. -/
structure ListsFrom (u : DebugUnit) (offset depth : Nat) (entries : List Entry) : Prop where
  ascends : u.AscendsFrom offset entries
  yields : ∀ e ∈ entries, u.Yields e
  head_le : ∀ e ∈ entries.head?, e.depth ≤ depth
  one_le : 1 ≤ depth → ∀ e ∈ entries, 1 ≤ e.depth
  leadsTo : entries.IsChain Entry.LeadsTo

namespace ListsFrom

variable {next depth' : Nat} {entries : List Entry}

theorem nil : u.ListsFrom offset depth [] where
  ascends := .nil
  yields := List.forall_mem_nil _
  head_le _ h := nomatch h
  one_le _ := List.forall_mem_nil _
  leadsTo := .nil

/-- Behind the end of a list that is inside another, entries are listed in the other. -/
theorem close (h : u.ListsFrom next (depth - 1) entries) (hlt : offset < next)
    (hdepth : 1 < depth) : u.ListsFrom offset depth entries where
  ascends := h.ascends.mono (Nat.le_of_lt hlt)
  yields := h.yields
  head_le e he := Nat.le_trans (h.head_le e he) (Nat.sub_le ..)
  one_le _ := h.one_le (by omega)
  leadsTo := h.leadsTo

theorem cons (h : u.ListsFrom e.nextOffset depth' entries) (hfind : u.find offset = .ok e)
    (hdepth : depth' = depth ∨ e.hasChildren = true ∧ depth' = depth + 1) :
    u.ListsFrom offset depth (u.listed u.resolver depth e :: entries) := by
  obtain ⟨hyields, rfl, hnext⟩ := yields_listed hfind depth
  have hlt : (u.listed u.resolver depth e).offset < e.nextOffset := hnext ▸ hyields.places.lt_next
  refine ⟨h.ascends.cons hyields.places.contains hlt, List.forall_mem_cons.2 ⟨hyields, h.yields⟩,
    ?_, ?_, ?_⟩
  · intro x hx
    cases hx
    exact Nat.le_refl _
  · intro hone
    exact List.forall_mem_cons.2 ⟨hone, h.one_le (by omega)⟩
  · exact List.isChain_cons.2
      ⟨fun x hx => leadsTo_listed u.resolver hdepth (h.head_le x hx), h.leadsTo⟩

end ListsFrom

theorem listsFrom_walk (u : DebugUnit) (offset depth : Nat) :
    u.ListsFrom offset depth (u.walk u.resolver offset depth) := by
  induction offset, depth using walk.induct u with
  | case1 offset depth hlt fault hfind =>
    rw [walk_of_error hfind]
    exact .nil
  | case2 offset depth hlt e hfind hterminator hdepth =>
    rw [walk_of_find hfind, if_pos hterminator, if_pos hdepth]
    exact .nil
  | case3 offset depth hlt e hfind hterminator hdepth ih =>
    rw [walk_of_find hfind, if_pos hterminator, if_neg hdepth]
    exact ih.close (find_bounds hfind).2.1 (Nat.lt_of_not_le hdepth)
  | case4 offset depth hlt e hfind hentry hchildren ih =>
    rw [walk_of_find hfind, if_neg hentry, if_pos hchildren]
    exact ih.cons hfind (.inr ⟨hchildren, rfl⟩)
  | case5 offset hlt e hfind hentry hchildren =>
    rw [walk_of_find hfind, if_neg hentry, if_neg hchildren, if_pos rfl]
    exact ListsFrom.nil.cons hfind (.inl rfl)
  | case6 offset depth hlt e hfind hentry hchildren hdepth ih =>
    rw [walk_of_find hfind, if_neg hentry, if_neg hchildren, if_neg hdepth]
    exact ih.cons hfind (.inl rfl)
  | case7 offset depth hlt =>
    rw [walk_of_not_lt hlt]
    exact .nil

/-- Entries as a listing of the whole unit has them. -/
structure ListedInOrder (u : DebugUnit) (entries : List Entry) : Prop where
  ascends : u.AscendsFrom u.header.rootOffset entries
  yields : ∀ e ∈ entries, u.Yields e
  depth_root : ∀ e ∈ entries.head?, e.depth = 0
  one_le_depth : ∀ e ∈ entries.tail, 1 ≤ e.depth
  leadsTo : entries.IsChain Entry.LeadsTo

theorem listedInOrder_entryList (u : DebugUnit) : u.ListedInOrder u.entryList := by
  have hlists := u.listsFrom_walk u.header.rootOffset 0
  refine ⟨hlists.ascends, hlists.yields, fun e he => Nat.le_zero.1 (hlists.head_le e he), ?_,
    hlists.leadsTo⟩
  -- Only the root stands outside all lists.
  rw [entryList]
  cases hfind : u.find u.header.rootOffset with
  | error fault =>
    rw [walk_of_error hfind]
    exact List.forall_mem_nil _
  | ok e =>
    rw [walk_of_find hfind]
    split
    · exact List.forall_mem_nil _
    · split
      · exact (u.listsFrom_walk e.nextOffset 1).one_le (Nat.le_refl _)
      · exact List.forall_mem_nil _

/-- Where the visits from an entry lead, and how many entries they decode at most. -/
structure GoesForward (u : DebugUnit) (e : Entry) : Prop where
  siblingOffset : ∀ p found q, u.siblingOffset e p = .ok found q →
    e.offset < found ∧ found ≤ u.region.stop
  decodes_siblingOffset : ∀ p,
    ((u.siblingOffset e).after p).decodes ≤ p.decodes + (u.region.stop - e.offset)
  skipEnds : ∀ p, u.SkipEnds e.nextOffset 1 p
  /-- Stepping over what is below the entry, some list is open at every state that is reached. -/
  one_le_depth : ∀ s, ReflTransGen u.StepsOver (e.nextOffset, 1) s → 1 ≤ s.2
  children : ∀ mode p found q, u.children e mode p = .ok found q →
    u.AscendsFrom e.offset (e :: found) ∧ ∀ c ∈ found, u.Yields c
  decodes_children : ∀ mode p, ((u.children e mode).after p).decodes ≤
    p.decodes + mode.loads + (u.region.stop - e.offset)

theorem Places.goesForward (he : u.Places e) : u.GoesForward e where
  siblingOffset p found q h :=
    let ⟨hlt, hstop, _⟩ := he.siblingOffset_eq_ok h
    ⟨hlt, hstop⟩
  decodes_siblingOffset p := by
    obtain ⟨n, hafter, hn⟩ := he.after_siblingOffset p
    rw [hafter]
    exact Nat.add_le_add_left hn _
  skipEnds := u.skipEnds e.nextOffset 1
  one_le_depth s hs := StepsOver.one_le_of_reflTransGen hs (Nat.le_refl _)
  children mode p found q h := he.children_eq_ok h
  decodes_children mode p := by
    have hdecodes := mode.decodes_le_charge ((u.children e mode).after p)
    have hcharge := he.charge_children mode p
    have hloads := mode.charge_le p
    omega

/-- Visits of a unit end, and go forward in it: from an entry to its sibling and its children, and
through the whole unit in the order of its entries. -/
theorem visits_go_forward (u : DebugUnit) :
    (∀ e, u.Yields e → u.GoesForward e) ∧
      ∀ p, ∃ entries q, u.entries p = .ok entries q ∧ u.ListedInOrder entries ∧
        q.decodes ≤
          p.decodes + ReadMode.full.loads + (u.region.stop - u.header.rootOffset) := by
  refine ⟨fun e he => he.places.goesForward, fun p => ?_⟩
  obtain ⟨q, hq⟩ := u.entries_eq p
  have hdecodes := u.decodes_entries p
  rw [Visit.after_of_ok hq] at hdecodes
  exact ⟨u.entryList, q, hq, u.listedInOrder_entryList, hdecodes⟩

end DebugUnit

/-- A unit whose root has a child with a child of its own, and another child. The root says that its
sibling is its first child, and the first child that its sibling is the end of its own list. -/
def strayUnit : LoneUnit where
  abbreviations := [linkedParent, linkedLeaf]
  entries := [3, 13, 3, 16, 4, 0, 4, 0]

theorem linkedParent_mem_strayUnit : linkedParent ∈ strayUnit.abbreviations := .head _

def strayEntry (distance : UInt8) : EncodedEntry strayUnit.unit :=
  strayUnit.linkedEntry linkedParent_mem_strayUnit distance

def strayRoot : Entry := (strayEntry 13).entryAt 11

def strayChild : Entry := (strayEntry 16).entryAt 13

namespace DebugUnit

theorem find_strayRoot : strayUnit.unit.find 11 = .ok strayRoot :=
  have hentries : strayUnit.entries = [] ++ ((strayEntry 13).bytes ++ [3, 16, 4, 0, 4, 0]) := rfl
  find_entry (strayEntry 13) (Nat.le_refl 11) (strayUnit.holds_entries hentries)

theorem find_strayChild : strayUnit.unit.find 13 = .ok strayChild :=
  have hentries : strayUnit.entries = [3, 13] ++ ((strayEntry 16).bytes ++ [4, 0, 4, 0]) := rfl
  find_entry (strayEntry 16) (by decide) (strayUnit.holds_entries hentries)

theorem find_end_strayUnit : strayUnit.unit.find 16 = .ok (zeroByte.entryAt strayUnit.unit 16) :=
  have hentries : strayUnit.entries = [3, 13, 3, 16, 4] ++ (zeroByte.code ++ [4, 0]) := rfl
  find_listEnd zeroByte (by decide) (strayUnit.holds_entries hentries)

theorem siblingTarget?_strayRoot : strayRoot.siblingTarget? strayUnit.unit = some 13 := by
  decide +kernel

theorem siblingTarget?_strayChild : strayChild.siblingTarget? strayUnit.unit = some 16 := by
  decide +kernel

theorem children_strayRoot : ∃ q,
    strayUnit.unit.children strayRoot .fast {} = .ok [{ strayChild with depth := 1 }] q := by
  let u := strayUnit.unit
  obtain ⟨q, hchild⟩ : ∃ q, u.read u.resolver .fast 13 {} = .ok strayChild q :=
    read_of_find find_strayChild .fast {}
  obtain ⟨r, hend⟩ : ∃ r, u.read u.resolver .fast 16 q = .ok (zeroByte.entryAt u 16) r :=
    read_of_find find_end_strayUnit .fast q
  have hnext : u.siblingOffset strayChild q = .ok 16 q :=
    siblingOffset_of_target rfl siblingTarget?_strayChild q
  have hsiblings : u.siblings u.resolver .fast 1 13 #[] {} =
      u.siblings u.resolver .fast 1 16 #[{ strayChild with depth := 1 }] q :=
    siblings_of_entry hchild Bool.false_ne_true hnext
  rw [siblings_of_terminator hend rfl] at hsiblings
  exact Visit.exists_of_answer_eq_ok (answer_children_of_siblings rfl rfl rfl hsiblings)

theorem visits_go_forward_strayUnit :
    let u := strayUnit.unit
    (∃ d, DebugInfo.ofSections strayUnit.sections .little = .ok d ∧ d.units[0]? = some u) ∧
      u.Yields strayRoot ∧
      (∃ q, u.siblingOffset strayRoot {} = .ok 13 q ∧ 11 < 13 ∧ 13 ≤ u.region.stop) ∧
      (∃ found q, u.children strayRoot .fast {} = .ok found q ∧ found ≠ [] ∧
        u.AscendsFrom 11 (strayRoot :: found)) ∧
      ∃ entries q, u.entries {} = .ok entries q ∧ u.ListedInOrder entries := by
  intro u
  obtain ⟨hforward, hentries⟩ := visits_go_forward u
  obtain ⟨r, hread⟩ : ∃ r, u.read u.resolver .fast 11 {} = .ok strayRoot r :=
    read_of_find find_strayRoot .fast {}
  have hyields : u.Yields strayRoot := ⟨.fast, 11, 0, _, {}, r, hread, rfl⟩
  have hroot := hforward _ hyields
  have hsibling : u.siblingOffset strayRoot {} = .ok 13 {} :=
    siblingOffset_of_target rfl siblingTarget?_strayRoot {}
  obtain ⟨q, hchildren⟩ := children_strayRoot
  obtain ⟨entries, r, hlisted, horder, -⟩ := hentries {}
  exact ⟨strayUnit.exists_ofSections, hyields,
    ⟨{}, hsibling, hroot.siblingOffset _ _ _ hsibling⟩,
    ⟨_, q, hchildren, List.cons_ne_nil _ _, (hroot.children _ _ _ _ hchildren).1⟩,
    entries, r, hlisted, horder⟩

end DebugUnit

end StackSurvey.Dwarf
