import StackSurvey.Proofs.Dwarf.DecodeTrace

namespace StackSurvey.Dwarf

open Decoder

variable {u : DebugUnit} {o : Nat}

namespace EntryTree

mutual

/-- Where the entries below the one that a tree begins with begin, the ends of lists included. -/
def offsetsBelow (offset : Nat) : EntryTree u → List Nat
  | leaf _ _ => []
  | parent entry _ children _ =>
    offsetsOfList (offset + entry.bytes.length) children ++
      [offset + entry.bytes.length + (bytesOfList children).length]

def offsetsOfList (offset : Nat) : List (EntryTree u) → List Nat
  | [] => []
  | t :: ts => offset :: t.offsetsBelow offset ++ offsetsOfList (offset + t.bytes.length) ts

end

end EntryTree

namespace PlacedTree

/-- Where the entries below the one that the tree begins with begin, the ends of lists included. -/
def below (x : PlacedTree u) : List Nat := x.tree.offsetsBelow x.offset

/-- The trees in the tree, without the tree itself. -/
def descendants (x : PlacedTree u) : List (PlacedTree u) :=
  (x.tree.subtrees x.offset x.follower?).tail

/-- True of what stands below an entry that states where its next sibling begins. -/
def hides (x : PlacedTree u) (offset : Nat) : Bool :=
  x.tree.entry.isLinked && x.below.contains offset

/-- True of what none of some trees hides. -/
def exposed (xs : List (PlacedTree u)) (offset : Nat) : Bool := !xs.any (·.hides offset)

/-- What stands below the entry, but not below a descendant that states where its next sibling
begins. -/
def visible (x : PlacedTree u) : List Nat := x.below.filter (exposed x.descendants)

end PlacedTree

namespace EntryTree

theorem length_bytes_parent (entry : EncodedEntry u) (h : entry.abbreviation.hasChildren = true)
    (children : List (EntryTree u)) (stop : ListEnd) :
    (parent entry h children stop).bytes.length =
      entry.bytes.length + (bytesOfList children).length + stop.code.length := by
  rw [bytes, List.length_append, List.length_append, Nat.add_assoc]

theorem length_bytesOfList_cons (t : EntryTree u) (ts : List (EntryTree u)) :
    (bytesOfList (t :: ts)).length = t.bytes.length + (bytesOfList ts).length :=
  List.length_append

mutual

/-- What stands below an entry is inside its tree. -/
theorem bounds_of_mem_offsetsBelow (t : EntryTree u) {offset : Nat}
    (h : o ∈ t.offsetsBelow offset) : offset < o ∧ o < offset + t.bytes.length := by
  cases t with
  | leaf entry hleaf => cases h
  | parent entry hparent children stop =>
    have hentry := entry.length_bytes_pos
    have hstop := stop.isGroup.length_pos
    rw [length_bytes_parent]
    rcases List.mem_append.1 h with h | h
    · obtain ⟨hlow, hhigh⟩ := bounds_of_mem_offsetsOfList children h
      omega
    · obtain rfl := List.mem_singleton.1 h
      omega

theorem bounds_of_mem_offsetsOfList (ts : List (EntryTree u)) {offset : Nat}
    (h : o ∈ offsetsOfList offset ts) :
    offset ≤ o ∧ o < offset + (bytesOfList ts).length := by
  cases ts with
  | nil => cases h
  | cons t ts =>
    have hlt := t.lt_add_length_bytes offset
    rw [length_bytesOfList_cons]
    rcases List.mem_append.1 h with h | h
    · rcases List.mem_cons.1 h with rfl | h
      · omega
      · obtain ⟨hlow, hhigh⟩ := bounds_of_mem_offsetsBelow t h
        omega
    · obtain ⟨hlow, hhigh⟩ := bounds_of_mem_offsetsOfList ts h
      omega

end

mutual

theorem pairwise_offsetsBelow (offset : Nat) (t : EntryTree u) :
    (t.offsetsBelow offset).Pairwise (· < ·) := by
  cases t with
  | leaf entry hleaf => exact .nil
  | parent entry hparent children stop =>
    refine List.pairwise_append.2
      ⟨pairwise_offsetsOfList _ children, List.pairwise_singleton .., fun o ho o' ho' => ?_⟩
    obtain rfl := List.mem_singleton.1 ho'
    exact (bounds_of_mem_offsetsOfList children ho).2

theorem pairwise_offsetsOfList (offset : Nat) (ts : List (EntryTree u)) :
    (offsetsOfList offset ts).Pairwise (· < ·) := by
  cases ts with
  | nil => exact .nil
  | cons t ts =>
    have htree : (offset :: t.offsetsBelow offset).Pairwise (· < ·) :=
      List.pairwise_cons.2
        ⟨fun o ho => (bounds_of_mem_offsetsBelow t ho).1, pairwise_offsetsBelow offset t⟩
    refine List.pairwise_append.2 ⟨htree, pairwise_offsetsOfList _ ts, fun o ho o' ho' => ?_⟩
    refine Nat.lt_of_lt_of_le ?_ (bounds_of_mem_offsetsOfList ts ho').1
    rcases List.mem_cons.1 ho with rfl | ho
    · exact t.lt_add_length_bytes o
    · exact (bounds_of_mem_offsetsBelow t ho).2

end

mutual

theorem bounds_of_mem_subtrees (t : EntryTree u) {offset : Nat} {follower? : Option Entry}
    {x : PlacedTree u} (h : x ∈ t.subtrees offset follower?) :
    offset ≤ x.offset ∧ x.stop ≤ offset + t.bytes.length := by
  cases t with
  | leaf entry hleaf =>
    obtain rfl := List.mem_singleton.1 h
    exact ⟨Nat.le_refl _, Nat.le_refl _⟩
  | parent entry hparent children stop =>
    rcases List.mem_cons.1 h with rfl | h
    · exact ⟨Nat.le_refl _, Nat.le_refl _⟩
    · obtain ⟨hlow, hhigh⟩ := bounds_of_mem_subtreesOfList children h
      rw [length_bytes_parent]
      omega

theorem bounds_of_mem_subtreesOfList (ts : List (EntryTree u)) {offset : Nat} {stop : ListEnd}
    {x : PlacedTree u} (h : x ∈ subtreesOfList offset stop ts) :
    offset ≤ x.offset ∧ x.stop ≤ offset + (bytesOfList ts).length := by
  cases ts with
  | nil => cases h
  | cons t ts =>
    rw [length_bytesOfList_cons]
    rcases List.mem_append.1 h with h | h
    · obtain ⟨hlow, hhigh⟩ := bounds_of_mem_subtrees t h
      omega
    · obtain ⟨hlow, hhigh⟩ := bounds_of_mem_subtreesOfList ts h
      omega

end

end EntryTree

namespace PlacedTree

variable {x : PlacedTree u} {xs ys : List (PlacedTree u)}

theorem bounds_of_hides (h : x.hides o = true) : x.offset < o ∧ o < x.stop :=
  EntryTree.bounds_of_mem_offsetsBelow x.tree
    (List.contains_iff_mem.1 (Bool.and_eq_true_iff.1 h).2)

theorem exposed_cons (x : PlacedTree u) (xs : List (PlacedTree u)) (o : Nat) :
    exposed (x :: xs) o = (!x.hides o && exposed xs o) := by
  rw [exposed, List.any_cons, Bool.not_or]
  rfl

theorem exposed_append (xs ys : List (PlacedTree u)) (o : Nat) :
    exposed (xs ++ ys) o = (exposed xs o && exposed ys o) := by
  rw [exposed, List.any_append, Bool.not_or]
  rfl

/-- Trees in a range hide nothing outside it, and not its first offset. -/
theorem exposed_of_outside {low high : Nat} (hxs : ∀ x ∈ xs, low ≤ x.offset ∧ x.stop ≤ high)
    (h : o ≤ low ∨ high ≤ o) : exposed xs o = true := by
  rw [exposed, Bool.not_eq_true', List.any_eq_false]
  intro x hx hhides
  obtain ⟨hlow, hhigh⟩ := bounds_of_hides hhides
  obtain ⟨hlow', hhigh'⟩ := hxs x hx
  omega

end PlacedTree

namespace EntryTree

open PlacedTree

mutual

/-- Where the entries begin that are decoded on the way over a tree. -/
def passed (offset : Nat) : EntryTree u → List Nat
  | leaf _ _ => [offset]
  | parent entry _ children _ =>
    offset ::
      if entry.isLinked then []
      else
        passedOfList (offset + entry.bytes.length) children ++
          [offset + entry.bytes.length + (bytesOfList children).length]

def passedOfList (offset : Nat) : List (EntryTree u) → List Nat
  | [] => []
  | t :: ts => t.passed offset ++ passedOfList (offset + t.bytes.length) ts

end

/-- An entry that states where its next sibling begins hides all that stands below it, any other
nothing. -/
theorem filter_exposed_cons (x : PlacedTree u) (xs : List (PlacedTree u)) :
    x.below.filter (exposed (x :: xs)) =
      if x.tree.entry.isLinked then [] else x.below.filter (exposed xs) := by
  split
  · rename_i hlinked
    refine List.filter_eq_nil_iff.2 fun o ho hexposed => ?_
    have hhides : x.hides o = true := by
      rw [hides, hlinked, List.contains_iff_mem.2 ho, Bool.and_self]
    rw [exposed_cons, hhides] at hexposed
    cases hexposed
  · rename_i hlinked
    refine List.filter_congr fun o _ => ?_
    rw [exposed_cons, hides, Bool.eq_false_iff.2 hlinked, Bool.false_and, Bool.not_false,
      Bool.true_and]

mutual

/-- What is decoded on the way over a tree is what none of the trees in it hides. -/
theorem filter_exposed_subtrees (offset : Nat) (follower? : Option Entry) (t : EntryTree u) :
    (offset :: t.offsetsBelow offset).filter (exposed (t.subtrees offset follower?)) =
      t.passed offset := by
  have hfirst : exposed (t.subtrees offset follower?) offset = true :=
    exposed_of_outside (fun x hx => t.bounds_of_mem_subtrees hx) (.inl (Nat.le_refl _))
  rw [List.filter_cons_of_pos hfirst]
  cases t with
  | leaf entry hleaf => rfl
  | parent entry hparent children stop =>
    have hbelow := filter_exposed_cons ⟨offset, parent entry hparent children stop, follower?⟩
      (subtreesOfList (offset + entry.bytes.length) stop children)
    refine congrArg (offset :: ·) (hbelow.trans ?_)
    rw [below, offsetsBelow, filter_exposed_listed]
    rfl

/-- The end of a list is hidden by none of the trees in it. -/
theorem filter_exposed_listed (offset : Nat) (stop : ListEnd) (ts : List (EntryTree u)) :
    (offsetsOfList offset ts ++ [offset + (bytesOfList ts).length]).filter
        (exposed (subtreesOfList offset stop ts)) =
      passedOfList offset ts ++ [offset + (bytesOfList ts).length] := by
  have hexposed : exposed (subtreesOfList offset stop ts)
      (offset + (bytesOfList ts).length) = true :=
    exposed_of_outside (fun x hx => bounds_of_mem_subtreesOfList ts hx) (.inr (Nat.le_refl _))
  rw [List.filter_append, List.filter_cons_of_pos hexposed, List.filter_nil,
    filter_exposed_subtreesOfList]

theorem filter_exposed_subtreesOfList (offset : Nat) (stop : ListEnd) (ts : List (EntryTree u)) :
    (offsetsOfList offset ts).filter (exposed (subtreesOfList offset stop ts)) =
      passedOfList offset ts := by
  cases ts with
  | nil => rfl
  | cons t ts =>
    rw [offsetsOfList, List.filter_append, subtreesOfList, passedOfList,
      ← filter_exposed_subtrees offset (some (entryAfter stop (offset + t.bytes.length) ts)) t,
      ← filter_exposed_subtreesOfList (offset + t.bytes.length) stop ts]
    -- Neither the first tree nor those after it hide anything of the other.
    congr 1
    · refine List.filter_congr fun o ho => ?_
      have hlt : o ≤ offset + t.bytes.length := by
        rcases List.mem_cons.1 ho with rfl | ho
        · exact Nat.le_add_right ..
        · exact Nat.le_of_lt (bounds_of_mem_offsetsBelow t ho).2
      rw [exposed_append, exposed_of_outside (fun x hx => bounds_of_mem_subtreesOfList ts hx)
        (.inl hlt), Bool.and_true]
    · refine List.filter_congr fun o ho => ?_
      rw [exposed_append, exposed_of_outside (fun x hx => bounds_of_mem_subtrees t hx)
        (.inr (bounds_of_mem_offsetsOfList ts ho).1), Bool.true_and]

end

/-- In a list of entries without children nothing is below them. -/
theorem length_passedOfList (offset : Nat) (ts : List (EntryTree u))
    (h : ∀ e ∈ entriesAt offset ts, e.hasChildren = false) :
    (passedOfList offset ts).length = ts.length := by
  induction ts generalizing offset with
  | nil => rfl
  | cons t ts ih =>
    obtain ⟨hfirst, hrest⟩ := List.forall_mem_cons.1 h
    cases t with
    | leaf entry hleaf =>
      rw [passedOfList, List.length_append, ih _ hrest, Nat.add_comm]
      rfl
    | parent entry hparent children stop =>
      have hchildren : entry.abbreviation.hasChildren = false := hfirst
      rw [hchildren] at hparent
      cases hparent

theorem length_entriesAt (offset : Nat) (ts : List (EntryTree u)) :
    (entriesAt offset ts).length = ts.length := by
  induction ts generalizing offset with
  | nil => rfl
  | cons t ts ih => exact congrArg (· + 1) (ih _)

end EntryTree

namespace EncodedEntry

variable (x : EncodedEntry u) {offset stop : Nat}

/-- A stated sibling inside the unit is used. -/
theorem siblingTarget?_eq_ite (hlinks : x.LinksTo stop) (hroot : u.header.rootOffset ≤ offset)
    (h : u.window.Holds offset x.bytes) (hlt : offset < stop) (hstop : stop < u.region.stop) :
    (x.entryAt offset).siblingTarget? u = if x.isLinked then some stop else none := by
  cases hlinked : x.isLinked with
  | false => exact x.siblingTarget?_of_not_linked hlinked offset
  | true =>
    have hcontains : u.containsOffset stop = true := by
      rw [DebugUnit.containsOffset, Bool.and_eq_true, decide_eq_true_eq, decide_eq_true_eq]
      omega
    rw [x.siblingTarget?_of_linked hlinks h hlt hlinked, hcontains]

theorem stepOver_of_leaf (hx : x.abbreviation.hasChildren = false) (offset depth : Nat) :
    (x.entryAt offset).stepOver u depth = .on (offset + x.bytes.length) depth := by
  have hterminator : ¬ (x.entryAt offset).isTerminator = true := Bool.false_ne_true
  have hchildren : ¬ (x.entryAt offset).hasChildren = true := Bool.eq_false_iff.1 hx
  rw [Entry.stepOver, if_neg hterminator, if_neg hchildren]
  rfl

theorem stepOver_of_parent (hx : x.abbreviation.hasChildren = true)
    (htarget : (x.entryAt offset).siblingTarget? u = if x.isLinked then some stop else none)
    (depth : Nat) :
    (x.entryAt offset).stepOver u depth =
      if x.isLinked then .on stop depth else .on (offset + x.bytes.length) (depth + 1) := by
  have hterminator : ¬ (x.entryAt offset).isTerminator = true := Bool.false_ne_true
  have hchildren : (x.entryAt offset).hasChildren = true := hx
  rw [Entry.stepOver, if_neg hterminator, if_pos hchildren, htarget]
  cases x.isLinked <;> rfl

end EncodedEntry

namespace DebugUnit

open EntryTree

theorem skipTrace_listEnd (stop : ListEnd) {offset : Nat} (depth : Nat)
    (hroot : u.header.rootOffset ≤ offset) (h : u.window.Holds offset stop.code) :
    u.skipTrace offset (depth + 1) =
      offset :: if depth = 0 then [] else u.skipTrace (offset + stop.code.length) depth := by
  have hfind := find_listEnd stop hroot h
  have hterminator : (stop.entryAt u offset).isTerminator = true := rfl
  cases depth with
  | zero =>
    have hstep : (stop.entryAt u offset).stepOver u 1 = .done (offset + stop.code.length) := by
      rw [Entry.stepOver, if_pos hterminator, if_pos (Nat.le_refl _)]
      rfl
    exact skipTrace_of_done hfind hstep
  | succ depth =>
    refine skipTrace_of_on hfind ?_
    rw [Entry.stepOver, if_pos hterminator, if_neg (by omega)]
    rfl

mutual

/-- Inside an open list, a tree is passed over and the trace goes on behind it. -/
theorem skipTrace_tree (t : EntryTree u) {offset : Nat} (depth : Nat)
    (hroot : u.header.rootOffset ≤ offset) (h : u.window.Holds offset t.bytes)
    (htrue : t.SiblingsTrue offset) (hstop : offset + t.bytes.length < u.region.stop) :
    u.skipTrace offset (depth + 1) =
      t.passed offset ++ u.skipTrace (offset + t.bytes.length) (depth + 1) := by
  have hfind := t.find_entry hroot h
  have hlt := t.lt_add_length_bytes offset
  cases t with
  | leaf entry hleaf => exact skipTrace_of_on hfind (entry.stepOver_of_leaf hleaf offset _)
  | parent entry hparent children stop =>
    obtain ⟨hentry, hrest⟩ := Window.holds_append.1 h
    obtain ⟨hchildren, hend⟩ := Window.holds_append.1 hrest
    have hroot' : u.header.rootOffset ≤ offset + entry.bytes.length := Nat.le_add_right_of_le hroot
    have hstep := entry.stepOver_of_parent hparent
      (entry.siblingTarget?_eq_ite htrue.1 hroot hentry hlt hstop) (depth + 1)
    rw [passed]
    cases hlinked : entry.isLinked with
    | true =>
      rw [hlinked, if_pos rfl] at hstep
      exact skipTrace_of_on hfind hstep
    | false =>
      -- The children are passed over one deeper; the end of their list leads back.
      rw [hlinked, if_neg Bool.false_ne_true] at hstep
      rw [length_bytes_parent] at hstop ⊢
      have hinner := skipTrace_trees children (depth + 1) hroot' hchildren htrue.2 (by omega)
      rw [skipTrace_of_on hfind hstep, hinner,
        skipTrace_listEnd stop _ (Nat.le_add_right_of_le hroot') hend,
        if_neg (Nat.succ_ne_zero depth), if_neg Bool.false_ne_true, ← Nat.add_assoc,
        ← Nat.add_assoc, List.cons_append, List.append_assoc]
      rfl

theorem skipTrace_trees (ts : List (EntryTree u)) {offset : Nat} (depth : Nat)
    (hroot : u.header.rootOffset ≤ offset) (h : u.window.Holds offset (bytesOfList ts))
    (htrue : SiblingsTrueOfList offset ts)
    (hstop : offset + (bytesOfList ts).length < u.region.stop) :
    u.skipTrace offset (depth + 1) =
      passedOfList offset ts ++ u.skipTrace (offset + (bytesOfList ts).length) (depth + 1) := by
  cases ts with
  | nil => rfl
  | cons t ts =>
    obtain ⟨ht, hts⟩ := Window.holds_append.1 h
    obtain ⟨htrueHead, htrueTail⟩ := htrue
    rw [length_bytesOfList_cons, ← Nat.add_assoc] at hstop ⊢
    rw [skipTrace_tree t depth hroot ht htrueHead (by omega),
      skipTrace_trees ts depth (Nat.le_add_right_of_le hroot) hts htrueTail hstop, passedOfList,
      List.append_assoc]

end

/-- Reading an entry and going on to its next sibling decodes what passing over its tree does. -/
theorem cons_siblingTrace_tree (t : EntryTree u) {offset : Nat}
    (hroot : u.header.rootOffset ≤ offset) (h : u.window.Holds offset t.bytes)
    (htrue : t.SiblingsTrue offset) (hstop : offset + t.bytes.length < u.region.stop) :
    offset :: u.siblingTrace (t.entry.entryAt offset) = t.passed offset := by
  have hlt := t.lt_add_length_bytes offset
  cases t with
  | leaf entry hleaf =>
    have hchildren : ¬ (entry.entryAt offset).hasChildren = true := Bool.eq_false_iff.1 hleaf
    exact congrArg (offset :: ·) (if_neg fun h => hchildren h.1)
  | parent entry hparent children stop =>
    obtain ⟨hentry, hrest⟩ := Window.holds_append.1 h
    obtain ⟨hchildren, hend⟩ := Window.holds_append.1 hrest
    have hroot' : u.header.rootOffset ≤ offset + entry.bytes.length := Nat.le_add_right_of_le hroot
    have htarget := entry.siblingTarget?_eq_ite htrue.1 hroot hentry hlt hstop
    refine congrArg (offset :: ·) ?_
    cases hlinked : entry.isLinked with
    | true =>
      rw [hlinked, if_pos rfl] at htarget
      exact if_neg fun h => Option.some_ne_none _ (htarget.symm.trans h.2)
    | false =>
      rw [hlinked, if_neg Bool.false_ne_true] at htarget
      rw [length_bytes_parent] at hstop
      refine (if_pos ⟨hparent, htarget⟩).trans ?_
      exact (skipTrace_trees children 0 hroot' hchildren htrue.2 (by omega)).trans
        (congrArg _ (skipTrace_listEnd stop 0 (Nat.le_add_right_of_le hroot') hend))

theorem listTrace_trees (ts : List (EntryTree u)) (stop : ListEnd) {offset : Nat}
    (hroot : u.header.rootOffset ≤ offset)
    (h : u.window.Holds offset (bytesOfList ts ++ stop.code)) (htrue : SiblingsTrueOfList offset ts)
    (hstop : offset + (bytesOfList ts).length < u.region.stop) :
    u.listTrace offset = passedOfList offset ts ++ [offset + (bytesOfList ts).length] := by
  induction ts generalizing offset with
  | nil => exact listTrace_of_terminator (find_listEnd stop hroot h) rfl
  | cons t ts ih =>
    rw [bytesOfList, List.append_assoc] at h
    obtain ⟨ht, hrest⟩ := Window.holds_append.1 h
    obtain ⟨htrueHead, htrueTail⟩ := htrue
    rw [length_bytesOfList_cons, ← Nat.add_assoc] at hstop ⊢
    obtain ⟨q, hnext⟩ := (Relabels.refl u).siblingOffset_tree t hroot ht htrueHead .fast 0 {}
    have hentry : ¬ (t.entry.entryAt offset).isTerminator = true := Bool.false_ne_true
    rw [listTrace_of_entry (t.find_entry hroot ht) hentry hnext, ← List.cons_append,
      cons_siblingTrace_tree t hroot ht htrueHead (by omega),
      ih (Nat.le_add_right_of_le hroot) hrest htrueTail hstop, passedOfList, List.append_assoc]

end DebugUnit

namespace PlacedTree

open EntryTree

variable {x : PlacedTree u}

theorem visible_parent (offset : Nat) (follower? : Option Entry) (entry : EncodedEntry u)
    (h : entry.abbreviation.hasChildren = true) (children : List (EntryTree u)) (stop : ListEnd) :
    visible ⟨offset, parent entry h children stop, follower?⟩ =
      passedOfList (offset + entry.bytes.length) children ++
        [offset + entry.bytes.length + (bytesOfList children).length] :=
  filter_exposed_listed (offset + entry.bytes.length) stop children

theorem pairwise_visible (x : PlacedTree u) : x.visible.Pairwise (· < ·) :=
  (pairwise_offsetsBelow x.offset x.tree).filter _

/-- The children of an entry are read by decoding what is visible below it. -/
theorem Holds.childTrace_eq_visible (hx : x.Holds) (mode : ReadMode) (depth : Nat) :
    u.childTrace (u.readAt mode depth x.found) = x.visible := by
  rw [DebugUnit.childTrace, DebugUnit.hasChildren_readAt, DebugUnit.nextOffset_readAt]
  obtain ⟨offset, t, follower?⟩ := x
  cases t with
  | leaf entry hleaf => exact if_neg (Bool.eq_false_iff.1 hleaf)
  | parent entry hparent children stop =>
    have hrest := (Window.holds_append.1 hx.holds).2
    have hlimit := (Window.holds_append.1 hrest).2.le_limit
    have hstop : offset + entry.bytes.length + (bytesOfList children).length < u.region.stop :=
      calc
        _ < _ := Nat.lt_add_of_pos_right stop.isGroup.length_pos
        _ ≤ u.window.limit := hlimit
        _ ≤ u.region.stop := Nat.min_le_left ..
    rw [visible_parent]
    exact (if_pos hparent).trans (DebugUnit.listTrace_trees children stop
      (Nat.le_add_right_of_le hx.root_le) hrest hx.siblingsTrue.2 hstop)

/-- Below an entry none of whose children has children stand these and the end of their list. -/
theorem length_visible_of_childless (x : PlacedTree u) (h : x.found.hasChildren = true)
    (hchildren : ∀ e ∈ x.children, e.hasChildren = false) :
    x.visible.length = x.children.length + 1 := by
  obtain ⟨offset, t, follower?⟩ := x
  cases t with
  | leaf entry hleaf =>
    have hparent : entry.abbreviation.hasChildren = true := h
    rw [hleaf] at hparent
    cases hparent
  | parent entry hparent children stop =>
    rw [visible_parent, List.length_append, length_passedOfList _ children hchildren,
      PlacedTree.children, length_entriesAt]
    rfl

end PlacedTree

/-- In a unit that begins with a tree in which all stated siblings are true, the children of an
entry are read by decoding what stands below it, except below its descendants that state where
their next siblings begin. This is decoded in the order in which it is written, each of it once; if
no child has children, one decode for each of them and one for the end of their list. -/
theorem children_fast_decodes_visible (u : DebugUnit) (t : EntryTree u)
    (h : u.window.Holds u.header.rootOffset t.bytes) (htrue : t.SiblingsTrue u.header.rootOffset)
    (x : PlacedTree u) (hx : x ∈ t.subtrees u.header.rootOffset none) (mode : ReadMode)
    (depth : Nat) (p : Progress) :
    u.children (u.readAt mode depth x.found) .fast p =
        .ok (x.children.map (u.readAt .fast (depth + 1))) (p.counted x.visible.length) ∧
      u.childTrace (u.readAt mode depth x.found) = x.visible ∧
      x.visible.Pairwise (· < ·) ∧
      (x.found.hasChildren = true → (∀ e ∈ x.children, e.hasChildren = false) →
        x.visible.length = x.children.length + 1) := by
  have hroot : PlacedTree.Holds ⟨u.header.rootOffset, t, none⟩ :=
    ⟨Nat.le_refl _, h, htrue, fun _ he => nomatch he⟩
  have hplaced := t.holds_of_mem_subtrees hroot x hx
  have htrace := hplaced.childTrace_eq_visible mode depth
  have hleads : u.Leads (u.readAt mode depth x.found) x.stop
      (fun mode => x.next.map (u.readAt mode depth))
      (fun mode => x.children.map (u.readAt mode (depth + 1))) :=
    (Relabels.refl u).leads hplaced mode depth
  refine ⟨?_, htrace, x.pairwise_visible, x.length_visible_of_childless⟩
  obtain ⟨q, hchildren⟩ := Visit.exists_of_answer_eq_ok (hleads.children .fast p)
  have hcounted := DebugUnit.after_children_fast hchildren
  rw [htrace] at hcounted
  rw [← hcounted]
  exact hchildren

/-- The root states where its next sibling begins, which hides nothing from its own children. Its
first child does as well and hides the two entries below. -/
theorem children_fast_decodes_visible_linkedTree :
    let u := linkedUnit.unit
    (∃ d, DebugInfo.ofSections linkedUnit.sections .little = .ok d ∧ d.units[0]? = some u) ∧
      u.window.Holds 11 linkedTree.bytes ∧ linkedTree.SiblingsTrue 11 ∧
      u.children (u.readAt .fast 0 ((linkedEntry 19).entryAt 11)) .fast {} =
        .ok [u.readAt .fast 1 ((linkedEntry 17).entryAt 13),
          u.readAt .fast 1 (leafEntry.entryAt 17)] { decodes := 3 } ∧
      PlacedTree.below ⟨11, linkedTree, none⟩ = [13, 15, 16, 17, 18] ∧
      PlacedTree.visible ⟨11, linkedTree, none⟩ = [13, 17, 18] := by
  have hvisible : PlacedTree.visible ⟨11, linkedTree, none⟩ = [13, 17, 18] := by decide
  obtain ⟨hchildren, -⟩ := children_fast_decodes_visible linkedUnit.unit linkedTree
    holds_linkedTree siblingsTrue_linkedTree ⟨11, linkedTree, none⟩ List.mem_cons_self .fast 0 {}
  rw [hvisible] at hchildren
  exact ⟨linkedUnit.exists_ofSections, holds_linkedTree, siblingsTrue_linkedTree, hchildren,
    by decide, hvisible⟩

end StackSurvey.Dwarf
