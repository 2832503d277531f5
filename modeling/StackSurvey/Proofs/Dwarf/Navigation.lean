import StackSurvey.Proofs.Dwarf.EntryTree
import StackSurvey.Proofs.Dwarf.WrittenValue

namespace StackSurvey.Dwarf

open Decoder

variable {u v : DebugUnit} {f : Entry → Entry}

namespace EncodedEntry

theorem length_bytes_pos (x : EncodedEntry u) : 0 < x.bytes.length := by
  have hcode := x.isGroup.length_pos
  rw [bytes, List.length_append]
  omega

/-- If the entry states where its next sibling begins, it states this offset, in any form of a
reference into its unit. -/
def LinksTo (x : EncodedEntry u) (stop : Nat) : Prop :=
  ∀ a, x.attributes.find? (·.1.name == KnownAttribute.sibling.code) = some a →
    ∃ distance : UInt64, u.offset + distance.toNat = stop ∧ stop < 1 <<< 64 ∧
      a.1.form.Chain (Form.WritesDistance u.region.order distance) a.2

/-- True if the entry states where its next sibling begins. -/
def isLinked (x : EncodedEntry u) : Bool :=
  (x.attributes.find? (·.1.name == KnownAttribute.sibling.code)).isSome

theorem siblingTarget?_of_not_linked (x : EncodedEntry u) (h : x.isLinked = false)
    (offset : Nat) : (x.entryAt offset).siblingTarget? u = none := by
  have hnone := Option.not_isSome_iff_eq_none.1 (Bool.eq_false_iff.1 h)
  have hslot : (x.entryAt offset).slot? KnownAttribute.sibling.code = none :=
    find?_slotsAt_eq_none (·.name == KnownAttribute.sibling.code) hnone _
  rw [Entry.siblingTarget?, Entry.value?, Entry.value, Entry.attr, hslot]
  rfl

/-- A stated sibling is used if an entry may begin there, and otherwise passed over. -/
theorem siblingTarget?_of_linked (x : EncodedEntry u) {offset stop : Nat} (hlinks : x.LinksTo stop)
    (h : u.window.Holds offset x.bytes) (hlt : offset < stop) (hlinked : x.isLinked = true) :
    (x.entryAt offset).siblingTarget? u = if u.containsOffset stop then some stop else none := by
  have hvalues := (Window.holds_append.1 h).2
  obtain ⟨a, ha⟩ := Option.isSome_iff_exists.1 hlinked
  obtain ⟨distance, rfl, hword, hchain⟩ := hlinks a ha
  obtain ⟨start, hslot, hholds⟩ :=
    find?_slotsAt (·.name == KnownAttribute.sibling.code) ha hvalues
  obtain ⟨form, pos, rest, hfollow, hdistance, hrest⟩ := hchain.follow_eq hholds
  have hslot : (x.entryAt offset).slot? KnownAttribute.sibling.code = some ⟨a.1, start⟩ := hslot
  have hlocal := Attribute.localReference_of_distance
    (Attribute.distance_of_writes hdistance hrest a.1.name a.1.implicitConst) hword
  have hvalue : (x.entryAt offset).value u .sibling Attribute.localReference =
      Attribute.localReference u ⟨a.1.name, form, pos, a.1.implicitConst⟩ := by
    rw [Entry.value, Entry.attr_of_slot? hslot, Attribute.ofSpec_of_follow hfollow]
    rfl
  rw [Entry.siblingTarget?, Entry.value?, hvalue, hlocal]
  split
  · exact Option.filter_eq_some_iff.2 ⟨rfl, decide_eq_true hlt⟩
  · rfl

theorem siblingTarget?_entryAt (x : EncodedEntry u) {offset stop : Nat} (hlinks : x.LinksTo stop)
    (h : u.window.Holds offset x.bytes) (hlt : offset < stop) :
    (x.entryAt offset).siblingTarget? u = none ∨
      (x.entryAt offset).siblingTarget? u = some stop := by
  cases hlinked : x.isLinked with
  | false => exact .inl (x.siblingTarget?_of_not_linked hlinked offset)
  | true =>
    rw [x.siblingTarget?_of_linked hlinks h hlt hlinked]
    split
    · exact .inr rfl
    · exact .inl rfl

end EncodedEntry

namespace EntryTree

/-- The entry that a tree begins with. -/
def entry : EntryTree u → EncodedEntry u
  | leaf entry _ => entry
  | parent entry _ _ _ => entry

theorem find_entry (t : EntryTree u) {offset : Nat} (hroot : u.header.rootOffset ≤ offset)
    (h : u.window.Holds offset t.bytes) : u.find offset = .ok (t.entry.entryAt offset) := by
  cases t with
  | leaf entry => exact DebugUnit.find_entry entry hroot h
  | parent entry => exact DebugUnit.find_entry entry hroot (Window.holds_append.1 h).1

theorem lt_add_length_bytes (t : EntryTree u) (offset : Nat) :
    offset < offset + t.bytes.length := by
  cases t with
  | leaf entry => exact Nat.lt_add_of_pos_right entry.length_bytes_pos
  | parent entry =>
    have hentry := entry.length_bytes_pos
    rw [bytes, List.length_append]
    omega

mutual

/-- Entries that state where their next sibling begins state the offset past their own trees. -/
def SiblingsTrue (offset : Nat) : EntryTree u → Prop
  | leaf entry _ => entry.LinksTo (offset + entry.bytes.length)
  | parent entry h children stop =>
    entry.LinksTo (offset + (parent entry h children stop).bytes.length) ∧
      SiblingsTrueOfList (offset + entry.bytes.length) children

def SiblingsTrueOfList (offset : Nat) : List (EntryTree u) → Prop
  | [] => True
  | t :: ts => t.SiblingsTrue offset ∧ SiblingsTrueOfList (offset + t.bytes.length) ts

end

/-- The entries that trees which follow each other begin with. -/
def entriesAt : Nat → List (EntryTree u) → List Entry
  | _, [] => []
  | offset, t :: ts => t.entry.entryAt offset :: entriesAt (offset + t.bytes.length) ts

/-- The entry that stands at an offset where trees begin that are followed by the end of their
list. -/
def entryAfter (stop : ListEnd) (offset : Nat) : List (EntryTree u) → Entry
  | [] => stop.entryAt u offset
  | t :: _ => t.entry.entryAt offset

end EntryTree

/-- A tree in a unit: where it begins, and the entry that follows it, if one does. -/
structure PlacedTree (u : DebugUnit) where
  offset : Nat
  tree : EntryTree u
  follower? : Option Entry

namespace EntryTree

mutual

/-- The trees in a tree that begins at an offset, the tree itself first. -/
def subtrees (offset : Nat) (follower? : Option Entry) : EntryTree u → List (PlacedTree u)
  | leaf entry h => [{ offset, tree := leaf entry h, follower? }]
  | parent entry h children stop =>
    { offset, tree := parent entry h children stop, follower? } ::
      subtreesOfList (offset + entry.bytes.length) stop children

def subtreesOfList (offset : Nat) (stop : ListEnd) : List (EntryTree u) → List (PlacedTree u)
  | [] => []
  | t :: ts =>
    t.subtrees offset (some (entryAfter stop (offset + t.bytes.length) ts)) ++
      subtreesOfList (offset + t.bytes.length) stop ts

end

end EntryTree

namespace PlacedTree

/-- The entry that the tree begins with. -/
def found (x : PlacedTree u) : Entry := x.tree.entry.entryAt x.offset

/-- The offset just past the tree. -/
def stop (x : PlacedTree u) : Nat := x.offset + x.tree.bytes.length

/-- The entry past the tree: the one that follows it in its list, or whatever is found there. -/
def next (x : PlacedTree u) : Except Fault Entry :=
  match x.follower? with
  | some e => .ok e
  | none => u.find x.stop

/-- The entries directly below the one that the tree begins with. -/
def children (x : PlacedTree u) : List Entry :=
  match x.tree with
  | .leaf _ _ => []
  | .parent entry _ children _ => EntryTree.entriesAt (x.offset + entry.bytes.length) children

end PlacedTree

/-- An entry as a mode reads it at some depth. -/
def DebugUnit.readAt (u : DebugUnit) (mode : ReadMode) (depth : Nat) (e : Entry) : Entry :=
  { e.readAs u u.resolver mode with depth }

namespace DebugUnit

variable (mode : ReadMode) (depth : Nat) (e : Entry)

theorem nextOffset_readAt : (u.readAt mode depth e).nextOffset = e.nextOffset :=
  Entry.nextOffset_readAs ..

theorem isTerminator_readAt : (u.readAt mode depth e).isTerminator = e.isTerminator :=
  Entry.isTerminator_readAs ..

theorem hasChildren_readAt : (u.readAt mode depth e).hasChildren = e.hasChildren :=
  Entry.hasChildren_readAs ..

theorem siblingTarget?_readAt : (u.readAt mode depth e).siblingTarget? u = e.siblingTarget? u := by
  have hattr : (u.readAt mode depth e).attr u KnownAttribute.sibling.code =
      e.attr u KnownAttribute.sibling.code := Entry.attr_readAs ..
  have hoffset : (u.readAt mode depth e).offset = e.offset := Entry.offset_readAs ..
  rw [Entry.siblingTarget?, Entry.value?, Entry.value, hattr, hoffset]
  rfl

end DebugUnit

/-- A unit has the entries of another unit under other labels. Of what they state about their next
siblings it knows the same or nothing. -/
structure Relabels (u v : DebugUnit) (f : Entry → Entry) : Prop where
  find_eq : ∀ offset, v.find offset = (u.find offset).map f
  nextOffset_eq : ∀ e, (f e).nextOffset = e.nextOffset
  depth_eq : ∀ e, (f e).depth = e.depth
  isTerminator_eq : ∀ e, (f e).isTerminator = e.isTerminator
  hasChildren_eq : ∀ e, (f e).hasChildren = e.hasChildren
  siblingTarget?_eq : ∀ e, (f e).siblingTarget? v = none ∨
    (f e).siblingTarget? v = e.siblingTarget? u
  readAt_eq : ∀ mode depth e, v.readAt mode depth (f e) = f (u.readAt mode depth e)

namespace DebugUnit

variable {offset depth : Nat} {e : Entry}

theorem skipLists_of_done {stop : Nat} (hfind : u.find offset = .ok e)
    (hstep : e.stepOver u depth = .done stop) (p : Progress) :
    u.skipLists offset depth p = .ok stop p.count := by
  rw [skipLists_eq, hfind]
  simp only [hstep]

theorem skipLists_of_on {next depth' : Nat} (hfind : u.find offset = .ok e)
    (hstep : e.stepOver u depth = .on next depth') (p : Progress) :
    u.skipLists offset depth p = u.skipLists next depth' p.count := by
  rw [skipLists_eq, hfind]
  simp only [hstep]

theorem siblingOffset_of_leaf (h : e.hasChildren = false) (p : Progress) :
    u.siblingOffset e p = .ok e.nextOffset p := by
  rw [siblingOffset, h]
  rfl

theorem siblingOffset_of_target {target : Nat} (h : e.hasChildren = true)
    (htarget : e.siblingTarget? u = some target) (p : Progress) :
    u.siblingOffset e p = .ok target p := by
  rw [siblingOffset, h, htarget]
  rfl

theorem siblingOffset_of_list (h : e.hasChildren = true) (htarget : e.siblingTarget? u = none)
    (p : Progress) : u.siblingOffset e p = u.skipLists e.nextOffset 1 p := by
  rw [siblingOffset, h, htarget]
  rfl

variable {resolver : Resolver} {before : Array Entry} {p q r : Progress}

theorem siblings_of_terminator (hread : u.read resolver mode offset p = .ok e q)
    (h : e.isTerminator = true) :
    u.siblings resolver mode depth offset before p = .ok before q := by
  rw [siblings]
  split
  · rename_i hread'
    rw [hread] at hread'
    cases hread'
  · rename_i hread'
    rw [hread] at hread'
    cases hread'
    rw [if_pos h]

theorem siblings_of_entry {next : Nat} (hread : u.read resolver mode offset p = .ok e q)
    (h : ¬ e.isTerminator = true) (hnext : u.siblingOffset e q = .ok next r) :
    u.siblings resolver mode depth offset before p =
      u.siblings resolver mode depth next (before.push { e with depth }) r := by
  rw [siblings]
  split
  · rename_i hread'
    rw [hread] at hread'
    cases hread'
  · rename_i hread'
    rw [hread] at hread'
    cases hread'
    rw [if_neg h]
    split
    · rename_i hnext'
      rw [hnext] at hnext'
      cases hnext'
    · rename_i hnext'
      rw [hnext] at hnext'
      cases hnext'
      rfl

theorem siblings_of_read_error {fault : Fault}
    (hread : u.read resolver mode offset p = .error fault q) :
    u.siblings resolver mode depth offset before p = .error fault q := by
  rw [siblings]
  split
  · rename_i hread'
    rw [hread] at hread'
    cases hread'
    rfl
  · rename_i hread'
    rw [hread] at hread'
    cases hread'

theorem siblings_of_next_error {fault : Fault}
    (hread : u.read resolver mode offset p = .ok e q) (h : ¬ e.isTerminator = true)
    (hnext : u.siblingOffset e q = .error fault r) :
    u.siblings resolver mode depth offset before p = .error fault r := by
  rw [siblings]
  split
  · rename_i hread'
    rw [hread] at hread'
    cases hread'
  · rename_i hread'
    rw [hread] at hread'
    cases hread'
    rw [if_neg h]
    split
    · rename_i hnext'
      rw [hnext] at hnext'
      cases hnext'
      rfl
    · rename_i hnext'
      rw [hnext] at hnext'
      cases hnext'

end DebugUnit

namespace Relabels

variable {offset stop depth : Nat}

theorem refl (u : DebugUnit) : Relabels u u id where
  find_eq offset := by cases u.find offset <;> rfl
  nextOffset_eq _ := rfl
  depth_eq _ := rfl
  isTerminator_eq _ := rfl
  hasChildren_eq _ := rfl
  siblingTarget?_eq _ := .inr rfl
  readAt_eq _ _ _ := rfl

theorem find_of_find (h : Relabels u v f) {e : Entry} (he : u.find offset = .ok e) :
    v.find offset = .ok (f e) := by
  rw [h.find_eq, he]
  rfl

theorem siblingTarget?_entryAt (h : Relabels u v f) (x : EncodedEntry u)
    (hlinks : x.LinksTo stop) (hholds : u.window.Holds offset x.bytes) (hlt : offset < stop) :
    (f (x.entryAt offset)).siblingTarget? v = none ∨
      (f (x.entryAt offset)).siblingTarget? v = some stop := by
  rcases h.siblingTarget?_eq (x.entryAt offset) with hnone | heq
  · exact .inl hnone
  · rw [heq]
    exact x.siblingTarget?_entryAt hlinks hholds hlt

theorem isTerminator_entryAt (h : Relabels u v f) (x : EncodedEntry u) :
    ¬ (f (x.entryAt offset)).isTerminator = true := by
  rw [h.isTerminator_eq]
  exact Bool.false_ne_true

theorem skipLists_leaf (h : Relabels u v f) (x : EncodedEntry u)
    (hx : x.abbreviation.hasChildren = false) (hroot : u.header.rootOffset ≤ offset)
    (hholds : u.window.Holds offset x.bytes) (p : Progress) :
    v.skipLists offset depth p = v.skipLists (offset + x.bytes.length) depth p.count := by
  have hchildren : ¬ (f (x.entryAt offset)).hasChildren = true := by
    rw [h.hasChildren_eq]
    exact Bool.eq_false_iff.1 hx
  refine DebugUnit.skipLists_of_on (h.find_of_find (DebugUnit.find_entry x hroot hholds)) ?_ p
  rw [Entry.stepOver, if_neg (h.isTerminator_entryAt x), if_neg hchildren, h.nextOffset_eq]
  rfl

theorem skipLists_parent (h : Relabels u v f) (x : EncodedEntry u)
    (hx : x.abbreviation.hasChildren = true) (hlinks : x.LinksTo stop)
    (hroot : u.header.rootOffset ≤ offset) (hholds : u.window.Holds offset x.bytes)
    (hlt : offset < stop) (p : Progress) :
    v.skipLists offset depth p = v.skipLists stop depth p.count ∨
      v.skipLists offset depth p =
        v.skipLists (offset + x.bytes.length) (depth + 1) p.count := by
  have hterminator : ¬ (f (x.entryAt offset)).isTerminator = true := h.isTerminator_entryAt x
  have hchildren : (f (x.entryAt offset)).hasChildren = true := by
    rw [h.hasChildren_eq]
    exact hx
  have hfind := h.find_of_find (DebugUnit.find_entry x hroot hholds)
  rcases h.siblingTarget?_entryAt x hlinks hholds hlt with hnone | hsome
  · refine .inr (DebugUnit.skipLists_of_on hfind ?_ p)
    rw [Entry.stepOver, if_neg hterminator, if_pos hchildren, hnone, h.nextOffset_eq]
    rfl
  · refine .inl (DebugUnit.skipLists_of_on hfind ?_ p)
    rw [Entry.stepOver, if_neg hterminator, if_pos hchildren, hsome]

theorem skipLists_listEnd (h : Relabels u v f) (stop : ListEnd)
    (hroot : u.header.rootOffset ≤ offset) (hholds : u.window.Holds offset stop.code)
    (p : Progress) :
    v.skipLists offset (depth + 1) p =
      if depth = 0 then .ok (offset + stop.code.length) p.count
      else v.skipLists (offset + stop.code.length) depth p.count := by
  have hterminator : (f (stop.entryAt u offset)).isTerminator = true := h.isTerminator_eq _
  have hfind := h.find_of_find (DebugUnit.find_listEnd stop hroot hholds)
  cases depth with
  | zero =>
    refine DebugUnit.skipLists_of_done hfind ?_ p
    rw [Entry.stepOver, if_pos hterminator, if_pos (Nat.le_refl _), h.nextOffset_eq]
    rfl
  | succ depth =>
    refine DebugUnit.skipLists_of_on hfind ?_ p
    rw [Entry.stepOver, if_pos hterminator, if_neg (by omega), h.nextOffset_eq]
    rfl

mutual

/-- Inside an open list, stepping over a tree goes on from just past it. -/
theorem skipLists_tree (h : Relabels u v f) (t : EntryTree u) {offset : Nat} (depth : Nat)
    (hroot : u.header.rootOffset ≤ offset) (hholds : u.window.Holds offset t.bytes)
    (htrue : t.SiblingsTrue offset) (p : Progress) :
    ∃ q, v.skipLists offset (depth + 1) p =
      v.skipLists (offset + t.bytes.length) (depth + 1) q := by
  cases t with
  | leaf entry hleaf => exact ⟨_, h.skipLists_leaf entry hleaf hroot hholds p⟩
  | parent entry hparent children stop =>
    obtain ⟨hentry, hrest⟩ := Window.holds_append.1 hholds
    obtain ⟨hchildren, hstop⟩ := Window.holds_append.1 hrest
    obtain ⟨hlinks, htrueChildren⟩ := htrue
    have hroot' : u.header.rootOffset ≤ offset + entry.bytes.length := Nat.le_add_right_of_le hroot
    have hlt : offset < offset + (EntryTree.parent entry hparent children stop).bytes.length :=
      (EntryTree.parent entry hparent children stop).lt_add_length_bytes offset
    rcases h.skipLists_parent entry hparent hlinks hroot hentry hlt p with hjump | hwalk
    · exact ⟨_, hjump⟩
    · -- The children are stepped over one deeper; the end of their list leads back.
      obtain ⟨q, hq⟩ :=
        h.skipLists_trees children (depth + 1) hroot' hchildren htrueChildren p.count
      refine ⟨q.count, ?_⟩
      rw [hwalk, hq, h.skipLists_listEnd stop (Nat.le_add_right_of_le hroot') hstop,
        if_neg (Nat.succ_ne_zero depth), EntryTree.bytes, List.length_append, List.length_append,
        ← Nat.add_assoc, ← Nat.add_assoc]

theorem skipLists_trees (h : Relabels u v f) (ts : List (EntryTree u)) {offset : Nat}
    (depth : Nat) (hroot : u.header.rootOffset ≤ offset)
    (hholds : u.window.Holds offset (EntryTree.bytesOfList ts))
    (htrue : EntryTree.SiblingsTrueOfList offset ts) (p : Progress) :
    ∃ q, v.skipLists offset (depth + 1) p =
      v.skipLists (offset + (EntryTree.bytesOfList ts).length) (depth + 1) q := by
  cases ts with
  | nil => exact ⟨p, rfl⟩
  | cons t ts =>
    obtain ⟨ht, hts⟩ := Window.holds_append.1 hholds
    obtain ⟨htrueHead, htrueTail⟩ := htrue
    obtain ⟨q, hq⟩ := h.skipLists_tree t depth hroot ht htrueHead p
    obtain ⟨q', hq'⟩ := h.skipLists_trees ts depth (Nat.le_add_right_of_le hroot) hts htrueTail q
    refine ⟨q', ?_⟩
    rw [hq, hq', EntryTree.bytesOfList, List.length_append, Nat.add_assoc]

end

theorem hasChildren_readAt (h : Relabels u v f) (x : EncodedEntry u) (offset : Nat)
    (mode : ReadMode) (depth : Nat) :
    (f (u.readAt mode depth (x.entryAt offset))).hasChildren = x.abbreviation.hasChildren := by
  rw [h.hasChildren_eq, DebugUnit.hasChildren_readAt]
  rfl

theorem nextOffset_readAt (h : Relabels u v f) (x : EncodedEntry u) (offset : Nat)
    (mode : ReadMode) (depth : Nat) :
    (f (u.readAt mode depth (x.entryAt offset))).nextOffset = offset + x.bytes.length := by
  rw [h.nextOffset_eq, DebugUnit.nextOffset_readAt]
  rfl

theorem siblingTarget?_readAt (h : Relabels u v f) (x : EncodedEntry u) (hlinks : x.LinksTo stop)
    (hholds : u.window.Holds offset x.bytes) (hlt : offset < stop) (mode : ReadMode)
    (depth : Nat) :
    (f (u.readAt mode depth (x.entryAt offset))).siblingTarget? v = none ∨
      (f (u.readAt mode depth (x.entryAt offset))).siblingTarget? v = some stop := by
  rcases h.siblingTarget?_eq (u.readAt mode depth (x.entryAt offset)) with hnone | heq
  · exact .inl hnone
  · rw [heq, DebugUnit.siblingTarget?_readAt]
    exact x.siblingTarget?_entryAt hlinks hholds hlt

/-- The offset past an entry and everything below it is the offset past its tree. -/
theorem siblingOffset_tree (h : Relabels u v f) (t : EntryTree u)
    (hroot : u.header.rootOffset ≤ offset) (hholds : u.window.Holds offset t.bytes)
    (htrue : t.SiblingsTrue offset) (mode : ReadMode) (depth : Nat) (p : Progress) :
    ∃ q, v.siblingOffset (f (u.readAt mode depth (t.entry.entryAt offset))) p =
      .ok (offset + t.bytes.length) q := by
  have hlt := t.lt_add_length_bytes offset
  cases t with
  | leaf entry hleaf =>
    have hchildren := (h.hasChildren_readAt entry offset mode depth).trans hleaf
    refine ⟨p, (DebugUnit.siblingOffset_of_leaf hchildren p).trans ?_⟩
    rw [h.nextOffset_readAt]
    rfl
  | parent entry hparent children stop =>
    obtain ⟨hentry, hrest⟩ := Window.holds_append.1 hholds
    obtain ⟨hlist, hstop⟩ := Window.holds_append.1 hrest
    obtain ⟨hlinks, htrueChildren⟩ := htrue
    have hroot' : u.header.rootOffset ≤ offset + entry.bytes.length := Nat.le_add_right_of_le hroot
    have hchildren := (h.hasChildren_readAt entry offset mode depth).trans hparent
    rcases h.siblingTarget?_readAt entry hlinks hentry hlt mode depth with hnone | hsome
    · obtain ⟨q, hq⟩ := h.skipLists_trees children 0 hroot' hlist htrueChildren p
      refine ⟨q.count, (DebugUnit.siblingOffset_of_list hchildren hnone p).trans ?_⟩
      rw [h.nextOffset_readAt, hq, h.skipLists_listEnd stop (Nat.le_add_right_of_le hroot') hstop,
        if_pos rfl, EntryTree.bytes, List.length_append, List.length_append, ← Nat.add_assoc,
        ← Nat.add_assoc]
    · exact ⟨p, DebugUnit.siblingOffset_of_target hchildren hsome p⟩

/-- What the other unit reads is what is read here under its other label. -/
theorem read_of_find (h : Relabels u v f) {e : Entry} (hfind : u.find offset = .ok e)
    (mode : ReadMode) (p : Progress) :
    ∃ q depth, v.read v.resolver mode offset p = .ok (f (u.readAt mode depth e)) q := by
  obtain ⟨q, hread⟩ := DebugUnit.read_of_find (h.find_of_find hfind) mode p
  exact ⟨q, _, hread.trans (congrArg (EStateM.Result.ok · q) (h.readAt_eq mode _ e))⟩

theorem withDepth_readAt (h : Relabels u v f) (mode : ReadMode) (depth depth' : Nat) (e : Entry) :
    { f (u.readAt mode depth e) with depth := depth' } = f (u.readAt mode depth' e) := by
  rw [← h.readAt_eq, ← h.readAt_eq]
  rfl

/-- Trees that are followed by the end of their list are the siblings that are read there. -/
theorem siblings_trees (h : Relabels u v f) (ts : List (EntryTree u)) (stop : ListEnd)
    (hroot : u.header.rootOffset ≤ offset)
    (hholds : u.window.Holds offset (EntryTree.bytesOfList ts ++ stop.code))
    (htrue : EntryTree.SiblingsTrueOfList offset ts) (mode : ReadMode) (depth : Nat)
    (before : Array Entry) (p : Progress) :
    ∃ q, v.siblings v.resolver mode depth offset before p =
      .ok (before ++ ((EntryTree.entriesAt offset ts).map
        fun e => f (u.readAt mode depth e)).toArray) q := by
  induction ts generalizing offset before p with
  | nil =>
    obtain ⟨q, k, hread⟩ := h.read_of_find (DebugUnit.find_listEnd stop hroot hholds) mode p
    have hterminator : (f (u.readAt mode k (stop.entryAt u offset))).isTerminator = true := by
      rw [h.isTerminator_eq, DebugUnit.isTerminator_readAt]
      rfl
    refine ⟨q, (DebugUnit.siblings_of_terminator hread hterminator).trans ?_⟩
    simp [EntryTree.entriesAt]
  | cons t ts ih =>
    rw [EntryTree.bytesOfList, List.append_assoc] at hholds
    obtain ⟨ht, hrest⟩ := Window.holds_append.1 hholds
    obtain ⟨htrueHead, htrueTail⟩ := htrue
    obtain ⟨q, k, hread⟩ := h.read_of_find (t.find_entry hroot ht) mode p
    have hentry : ¬ (f (u.readAt mode k (t.entry.entryAt offset))).isTerminator = true := by
      rw [h.isTerminator_eq, DebugUnit.isTerminator_readAt]
      exact Bool.false_ne_true
    obtain ⟨r, hnext⟩ := h.siblingOffset_tree t hroot ht htrueHead mode k q
    obtain ⟨q', hq'⟩ := ih (Nat.le_add_right_of_le hroot) hrest htrueTail
      (before.push (f (u.readAt mode depth (t.entry.entryAt offset)))) r
    refine ⟨q', (DebugUnit.siblings_of_entry hread hentry hnext).trans ?_⟩
    -- The depth that the entry was read at gives way to that of the list.
    rw [h.withDepth_readAt, hq', EntryTree.entriesAt]
    simp

end Relabels

/-- What a visit answers, whatever has been decoded before. -/
def Visit.answer {α : Type} (visit : Visit α) (p : Progress) : Except Fault α :=
  match visit p with
  | .ok a _ => .ok a
  | .error fault _ => .error fault

namespace Visit

variable {α β : Type} {visit : Visit α} {p q : Progress}

theorem answer_of_ok {a : α} (h : visit p = .ok a q) : visit.answer p = .ok a := by
  rw [answer, h]

theorem exists_of_answer_eq_ok {a : α} (h : visit.answer p = .ok a) :
    ∃ q, visit p = .ok a q := by
  rw [answer] at h
  cases hvisit : visit p with
  | ok b q =>
    rw [hvisit] at h
    cases h
    exact ⟨q, rfl⟩
  | error fault q =>
    rw [hvisit] at h
    cases h

theorem answer_bind {a : α} (h : visit p = .ok a q) (g : α → Visit β) :
    answer (visit >>= g) p = answer (g a) q := by
  have hbind : (visit >>= g) p = g a q := by
    change EStateM.bind visit g p = g a q
    rw [EStateM.bind, h]
  rw [answer, hbind]
  rfl

theorem answer_bind_of_error {fault : Fault} (h : visit p = .error fault q) (g : α → Visit β) :
    answer (visit >>= g) p = .error fault := by
  have hbind : (visit >>= g) p = .error fault q := by
    change EStateM.bind visit g p = .error fault q
    rw [EStateM.bind, h]
  rw [answer, hbind]

theorem answer_map {a : α} (h : visit p = .ok a q) (g : α → β) :
    answer (g <$> visit) p = .ok (g a) := by
  have hmap : (g <$> visit) p = .ok (g a) q := by
    change EStateM.map g visit p = .ok (g a) q
    rw [EStateM.map, h]
  exact answer_of_ok hmap

end Visit

namespace DebugUnit

variable {e : Entry} {p q : Progress}

theorem decodeAt_map {α β : Type} (u : DebugUnit) (offset : Nat) (g : α → β) (dec : Decoder α) :
    u.decodeAt offset (g <$> dec) = (u.decodeAt offset dec).map g := by
  rw [decodeAt, decodeAt]
  cases h : dec u.window offset with
  | ok a next =>
    have hmap : (g <$> dec) u.window offset = .ok (g a) next :=
      bind_of_eq_ok (fun a => pure (g a)) h
    rw [hmap]
    rfl
  | error fault next =>
    have hmap : (g <$> dec) u.window offset = .error fault next :=
      bind_of_eq_error (fun a => pure (g a)) h
    rw [hmap]
    rfl

theorem read_of_error {offset : Nat} {fault : Fault} (h : u.find offset = .error fault)
    (resolver : Resolver) (mode : ReadMode) (p : Progress) :
    u.read resolver mode offset p = .error fault p.count := by
  unfold read
  rw [h]

theorem answer_next {stop : Nat} (h : u.siblingOffset e p = .ok stop q) (mode : ReadMode) :
    (u.next e mode).answer p = (u.find stop).map (u.readAt mode e.depth) := by
  rw [next, Visit.answer_bind h]
  cases hfind : u.find stop with
  | error fault => exact Visit.answer_bind_of_error (read_of_error hfind u.resolver mode q) _
  | ok found =>
    obtain ⟨r, hread⟩ : ∃ r, u.read u.resolver mode stop q = .ok _ r := read_of_find hfind mode q
    rw [Visit.answer_bind hread]
    rfl

theorem answer_children_of_siblings {siblings : Array Entry} {depth offset : Nat}
    {mode : ReadMode} (h : e.hasChildren = true) (hdepth : e.depth = depth)
    (hnext : e.nextOffset = offset)
    (hsiblings : u.siblings u.resolver mode (depth + 1) offset #[] p = .ok siblings q) :
    (u.children e mode).answer p = .ok siblings.toList := by
  rw [children, if_pos h, hdepth, hnext]
  exact Visit.answer_map hsiblings Array.toList

theorem answer_children_of_leaf (h : e.hasChildren = false) (mode : ReadMode) (p : Progress) :
    (u.children e mode).answer p = .ok [] := by
  rw [children, h]
  rfl

end DebugUnit

/-- Where an entry leads to: the offset past everything below it, the entry there, and the entries
directly below it. -/
structure DebugUnit.Leads (u : DebugUnit) (e : Entry) (stop : Nat)
    (next : ReadMode → Except Fault Entry) (children : ReadMode → List Entry) : Prop where
  siblingOffset : ∀ p, (u.siblingOffset e).answer p = .ok stop
  next : ∀ mode p, (u.next e mode).answer p = next mode
  children : ∀ mode p, (u.children e mode).answer p = .ok (children mode)

/-- A tree is where it is said to be, and so is the entry that follows it. -/
structure PlacedTree.Holds (x : PlacedTree u) : Prop where
  root_le : u.header.rootOffset ≤ x.offset
  holds : u.window.Holds x.offset x.tree.bytes
  siblingsTrue : x.tree.SiblingsTrue x.offset
  find_follower : ∀ e ∈ x.follower?, u.find x.stop = .ok e

theorem PlacedTree.Holds.next_eq {x : PlacedTree u} (h : x.Holds) : x.next = u.find x.stop := by
  rw [next]
  split
  · rename_i hfollower
    exact (h.find_follower _ hfollower).symm
  · rfl

namespace EntryTree

theorem find_entryAfter (ts : List (EntryTree u)) (stop : ListEnd) {offset : Nat}
    (hroot : u.header.rootOffset ≤ offset)
    (h : u.window.Holds offset (bytesOfList ts ++ stop.code)) :
    u.find offset = .ok (entryAfter stop offset ts) := by
  cases ts with
  | nil => exact DebugUnit.find_listEnd stop hroot h
  | cons t ts =>
    rw [bytesOfList, List.append_assoc] at h
    exact t.find_entry hroot (Window.holds_append.1 h).1

mutual

theorem holds_of_mem_subtrees (t : EntryTree u) {offset : Nat} {follower? : Option Entry}
    (ht : PlacedTree.Holds ⟨offset, t, follower?⟩) :
    ∀ x ∈ t.subtrees offset follower?, x.Holds := by
  cases t with
  | leaf entry hleaf => exact List.forall_mem_singleton.2 ht
  | parent entry hparent children stop =>
    have hrest := (Window.holds_append.1 ht.holds).2
    exact List.forall_mem_cons.2 ⟨ht, holds_of_mem_subtreesOfList children stop
      (Nat.le_add_right_of_le ht.root_le) hrest ht.siblingsTrue.2⟩

theorem holds_of_mem_subtreesOfList (ts : List (EntryTree u)) (stop : ListEnd) {offset : Nat}
    (hroot : u.header.rootOffset ≤ offset)
    (h : u.window.Holds offset (bytesOfList ts ++ stop.code))
    (htrue : SiblingsTrueOfList offset ts) :
    ∀ x ∈ subtreesOfList offset stop ts, x.Holds := by
  cases ts with
  | nil => exact List.forall_mem_nil _
  | cons t ts =>
    rw [bytesOfList, List.append_assoc] at h
    obtain ⟨ht, hts⟩ := Window.holds_append.1 h
    have hroot' : u.header.rootOffset ≤ offset + t.bytes.length := Nat.le_add_right_of_le hroot
    have hplaced : PlacedTree.Holds
        ⟨offset, t, some (entryAfter stop (offset + t.bytes.length) ts)⟩ :=
      ⟨hroot, ht, htrue.1, fun e he => Option.some.inj he ▸ find_entryAfter ts stop hroot' hts⟩
    exact List.forall_mem_append.2 ⟨holds_of_mem_subtrees t hplaced,
      holds_of_mem_subtreesOfList ts stop hroot' hts htrue.2⟩

end

end EntryTree

namespace Relabels

theorem siblingOffset_of_holds (h : Relabels u v f) {x : PlacedTree u} (hx : x.Holds)
    (mode : ReadMode) (depth : Nat) (p : Progress) :
    ∃ q, v.siblingOffset (f (u.readAt mode depth x.found)) p = .ok x.stop q :=
  h.siblingOffset_tree x.tree hx.root_le hx.holds hx.siblingsTrue mode depth p

theorem leads (h : Relabels u v f) {x : PlacedTree u} (hx : x.Holds) (mode : ReadMode)
    (depth : Nat) :
    v.Leads (f (u.readAt mode depth x.found)) x.stop
      (fun mode => x.next.map fun e => f (u.readAt mode depth e))
      (fun mode => x.children.map fun e => f (u.readAt mode (depth + 1) e)) where
  siblingOffset p := by
    obtain ⟨q, hq⟩ := h.siblingOffset_of_holds hx mode depth p
    exact Visit.answer_of_ok hq
  next mode' p := by
    obtain ⟨q, hq⟩ := h.siblingOffset_of_holds hx mode depth p
    have hdepth : (f (u.readAt mode depth x.found)).depth = depth := h.depth_eq _
    rw [DebugUnit.answer_next hq, hdepth, hx.next_eq, h.find_eq]
    cases u.find x.stop with
    | error fault => rfl
    | ok e => exact congrArg Except.ok (h.readAt_eq mode' depth e)
  children mode' p := by
    have hdepth : (f (u.readAt mode depth x.found)).depth = depth := h.depth_eq _
    obtain ⟨offset, t, follower?⟩ := x
    cases t with
    | leaf entry hleaf =>
      have hchildren := (h.hasChildren_readAt entry offset mode depth).trans hleaf
      exact DebugUnit.answer_children_of_leaf hchildren mode' p
    | parent entry hparent children stop =>
      have hchildren := (h.hasChildren_readAt entry offset mode depth).trans hparent
      have hrest := (Window.holds_append.1 hx.holds).2
      obtain ⟨q, hq⟩ := h.siblings_trees children stop (Nat.le_add_right_of_le hx.root_le) hrest
        hx.siblingsTrue.2 mode' (depth + 1) #[] p
      rw [Array.empty_append] at hq
      exact DebugUnit.answer_children_of_siblings hchildren hdepth
        (h.nextOffset_readAt entry offset mode depth) hq

end Relabels

end StackSurvey.Dwarf
