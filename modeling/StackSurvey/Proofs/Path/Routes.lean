import Mathlib.Logic.Relation
import StackSurvey.Proofs.Path.SourceNames

namespace StackSurvey.Path

variable {path tail last : String} {text text' before rest : List Char} {c d : Char}

/-- Either kind of slash. -/
def isSlash (c : Char) : Bool := c = '/' || c = '\\'

/-- The step that a part of a path takes. -/
def stepOf (part : List Char) : Component :=
  if part = ['.', '.'] then .parent else .name (.ofList part)

/-- The parts of a path that lead somewhere: empty parts and dots do not. -/
def leadingParts (text : List Char) : List (List Char) :=
  (Text.splitAt isSlash text).filter fun part => part ≠ [] ∧ part ≠ ['.']

/-- The steps of a path. -/
def steps (text : List Char) : List Component := (leadingParts text).map stepOf

/-- A path begins at the root. -/
def isRooted (text : List Char) : Bool := text.head?.any isSlash

/-- Where a path leads: its steps, from the root if it begins there. -/
def route (path : String) : List Component :=
  if isRooted path.toList then .root :: steps path.toList else steps path.toList

section Components

theorem ofPart?_eq (part : List Char) :
    ofPart? part = if part ≠ [] ∧ part ≠ ['.'] then some (stepOf part) else none := by
  rw [ofPart?, stepOf]
  split
  · rename_i hidle
    exact (if_neg fun h => hidle.elim h.1 h.2).symm
  · rename_i hidle
    rw [if_pos (not_or.1 hidle)]
    split <;> rfl

theorem isSlash_iff : isSlash c = true ↔ (if c = '\\' then '/' else c) = '/' := by
  rw [isSlash, Bool.or_eq_true, decide_eq_true_iff, decide_eq_true_iff]
  split
  · simp [*]
  · simp [*]

/-- Read with slashes, a path has the parts between the slashes of either kind. -/
theorem parts_map_slash (text : List Char) :
    parts (text.map fun c => if c = '\\' then '/' else c) = Text.splitAt isSlash text := by
  induction text with
  | nil => rfl
  | cons c text ih =>
    rw [parts] at ih
    rw [List.map_cons, parts, Text.splitAt, Text.splitAt, ih]
    by_cases hc : isSlash c = true
    · rw [if_pos (beq_iff_eq.2 (isSlash_iff.1 hc)), if_pos hc]
    · have hkept : c ≠ '\\' := by
        rintro rfl
        exact hc rfl
      rw [if_neg (mt beq_iff_eq.1 (mt isSlash_iff.2 hc)), if_neg hc, if_neg hkept]

theorem body_withSlashes (path : String) :
    body (withSlashes path).toList = steps path.toList := by
  rw [toList_withSlashes, body, parts_map_slash, steps, leadingParts]
  induction Text.splitAt isSlash path.toList with
  | nil => rfl
  | cons part others ih =>
    rw [List.filterMap_cons, ofPart?_eq, List.filter_cons, ih]
    by_cases hpart : part ≠ [] ∧ part ≠ ['.']
    · rw [if_pos hpart, if_pos (decide_eq_true hpart), List.map_cons]
    · rw [if_neg hpart, if_neg (mt of_decide_eq_true hpart)]

theorem head?_withSlashes_iff :
    (withSlashes path).toList.head? = some '/' ↔ isRooted path.toList = true := by
  rw [toList_withSlashes, isRooted]
  cases path.toList with
  | nil => constructor <;> intro h <;> cases h
  | cons c rest =>
    change some _ = some _ ↔ isSlash c = true
    rw [Option.some.injEq, isSlash_iff]

/-- The components that are wanted of a path's end are the route of the path. -/
theorem wanted_eq_route (path : String) : wanted path = route path := by
  rw [route]
  by_cases hroot : (withSlashes path).toList.head? = some '/'
  · rw [if_pos (head?_withSlashes_iff.1 hroot), (wanted_of_rooted hroot).1, components_eq, lead,
      if_pos hroot, body_withSlashes]
    rfl
  · rw [if_neg (mt head?_withSlashes_iff.2 hroot), (wanted_of_relative hroot).1, body_withSlashes]

theorem current_notMem_route (path : String) : .current ∉ route path := by
  rw [← wanted_eq_route, wanted, List.mem_filter]
  exact fun h => of_decide_eq_true h.2 rfl

theorem head?_route_iff : (route path).head? = some .root ↔ isRooted path.toList = true := by
  rw [← wanted_eq_route, ← head?_withSlashes_iff]
  by_cases hroot : (withSlashes path).toList.head? = some '/'
  · exact iff_of_true (wanted_of_rooted hroot).2 hroot
  · exact iff_of_false (wanted_of_relative hroot).2 hroot

/-- The components of a path are its route, but for a dot that it may begin with. -/
theorem components_withSlashes (path : String) :
    components (withSlashes path) = route path ∨
      ¬ isRooted path.toList = true ∧ components (withSlashes path) = .current :: route path := by
  by_cases hroot : isRooted path.toList = true
  · exact .inl ((wanted_of_rooted (head?_withSlashes_iff.2 hroot)).1.symm.trans
      (wanted_eq_route path))
  · rw [route, if_neg hroot, components_eq, lead, if_neg (mt head?_withSlashes_iff.1 hroot),
      body_withSlashes]
    split
    · exact .inr ⟨hroot, rfl⟩
    · exact .inl rfl

end Components

/-- Which paths end with a tail: those with its route if it begins at the root, else those whose
route ends with that of the tail. -/
theorem endsWith_iff_route :
    endsWith path tail = true ↔
      route tail ≠ [] ∧
        if isRooted tail.toList then route path = route tail else route tail <:+ route path := by
  rw [endsWith_iff, wanted_eq_route]
  refine and_congr_right fun _ => ?_
  by_cases hroot : isRooted tail.toList = true
  · rw [if_pos (head?_route_iff.2 hroot), if_pos hroot]
    rcases components_withSlashes path with heq | ⟨hrelative, heq⟩
    · rw [heq]
    · -- Neither the dot nor a relative route begins at the root.
      have hhead := head?_route_iff.2 hroot
      refine iff_of_false (fun h => ?_) fun h => ?_
      · rw [← h, heq] at hhead
        cases hhead
      · rw [← h] at hhead
        exact hrelative (head?_route_iff.1 hhead)
  · rw [if_neg (mt head?_route_iff.1 hroot), if_neg hroot]
    rcases components_withSlashes path with heq | ⟨-, heq⟩
    · rw [heq]
    · -- The route of the tail has no dot, so it does not reach the one before that of the path.
      rw [heq, List.suffix_cons_iff]
      refine or_iff_right fun h => current_notMem_route tail ?_
      rw [h]
      exact List.mem_cons_self

section Spelling

/-- A path and another spelling of it, one change apart. -/
inductive Respells : List Char → List Char → Prop
  /-- The other kind of slash. -/
  | slash {c d : Char} (before rest : List Char) (hc : isSlash c = true) (hd : isSlash d = true) :
    Respells (before ++ c :: rest) (before ++ d :: rest)
  /-- A slash that is repeated. -/
  | repeated {c d : Char} (before rest : List Char) (hc : isSlash c = true)
      (hd : isSlash d = true) :
    Respells (before ++ c :: d :: rest) (before ++ c :: rest)
  /-- A slash at the end, which is not all of the path. -/
  | trailing {c : Char} {before : List Char} (hbefore : before ≠ []) (hc : isSlash c = true) :
    Respells (before ++ [c]) before
  /-- A dot between slashes. -/
  | dot {c d : Char} (before rest : List Char) (hc : isSlash c = true) (hd : isSlash d = true) :
    Respells (before ++ c :: '.' :: d :: rest) (before ++ c :: rest)
  /-- A dot at the end. -/
  | lastDot {c : Char} (before : List Char) (hc : isSlash c = true) :
    Respells (before ++ [c, '.']) (before ++ [c])
  /-- A dot at the beginning of a path that stays relative without it. -/
  | firstDot {c : Char} {rest : List Char} (hc : isSlash c = true)
      (hrest : ¬ isRooted rest = true) :
    Respells ('.' :: c :: rest) rest
  /-- A dot alone. -/
  | onlyDot : Respells ['.'] []

/-- One text is another in a different spelling. -/
abbrev SameSpelling (text text' : List Char) : Prop := Relation.EqvGen Respells text text'

section Parts

theorem leadingParts_append_slash (hc : isSlash c = true) (before rest : List Char) :
    leadingParts (before ++ c :: rest) = leadingParts before ++ leadingParts rest := by
  rw [leadingParts, Text.splitAt_append_separator hc, List.filter_append]
  rfl

theorem leadingParts_slash (hc : isSlash c = true) (rest : List Char) :
    leadingParts (c :: rest) = leadingParts rest :=
  leadingParts_append_slash hc [] rest

/-- What has no slash is nothing, a dot, or the one part that leads somewhere. -/
theorem leadingParts_cases {word : List Char} (hword : ∀ x ∈ word, isSlash x = false) :
    word = [] ∨ word = ['.'] ∨ word ≠ [] ∧ leadingParts word = [word] := by
  by_cases hnil : word = []
  · exact .inl hnil
  · by_cases hdot : word = ['.']
    · exact .inr (.inl hdot)
    · refine .inr (.inr ⟨hnil, ?_⟩)
      rw [leadingParts, Text.splitAt_of_forall hword]
      exact List.filter_cons_of_pos (decide_eq_true ⟨hnil, hdot⟩)

theorem leadingParts_dot : leadingParts ['.'] = [] := by decide

theorem leadingParts_dot_slash (hc : isSlash c = true) (rest : List Char) :
    leadingParts ('.' :: c :: rest) = leadingParts rest := by
  have hparts : leadingParts (['.'] ++ c :: rest) = leadingParts ['.'] ++ leadingParts rest :=
    leadingParts_append_slash hc ..
  rwa [leadingParts_dot, List.nil_append] at hparts

/-- Parts that lead somewhere have a first character, which is no slash. -/
theorem not_isRooted_ofParts (text : List Char) :
    ¬ isRooted (ofParts (leadingParts text)) = true := by
  cases hparts : leadingParts text with
  | nil => exact Bool.false_ne_true
  | cons part others =>
    have hmem : part ∈ leadingParts text := hparts ▸ List.mem_cons_self
    obtain ⟨hpiece, hlead⟩ := List.mem_filter.1 hmem
    obtain ⟨x, part, rfl⟩ := List.exists_cons_of_ne_nil (of_decide_eq_true hlead).1
    have hx : isSlash x = false := Text.not_of_mem_splitAt hpiece x List.mem_cons_self
    cases others with
    | nil => exact Bool.eq_false_iff.1 hx
    | cons => exact Bool.eq_false_iff.1 hx

end Parts

theorem isRooted_append (hbefore : before ≠ []) (rest : List Char) :
    isRooted (before ++ rest) = isRooted before := by
  obtain ⟨c, before, rfl⟩ := List.exists_cons_of_ne_nil hbefore
  rfl

theorem isRooted_append_slash (hc : isSlash c = true) (hd : isSlash d = true)
    (before rest rest' : List Char) :
    isRooted (before ++ c :: rest) = isRooted (before ++ d :: rest') := by
  cases before with
  | nil => exact hc.trans hd.symm
  | cons x before => rfl

/-- A change of spelling leaves the parts that lead somewhere as they are, and the root. -/
theorem Respells.leadingParts_eq (h : Respells text text') :
    isRooted text = isRooted text' ∧ leadingParts text = leadingParts text' := by
  cases h with
  | slash before rest hc hd =>
    refine ⟨isRooted_append_slash hc hd .., ?_⟩
    rw [leadingParts_append_slash hc, leadingParts_append_slash hd]
  | repeated before rest hc hd =>
    refine ⟨isRooted_append_slash hc hc .., ?_⟩
    rw [leadingParts_append_slash hc, leadingParts_append_slash hc, leadingParts_slash hd]
  | trailing hbefore hc =>
    refine ⟨isRooted_append hbefore _, ?_⟩
    rw [leadingParts_append_slash hc]
    exact List.append_nil _
  | dot before rest hc hd =>
    refine ⟨isRooted_append_slash hc hc .., ?_⟩
    rw [leadingParts_append_slash hc, leadingParts_append_slash hc, leadingParts_dot_slash hd]
  | lastDot before hc =>
    refine ⟨isRooted_append_slash hc hc .., ?_⟩
    rw [leadingParts_append_slash hc, leadingParts_append_slash hc, leadingParts_dot]
    rfl
  | firstDot hc hrest =>
    exact ⟨(Bool.eq_false_iff.2 hrest).symm, leadingParts_dot_slash hc text'⟩
  | onlyDot => exact ⟨rfl, leadingParts_dot⟩

theorem SameSpelling.leadingParts_eq (h : SameSpelling text text') :
    isRooted text = isRooted text' ∧ leadingParts text = leadingParts text' := by
  induction h with
  | rel text text' h => exact h.leadingParts_eq
  | refl text => exact ⟨rfl, rfl⟩
  | symm text text' _ ih => exact ⟨ih.1.symm, ih.2.symm⟩
  | trans text text' text'' _ _ ih ih' => exact ⟨ih.1.trans ih'.1, ih.2.trans ih'.2⟩

theorem sameSpelling_ofParts_cons {word : List Char} (hword : word ≠ []) (before : List Char)
    (parts : List (List Char)) :
    SameSpelling (before ++ word ++ '/' :: ofParts parts) (before ++ ofParts (word :: parts)) := by
  cases parts with
  | nil =>
    have hne : before ++ word ≠ [] := List.append_ne_nil_of_right_ne_nil _ hword
    rw [ofParts, ofParts, List.intercalate_nil, List.intercalate_singleton]
    exact .rel _ _ (.trailing hne rfl)
  | cons part parts =>
    rw [ofParts, ofParts, List.intercalate_cons_cons, List.append_assoc, List.append_assoc]
    exact .refl _

/-- What stands behind a slash is the same as the parts of it that lead somewhere. -/
theorem sameSpelling_behind_slash (hc : isSlash c = true) (before rest : List Char) :
    SameSpelling (before ++ c :: rest) (before ++ '/' :: ofParts (leadingParts rest)) := by
  have hslash {d : Char} (hd : isSlash d = true) (before rest : List Char) :
      SameSpelling (before ++ d :: rest) (before ++ '/' :: rest) := .rel _ _ (.slash _ _ hd rfl)
  induction hpieces : Text.splitAt isSlash rest generalizing before c rest with
  | nil => exact absurd hpieces (Text.splitAt_ne_nil _ _)
  | cons word pieces ih =>
    obtain ⟨hword, ⟨rfl, -⟩ | ⟨d, rest, hd, rfl, hrest⟩⟩ := Text.eq_append_of_splitAt hpieces
    · -- The last part.
      obtain rfl | rfl | ⟨-, hlead⟩ := leadingParts_cases hword
      · exact hslash hc before []
      · exact .trans _ _ _ (.rel _ _ (.lastDot before hc)) (hslash hc before [])
      · rw [hlead, ofParts, List.intercalate_singleton]
        exact hslash hc before rest
    · obtain rfl | rfl | ⟨hne, hlead⟩ := leadingParts_cases hword
      · rw [List.nil_append, leadingParts_slash hd]
        exact .trans _ _ _ (.rel _ _ (.repeated before rest hc hd)) (ih hc before rest hrest)
      · rw [List.singleton_append, leadingParts_dot_slash hd]
        exact .trans _ _ _ (.rel _ _ (.dot before rest hc hd)) (ih hc before rest hrest)
      · rw [leadingParts_append_slash hd, hlead, List.singleton_append]
        have hbehind := ih hd (before ++ [c] ++ word) rest hrest
        have hcons := sameSpelling_ofParts_cons hne (before ++ [c]) (leadingParts rest)
        have hchain := Relation.EqvGen.trans _ _ _ hbehind hcons
        rw [List.append_assoc, List.append_assoc, List.append_assoc] at hchain
        exact .trans _ _ _ hchain (hslash hc before _)

theorem sameSpelling_of_relative (h : ¬ isRooted text = true) :
    SameSpelling text (ofParts (leadingParts text)) := by
  obtain ⟨word, pieces, hpieces⟩ :=
    List.exists_cons_of_ne_nil (Text.splitAt_ne_nil isSlash text)
  obtain ⟨hword, ⟨rfl, -⟩ | ⟨d, rest, hd, rfl, -⟩⟩ := Text.eq_append_of_splitAt hpieces
  · obtain rfl | rfl | ⟨-, hlead⟩ := leadingParts_cases hword
    · exact .refl _
    · exact .rel _ _ .onlyDot
    · rw [hlead, ofParts, List.intercalate_singleton]
      exact .refl _
  · have hbehind := sameSpelling_behind_slash hd word rest
    obtain rfl | rfl | ⟨hne, hlead⟩ := leadingParts_cases hword
    · exact absurd hd h
    · rw [List.singleton_append, leadingParts_dot_slash hd]
      exact .trans _ _ _ hbehind (.rel _ _ (.firstDot rfl (not_isRooted_ofParts rest)))
    · rw [leadingParts_append_slash hd, hlead]
      exact .trans _ _ _ hbehind (sameSpelling_ofParts_cons hne [] (leadingParts rest))

theorem sameSpelling_of_rooted (h : isRooted text = true) :
    SameSpelling text ('/' :: ofParts (leadingParts text)) := by
  cases text with
  | nil => cases h
  | cons c rest =>
    rw [leadingParts_slash h]
    exact sameSpelling_behind_slash h [] rest

/-- Texts are spellings of one another exactly if the same parts of them lead somewhere, from the
root or not. -/
theorem sameSpelling_iff :
    SameSpelling text text' ↔
      isRooted text = isRooted text' ∧ leadingParts text = leadingParts text' := by
  refine ⟨SameSpelling.leadingParts_eq, fun ⟨hroot, hparts⟩ => ?_⟩
  by_cases h : isRooted text = true
  · have hbehind := sameSpelling_of_rooted (hroot ▸ h)
    rw [← hparts] at hbehind
    exact .trans _ _ _ (sameSpelling_of_rooted h) (.symm _ _ hbehind)
  · have hrelative := sameSpelling_of_relative (hroot ▸ h)
    rw [← hparts] at hrelative
    exact .trans _ _ _ (sameSpelling_of_relative h) (.symm _ _ hrelative)

theorem stepOf_injective : Function.Injective stepOf := by
  intro part part' h
  rw [stepOf, stepOf] at h
  split at h
  · split at h
    · rename_i hpart hpart'
      exact hpart.trans hpart'.symm
    · cases h
  · split at h
    · cases h
    · exact String.ofList_injective (Component.name.inj h)

/-- Routes are the same exactly if the paths are spellings of one another. -/
theorem route_eq_route_iff {path' : String} :
    route path = route path' ↔ SameSpelling path.toList path'.toList := by
  rw [sameSpelling_iff]
  constructor
  · intro h
    have hroot : isRooted path.toList = isRooted path'.toList := by
      rw [Bool.eq_iff_iff, ← head?_route_iff, ← head?_route_iff, h]
    refine ⟨hroot, List.map_injective_iff.2 stepOf_injective ?_⟩
    rw [route, route, ← hroot] at h
    split at h
    · exact (List.cons.inj h).2
    · exact h
  · rintro ⟨hroot, hparts⟩
    rw [route, route, steps, steps, hroot, hparts]

theorem endsWith_congr {path' tail' : String} (hpath : SameSpelling path.toList path'.toList)
    (htail : SameSpelling tail.toList tail'.toList) :
    endsWith path tail = endsWith path' tail' := by
  have hroot := (sameSpelling_iff.1 htail).1
  rw [Bool.eq_iff_iff, endsWith_iff_route, endsWith_iff_route, route_eq_route_iff.2 hpath,
    route_eq_route_iff.2 htail, hroot]

end Spelling

theorem endsWith_trans (h : endsWith path tail = true) (h' : endsWith tail last = true) :
    endsWith path last = true := by
  obtain ⟨-, hpath⟩ := endsWith_iff_route.1 h
  obtain ⟨hne, htail⟩ := endsWith_iff_route.1 h'
  refine endsWith_iff_route.2 ⟨hne, ?_⟩
  by_cases hlast : isRooted last.toList = true
  · rw [if_pos hlast] at htail ⊢
    -- A tail with a route from the root begins there itself.
    have hroot : isRooted tail.toList = true := by
      rw [← head?_route_iff, htail, head?_route_iff]
      exact hlast
    rw [if_pos hroot] at hpath
    exact hpath.trans htail
  · rw [if_neg hlast] at htail ⊢
    split at hpath
    · rw [hpath]
      exact htail
    · exact htail.trans hpath

/-- A path ends with a tail exactly if the tail leads somewhere and its route is that of the path,
where the tail begins at the root, or the end of that route. Routes are the same for all spellings
of a path and for no others, so it does not show how the two are spelled, and what ends the tail
ends the path. -/
theorem endsWith_by_routes :
    (∀ path tail : String, endsWith path tail = true ↔
      route tail ≠ [] ∧
        if isRooted tail.toList then route path = route tail else route tail <:+ route path) ∧
    (∀ path path' : String,
      route path = route path' ↔ SameSpelling path.toList path'.toList) ∧
    (∀ path path' tail tail' : String, SameSpelling path.toList path'.toList →
      SameSpelling tail.toList tail'.toList → endsWith path tail = endsWith path' tail') ∧
    ∀ path tail last : String, endsWith path tail = true → endsWith tail last = true →
      endsWith path last = true :=
  ⟨fun _ _ => endsWith_iff_route, fun _ _ => route_eq_route_iff, fun _ _ _ _ => endsWith_congr,
    fun _ _ _ => endsWith_trans⟩

theorem sameSpelling_dottedSource : SameSpelling "src//./a.c".toList "src\\a.c".toList := by
  let dotted := "./a.c".toList
  let plain := "a.c".toList
  have hrepeated :
      Respells ("src".toList ++ '/' :: '/' :: dotted) ("src".toList ++ '/' :: dotted) :=
    .repeated _ _ rfl rfl
  have hdot :
      Respells ("src".toList ++ '/' :: '.' :: '/' :: plain) ("src".toList ++ '/' :: plain) :=
    .dot _ _ rfl rfl
  have hslash : Respells ("src".toList ++ '/' :: plain) ("src".toList ++ '\\' :: plain) :=
    .slash _ _ rfl rfl
  exact .trans _ _ _ (.rel _ _ hrepeated) (.trans _ _ _ (.rel _ _ hdot) (.rel _ _ hslash))

theorem endsWith_by_routes_dottedSource :
    SameSpelling "src//./a.c".toList "src\\a.c".toList ∧
      endsWith "/b/src\\a.c" "src//./a.c" = endsWith "/b/src\\a.c" "src\\a.c" ∧
      endsWith "/b/src\\a.c" "src//./a.c" = true ∧ endsWith "src//./a.c" "a.c" = true ∧
      endsWith "/b/src\\a.c" "a.c" = true := by
  have hpath : endsWith "/b/src\\a.c" "src//./a.c" = true := by cbv
  have htail : endsWith "src//./a.c" "a.c" = true := by cbv
  obtain ⟨-, -, hspelling, htrans⟩ := endsWith_by_routes
  exact ⟨sameSpelling_dottedSource,
    hspelling _ _ _ _ (.refl _) sameSpelling_dottedSource, hpath, htail,
    htrans _ _ _ hpath htail⟩

end StackSurvey.Path
