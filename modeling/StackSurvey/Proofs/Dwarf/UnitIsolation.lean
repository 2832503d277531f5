import Mathlib.Data.List.Forall2
import StackSurvey.Proofs.Dwarf.DelimitedUnits
import StackSurvey.Proofs.Dwarf.UnitLocality

namespace StackSurvey.Dwarf

open Decoder

variable {order : ByteOrder} {start index : Nat} {sections : DebugSections} {info info' : ByteArray}

theorem Window.agrees_of_endsWith {w v : Window} {pos : Nat} {bytes : List UInt8}
    (hregion : w.region = v.region) (hw : w.EndsWith pos bytes) (hv : v.EndsWith pos bytes) :
    w.Agrees v pos := by
  refine ⟨hregion, hw.limit_eq.trans hv.limit_eq.symm, ?_⟩
  intro i hiw hiv hle hlt
  have hlimit := hw.limit_eq
  have hsame : w.slice pos bytes.length = v.slice pos bytes.length :=
    hw.holds.slice_eq.trans hv.holds.slice_eq.symm
  have hi : i - pos < (w.slice pos bytes.length).length := by
    rw [hw.holds.slice_eq]
    omega
  have hi' : i - pos < (v.slice pos bytes.length).length := hsame ▸ hi
  have hadd : pos + (i - pos) = i := Nat.add_sub_cancel' hle
  have hget := getElem_slice hi (hadd.symm ▸ hiw)
  have hget' := getElem_slice hi' (hadd.symm ▸ hiv)
  simp only [hadd, hsame] at hget hget'
  exact hget.symm.trans hget'

namespace Lists

variable {xs ys : List DelimitedUnit} {us vs : List DebugUnit}

theorem append (h : Lists sections info order start index xs us)
    (hys : Lists sections info order (start + (xs.flatMap (·.bytes order)).length)
      (index + us.length) ys vs) :
    Lists sections info order start index (xs ++ ys) (us ++ vs) := by
  induction h with
  | nil => exact hys
  | unit hheader _ ih =>
    apply Lists.unit hheader
    apply ih
    rw [List.flatMap_cons, List.length_append, ← Nat.add_assoc, List.length_cons,
      Nat.add_comm _ 1, ← Nat.add_assoc] at hys
    exact hys
  | skipped hnone _ ih =>
    apply Lists.skipped hnone
    apply ih
    rw [List.flatMap_cons, List.length_append, ← Nat.add_assoc] at hys
    exact hys

theorem bounds (h : Lists sections info order start index xs us) :
    ∀ u ∈ us, start ≤ u.offset ∧ u.offset < start + (xs.flatMap (·.bytes order)).length := by
  induction h with
  | nil => exact List.forall_mem_nil _
  | @unit start index x xs header units hheader _ ih =>
    have hpos := x.length_bytes_pos order
    rw [List.flatMap_cons, List.length_append]
    refine List.forall_mem_cons.2 ⟨⟨Nat.le_refl start, Nat.lt_add_of_pos_right (by omega)⟩, ?_⟩
    intro u hu
    have := ih u hu
    omega
  | @skipped start index x xs units hnone _ ih =>
    rw [List.flatMap_cons, List.length_append]
    intro u hu
    have := ih u hu
    omega

theorem offset_eq {x : DelimitedUnit} (h : Lists sections info order start index [x] us) :
    ∀ u ∈ us, u.offset = start := by
  cases h with
  | unit hheader h =>
    cases h
    exact List.forall_mem_singleton.2 rfl
  | skipped hnone h =>
    cases h
    exact List.forall_mem_nil _

end Lists

/-- A unit with a header that stands at the same place of two files is the same unit in both. -/
theorem DelimitedUnit.mirrors_unitAt {x : DelimitedUnit} {header : UnitHeader} (index' : Nat)
    (h : (Window.mk info (.whole info order)).Holds start (x.bytes order))
    (h' : (Window.mk info' (.whole info' order)).Holds start (x.bytes order))
    (hheader : x.HasHeader order start header) :
    (x.unitAt { sections with info := some info } info order start index header).Mirrors
      (x.unitAt { sections with info := some info' } info' order start index' header) where
  header_eq := rfl
  abbreviations_eq :=
    (DebugSections.decodeAt_withInfo sections (some info') DebugSection.noConfusion ..).trans
      (DebugSections.decodeAt_withInfo sections (some info) DebugSection.noConfusion ..).symm
  sections_eq := rfl
  agrees := Window.agrees_of_endsWith rfl (endsWith_unitAt h ..)
    (endsWith_unitAt h' ..)
  offset_le_root := by
    obtain ⟨bytes, rest, _, _, hroot⟩ := hheader
    change start ≤ header.rootOffset
    omega

/-- Units that stand at the same places of two files are found in both, whatever is found before
them. -/
theorem exists_lists_mirrors (sections : DebugSections) (xs : List DelimitedUnit)
    (index index' : Nat)
    (h : (Window.mk info (.whole info order)).Holds start (xs.flatMap (·.bytes order)))
    (h' : (Window.mk info' (.whole info' order)).Holds start (xs.flatMap (·.bytes order))) :
    ∃ us vs, Lists { sections with info := some info } info order start index xs us ∧
      Lists { sections with info := some info' } info' order start index' xs vs ∧
      List.Forall₂ DebugUnit.Mirrors us vs := by
  induction xs generalizing start index index' with
  | nil => exact ⟨[], [], .nil, .nil, .nil⟩
  | cons x xs ih =>
    obtain ⟨hx, hxs⟩ := Window.holds_append.1 h
    obtain ⟨hx', hxs'⟩ := Window.holds_append.1 h'
    by_cases hheader : ∃ header, x.HasHeader order start header
    · obtain ⟨header, hheader⟩ := hheader
      obtain ⟨us, vs, hus, hvs, hmirrors⟩ := ih (index + 1) (index' + 1) hxs hxs'
      exact ⟨_, _, .unit hheader hus, .unit hheader hvs,
        .cons (DelimitedUnit.mirrors_unitAt index' hx hx' hheader) hmirrors⟩
    · obtain ⟨us, vs, hus, hvs, hmirrors⟩ := ih index index' hxs hxs'
      exact ⟨us, vs, .skipped (not_exists.1 hheader) hus, .skipped (not_exists.1 hheader) hvs,
        hmirrors⟩

namespace DebugInfo

variable {before after : List DelimitedUnit} {x : DelimitedUnit} {tail : List UInt8}
  {found here further : List DebugUnit}

/-- The units that do not begin at an offset. -/
def besides (d : DebugInfo) (offset : Nat) : List DebugUnit :=
  d.units.toList.filter (·.offset != offset)

theorem filter_offset (hfound : ∀ u ∈ found, u.offset < start)
    (hhere : ∀ u ∈ here, u.offset = start) (hfurther : ∀ u ∈ further, start < u.offset) :
    (found ++ (here ++ further)).filter (·.offset != start) = found ++ further := by
  rw [List.filter_append, List.filter_append, List.filter_eq_self.2, List.filter_eq_nil_iff.2,
    List.filter_eq_self.2, List.nil_append]
  · intro u hu
    exact bne_iff_ne.2 (Nat.ne_of_gt (hfurther u hu))
  · intro u hu
    rw [hhere u hu]
    simp
  · intro u hu
    exact bne_iff_ne.2 (Nat.ne_of_lt (hfound u hu))

theorem flatMap_bytes_around (order : ByteOrder) (before after : List DelimitedUnit)
    (x : DelimitedUnit) (tail : List UInt8) :
    (before ++ ([x] ++ after)).flatMap (·.bytes order) ++ tail =
      before.flatMap (·.bytes order) ++
        (x.bytes order ++ (after.flatMap (·.bytes order) ++ tail)) := by
  simp only [List.flatMap_append, List.flatMap_singleton, List.append_assoc]

theorem besides_of_lists (hinfo : sections.info = some info) (hsize : info.size < 1 <<< 63)
    (hbytes : info.data.toList = (before ++ ([x] ++ after)).flatMap (·.bytes order) ++ tail)
    (htail : NoUnit order tail)
    (hfound : Lists sections info order 0 0 before found)
    (hhere : Lists sections info order (before.flatMap (·.bytes order)).length found.length [x]
      here)
    (hfurther : Lists sections info order
      ((before.flatMap (·.bytes order)).length + (x.bytes order).length)
      (found.length + here.length) after further) :
    ∃ d, ofSections sections order = .ok d ∧
      d.besides (before.flatMap (·.bytes order)).length = found ++ further := by
  have hlists : Lists sections info order 0 0 (before ++ ([x] ++ after))
      (found ++ (here ++ further)) := by
    apply hfound.append
    rw [Nat.zero_add, Nat.zero_add]
    apply hhere.append
    rw [List.flatMap_singleton]
    exact hfurther
  refine ⟨_, ofSections_of_lists hinfo hsize hbytes htail hlists, ?_⟩
  apply filter_offset
  · intro u hu
    have := (hfound.bounds u hu).2
    omega
  · exact hhere.offset_eq
  · intro u hu
    have := (hfurther.bounds u hu).1
    have := x.length_bytes_pos order
    omega

/-- Bytes inside one unit of `.debug_info` change nothing about the other units: they are found in
both files, and answer the same in both. -/
theorem forall₂_answersAs_besides (sections : DebugSections) (before : List DelimitedUnit)
    (x y : DelimitedUnit) (rest : List UInt8) (hformat : x.format = y.format)
    (hlength : x.content.length = y.content.length)
    (hinfo : info.data.toList = before.flatMap (·.bytes order) ++ (x.bytes order ++ rest))
    (hinfo' : info'.data.toList = before.flatMap (·.bytes order) ++ (y.bytes order ++ rest))
    (hsize : info.size < 1 <<< 63) :
    ∃ d d', ofSections { sections with info := some info } order = .ok d ∧
      ofSections { sections with info := some info' } order = .ok d' ∧
      List.Forall₂ DebugUnit.AnswersAs (d.besides (before.flatMap (·.bytes order)).length)
        (d'.besides (before.flatMap (·.bytes order)).length) := by
  have hlengths : (x.bytes order).length = (y.bytes order).length := by
    rw [x.length_bytes, y.length_bytes, hformat, hlength]
  have htotal : info.size = (before.flatMap (·.bytes order) ++ (x.bytes order ++ rest)).length :=
    congrArg List.length hinfo
  have htotal' : info'.size = (before.flatMap (·.bytes order) ++ (y.bytes order ++ rest)).length :=
    congrArg List.length hinfo'
  rw [List.length_append, List.length_append] at htotal htotal'
  have hsize' : info'.size < 1 <<< 63 := by omega
  have hrest : rest.length < 1 <<< 63 := by omega
  obtain ⟨after, tail, rfl, htail⟩ := exists_units order rest hrest
  have hwindow : (Window.mk info (.whole info order)).EndsWith 0 _ := Window.endsWith_whole hinfo
  have hwindow' : (Window.mk info' (.whole info' order)).EndsWith 0 _ :=
    Window.endsWith_whole hinfo'
  obtain ⟨hbefore, hrest⟩ := hwindow.append
  obtain ⟨hbefore', hrest'⟩ := hwindow'.append
  obtain ⟨hx, hrest⟩ := hrest.append
  obtain ⟨hy, hrest'⟩ := hrest'.append
  rw [Nat.zero_add] at hrest hrest'
  obtain ⟨found, found', hfound, hfound', hmirrors⟩ :=
    exists_lists_mirrors sections before 0 0 hbefore hbefore'
  obtain ⟨here, hhere⟩ := exists_lists { sections with info := some info } info order
    (before.flatMap (·.bytes order)).length found.length [x]
  obtain ⟨here', hhere'⟩ := exists_lists { sections with info := some info' } info' order
    (before.flatMap (·.bytes order)).length found'.length [y]
  -- The unit may have a header in one file only, and then those behind it are counted differently.
  obtain ⟨further, further', hfurther, hfurther', hmirrors'⟩ :=
    exists_lists_mirrors sections after (found.length + here.length)
      (found'.length + here'.length) hrest.append.1 (hlengths ▸ hrest'.append.1)
  obtain ⟨d, hd, hbesides⟩ := besides_of_lists rfl hsize
    (hinfo.trans (flatMap_bytes_around ..).symm) htail hfound hhere hfurther
  obtain ⟨d', hd', hbesides'⟩ := besides_of_lists rfl hsize'
    (hinfo'.trans (flatMap_bytes_around ..).symm) htail hfound' hhere' (hlengths ▸ hfurther')
  refine ⟨d, d', hd, hd', ?_⟩
  rw [hbesides, hbesides']
  exact (List.rel_append hmirrors hmirrors').imp fun _ _ h => h.answersAs

def damagedUnit : DelimitedUnit where
  format := .bits32
  content := [9, 0, 1, 0, 0, 0, 8]
  fits := by change 7 < 0xfffffff0; decide

theorem not_hasHeader_damagedUnit (header : UnitHeader) :
    ¬ damagedUnit.HasHeader .little 11 header := by
  obtain ⟨version, unitType, addressSize, offset, root⟩ := header
  rintro ⟨bytes, rest, hcontent, hlayout, -⟩
  cases hlayout with
  | @early version _ _ hversion _ hhigh _ _ =>
    rw [List.append_assoc] at hcontent
    have hcontent : [9, 0] ++ [1, 0, 0, 0, 8] = version ++ _ := hcontent
    obtain rfl := (List.append_inj hcontent hversion.symm).1
    exact absurd hhigh (by decide)
  | @five version _ _ _ _ hversion hfive _ _ _ =>
    rw [List.append_assoc] at hcontent
    have hcontent : [9, 0] ++ [1, 0, 0, 0, 8] = version ++ _ := hcontent
    obtain rfl := (List.append_inj hcontent hversion.symm).1
    exact absurd hfive (by decide)

/-- A unit between two others. -/
def surrounded (x : DelimitedUnit) : ByteArray :=
  ⟨(earlyUnit.bytes .little ++ (x.bytes .little ++ typeUnit.bytes .little)).toArray⟩

theorem ofSections_surrounded {x : DelimitedUnit} {units : List DebugUnit}
    (hsize : (surrounded x).size < 1 <<< 63)
    (h : Lists { info := some (surrounded x) } (surrounded x) .little 0 0 [earlyUnit, x, typeUnit]
      units) :
    ofSections { info := some (surrounded x) } .little =
      .ok { sections := { info := some (surrounded x) }, units := units.toArray } := by
  apply ofSections_of_lists rfl hsize _ .empty h
  simp [surrounded]

/-- A unit that is damaged is not found, and the one behind it moves up. -/
theorem forall₂_answersAs_besides_damagedUnit :
    ∃ d d', ofSections { info := some (surrounded earlyUnit) } .little = .ok d ∧
      ofSections { info := some (surrounded damagedUnit) } .little = .ok d' ∧
      d.units.size = 3 ∧ d'.units.size = 2 ∧
      List.Forall₂ DebugUnit.AnswersAs (d.besides 11) (d'.besides 11) := by
  obtain ⟨d, d', hd, hd', hbesides⟩ : ∃ d d',
      ofSections { info := some (surrounded earlyUnit) } .little = .ok d ∧
      ofSections { info := some (surrounded damagedUnit) } .little = .ok d' ∧
      List.Forall₂ DebugUnit.AnswersAs (d.besides 11) (d'.besides 11) :=
    forall₂_answersAs_besides {} [earlyUnit] earlyUnit damagedUnit (typeUnit.bytes .little) rfl rfl
      rfl rfl (by decide)
  have hthree := ofSections_surrounded (by decide) (.unit (hasHeader_earlyUnit 0)
    (.unit (hasHeader_earlyUnit 11) (.unit (hasHeader_typeUnit 22) .nil)))
  have htwo := ofSections_surrounded (by decide) (.unit (hasHeader_earlyUnit 0)
    (.skipped not_hasHeader_damagedUnit (.unit (hasHeader_typeUnit 22) .nil)))
  cases hd.symm.trans hthree
  cases hd'.symm.trans htwo
  exact ⟨_, _, hd, hd', rfl, rfl, hbesides⟩

end DebugInfo

end StackSurvey.Dwarf
