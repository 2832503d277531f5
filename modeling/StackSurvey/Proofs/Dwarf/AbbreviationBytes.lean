import StackSurvey.Dwarf.Abbreviation
import StackSurvey.Proofs.Dwarf.FormCodes
import StackSurvey.Proofs.Dwarf.Reading

namespace StackSurvey.Dwarf

open Decoder

variable {r : Region}

/-- The bytes of a spec: its name, the code of its form, and behind that a constant if the form
stores one. The kind of its values goes by the code as well. -/
inductive AttributeSpec.Spells : AttributeSpec → List UInt8 → Prop
  | plain {name code : List UInt8} {form : Form} {kind : FormClass} (hname : Leb128.IsGroup name)
      (hcode : Leb128.IsGroup code)
      (hne : ¬ (Leb128.unsigned name = 0 ∧ Leb128.unsigned code = 0))
      (hform : form.HasCode (Leb128.unsigned code)) (hkind : kind.HasCode (Leb128.unsigned code))
      (hplain : form ≠ .implicitConst) :
      Spells { name := Leb128.unsigned name, form, kind } (name ++ code)
  | stored {name code constant : List UInt8} (hname : Leb128.IsGroup name)
      (hcode : Leb128.IsGroup code) (hform : Leb128.unsigned code = 0x21)
      (hconstant : Leb128.IsGroup constant) :
      Spells
        { name := Leb128.unsigned name, form := .implicitConst, kind := .constant
          implicitConst := some (Leb128.signed constant) }
        (name ++ (code ++ constant))

theorem AttributeSpec.Spells.reads_decode {spec : AttributeSpec} {bytes : List UInt8}
    (h : spec.Spells bytes) : AttributeSpec.decode.Reads r bytes (some spec) := by
  cases h with
  | plain hname hcode hne hform hkind hplain =>
    refine (reads_uleb128 hname).bind ((reads_uleb128 hcode).bind_nil ?_)
    rw [if_neg hne]
    dsimp only
    rw [FormClass.formClass_ofCode_iff.2 hkind, Form.ofCode_eq_iff.2 hform, if_neg hplain]
    exact reads_pure _
  | stored hname hcode hform hconstant =>
    refine (reads_uleb128 hname).bind ((reads_uleb128 hcode).bind ?_)
    have hstored : Form.ofCode 0x21 = .implicitConst := rfl
    rw [hform, if_neg fun hzero => absurd hzero.2 (by decide)]
    dsimp only
    rw [if_pos hstored]
    exact (reads_sleb128 hconstant).map

theorem AttributeSpec.reads_decode_end : AttributeSpec.decode.Reads r [0, 0] none := by
  have hzero : Leb128.IsGroup [0] := .last rfl
  have h : AttributeSpec.decode.Reads r ([0] ++ [0]) none := by
    refine (reads_uleb128 hzero).bind ((reads_uleb128 hzero).bind_nil ?_)
    rw [if_pos ⟨rfl, rfl⟩]
    exact reads_pure _
  exact h

/-- The bytes of an abbreviation, without the zeros that end its specs. -/
structure SpelledAbbreviation where
  code : List UInt8
  tag : List UInt8
  children : UInt8
  specs : List (AttributeSpec × List UInt8)
  isGroup_code : Leb128.IsGroup code
  isGroup_tag : Leb128.IsGroup tag
  code_ne_zero : Leb128.unsigned code ≠ 0
  spells : ∀ x ∈ specs, x.1.Spells x.2

namespace SpelledAbbreviation

def bytes (x : SpelledAbbreviation) : List UInt8 :=
  x.code ++ (x.tag ++ ([x.children] ++ (x.specs.flatMap (·.2) ++ [0, 0])))

def abbreviation (x : SpelledAbbreviation) : Abbreviation where
  code := Leb128.unsigned x.code
  tag := Leb128.unsigned x.tag
  hasChildren := x.children != 0
  specs := x.specs.map (·.1)

theorem reads_decode (x : SpelledAbbreviation) :
    Abbreviation.decode.Reads r x.bytes (some x.abbreviation) := by
  refine (reads_uleb128 x.isGroup_code).bind ?_
  rw [if_neg x.code_ne_zero]
  refine (reads_uleb128 x.isGroup_tag).bind ((reads_byte x.children).bind ?_)
  exact (reads_manyUntil AttributeSpec.advances_decode (fun y hy => (x.spells y hy).reads_decode)
    AttributeSpec.reads_decode_end).map

end SpelledAbbreviation

/-- A spec whose name and form are written with a byte each. -/
def AttributeSpec.inBytes (name : UInt8) (form : Form) : AttributeSpec × List UInt8 :=
  ({ name := Leb128.unsigned [name], form }, [name] ++ [form.code.toUInt8])

theorem AttributeSpec.spells_inBytes {name : UInt8} {form : Form}
    (hname : Leb128.isLast name = true) (hnamed : form.isNamed = true)
    (hplain : form ≠ .implicitConst) : (inBytes name form).1.Spells (inBytes name form).2 := by
  have hne := Form.code_ne_zero hnamed
  have hkind := FormClass.code_mem_codes hnamed
  rw [← Form.unsigned_code hnamed] at hne hkind
  exact .plain (.last hname) (.last (Form.isLast_code hnamed)) (fun h => hne h.2) (.inByte hnamed)
    (.listed hkind) hplain

/-- An abbreviation that takes a byte for each of its numbers and stores no constant. -/
def SpelledAbbreviation.inBytes (code tag : UInt8) (hasChildren : Bool)
    (specs : List (UInt8 × Form))
    (h : (Leb128.isLast code = true ∧ Leb128.unsigned [code] ≠ 0) ∧ Leb128.isLast tag = true ∧
      ∀ x ∈ specs, Leb128.isLast x.1 = true ∧ x.2.isNamed = true ∧ x.2 ≠ .implicitConst) :
    SpelledAbbreviation where
  code := [code]
  tag := [tag]
  children := hasChildren.toUInt8
  specs := specs.map fun x => AttributeSpec.inBytes x.1 x.2
  isGroup_code := .last h.1.1
  isGroup_tag := .last h.2.1
  code_ne_zero := h.1.2
  spells := List.forall_mem_map.2 fun x hx =>
    have hspec := h.2.2 x hx
    AttributeSpec.spells_inBytes hspec.1 hspec.2.1 hspec.2.2

theorem Abbreviation.reads_decode_end : Abbreviation.decode.Reads r [0] none := by
  have hzero : Leb128.unsigned [0] = 0 := rfl
  refine (reads_uleb128 (.last rfl)).bind_nil ?_
  rw [if_pos hzero]
  exact reads_pure _

/-- A table that ends with a zero is read as the abbreviations before it. -/
theorem AbbreviationTable.reads_decode (xs : List SpelledAbbreviation) :
    AbbreviationTable.decode.Reads r (xs.flatMap (·.bytes) ++ [0])
      (.ofList (xs.map (·.abbreviation))) := by
  have h := reads_manyUntil Abbreviation.advances_decode
    (fun x (_ : x ∈ xs) => x.reads_decode (r := r)) Abbreviation.reads_decode_end
  exact h.map

end StackSurvey.Dwarf
