import StackSurvey.Bytes.Leb128
import StackSurvey.Dwarf.Form

namespace StackSurvey.Dwarf

namespace Form

/-- The code that a form is written as. -/
def code : Form → UInt64
  | addr => 0x01
  | block2 => 0x03
  | block4 => 0x04
  | data2 => 0x05
  | data4 => 0x06
  | data8 => 0x07
  | string => 0x08
  | block => 0x09
  | block1 => 0x0a
  | data1 => 0x0b
  | flag => 0x0c
  | sdata => 0x0d
  | strp => 0x0e
  | udata => 0x0f
  | refAddr => 0x10
  | ref1 => 0x11
  | ref2 => 0x12
  | ref4 => 0x13
  | ref8 => 0x14
  | refUdata => 0x15
  | indirect => 0x16
  | secOffset => 0x17
  | exprloc => 0x18
  | flagPresent => 0x19
  | strx => 0x1a
  | addrx => 0x1b
  | refSup4 => 0x1c
  | strpSup => 0x1d
  | data16 => 0x1e
  | lineStrp => 0x1f
  | refSig8 => 0x20
  | implicitConst => 0x21
  | loclistx => 0x22
  | rnglistx => 0x23
  | refSup8 => 0x24
  | strx1 => 0x25
  | strx2 => 0x26
  | strx3 => 0x27
  | strx4 => 0x28
  | addrx1 => 0x29
  | addrx2 => 0x2a
  | addrx3 => 0x2b
  | addrx4 => 0x2c
  | unknown code => code

/-- True of the forms that have a code of their own. -/
def isNamed : Form → Bool
  | unknown _ => false
  | _ => true

/-- A code stands for the form whose own it is. If there is none it is kept. -/
inductive HasCode : Form → UInt64 → Prop
  | named {form : Form} (h : form.isNamed = true) : HasCode form form.code
  | unknown {code : UInt64} (h : ∀ form : Form, form.isNamed = true → form.code ≠ code) :
    HasCode (.unknown code) code

variable {form : Form} {code : UInt64}

theorem code_ofCode (code : UInt64) : (ofCode code).code = code := by
  unfold ofCode
  split <;> rfl

theorem ofCode_code (h : form.isNamed = true) : ofCode form.code = form := by
  cases form with
  | unknown code => cases h
  | _ => rfl

theorem code_ne_zero (h : form.isNamed = true) : form.code ≠ 0 := by
  cases form with
  | unknown code => cases h
  | _ => decide

/-- The forms with a code of their own take one byte for it. -/
theorem isLast_code (h : form.isNamed = true) : Leb128.isLast form.code.toUInt8 = true := by
  cases form with
  | unknown code => cases h
  | _ => rfl

theorem unsigned_code (h : form.isNamed = true) :
    Leb128.unsigned [form.code.toUInt8] = form.code := by
  cases form with
  | unknown code => cases h
  | _ => rfl

theorem HasCode.inByte (h : form.isNamed = true) :
    form.HasCode (Leb128.unsigned [form.code.toUInt8]) := by
  rw [unsigned_code h]
  exact .named h

theorem HasCode.code_eq (h : form.HasCode code) : form.code = code := by
  cases h <;> rfl

theorem hasCode_ofCode (code : UInt64) : (ofCode code).HasCode code := by
  have hcode := code_ofCode code
  cases h : (ofCode code).isNamed with
  | true =>
    have hnamed := HasCode.named h
    rwa [hcode] at hnamed
  | false =>
    cases hform : ofCode code with
    | unknown other =>
      obtain rfl : other = code := by rwa [hform] at hcode
      refine .unknown fun form hnamed heq => ?_
      rw [← heq, ofCode_code hnamed] at h
      rw [hnamed] at h
      cases h
    | _ =>
      rw [hform] at h
      cases h

/-- The form that is decoded is the one that the code stands for. -/
theorem ofCode_eq_iff : ofCode code = form ↔ form.HasCode code := by
  constructor
  · rintro rfl
    exact hasCode_ofCode code
  · intro h
    cases h with
    | named h => exact ofCode_code h
    | unknown h =>
      have hcode := hasCode_ofCode code
      generalize ofCode code = form at hcode
      cases hcode with
      | named hnamed => exact absurd rfl (h form hnamed)
      | unknown => rfl

end Form

namespace FormClass

/-- The codes of the forms of a class. -/
def codes : FormClass → List UInt64
  | address => [0x01, 0x1b, 0x29, 0x2a, 0x2b, 0x2c]
  | string => [0x08, 0x0e, 0x1a, 0x1d, 0x1f, 0x25, 0x26, 0x27, 0x28]
  | constant => [0x05, 0x06, 0x07, 0x0b, 0x0d, 0x0f, 0x1e, 0x21]
  | reference => [0x10, 0x11, 0x12, 0x13, 0x14, 0x15, 0x1c, 0x20, 0x24]
  | block => [0x03, 0x04, 0x09, 0x0a]
  | expression => [0x18]
  | flag => [0x0c, 0x19]
  | sectionOffset => [0x17, 0x22, 0x23]
  | unresolved => [0x16]

/-- A code belongs to the class that lists it. Values of any other code have no known one. -/
inductive HasCode : FormClass → UInt64 → Prop
  | listed {kind : FormClass} {code : UInt64} (h : code ∈ kind.codes) : HasCode kind code
  | unlisted {code : UInt64} (h : ∀ kind : FormClass, code ∉ kind.codes) :
    HasCode .unresolved code

variable {kind : FormClass} {form : Form} {code : UInt64}

theorem code_mem_codes (h : form.isNamed = true) : form.code ∈ form.formClass.codes := by
  cases form with
  | unknown code => cases h
  | _ => decide

theorem formClass_of_mem_codes (h : code ∈ kind.codes) : (Form.ofCode code).formClass = kind := by
  have hall : kind.codes.all (fun code => decide ((Form.ofCode code).formClass = kind)) = true := by
    cases kind <;> rfl
  exact of_decide_eq_true (List.all_eq_true.1 hall code h)

theorem formClass_of_forall_notMem (h : ∀ kind : FormClass, code ∉ kind.codes) :
    (Form.ofCode code).formClass = .unresolved := by
  have hcode := Form.hasCode_ofCode code
  generalize Form.ofCode code = form at hcode
  cases hcode with
  | named hnamed => exact absurd (code_mem_codes hnamed) (h _)
  | unknown => rfl

/-- The class of the form that is decoded is the one of its code. -/
theorem formClass_ofCode_iff : (Form.ofCode code).formClass = kind ↔ kind.HasCode code := by
  constructor
  · rintro rfl
    by_cases h : ∃ kind : FormClass, code ∈ kind.codes
    · obtain ⟨kind, hkind⟩ := h
      rw [formClass_of_mem_codes hkind]
      exact .listed hkind
    · rw [not_exists] at h
      rw [formClass_of_forall_notMem h]
      exact .unlisted h
  · intro h
    cases h with
    | listed h => exact formClass_of_mem_codes h
    | unlisted h => exact formClass_of_forall_notMem h

end FormClass

end StackSurvey.Dwarf
