import StackSurvey.Proofs.Dwarf.Consumption
import StackSurvey.Proofs.Dwarf.WrittenEntry

namespace StackSurvey.Dwarf

open Decoder

/-- What the value of an attribute can be read as. -/
inductive AttributeReading where
  | address
  | unsigned
  | signed
  | sectionOffset
  | flag
  | block
  | expression
  | string
  | localReference
  | reference
deriving DecidableEq

namespace AttributeReading

def Answer : AttributeReading → Type
  | address | unsigned | sectionOffset => UInt64
  | signed => Int64
  | flag => Bool
  | block => List UInt8
  | expression => Expression
  | string => String
  | localReference => Nat
  | reference => EntryPlace

def run (d : DebugInfo) (u : DebugUnit) (a : Attribute) :
    (reading : AttributeReading) → Except Fault reading.Answer
  | address => a.address u
  | unsigned => a.unsigned u
  | signed => a.signed u
  | sectionOffset => a.sectionOffset u
  | flag => a.flag u
  | block => a.block u
  | expression => a.expression u
  | string => a.string u
  | localReference => a.localReference u
  | reference => a.reference d u

end AttributeReading

def DebugUnit.withInfo (u : DebugUnit) (info : ByteArray) : DebugUnit := { u with info }

/-- The answer that a reading gives for each file is what one decoder makes of it, which ends where
a value of the attribute's form ends. -/
def Attribute.Decodes {α : Type} (u : DebugUnit) (a : Attribute)
    (answer : ByteArray → Except Fault α) : Prop :=
  ∃ dec : Decoder α, dec.Exact ∧ dec.EndsLike (a.form.extent.skip u.header.version) ∧
    ∀ info, answer info = (u.withInfo info).decodeAt a.offset dec

namespace Attribute

variable {α β : Type} {u : DebugUnit} {a : Attribute} {answer : ByteArray → Except Fault α}

theorem Decodes.of_decoder {dec : Decoder α} (hexact : dec.Exact)
    (hends : dec.EndsLike (a.form.extent.skip u.header.version)) :
    Decodes u a fun info => (u.withInfo info).decodeAt a.offset dec :=
  ⟨dec, hexact, hends, fun _ => rfl⟩

theorem Decodes.error {fault : Fault} (h : fault.isTruncation = false) :
    Decodes u a fun _ => (.error fault : Except Fault α) :=
  ⟨throw fault, exact_throw fault, endsLike_throw h _, fun _ => rfl⟩

theorem Decodes.andThen (h : Decodes u a answer) (g : α → Except Fault β)
    (hg : ∀ x fault, g x = .error fault → fault.isTruncation = false) :
    Decodes u a fun info => answer info >>= g := by
  obtain ⟨dec, hexact, hends, hanswer⟩ := h
  refine ⟨_, hexact.bind fun x => exact_ofExcept (g x), hends.andThen hg, ?_⟩
  intro info
  dsimp only
  rw [hanswer info, DebugUnit.decodeAt, DebugUnit.decodeAt]
  cases hdec : dec (u.withInfo info).window a.offset with
  | ok x next =>
    rw [bind_of_eq_ok _ hdec]
    change g x = _
    cases g x <;> rfl
  | error fault next => rw [bind_of_eq_error _ hdec]; rfl

theorem Decodes.map (h : Decodes u a answer) (f : α → β) :
    Decodes u a fun info => f <$> answer info := by
  have hpure := h.andThen (fun x => .ok (f x)) fun _ _ hfault => by cases hfault
  have hmap (info : ByteArray) : f <$> answer info = answer info >>= fun x => .ok (f x) := by
    cases answer info <;> rfl
  simp only [hmap]
  exact hpure

theorem Decodes.elsewhere (h : a.form.extent = .elsewhere) {e : Except Fault α}
    (he : ∀ fault, e = .error fault → fault.isTruncation = false) : Decodes u a fun _ => e := by
  have hunit : Decodes u a fun _ => (.ok () : Except Fault Unit) := by
    refine ⟨pure (), exact_pure (), ?_, fun _ => rfl⟩
    rw [h]
    exact endsLike_self _
  exact hunit.andThen (fun _ => e) fun _ => he

theorem isTruncation_of_stored {fault : Fault} (h : a.stored = .error fault) :
    fault.isTruncation = false := by
  unfold stored at h
  split at h <;> cases h
  rfl

theorem decodes_offset (h : a.form.extent = .offset) :
    Decodes u a fun info => (u.withInfo info).decodeAt a.offset Decoder.offset := by
  apply Decodes.of_decoder exact_offset
  rw [h]
  exact endsLike_offset _

theorem decodes_address (u : DebugUnit) (a : Attribute) :
    Decodes u a fun info => a.address (u.withInfo info) := by
  obtain ⟨name, form, pos, implicitConst⟩ := a
  cases form
  case addr => exact .of_decoder exact_address (endsLike_address _)
  all_goals exact .error rfl

theorem decodes_unsigned (u : DebugUnit) (a : Attribute) :
    Decodes u a fun info => a.unsigned (u.withInfo info) := by
  obtain ⟨name, form, pos, implicitConst⟩ := a
  cases form
  case data1 | data2 | data4 | data8 => exact .of_decoder (exact_sized _) (endsLike_sized _)
  case udata => exact .of_decoder exact_uleb128 (endsLike_ignored _)
  case implicitConst => exact (Decodes.elsewhere rfl fun _ => isTruncation_of_stored).map _
  all_goals exact .error rfl

theorem decodes_signed (u : DebugUnit) (a : Attribute) :
    Decodes u a fun info => a.signed (u.withInfo info) := by
  obtain ⟨name, form, pos, implicitConst⟩ := a
  cases form
  case data1 | data2 | data4 | data8 =>
    exact .of_decoder ((exact_signed _).map _) ((endsLike_signed _).map _)
  case sdata => exact .of_decoder exact_sleb128 (endsLike_ignored _)
  case implicitConst => exact .elsewhere rfl fun _ => isTruncation_of_stored
  all_goals exact .error rfl

theorem decodes_sectionOffset (u : DebugUnit) (a : Attribute) :
    Decodes u a fun info => a.sectionOffset (u.withInfo info) := by
  obtain ⟨name, form, pos, implicitConst⟩ := a
  cases form
  case data4 | data8 => exact .of_decoder (exact_sized _) (endsLike_sized _)
  case secOffset => exact .of_decoder exact_offset (endsLike_offset _)
  all_goals exact .error rfl

theorem decodes_flag (u : DebugUnit) (a : Attribute) :
    Decodes u a fun info => a.flag (u.withInfo info) := by
  obtain ⟨name, form, pos, implicitConst⟩ := a
  cases form
  case flag => exact .of_decoder (exact_byte.map _) (endsLike_byte.map _)
  case flagPresent => exact .elsewhere rfl fun _ h => by cases h
  all_goals exact .error rfl

theorem decodes_blockAs (u : DebugUnit) (a : Attribute) (expected : Reading) :
    Decodes u a fun info => a.blockAs (u.withInfo info) expected := by
  obtain ⟨name, form, pos, implicitConst⟩ := a
  cases form
  case block1 | block2 | block4 =>
    exact .of_decoder ((exact_unsigned _).bind fun _ => exact_bytes _)
      (.bind fun _ => endsLike_bytes _)
  case block | exprloc =>
    exact .of_decoder (exact_uleb128.bind fun _ => exact_bytes _) (.bind fun _ => endsLike_bytes _)
  all_goals exact .error rfl

theorem decodes_expression (u : DebugUnit) (a : Attribute) :
    Decodes u a fun info => a.expression (u.withInfo info) := by
  let toExpression (code : List UInt8) : Expression :=
    { code, format := u.region.format, order := u.region.order
      addressSize := u.region.addressSize }
  exact (decodes_blockAs u a .expression).andThen (fun code => .ok (toExpression code))
    fun _ _ h => by cases h

theorem decodes_string (u : DebugUnit) (a : Attribute) :
    Decodes u a fun info => a.string (u.withInfo info) := by
  obtain ⟨name, form, pos, implicitConst⟩ := a
  cases form
  case string => exact .of_decoder exact_text ((endsLike_ignored _).map _)
  case strp =>
    exact (decodes_offset rfl).andThen (u.sections.textAt .str · u.region.order)
      fun _ _ => DebugSections.isTruncation_of_textAt
  case lineStrp =>
    exact (decodes_offset rfl).andThen (u.sections.textAt .lineStr · u.region.order)
      fun _ _ => DebugSections.isTruncation_of_textAt
  all_goals exact .error rfl

theorem decodes_distance (u : DebugUnit) (a : Attribute) :
    Decodes u a fun info => a.distance (u.withInfo info) := by
  obtain ⟨name, form, pos, implicitConst⟩ := a
  cases form
  case ref1 | ref2 | ref4 | ref8 => exact .of_decoder (exact_sized _) (endsLike_sized _)
  case refUdata => exact .of_decoder exact_uleb128 (endsLike_ignored _)
  all_goals exact .error rfl

theorem decodes_localReference (u : DebugUnit) (a : Attribute) :
    Decodes u a fun info => a.localReference (u.withInfo info) := by
  let target (distance : UInt64) : Nat := (UInt64.ofNat u.offset + distance).toNat
  apply (decodes_distance u a).andThen fun distance =>
    if u.containsOffset (target distance) then .ok (target distance)
    else .error (.invalidOffset .info (target distance))
  intro distance fault h
  split at h <;> cases h
  rfl

theorem decodes_reference (d : DebugInfo) (u : DebugUnit) (a : Attribute) :
    Decodes u a fun info => a.reference d (u.withInfo info) := by
  by_cases hform : a.form = .refAddr
  · have htarget : Decodes u a fun info => (u.withInfo info).decodeAt a.offset
        (region >>= fun r => sized (unitReferenceSize r u.header.version)) := by
      apply Decodes.of_decoder (exact_region.bind fun _ => exact_sized _)
      rw [hform]
      exact .bind fun _ => endsLike_sized _
    let place (target : UInt64) : Except Fault EntryPlace :=
      (d.unitContaining? target.toNat).elim (.error (.invalidOffset .info target.toNat))
        fun other => .ok ⟨other.index, target.toNat⟩
    have hplace := htarget.andThen place fun target fault h => by
      unfold place at h
      cases hunit : d.unitContaining? target.toNat with
      | none =>
        rw [hunit] at h
        cases h
        rfl
      | some other =>
        rw [hunit] at h
        cases h
    have hreference (info : ByteArray) : a.reference d (u.withInfo info) =
        (u.withInfo info).decodeAt a.offset
          (region >>= fun r => sized (unitReferenceSize r u.header.version)) >>= place := by
      rw [Attribute.reference, if_pos hform]
      refine bind_congr fun target => ?_
      dsimp only [place]
      cases d.unitContaining? target.toNat <;> rfl
    simp only [hreference]
    exact hplace
  · have hlocal := (decodes_localReference u a).andThen
      (fun offset => .ok (⟨u.index, offset⟩ : EntryPlace)) fun _ _ h => by cases h
    simp only [Attribute.reference, if_neg hform]
    exact hlocal

theorem decodes_run (d : DebugInfo) (u : DebugUnit) (a : Attribute) (reading : AttributeReading) :
    Decodes u a fun info => reading.run d (u.withInfo info) a := by
  cases reading with
  | address => exact decodes_address u a
  | unsigned => exact decodes_unsigned u a
  | signed => exact decodes_signed u a
  | sectionOffset => exact decodes_sectionOffset u a
  | flag => exact decodes_flag u a
  | block => exact decodes_blockAs u a .block
  | expression => exact decodes_expression u a
  | string => exact decodes_string u a
  | localReference => exact decodes_localReference u a
  | reference => exact decodes_reference d u a

end Attribute

theorem DebugUnit.eq_ok_of_decodeAt {α : Type} {u : DebugUnit} {pos : Nat} {dec : Decoder α} {a : α}
    (h : u.decodeAt pos dec = .ok a) : ∃ next, dec u.window pos = .ok a next := by
  unfold decodeAt at h
  split at h <;> cases h
  exact ⟨_, ‹_›⟩

theorem Form.exact_follow (form : Form) : form.follow.Exact := by
  intro w pos next f hpos h
  induction form, pos using follow.induct w with
  | case1 pos code mid hcode ih =>
    obtain ⟨xs, hxs, rfl, hreads⟩ := exact_uleb128 hpos hcode
    rw [follow_indirect, bind_of_eq_ok _ hcode] at h
    obtain ⟨ys, hys, rfl, hreads'⟩ := ih hxs.le_limit h
    refine ⟨xs ++ ys, Window.holds_append.2 ⟨hxs, hys⟩, ?_, ?_⟩
    · rw [List.length_append, Nat.add_assoc]
    · rw [follow_indirect]
      exact hreads.bind hreads'
  | case2 pos fault mid hcode =>
    rw [follow_indirect, bind_of_eq_error _ hcode] at h
    cases h
  | case3 form pos hform =>
    rw [follow_of_ne hform] at h ⊢
    exact exact_pure form hpos h

def AttributeSlot.read (d : DebugInfo) (u : DebugUnit) (slot : AttributeSlot)
    (reading : AttributeReading) : Except Fault reading.Answer := do
  reading.run d u (← Attribute.ofSpec u slot.spec slot.offset)

/-- The value that a slot locates is all of the bytes up to `stop`. -/
structure AttributeSlot.Extends (d : DebugInfo) (u : DebugUnit) (slot : AttributeSlot)
    (stop : Nat) : Prop where
  skipValue_eq : slot.spec.form.skipValue u.header.version u.window slot.offset = .ok () stop
  /-- Indirections can be followed. -/
  ofSpec_eq : ∃ a, Attribute.ofSpec u slot.spec slot.offset = .ok a
  not_truncated : ∀ (reading : AttributeReading) (offset needed available : Nat),
    slot.read d u reading ≠ .error (.truncated offset needed available)
  /-- What is read is read from these bytes: it is the same in every file that has them. -/
  read_eq : ∀ (reading : AttributeReading) (answer : reading.Answer) (info : ByteArray),
    slot.read d u reading = .ok answer →
    (u.withInfo info).window.Holds slot.offset (u.window.slice slot.offset (stop - slot.offset)) →
    slot.read d (u.withInfo info) reading = .ok answer
  /-- All of these bytes are read: in a file that ends before the last of them nothing is. -/
  read_ne : ∀ (reading : AttributeReading) (answer : reading.Answer) (n : Nat),
    slot.offset ≤ n → n < stop → slot.read d (u.withInfo (u.info.extract 0 n)) reading ≠ .ok answer

section Slots

variable {d : DebugInfo} {u : DebugUnit} {slot : AttributeSlot} {stop start : Nat} {form : Form}

theorem AttributeSlot.read_of_follow
    (h : slot.spec.form.follow u.window slot.offset = .ok form start) (reading : AttributeReading) :
    slot.read d u reading =
      reading.run d u ⟨slot.spec.name, form, start, slot.spec.implicitConst⟩ := by
  rw [read, Attribute.ofSpec_of_follow h]
  rfl

theorem AttributeSlot.follow_of_read {reading : AttributeReading} {answer : reading.Answer}
    (h : slot.read d u reading = .ok answer) :
    ∃ form start, slot.spec.form.follow u.window slot.offset = .ok form start := by
  cases hfollow : slot.spec.form.follow u.window slot.offset with
  | ok form start => exact ⟨form, start, rfl⟩
  | error fault mid =>
    rw [read, Attribute.ofSpec, DebugUnit.decodeAt, bind_of_eq_error _ hfollow] at h
    cases h

theorem AttributeSlot.exists_decoder (d : DebugInfo) (u : DebugUnit) (slot : AttributeSlot)
    (form : Form) (start : Nat) (reading : AttributeReading) :
    ∃ dec : Decoder reading.Answer,
      dec.Exact ∧ dec.EndsLike (form.extent.skip u.header.version) ∧
      ∀ info, slot.spec.form.follow (u.withInfo info).window slot.offset = .ok form start →
        slot.read d (u.withInfo info) reading = (u.withInfo info).decodeAt start dec := by
  let a : Attribute := ⟨slot.spec.name, form, start, slot.spec.implicitConst⟩
  obtain ⟨dec, hexact, hends, hrun⟩ := Attribute.decodes_run d u a reading
  exact ⟨dec, hexact, hends, fun info hfollow => (read_of_follow hfollow reading).trans (hrun info)⟩

theorem AttributeSlot.extends_of_skipValue (d : DebugInfo) (hpos : slot.offset ≤ u.window.limit)
    (h : slot.spec.form.skipValue u.header.version u.window slot.offset = .ok () stop) :
    slot.Extends d u stop := by
  obtain ⟨form, start, hfollow, hskip⟩ := bind_eq_ok h
  have hstop := (form.extent.progresses_skip u.header.version hskip).1
  refine ⟨h, ⟨_, Attribute.ofSpec_of_follow hfollow⟩, ?_, ?_, ?_⟩
  -- Bytes enough to move past the value are enough for every decoder of it.
  · intro reading offset needed available htruncated
    obtain ⟨dec, -, hends, hread⟩ := exists_decoder d u slot form start reading
    have hdecode : u.decodeAt start dec = .error (.truncated offset needed available) :=
      (hread u.info hfollow).symm.trans htruncated
    rcases hends hskip with ⟨answer, hdec⟩ | ⟨fault, mid, hdec, hfault⟩
    · rw [DebugUnit.decodeAt, hdec] at hdecode
      cases hdecode
    · rw [DebugUnit.decodeAt, hdec] at hdecode
      cases hdecode
      cases hfault
  · intro reading answer info hanswer hholds
    obtain ⟨dec, hexact, hends, hread⟩ := exists_decoder d u slot form start reading
    obtain ⟨next, hdec⟩ := DebugUnit.eq_ok_of_decodeAt ((hread u.info hfollow).symm.trans hanswer)
    obtain rfl := hends.next_eq hskip hdec
    -- Indirections and the value are decoded in one go, within the bytes of the slot.
    have hboth : (slot.spec.form.follow >>= fun _ => dec) u.window slot.offset = .ok answer next :=
      (bind_of_eq_ok _ hfollow).trans hdec
    have hfollow' := (Form.exact_follow _).of_holds_slice hpos hfollow hstop hholds rfl
    have hboth' := ((Form.exact_follow _).bind fun _ => hexact).of_holds_slice hpos hboth
      (Nat.le_refl next) hholds rfl
    rw [bind_of_eq_ok _ hfollow'] at hboth'
    rw [hread info hfollow', DebugUnit.decodeAt, hboth']
  · intro reading answer n hle hlt hanswer
    obtain ⟨form', start', hfollow'⟩ := follow_of_read hanswer
    -- What is read in the beginning of the file is read in the file, and ends where the slot does.
    have hcut := Window.le_limit_extract hpos hle
    have hstart' := (Form.progresses_follow _ hfollow').2 hcut
    obtain ⟨hsame, -⟩ := (Form.exact_follow _).of_extract hcut hfollow'
    cases hfollow.symm.trans hsame
    obtain ⟨dec, hexact, hends, hread⟩ := exists_decoder d u slot form start reading
    obtain ⟨next, hdec⟩ := DebugUnit.eq_ok_of_decodeAt ((hread _ hfollow').symm.trans hanswer)
    obtain ⟨hdec', hnext⟩ := hexact.of_extract hstart' hdec
    have hstop' := hends.next_eq hskip hdec'
    omega

end Slots

section Ends

variable {u : DebugUnit} {k : Nat}

/-- Moving past the value of an attribute ends before a position or there. -/
def Attribute.EndsBy (u : DebugUnit) (a : Attribute) (k : Nat) : Prop :=
  a.offset ≤ u.window.limit ∧
    ∃ stop, a.form.extent.skip u.header.version u.window a.offset = .ok () stop ∧ stop ≤ k

/-- Moving past the value in a slot ends before a position or there. -/
def AttributeSlot.EndsBy (u : DebugUnit) (slot : AttributeSlot) (k : Nat) : Prop :=
  slot.offset ≤ u.window.limit ∧
    ∃ stop, slot.spec.form.skipValue u.header.version u.window slot.offset = .ok () stop ∧
      stop ≤ k

/-- Indirections are followed within the bytes of the slot. -/
theorem AttributeSlot.EndsBy.of_ofSpec {slot : AttributeSlot} {a : Attribute}
    (h : slot.EndsBy u k) (ha : Attribute.ofSpec u slot.spec slot.offset = .ok a) :
    a.EndsBy u k := by
  obtain ⟨hpos, stop, hskip, hstop⟩ := h
  obtain ⟨form, start, hfollow, hskip⟩ := bind_eq_ok hskip
  rw [Attribute.ofSpec_of_follow hfollow] at ha
  cases ha
  exact ⟨(slot.spec.form.progresses_follow hfollow).2 hpos, stop, hskip, hstop⟩

end Ends

namespace Entry

variable {u : DebugUnit} {e : Entry}

/-- Where the value of an attribute ends: where the next one begins, or the entry ends. -/
def valueStop (e : Entry) (i : Nat) : Nat := (e.slots[i + 1]?.map (·.offset)).getD e.nextOffset

def specs (e : Entry) : List AttributeSpec := (e.abbreviation.map (·.specs)).getD []

/-- Slots follow each other, each beginning where moving past the value before it has ended. -/
theorem skipValue_of_decodeSlots {version : Nat} {specs : List AttributeSpec} {w : Window}
    {pos next : Nat} {slots : List AttributeSlot}
    (h : decodeSlots version specs w pos = .ok slots next) (hpos : pos ≤ w.limit) :
    slots.map (·.spec) = specs ∧ (slots[0]?.map (·.offset)).getD next = pos ∧
      ∀ (i : Nat) (slot : AttributeSlot), slots[i]? = some slot → slot.offset ≤ w.limit ∧
        slot.spec.form.skipValue version w slot.offset =
          .ok () ((slots[i + 1]?.map (·.offset)).getD next) := by
  induction specs generalizing pos slots with
  | nil =>
    cases h
    exact ⟨rfl, rfl, fun i slot hslot => by simp at hslot⟩
  | cons spec specs ih =>
    obtain ⟨_, _, h₁, h⟩ := bind_eq_ok h
    cases h₁
    obtain ⟨_, mid, hskip, h⟩ := bind_eq_ok h
    obtain ⟨rest, _, hrest, h⟩ := bind_eq_ok h
    cases h
    have hmid := (spec.form.progresses_skipValue version hskip).2 hpos
    obtain ⟨hspecs, hfirst, hslots⟩ := ih hrest hmid
    refine ⟨congrArg (spec :: ·) hspecs, rfl, ?_⟩
    intro i slot hslot
    cases i with
    | zero =>
      cases hslot
      refine ⟨hpos, ?_⟩
      rw [List.getElem?_cons_succ, hfirst]
      exact hskip
    | succ i => exact hslots i slot hslot

/-- The slots of an entry that is decoded are decoded behind its code, by the specs of its
abbreviation. -/
theorem decodeSlots_of_decode {w : Window} {pos next : Nat} (h : decode u w pos = .ok e next) :
    ∃ mid, mid ≤ w.limit ∧ decodeSlots u.header.version e.specs w mid = .ok e.slots next := by
  obtain ⟨_, _, h₁, h⟩ := bind_eq_ok h
  cases h₁
  obtain ⟨code, mid, h₂, h⟩ := bind_eq_ok h
  have hmid := (advances_uleb128 h₂).2
  split at h
  · obtain ⟨_, _, h₃, h⟩ := bind_eq_ok h
    cases h₃
    cases h
    exact ⟨_, hmid, rfl⟩
  · obtain ⟨_, _, h₃, h⟩ := bind_eq_ok h
    obtain ⟨_, _, h₄, h⟩ := bind_eq_ok h
    obtain ⟨_, _, h₅, h⟩ := bind_eq_ok h
    obtain ⟨_, _, h₆, h⟩ := bind_eq_ok h
    cases h₆
    cases h
    have htable := (progresses_ofExcept _ h₃).2 hmid
    exact ⟨_, (progresses_ofExcept _ h₄).2 htable, h₅⟩

theorem skipValue_of_decode {w : Window} {pos next : Nat} (h : decode u w pos = .ok e next) :
    e.slots.map (·.spec) = e.specs ∧
      ∀ (i : Nat) (slot : AttributeSlot), e.slots[i]? = some slot → slot.offset ≤ w.limit ∧
        slot.spec.form.skipValue u.header.version w slot.offset = .ok () (e.valueStop i) := by
  obtain ⟨mid, hmid, hdecode⟩ := decodeSlots_of_decode h
  obtain ⟨hspecs, hnext, hslots⟩ := skipValue_of_decodeSlots hdecode hmid
  obtain ⟨-, rfl, -⟩ := decode_bounds h
  exact ⟨hspecs, hslots⟩

theorem endsBy_of_decodeSlots {specs : List AttributeSpec} {pos next : Nat}
    {slots : List AttributeSlot} (hpos : pos ≤ u.window.limit)
    (h : decodeSlots u.header.version specs u.window pos = .ok slots next) :
    ∀ slot ∈ slots, slot.EndsBy u next := by
  induction specs generalizing pos slots with
  | nil =>
    cases h
    exact List.forall_mem_nil _
  | cons spec specs ih =>
    obtain ⟨_, _, h₁, h⟩ := bind_eq_ok h
    cases h₁
    obtain ⟨_, mid, hskip, h⟩ := bind_eq_ok h
    obtain ⟨rest, _, hrest, h⟩ := bind_eq_ok h
    cases h
    have hmid := (spec.form.progresses_skipValue _ hskip).2 hpos
    have hle := (progresses_decodeSlots _ specs hrest).1
    exact List.forall_mem_cons.2 ⟨⟨hpos, mid, hskip, hle⟩, ih hmid hrest⟩

end Entry

namespace DebugUnit

variable {u : DebugUnit} {e : Entry} {offset : Nat}

theorem decode_of_find (h : u.find offset = .ok e) :
    Entry.decode u u.window offset = .ok e e.nextOffset := by
  unfold find at h
  split at h
  · obtain ⟨next, hdecode⟩ := eq_ok_of_decodeAt h
    obtain ⟨-, rfl, -⟩ := Entry.decode_bounds hdecode
    exact hdecode
  · cases h

/-- The values of an entry that is found end before the next entry begins. -/
theorem endsBy_of_find (h : u.find offset = .ok e) :
    ∀ slot ∈ e.slots, slot.EndsBy u e.nextOffset := by
  obtain ⟨mid, hmid, hdecode⟩ := Entry.decodeSlots_of_decode (decode_of_find h)
  exact Entry.endsBy_of_decodeSlots hmid hdecode

end DebugUnit

namespace Entry

variable {u : DebugUnit} {e : Entry}

theorem exists_find_of_read {resolver : Resolver} {mode : ReadMode} {offset : Nat} {p q : Progress}
    (h : u.read resolver mode offset p = .ok e q) :
    ∃ found, u.find offset = .ok found ∧ e = found.readAs u resolver mode := by
  obtain ⟨found, hfind, -⟩ := DebugUnit.find_of_read h
  obtain ⟨_, hread⟩ := DebugUnit.read_of_find hfind mode p
  rw [h] at hread
  cases hread
  exact ⟨found, hfind, rfl⟩

/-- Whatever the bytes of a unit and of its abbreviations are, the readings of an entry's attributes
decode what finding the entry has moved past. -/
theorem extends_of_read {resolver : Resolver} {mode : ReadMode} {offset : Nat} {p q : Progress}
    (h : u.read resolver mode offset p = .ok e q) (d : DebugInfo) :
    e.slots.map (·.spec) = e.specs ∧
      ∀ (i : Nat) (slot : AttributeSlot), e.slots[i]? = some slot →
        slot.Extends d u (e.valueStop i) := by
  obtain ⟨found, hfind, rfl⟩ := exists_find_of_read h
  obtain ⟨next, hdecode⟩ : ∃ next, decode u u.window offset = .ok found next := by
    unfold DebugUnit.find at hfind
    split at hfind
    · exact DebugUnit.eq_ok_of_decodeAt hfind
    · cases hfind
  obtain ⟨hspecs, hslots⟩ := skipValue_of_decode hdecode
  refine ⟨by rwa [slots_readAs, specs, abbreviation_readAs], fun i slot hslot => ?_⟩
  rw [slots_readAs] at hslot
  rw [valueStop, slots_readAs, nextOffset_readAs]
  obtain ⟨hpos, hskip⟩ := hslots i slot hslot
  exact AttributeSlot.extends_of_skipValue d hpos hskip

/-- The entry has a text, a reference behind an indirection and a constant without bytes. -/
theorem extends_of_read_referenceEntry :
    ∃ e q, referenceUnit.read referenceUnit.resolver .fast 11 {} = .ok e q ∧
      e.slots.map (·.offset) = [12, 14, 19] ∧ e.nextOffset = 19 ∧
      e.slots.map (·.spec) = e.specs ∧
      ∀ (i : Nat) (slot : AttributeSlot), e.slots[i]? = some slot →
        slot.Extends referenceInfo referenceUnit (e.valueStop i) := by
  have hfind : referenceUnit.find 11 = .ok (referenceEntry.toEncoded.entryAt 11) :=
    DebugUnit.find_entry _ (by decide) ⟨by decide, rfl⟩
  obtain ⟨q, hread⟩ : ∃ q, referenceUnit.read referenceUnit.resolver .fast 11 {} = .ok _ q :=
    DebugUnit.read_of_find hfind .fast {}
  exact ⟨_, q, hread, rfl, rfl, extends_of_read hread referenceInfo⟩

end Entry

end StackSurvey.Dwarf
