import StackSurvey.Proofs.Dwarf.Execution
import StackSurvey.Proofs.Dwarf.OperationBytes
import StackSurvey.Proofs.Dwarf.WordArithmetic

namespace StackSurvey.Dwarf

open Decoder

/-- An expression over words. -/
inductive ExpressionTree where
  | const (value : UInt64)
  | unary (op : UnaryOp) (operand : ExpressionTree)
  | plusConst (addend : UInt64) (operand : ExpressionTree)
  | binary (op : BinaryOp) (left right : ExpressionTree)

namespace ExpressionTree

/-- The number of operations in the code of a tree. -/
def operations : ExpressionTree → Nat
  | const _ => 1
  | unary _ t => t.operations + 1
  | plusConst _ t => t.operations + 1
  | binary _ l r => l.operations + r.operations + 1

/-- The value of a tree modulo 2^64. A tree that divides by zero has none. -/
def value? : ExpressionTree → Option UInt64
  | const value => some value
  | unary op t => t.value?.map fun a => .ofInt (op.integer a)
  | plusConst addend t => t.value?.map fun a => .ofInt (a.toNat + addend.toNat)
  | binary op l r =>
    l.value?.bind fun a => r.value?.bind fun b => (op.integer? a b).map .ofInt

/-- Some quotient or remainder has a divisor that is zero. -/
inductive DividesByZero : ExpressionTree → Prop
  | divisor {op : BinaryOp} {l r : ExpressionTree} (hop : op = .div ∨ op = .mod)
      (hr : r.value? = some 0) : DividesByZero (binary op l r)
  | unary {op : UnaryOp} {t : ExpressionTree} (h : DividesByZero t) : DividesByZero (unary op t)
  | plusConst {addend : UInt64} {t : ExpressionTree} (h : DividesByZero t) :
      DividesByZero (plusConst addend t)
  | left {op : BinaryOp} {l r : ExpressionTree} (h : DividesByZero l) :
      DividesByZero (binary op l r)
  | right {op : BinaryOp} {l r : ExpressionTree} (h : DividesByZero r) :
      DividesByZero (binary op l r)

theorem value?_eq_none_iff (t : ExpressionTree) : t.value? = none ↔ t.DividesByZero := by
  constructor
  · intro h
    induction t with
    | const value => cases h
    | unary op t ih => exact .unary (ih (Option.map_eq_none_iff.1 h))
    | plusConst addend t ih => exact .plusConst (ih (Option.map_eq_none_iff.1 h))
    | binary op l r ihl ihr =>
      rw [value?] at h
      cases hl : l.value? with
      | none => exact .left (ihl hl)
      | some a =>
        cases hr : r.value? with
        | none => exact .right (ihr hr)
        | some b =>
          rw [hl, hr] at h
          obtain ⟨hop, rfl⟩ := (op.integer?_eq_none_iff a b).1 (Option.map_eq_none_iff.1 h)
          exact .divisor hop hr
  · intro h
    induction h with
    | @divisor op l r hop hr =>
      rw [value?, hr]
      cases l.value? with
      | none => rfl
      | some a => exact Option.map_eq_none_iff.2 ((op.integer?_eq_none_iff a 0).2 ⟨hop, rfl⟩)
    | unary _ ih => exact Option.map_eq_none_iff.2 ih
    | plusConst _ ih => exact Option.map_eq_none_iff.2 ih
    | left _ ih => rw [value?, ih, Option.bind_none]
    | @right op l r _ ih =>
      rw [value?, ih]
      cases l.value? <;> rfl

/-- The code of a tree: that of its operands, then the operation. A constant has the code of any
operation that pushes it. -/
inductive Encodes (order : ByteOrder) (addressSize : Nat) : ExpressionTree → List UInt8 → Prop
  | const {value : UInt64} {code : List UInt8}
      (h : Operation.Pushes order addressSize value code) :
      Encodes order addressSize (const value) code
  | unary {op : UnaryOp} {t : ExpressionTree} {code : List UInt8}
      (h : Encodes order addressSize t code) :
      Encodes order addressSize (unary op t) (code ++ [op.opcode])
  | plusConst {t : ExpressionTree} {code group : List UInt8}
      (h : Encodes order addressSize t code) (hgroup : Leb128.IsGroup group) :
      Encodes order addressSize (plusConst (Leb128.unsigned group) t) (code ++ 0x23 :: group)
  | binary {op : BinaryOp} {l r : ExpressionTree} {left right : List UInt8}
      (hl : Encodes order addressSize l left) (hr : Encodes order addressSize r right) :
      Encodes order addressSize (binary op l r) (left ++ right ++ [op.opcode])

theorem Encodes.ne_nil {order : ByteOrder} {addressSize : Nat} {t : ExpressionTree}
    {code : List UInt8} (h : t.Encodes order addressSize code) : code ≠ [] := by
  cases h with
  | const hpush => cases hpush <;> exact List.cons_ne_nil _ _
  | unary => exact List.append_ne_nil_of_right_ne_nil _ (List.cons_ne_nil _ _)
  | plusConst => exact List.append_ne_nil_of_right_ne_nil _ (List.cons_ne_nil _ _)
  | binary => exact List.append_ne_nil_of_right_ne_nil _ (List.cons_ne_nil _ _)

end ExpressionTree

namespace Operation

theorem run_unary (op : UnaryOp) (a : UInt64) (stack : List UInt64) :
    (unary op).run (a :: stack) = .ok (.next (.ofInt (op.integer a) :: stack)) := by
  rw [← UnaryOp.apply_eq]
  rfl

theorem run_plusConst (addend a : UInt64) (stack : List UInt64) :
    (plusConst addend).run (a :: stack) =
      .ok (.next (.ofInt (a.toNat + addend.toNat) :: stack)) := by
  rw [UInt64.ofInt_add, ofInt_toNat, ofInt_toNat]
  rfl

theorem run_binary {op : BinaryOp} {a b : UInt64} {n : Int} (h : op.integer? a b = some n)
    (stack : List UInt64) :
    (binary op).run (b :: a :: stack) = .ok (.next (.ofInt n :: stack)) := by
  rw [run, BinaryOp.apply_eq, h]
  rfl

theorem run_binary_of_none {op : BinaryOp} {a b : UInt64} (h : op.integer? a b = none)
    (stack : List UInt64) : (binary op).run (b :: a :: stack) = .error .divisionByZero := by
  rw [run, BinaryOp.apply_eq, h]
  rfl

end Operation

namespace Expression

variable {w : Window} {pos : Nat}

/-- The code of a tree that has a value pushes it. -/
theorem execute_of_value? {t : ExpressionTree} {code : List UInt8} {value : UInt64}
    (h : t.Encodes w.region.order w.region.addressSize code) (hcode : w.Holds pos code)
    (hvalue : t.value? = some value) (budget : Nat) (stack : List UInt64) :
    execute (t.operations + budget) stack w pos =
      execute budget (value :: stack) w (pos + code.length) := by
  induction h generalizing pos value budget stack with
  | const hpush =>
    cases hvalue
    rw [ExpressionTree.operations, Nat.add_comm]
    exact execute_of_next (hpush.reads_decode rfl hcode) rfl
  | @unary op t code _ ih =>
    obtain ⟨hoperand, hop⟩ := Window.holds_append.1 hcode
    obtain ⟨a, ha, rfl⟩ := Option.map_eq_some_iff.1 hvalue
    have hread := Operation.reads_unary op rfl hop
    rw [ExpressionTree.operations, Nat.add_assoc, ih hoperand ha, Nat.add_comm 1,
      execute_of_next hread (Operation.run_unary op a stack), List.length_append, Nat.add_assoc]
  | @plusConst t code group _ hgroup ih =>
    obtain ⟨hoperand, hop⟩ := Window.holds_append.1 hcode
    obtain ⟨a, ha, rfl⟩ := Option.map_eq_some_iff.1 hvalue
    have hread := Operation.reads_plusConst hgroup rfl hop
    rw [ExpressionTree.operations, Nat.add_assoc, ih hoperand ha, Nat.add_comm 1,
      execute_of_next hread (Operation.run_plusConst _ a stack), List.length_append, Nat.add_assoc]
  | @binary op l r left right _ _ ihl ihr =>
    obtain ⟨hoperands, hop⟩ := Window.holds_append.1 hcode
    obtain ⟨hleft, hright⟩ := Window.holds_append.1 hoperands
    obtain ⟨a, ha, hvalue⟩ := Option.bind_eq_some_iff.1 hvalue
    obtain ⟨b, hb, hvalue⟩ := Option.bind_eq_some_iff.1 hvalue
    obtain ⟨n, hn, rfl⟩ := Option.map_eq_some_iff.1 hvalue
    rw [List.length_append, ← Nat.add_assoc] at hop
    have hread := Operation.reads_binary op rfl hop
    rw [ExpressionTree.operations, Nat.add_assoc, Nat.add_assoc, ihl hleft ha, ihr hright hb,
      Nat.add_comm 1, execute_of_next hread (Operation.run_binary hn stack)]
    simp only [List.length_append, Nat.add_assoc]

/-- The code of a tree that has no value comes to a division by zero. -/
theorem execute_of_value?_eq_none {t : ExpressionTree} {code : List UInt8}
    (h : t.Encodes w.region.order w.region.addressSize code) (hcode : w.Holds pos code)
    (hvalue : t.value? = none) (budget : Nat) (stack : List UInt64) :
    ∃ stop, execute (t.operations + budget) stack w pos = .error .divisionByZero stop := by
  induction h generalizing pos budget stack with
  | const => cases hvalue
  | unary _ ih =>
    obtain ⟨hoperand, -⟩ := Window.holds_append.1 hcode
    rw [ExpressionTree.operations, Nat.add_assoc]
    exact ih hoperand (Option.map_eq_none_iff.1 hvalue) _ stack
  | plusConst _ _ ih =>
    obtain ⟨hoperand, -⟩ := Window.holds_append.1 hcode
    rw [ExpressionTree.operations, Nat.add_assoc]
    exact ih hoperand (Option.map_eq_none_iff.1 hvalue) _ stack
  | @binary op l r left right hl hr ihl ihr =>
    obtain ⟨hoperands, hop⟩ := Window.holds_append.1 hcode
    obtain ⟨hleft, hright⟩ := Window.holds_append.1 hoperands
    rw [ExpressionTree.operations, Nat.add_assoc, Nat.add_assoc]
    -- The left operand runs first, so its fault comes before those of the others.
    cases ha : l.value? with
    | none => exact ihl hleft ha _ stack
    | some a =>
      rw [execute_of_value? hl hleft ha]
      cases hb : r.value? with
      | none => exact ihr hright hb _ (a :: stack)
      | some b =>
        rw [ExpressionTree.value?, ha, hb] at hvalue
        have hn : op.integer? a b = none := Option.map_eq_none_iff.1 hvalue
        rw [List.length_append, ← Nat.add_assoc] at hop
        have hread := Operation.reads_binary op rfl hop
        rw [execute_of_value? hr hright hb, Nat.add_comm 1]
        exact ⟨_, execute_of_fault hread (Operation.run_binary_of_none hn stack)⟩

section Evaluate

variable {e : Expression} {t : ExpressionTree} {code rest : List UInt8} {value : UInt64}
  (args : List UInt64) (h : t.Encodes e.order e.addressSize code)
include h

theorem evaluate_address (hcode : e.code = code) (hlimit : t.operations ≤ operationLimit)
    (hvalue : t.value? = some value) : e.evaluate args = .ok (.address value) := by
  obtain ⟨budget, hbudget⟩ := Nat.exists_eq_add_of_le hlimit
  have hends := e.endsWith_window
  rw [hcode] at hends
  apply evaluate_eq_ok (hcode ▸ h.ne_nil)
  rw [hbudget, execute_of_value? h hends.holds hvalue]
  exact execute_of_limit_le (Nat.le_of_eq hends.limit_eq)

/-- Nothing is run behind the operation that ends an expression with the value. -/
theorem evaluate_literal (hcode : e.code = code ++ 0x9f :: rest)
    (hlimit : t.operations < operationLimit) (hvalue : t.value? = some value) :
    e.evaluate args = .ok (.literal value) := by
  obtain ⟨budget, hbudget⟩ := Nat.exists_eq_add_of_le hlimit
  obtain ⟨htree, hrest⟩ := endsWith_window_of_append hcode
  have hread := Operation.reads_stackValue rfl hrest.cons.1
  apply evaluate_eq_ok (by simp [hcode])
  rw [hbudget, Nat.succ_add, ← Nat.add_succ, execute_of_value? h htree hvalue, execute_succ hread]
  rfl

/-- A tree that has used up the operations leaves none for what comes behind it. -/
theorem evaluate_operationLimit {b : UInt8} (hcode : e.code = code ++ b :: rest)
    (hlimit : t.operations = operationLimit) (hvalue : t.value? = some value) :
    e.evaluate args = .error (.operationLimit operationLimit) := by
  obtain ⟨htree, hrest⟩ := endsWith_window_of_append hcode
  apply evaluate_eq_error (by simp [hcode])
  rw [← hlimit, ← Nat.add_zero t.operations, execute_of_value? h htree hvalue, hlimit]
  exact execute_zero hrest.holds.lt_limit

theorem evaluate_divisionByZero (hcode : e.code = code ++ rest)
    (hlimit : t.operations ≤ operationLimit) (hvalue : t.value? = none) :
    e.evaluate args = .error .divisionByZero := by
  obtain ⟨budget, hbudget⟩ := Nat.exists_eq_add_of_le hlimit
  obtain ⟨htree, -⟩ := endsWith_window_of_append hcode
  obtain ⟨stop, hstop⟩ := execute_of_value?_eq_none h htree hvalue budget
    (args ++ List.replicate seedDepth 0)
  rw [← hbudget] at hstop
  exact evaluate_eq_error (by simp [hcode, h.ne_nil]) hstop

end Evaluate

/-- The code of a tree of at most 100,000 operations evaluates to the value of the tree or, if the
tree divides by zero, to that fault. The operation that makes a literal of the value counts too. -/
theorem evaluate_tree {t : ExpressionTree} {order : ByteOrder} {addressSize : Nat}
    {code : List UInt8} (format : Format) (args : List UInt64)
    (h : t.Encodes order addressSize code) (hlimit : t.operations ≤ 100000) :
    (¬ t.DividesByZero → ∃ value, t.value? = some value ∧
      evaluate { code, format, order, addressSize } args = .ok (.address value) ∧
      (t.operations < 100000 →
        evaluate { code := code ++ [0x9f], format, order, addressSize } args =
          .ok (.literal value))) ∧
    (t.DividesByZero →
      evaluate { code, format, order, addressSize } args = .error .divisionByZero ∧
      evaluate { code := code ++ [0x9f], format, order, addressSize } args =
        .error .divisionByZero) := by
  constructor
  · intro hdivides
    have hvalue : t.value? ≠ none := mt t.value?_eq_none_iff.1 hdivides
    obtain ⟨value, hvalue⟩ := Option.ne_none_iff_exists'.1 hvalue
    refine ⟨value, hvalue, evaluate_address args h rfl hlimit hvalue, ?_⟩
    intro hlt
    exact evaluate_literal args h rfl hlt hvalue
  · intro hdivides
    have hvalue := t.value?_eq_none_iff.2 hdivides
    exact ⟨evaluate_divisionByZero args h (List.append_nil code).symm hlimit hvalue,
      evaluate_divisionByZero args h rfl hlimit hvalue⟩

/-- The least number divided by minus one, shifted until only its sign is left. -/
def leastQuotient : ExpressionTree :=
  .binary .shra (.binary .div (.const 0x8000000000000000) (.const 0xffffffffffffffff)) (.const 64)

def leastQuotientCode : List UInt8 :=
  [0x0e, 0x80, 0, 0, 0, 0, 0, 0, 0, 0x11, 0x7f, 0x1b, 0x08, 64, 0x26]

theorem encodes_leastQuotient : leastQuotient.Encodes .big 4 leastQuotientCode := by
  have hwide : ((0x0e : UInt8), 8) ∈ Operation.unsignedWidths := by decide
  have hnarrow : ((0x08 : UInt8), 1) ∈ Operation.unsignedWidths := by decide
  have hgroup : Leb128.IsGroup [0x7f] := .last (by decide)
  have hdividend : Operation.Pushes .big 4 0x8000000000000000 [0x0e, 0x80, 0, 0, 0, 0, 0, 0, 0] :=
    .unsigned hwide (by decide)
  have hdivisor : Operation.Pushes .big 4 0xffffffffffffffff [0x11, 0x7f] := .signedGroup hgroup
  have hcount : Operation.Pushes .big 4 64 [0x08, 64] := .unsigned hnarrow (by decide)
  exact .binary (.binary (.const hdividend) (.const hdivisor)) (.const hcount)

theorem value?_leastQuotient : leastQuotient.value? = some 0xffffffffffffffff := by decide

/-- A remainder by a difference that is zero. -/
def emptyRemainder : ExpressionTree :=
  .binary .mod (.const 1) (.binary .minus (.const 2) (.const 2))

theorem encodes_emptyRemainder :
    emptyRemainder.Encodes .big 4 [0x31, 0x32, 0x32, 0x1c, 0x1d] := by
  have hone : Operation.Pushes .big 4 1 [0x31] := .literal (n := 1) (by decide)
  have htwo : Operation.Pushes .big 4 2 [0x32] := .literal (n := 2) (by decide)
  exact .binary (.const hone) (.binary (.const htwo) (.const htwo))

theorem dividesByZero_emptyRemainder : emptyRemainder.DividesByZero :=
  .divisor (.inr rfl) (by decide)

theorem evaluate_tree_leastQuotient :
    (leastQuotient.Encodes .big 4 leastQuotientCode ∧ leastQuotient.operations ≤ 100000 ∧
      evaluate { code := leastQuotientCode, order := .big, addressSize := 4 } [7] =
        .ok (.address 0xffffffffffffffff) ∧
      evaluate { code := leastQuotientCode ++ [0x9f], order := .big, addressSize := 4 } [7] =
        .ok (.literal 0xffffffffffffffff)) ∧
    (emptyRemainder.Encodes .big 4 [0x31, 0x32, 0x32, 0x1c, 0x1d] ∧
      emptyRemainder.operations ≤ 100000 ∧ emptyRemainder.DividesByZero ∧
      evaluate { code := [0x31, 0x32, 0x32, 0x1c, 0x1d], order := .big, addressSize := 4 } [7] =
        .error .divisionByZero) := by
  constructor
  · have hvalue := value?_leastQuotient
    have hdivides : ¬ leastQuotient.DividesByZero := by
      rw [← ExpressionTree.value?_eq_none_iff, hvalue]
      exact Option.some_ne_none _
    obtain ⟨value, hsome, haddress, hliteral⟩ :=
      (evaluate_tree .bits32 [7] encodes_leastQuotient (by decide)).1 hdivides
    cases hvalue.symm.trans hsome
    exact ⟨encodes_leastQuotient, by decide, haddress, hliteral (by decide)⟩
  · have hfault := (evaluate_tree .bits32 [7] encodes_emptyRemainder (by decide)).2
      dividesByZero_emptyRemainder
    exact ⟨encodes_emptyRemainder, by decide, dividesByZero_emptyRemainder, hfault.1⟩

/-- One under operations that keep it. -/
def keptOne : Nat → ExpressionTree
  | 0 => .const 1
  | n + 1 => .unary .abs (keptOne n)

def keptOneCode (n : Nat) : List UInt8 := 0x31 :: List.replicate n 0x19

theorem operations_keptOne (n : Nat) : (keptOne n).operations = n + 1 := by
  induction n with
  | zero => rfl
  | succ n ih => rw [keptOne, ExpressionTree.operations, ih]

theorem value?_keptOne (n : Nat) : (keptOne n).value? = some 1 := by
  induction n with
  | zero => rfl
  | succ n ih =>
    rw [keptOne, ExpressionTree.value?, ih]
    decide

theorem encodes_keptOne (n : Nat) : (keptOne n).Encodes .little 8 (keptOneCode n) := by
  induction n with
  | zero =>
    have hone : Operation.Pushes .little 8 1 [0x31] := .literal (n := 1) (by decide)
    exact .const hone
  | succ n ih =>
    rw [keptOneCode, List.replicate_succ']
    exact .unary ih

/-- A tree may use up all operations, and then its value is not made a literal. -/
theorem evaluate_keptOne :
    (keptOne 99999).Encodes .little 8 (keptOneCode 99999) ∧
      (keptOne 99999).operations = 100000 ∧ (keptOne 99999).value? = some 1 ∧
      evaluate { code := keptOneCode 99999 ++ [0x9f], order := .little } [] =
        .error (.operationLimit 100000) :=
  ⟨encodes_keptOne 99999, operations_keptOne 99999, value?_keptOne 99999,
    evaluate_operationLimit [] (encodes_keptOne 99999) rfl (operations_keptOne 99999)
      (value?_keptOne 99999)⟩

end Expression

end StackSurvey.Dwarf
