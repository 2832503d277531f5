import StackSurvey.Proofs.Dwarf.Execution
import StackSurvey.Proofs.Dwarf.OperationBytes

namespace StackSurvey.Dwarf

open Decoder

namespace Operation

/-- How many values an operation needs on the stack. -/
def needs : Operation → Nat
  | push _ | skip _ | register _ | implicitValue _ | nop => 0
  | dup | drop | unary _ | plusConst _ | branch _ | stackValue => 1
  | dupSecond | swap | binary _ => 2
  | rot => 3
  | pick index => index + 1

/-- By how much an operation makes the stack deeper. -/
def effect : Operation → Int
  | push _ | dup | dupSecond | pick _ => 1
  | drop | binary _ | branch _ | stackValue => -1
  | swap | rot | unary _ | plusConst _ | skip _ | register _ | implicitValue _ | nop => 0

def isTerminal : Operation → Bool
  | register _ | implicitValue _ | stackValue => true
  | _ => false

/-- What an operation that ends an expression says of the place of the value. -/
inductive Ends : Operation → Location → Prop
  | register {number : UInt64} : Ends (register number) (.register number)
  | implicit {bytes : List UInt8} : Ends (implicitValue bytes) (.implicit bytes)
  | literal {value : UInt64} : Ends stackValue (.literal value)

/-- True of the operations that have no result for some values. -/
def divides : Operation → Bool
  | binary op => op = .div || op = .mod
  | _ => false

end Operation

structure Instruction (order : ByteOrder) (addressSize : Nat) where
  op : Operation
  opcode : UInt8
  operands : List UInt8
  encodes : op.Encodes order addressSize (opcode :: operands)

namespace Instruction

variable {order : ByteOrder} {addressSize : Nat}

def code (program : List (Instruction order addressSize)) : List UInt8 :=
  program.flatMap fun x => x.opcode :: x.operands

/-- The depth of the stack after a program. -/
def depthAfter (depth : Int) (program : List (Instruction order addressSize)) : Int :=
  program.foldl (fun depth x => depth + x.op.effect) depth

/-- The first operation that needs more values than there are on the stack. -/
def firstStarved? (depth : Int) :
    List (Instruction order addressSize) → Option (Instruction order addressSize)
  | [] => none
  | x :: program =>
    if depth < x.op.needs then some x else firstStarved? (depth + x.op.effect) program

/-- A program up to the first operation that ends an expression, which is the last of these. -/
def upToTerminal : List (Instruction order addressSize) → List (Instruction order addressSize)
  | [] => []
  | x :: program => if x.op.isTerminal then [x] else x :: upToTerminal program

/-- How a program ends that begins with a stack of some depth. -/
inductive Foretells (depth : Int) (program : List (Instruction order addressSize)) :
    Except Fault Location → Prop
  | starved {x : Instruction order addressSize}
      (h : firstStarved? depth (upToTerminal program) = some x) :
      Foretells depth program (.error (.stackUnderflow x.opcode))
  | terminal {x : Instruction order addressSize} {location : Location}
      (h : firstStarved? depth (upToTerminal program) = none)
      (hfirst : program.find? (·.op.isTerminal) = some x) (hends : x.op.Ends location) :
      Foretells depth program (.ok location)
  | exhausted (h : firstStarved? depth (upToTerminal program) = none)
      (hnone : program.find? (·.op.isTerminal) = none) (hdepth : depthAfter depth program = 0) :
      Foretells depth program (.error (.stackUnderflow 0))
  | top {value : UInt64} (h : firstStarved? depth (upToTerminal program) = none)
      (hnone : program.find? (·.op.isTerminal) = none) (hdepth : depthAfter depth program ≠ 0) :
      Foretells depth program (.ok (.address value))

section Forecast

variable {depth : Int} {x : Instruction order addressSize}
  {program : List (Instruction order addressSize)} {outcome : Except Fault Location}

theorem firstStarved?_upToTerminal_of_lt (h : depth < x.op.needs) :
    firstStarved? depth (upToTerminal (x :: program)) = some x := by
  rw [upToTerminal]
  split <;> exact if_pos h

theorem firstStarved?_upToTerminal_of_terminal (h : ¬ depth < x.op.needs)
    (hx : x.op.isTerminal = true) :
    firstStarved? depth (upToTerminal (x :: program)) = none := by
  rw [upToTerminal, if_pos hx, firstStarved?, if_neg h, firstStarved?]

theorem firstStarved?_upToTerminal_of_next (h : ¬ depth < x.op.needs)
    (hx : x.op.isTerminal = false) :
    firstStarved? depth (upToTerminal (x :: program)) =
      firstStarved? (depth + x.op.effect) (upToTerminal program) := by
  rw [upToTerminal, if_neg (Bool.eq_false_iff.1 hx), firstStarved?, if_neg h]

theorem Foretells.next (h : ¬ depth < x.op.needs) (hx : x.op.isTerminal = false)
    (hrest : Foretells (depth + x.op.effect) program outcome) :
    Foretells depth (x :: program) outcome := by
  have hstarved : firstStarved? depth (upToTerminal (x :: program)) =
      firstStarved? (depth + x.op.effect) (upToTerminal program) :=
    firstStarved?_upToTerminal_of_next h hx
  have hfind : (x :: program).find? (·.op.isTerminal) = program.find? (·.op.isTerminal) :=
    List.find?_cons_of_neg (Bool.eq_false_iff.1 hx)
  cases hrest with
  | starved hsome => exact .starved (hstarved.trans hsome)
  | terminal hnone hfirst hends =>
    exact .terminal (hstarved.trans hnone) (hfind.trans hfirst) hends
  | exhausted hnone hlast hdepth =>
    exact .exhausted (hstarved.trans hnone) (hfind.trans hlast) hdepth
  | top hnone hlast hdepth => exact .top (hstarved.trans hnone) (hfind.trans hlast) hdepth

theorem Foretells.eq_of_starved (h : Foretells depth program outcome)
    (hstarved : firstStarved? depth (upToTerminal program) = some x) :
    outcome = .error (.stackUnderflow x.opcode) := by
  cases h with
  | starved h =>
    cases hstarved.symm.trans h
    rfl
  | terminal h | exhausted h | top h => cases hstarved.symm.trans h

end Forecast

end Instruction

namespace Operation

variable {order : ByteOrder} {addressSize : Nat} {op : Operation} {opcode : UInt8}
  {operands : List UInt8} {stack : List UInt64}

theorem exists_two (h : 2 ≤ stack.length) : ∃ b a rest, stack = b :: a :: rest := by
  obtain ⟨b, rest, rfl⟩ := List.exists_cons_of_length_pos (Nat.lt_of_lt_of_le Nat.zero_lt_two h)
  obtain ⟨a, rest, rfl⟩ := List.exists_cons_of_length_pos (Nat.le_of_succ_le_succ h)
  exact ⟨b, a, rest, rfl⟩

/-- An operation that finds too few values is named in the fault by its first byte. -/
theorem run_of_lt (h : op.Encodes order addressSize (opcode :: operands))
    (hlt : stack.length < op.needs) : op.run stack = .error (.stackUnderflow opcode) := by
  cases h with
  | push | register | registerGroup | implicitValue | nop => exact absurd hlt (Nat.not_lt_zero _)
  | dup | drop | unary | plusConst | stackValue =>
    obtain rfl := List.eq_nil_of_length_eq_zero (Nat.lt_one_iff.1 hlt)
    rfl
  | pick index =>
    have hnone : stack[index.toNat]? = none := List.getElem?_eq_none (Nat.le_of_lt_succ hlt)
    rw [run, hnone]
  | dupSecond | swap | binary =>
    rcases stack with _ | ⟨b, _ | ⟨a, stack⟩⟩
    · rfl
    · rfl
    · exact absurd hlt (Nat.not_lt.2 (Nat.le_add_left ..))
  | rot =>
    rcases stack with _ | ⟨c, _ | ⟨b, _ | ⟨a, stack⟩⟩⟩
    · rfl
    · rfl
    · rfl
    · exact absurd hlt (Nat.not_lt.2 (Nat.le_add_left ..))

theorem run_of_terminal (hneeds : op.needs ≤ stack.length) (hop : op.isTerminal = true) :
    ∃ location, op.run stack = .ok (.stop location) ∧ op.Ends location := by
  cases op with
  | register => exact ⟨_, rfl, .register⟩
  | implicitValue => exact ⟨_, rfl, .implicit⟩
  | stackValue =>
    obtain ⟨a, rest, rfl⟩ := List.exists_cons_of_length_pos hneeds
    exact ⟨_, rfl, .literal⟩
  | _ => cases hop

theorem exists_apply_eq {op : BinaryOp} (hop : (binary op).divides = false) (a b : UInt64) :
    ∃ value, op.apply a b = .ok value := by
  cases op with
  | div | mod => cases hop
  | _ => exact ⟨_, rfl⟩

theorem run_of_next (h : op.Encodes order addressSize (opcode :: operands))
    (hdivides : op.divides = false) (hneeds : op.needs ≤ stack.length)
    (hop : op.isTerminal = false) :
    ∃ stack', op.run stack = .ok (.next stack') ∧
      (stack'.length : Int) = stack.length + op.effect := by
  cases h with
  | register | registerGroup | implicitValue | stackValue => cases hop
  | push | nop => exact ⟨_, rfl, rfl⟩
  | dup | unary | plusConst =>
    obtain ⟨a, rest, rfl⟩ := List.exists_cons_of_length_pos hneeds
    exact ⟨_, rfl, rfl⟩
  | drop =>
    obtain ⟨a, rest, rfl⟩ := List.exists_cons_of_length_pos hneeds
    refine ⟨rest, rfl, ?_⟩
    rw [List.length_cons, effect]
    omega
  | pick index =>
    refine ⟨stack[index.toNat] :: stack, ?_, rfl⟩
    rw [run, List.getElem?_eq_getElem hneeds]
  | dupSecond | swap =>
    obtain ⟨b, a, rest, rfl⟩ := exists_two hneeds
    exact ⟨_, rfl, rfl⟩
  | binary op =>
    obtain ⟨b, a, rest, rfl⟩ := exists_two hneeds
    obtain ⟨value, hvalue⟩ := exists_apply_eq hdivides a b
    refine ⟨value :: rest, ?_, ?_⟩
    · rw [run, hvalue]
      rfl
    · rw [List.length_cons, List.length_cons, List.length_cons, effect]
      omega
  | rot =>
    have hpos : 0 < stack.length := Nat.lt_of_lt_of_le (Nat.succ_pos 2) hneeds
    obtain ⟨c, rest, rfl⟩ := List.exists_cons_of_length_pos hpos
    obtain ⟨b, a, rest, rfl⟩ := exists_two (Nat.le_of_succ_le_succ hneeds)
    exact ⟨_, rfl, rfl⟩

end Operation

namespace Instruction

variable {order : ByteOrder} {addressSize : Nat} {program : List (Instruction order addressSize)}
  {w : Window} {pos budget : Nat} {stack : List UInt64}

/-- An execution at a position ends as foretold for a program. -/
def EndsAsForetold (w : Window) (pos budget : Nat) (stack : List UInt64)
    (program : List (Instruction order addressSize)) : Prop :=
  (∃ location stop, Expression.execute budget stack w pos = .ok location stop ∧
    Foretells stack.length program (.ok location)) ∨
  ∃ fault stop, Expression.execute budget stack w pos = .error fault stop ∧
    Foretells stack.length program (.error fault)

theorem endsAsForetold_nil (h : w.limit ≤ pos) :
    EndsAsForetold w pos budget stack ([] : List (Instruction order addressSize)) := by
  cases stack with
  | nil =>
    exact .inr ⟨_, _, Expression.execute_nil_of_limit_le h, .exhausted rfl rfl rfl⟩
  | cons value stack =>
    refine .inl ⟨_, _, Expression.execute_of_limit_le h, .top rfl rfl ?_⟩
    rw [depthAfter, List.foldl_nil, List.length_cons]
    omega

theorem endsAsForetold (program : List (Instruction w.region.order w.region.addressSize))
    (hdivides : ∀ x ∈ program, x.op.divides = false) (hlimit : program.length ≤ budget)
    (hcode : w.EndsWith pos (code program)) (stack : List UInt64) :
    EndsAsForetold w pos budget stack program := by
  -- What is on the stack is general: only its depth goes into the forecast for the rest.
  induction program generalizing pos budget stack with
  | nil => exact endsAsForetold_nil (Nat.le_of_eq hcode.limit_eq)
  | cons x program ih =>
    obtain ⟨hx, hdivides⟩ := List.forall_mem_cons.1 hdivides
    obtain ⟨budget, rfl⟩ := Nat.exists_eq_add_of_le' (Nat.le_trans (Nat.le_add_left 1 _) hlimit)
    obtain ⟨hop, hrest⟩ := hcode.append
    have hdecode := x.encodes.reads_decode rfl hop
    by_cases hlt : stack.length < x.op.needs
    · have hfault := Operation.run_of_lt x.encodes hlt
      refine .inr ⟨_, _, Expression.execute_of_fault hdecode hfault, ?_⟩
      exact .starved (firstStarved?_upToTerminal_of_lt (Int.ofNat_lt.2 hlt))
    · have hneeds := Nat.le_of_not_lt hlt
      have hnot : ¬ (stack.length : Int) < x.op.needs := mt Int.ofNat_lt.1 hlt
      cases hterminal : x.op.isTerminal with
      | true =>
        obtain ⟨location, hrun, hends⟩ := Operation.run_of_terminal hneeds hterminal
        refine .inl ⟨location, _, Expression.execute_of_stop hdecode hrun, ?_⟩
        exact .terminal (firstStarved?_upToTerminal_of_terminal hnot hterminal)
          (List.find?_cons_of_pos hterminal) hends
      | false =>
        obtain ⟨stack', hrun, hdepth⟩ := Operation.run_of_next x.encodes hx hneeds hterminal
        rw [EndsAsForetold, Expression.execute_of_next hdecode hrun]
        have hforetold := ih hdivides (Nat.le_of_succ_le_succ hlimit) hrest stack'
        rw [EndsAsForetold, hdepth] at hforetold
        rcases hforetold with ⟨location, stop, hexecute, h⟩ | ⟨fault, stop, hexecute, h⟩
        · exact .inl ⟨location, stop, hexecute, h.next hnot hterminal⟩
        · exact .inr ⟨fault, stop, hexecute, h.next hnot hterminal⟩

def expression (format : Format) (program : List (Instruction order addressSize)) : Expression :=
  { code := code program, format, order, addressSize }

/-- What an expression without branches and divisions comes to is foretold by the depth of its
stack: eight zeros and the arguments to begin with. -/
theorem foretells_evaluate (format : Format) (hne : program ≠ [])
    (hlimit : program.length ≤ 100000) (hdivides : ∀ x ∈ program, x.op.divides = false)
    (args : List UInt64) :
    Foretells (8 + args.length) program ((expression format program).evaluate args) := by
  have hcode : (expression format program).code ≠ [] := by
    obtain ⟨x, rest, rfl⟩ := List.exists_cons_of_ne_nil hne
    exact List.cons_ne_nil _ _
  have hdepth : ((args ++ List.replicate Expression.seedDepth 0).length : Int) =
      8 + args.length := by
    rw [List.length_append, List.length_replicate, Int.natCast_add, Int.add_comm]
    rfl
  rw [← hdepth]
  rcases endsAsForetold (w := (expression format program).window) program hdivides hlimit
      (Expression.endsWith_window _) (args ++ List.replicate Expression.seedDepth 0) with
    ⟨location, stop, hexecute, h⟩ | ⟨fault, stop, hexecute, h⟩
  · rwa [Expression.evaluate_eq_ok hcode hexecute]
  · rwa [Expression.evaluate_eq_error hcode hexecute]

/-- Nine values are ten after the first operation, and the second needs eleven. -/
def deepPick : List (Instruction .little 8) :=
  [⟨.dupSecond, 0x14, [], .dupSecond⟩, ⟨.pick 10, 0x15, [10], .pick 10⟩,
    ⟨.stackValue, 0x9f, [], .stackValue⟩]

theorem foretells_evaluate_deepPick :
    deepPick ≠ [] ∧ deepPick.length ≤ 100000 ∧ (∀ x ∈ deepPick, x.op.divides = false) ∧
      (expression .bits32 deepPick).evaluate [5] = .error (.stackUnderflow 0x15) := by
  have hne : deepPick ≠ [] := List.cons_ne_nil _ _
  have hlimit : deepPick.length ≤ 100000 := by decide
  have hdivides : ∀ x ∈ deepPick, x.op.divides = false := by simp [deepPick, Operation.divides]
  have hstarved : firstStarved? (8 + [(5 : UInt64)].length) (upToTerminal deepPick) =
      some ⟨.pick 10, 0x15, [10], .pick 10⟩ := rfl
  exact ⟨hne, hlimit, hdivides,
    (foretells_evaluate .bits32 hne hlimit hdivides [5]).eq_of_starved hstarved⟩

end Instruction

end StackSurvey.Dwarf
