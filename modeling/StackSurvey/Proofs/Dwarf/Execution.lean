import StackSurvey.Dwarf.Expression
import StackSurvey.Proofs.Dwarf.Reading

namespace StackSurvey.Dwarf

open Decoder

theorem Operation.lt_limit_of_decode {w : Window} {pos next : Nat} {op : Operation}
    (h : decode w pos = .ok op next) : pos < w.limit := by
  obtain ⟨opcode, mid, hbyte, -⟩ := bind_eq_ok h
  have hadvance := advances_byte hbyte
  omega

namespace Expression

variable {w : Window} {pos next budget : Nat} {stack : List UInt64} {op : Operation}

theorem read_eq (w : Window) (pos : Nat) : (read : Decoder Window) w pos = .ok w pos := rfl

theorem execute_of_limit_le {value : UInt64} (h : w.limit ≤ pos) :
    execute budget (value :: stack) w pos = .ok (.address value) pos := by
  unfold execute
  rw [bind_of_eq_ok _ (read_eq w pos), bind_of_eq_ok _ (position_eq w pos)]
  dsimp only
  rw [if_pos h]
  rfl

theorem execute_nil_of_limit_le (h : w.limit ≤ pos) :
    execute budget [] w pos = .error (.stackUnderflow 0) pos := by
  unfold execute
  rw [bind_of_eq_ok _ (read_eq w pos), bind_of_eq_ok _ (position_eq w pos)]
  dsimp only
  rw [if_pos h]
  rfl

theorem execute_zero (h : pos < w.limit) :
    execute 0 stack w pos = .error (.operationLimit operationLimit) pos := by
  unfold execute
  rw [bind_of_eq_ok _ (read_eq w pos), bind_of_eq_ok _ (position_eq w pos)]
  dsimp only
  rw [if_neg (Nat.not_le_of_lt h)]
  rfl

theorem execute_succ (h : Operation.decode w pos = .ok op next) :
    execute (budget + 1) stack w pos = proceed (execute budget) (op.run stack) w next := by
  have hlt := Operation.lt_limit_of_decode h
  rw [execute, bind_of_eq_ok _ (read_eq w pos), bind_of_eq_ok _ (position_eq w pos)]
  dsimp only
  rw [if_neg (Nat.not_le_of_lt hlt), bind_of_eq_ok _ h]

theorem execute_of_decode_error {fault : Fault} (hlt : pos < w.limit)
    (h : Operation.decode w pos = .error fault next) :
    execute (budget + 1) stack w pos = .error fault next := by
  rw [execute, bind_of_eq_ok _ (read_eq w pos), bind_of_eq_ok _ (position_eq w pos)]
  dsimp only
  rw [if_neg (Nat.not_le_of_lt hlt), bind_of_eq_error _ h]

theorem execute_of_next {stack' : List UInt64} (h : Operation.decode w pos = .ok op next)
    (hrun : op.run stack = .ok (.next stack')) :
    execute (budget + 1) stack w pos = execute budget stack' w next := by
  rw [execute_succ h, hrun]
  rfl

theorem execute_of_fault {fault : Fault} (h : Operation.decode w pos = .ok op next)
    (hrun : op.run stack = .error fault) :
    execute (budget + 1) stack w pos = .error fault next := by
  rw [execute_succ h, hrun]
  rfl

theorem execute_of_jump {stack' : List UInt64} {distance : Int} {target : Nat}
    (h : Operation.decode w pos = .ok op next)
    (hrun : op.run stack = .ok (.jump distance stack'))
    (hjump : jump distance w next = .ok () target) :
    execute (budget + 1) stack w pos = execute budget stack' w target := by
  rw [execute_succ h, hrun, proceed, bind_of_eq_ok _ hjump]

theorem execute_of_stop {location : Location} (h : Operation.decode w pos = .ok op next)
    (hrun : op.run stack = .ok (.stop location)) :
    execute (budget + 1) stack w pos = .ok location next := by
  rw [execute_succ h, hrun]
  rfl

/-- From a position and a stack, so many operations run until the expression ends. -/
inductive Runs (w : Window) : Nat → List UInt64 → Nat → Location → Prop
  | done {pos : Nat} {value : UInt64} {stack : List UInt64} (h : w.limit ≤ pos) :
      Runs w pos (value :: stack) 0 (.address value)
  | stop {pos next : Nat} {stack : List UInt64} {op : Operation} {location : Location}
      (hdecode : Operation.decode w pos = .ok op next)
      (hrun : op.run stack = .ok (.stop location)) :
      Runs w pos stack 1 location
  | next {pos next n : Nat} {stack stack' : List UInt64} {op : Operation} {location : Location}
      (hdecode : Operation.decode w pos = .ok op next)
      (hrun : op.run stack = .ok (.next stack')) (hrest : Runs w next stack' n location) :
      Runs w pos stack (n + 1) location
  | jump {pos next target n : Nat} {stack stack' : List UInt64} {op : Operation} {distance : Int}
      {location : Location} (hdecode : Operation.decode w pos = .ok op next)
      (hrun : op.run stack = .ok (.jump distance stack'))
      (hjump : jump distance w next = .ok () target) (hrest : Runs w target stack' n location) :
      Runs w pos stack (n + 1) location

/-- A run is determined by where it begins. -/
theorem Runs.unique {n m : Nat} {location location' : Location} (h : Runs w pos stack n location)
    (h' : Runs w pos stack m location') : n = m ∧ location = location' := by
  induction h generalizing m with
  | done hend =>
    cases h' with
    | done => exact ⟨rfl, rfl⟩
    | stop hdecode => exact absurd (Operation.lt_limit_of_decode hdecode) (Nat.not_lt_of_le hend)
    | next hdecode => exact absurd (Operation.lt_limit_of_decode hdecode) (Nat.not_lt_of_le hend)
    | jump hdecode => exact absurd (Operation.lt_limit_of_decode hdecode) (Nat.not_lt_of_le hend)
  | stop hdecode hrun =>
    cases h' with
    | done hend => exact absurd (Operation.lt_limit_of_decode hdecode) (Nat.not_lt_of_le hend)
    | stop hdecode' hrun' =>
      cases hdecode.symm.trans hdecode'
      cases hrun.symm.trans hrun'
      exact ⟨rfl, rfl⟩
    | next hdecode' hrun' | jump hdecode' hrun' =>
      cases hdecode.symm.trans hdecode'
      cases hrun.symm.trans hrun'
  | next hdecode hrun _ ih =>
    cases h' with
    | done hend => exact absurd (Operation.lt_limit_of_decode hdecode) (Nat.not_lt_of_le hend)
    | stop hdecode' hrun' | jump hdecode' hrun' =>
      cases hdecode.symm.trans hdecode'
      cases hrun.symm.trans hrun'
    | next hdecode' hrun' hrest' =>
      cases hdecode.symm.trans hdecode'
      cases hrun.symm.trans hrun'
      obtain ⟨rfl, hlocation⟩ := ih hrest'
      exact ⟨rfl, hlocation⟩
  | jump hdecode hrun hjump _ ih =>
    cases h' with
    | done hend => exact absurd (Operation.lt_limit_of_decode hdecode) (Nat.not_lt_of_le hend)
    | stop hdecode' hrun' | next hdecode' hrun' =>
      cases hdecode.symm.trans hdecode'
      cases hrun.symm.trans hrun'
    | jump hdecode' hrun' hjump' hrest' =>
      cases hdecode.symm.trans hdecode'
      cases hrun.symm.trans hrun'
      cases hjump.symm.trans hjump'
      obtain ⟨rfl, hlocation⟩ := ih hrest'
      exact ⟨rfl, hlocation⟩

theorem Runs.execute_eq {n : Nat} {location : Location} (h : Runs w pos stack n location)
    (hbudget : n ≤ budget) : ∃ stop, execute budget stack w pos = .ok location stop := by
  induction h generalizing budget with
  | done h => exact ⟨_, execute_of_limit_le h⟩
  | stop hdecode hrun =>
    obtain ⟨rest, rfl⟩ := Nat.exists_eq_add_of_le' hbudget
    exact ⟨_, execute_of_stop hdecode hrun⟩
  | next hdecode hrun _ ih =>
    obtain ⟨rest, rfl⟩ := Nat.exists_eq_add_of_le' hbudget
    rw [← Nat.add_assoc, execute_of_next hdecode hrun]
    exact ih (Nat.le_add_left ..)
  | jump hdecode hrun hjump _ ih =>
    obtain ⟨rest, rfl⟩ := Nat.exists_eq_add_of_le' hbudget
    rw [← Nat.add_assoc, execute_of_jump hdecode hrun hjump]
    exact ih (Nat.le_add_left ..)

theorem runs_of_execute_at_end {location : Location} {stop : Nat} (hend : w.limit ≤ pos)
    (h : execute budget stack w pos = .ok location stop) :
    ∃ n, n ≤ budget ∧ Runs w pos stack n location := by
  cases stack with
  | nil =>
    rw [execute_nil_of_limit_le hend] at h
    cases h
  | cons value stack =>
    rw [execute_of_limit_le hend] at h
    cases h
    exact ⟨0, Nat.zero_le budget, .done hend⟩

theorem runs_of_execute {location : Location} {stop : Nat}
    (h : execute budget stack w pos = .ok location stop) :
    ∃ n, n ≤ budget ∧ Runs w pos stack n location := by
  induction budget generalizing stack pos with
  | zero =>
    by_cases hlt : pos < w.limit
    · rw [execute_zero hlt] at h
      cases h
    · exact runs_of_execute_at_end (Nat.le_of_not_lt hlt) h
  | succ budget ih =>
    by_cases hlt : pos < w.limit
    · cases hdecode : Operation.decode w pos with
      | error fault next =>
        rw [execute_of_decode_error hlt hdecode] at h
        cases h
      | ok op next =>
        cases hrun : op.run stack with
        | error fault =>
          rw [execute_of_fault hdecode hrun] at h
          cases h
        | ok outcome =>
          cases outcome with
          | next stack' =>
            rw [execute_of_next hdecode hrun] at h
            obtain ⟨n, hn, hrest⟩ := ih h
            exact ⟨n + 1, Nat.succ_le_succ hn, .next hdecode hrun hrest⟩
          | jump distance stack' =>
            rw [execute_succ hdecode, hrun] at h
            obtain ⟨_, target, hjump, h⟩ := bind_eq_ok h
            obtain ⟨n, hn, hrest⟩ := ih h
            exact ⟨n + 1, Nat.succ_le_succ hn, .jump hdecode hrun hjump hrest⟩
          | stop location' =>
            rw [execute_of_stop hdecode hrun] at h
            cases h
            exact ⟨1, Nat.le_add_left .., .stop hdecode hrun⟩
    · exact runs_of_execute_at_end (Nat.le_of_not_lt hlt) h

theorem endsWith_window (e : Expression) : e.window.EndsWith 0 e.code := by
  let data := ByteArray.mk e.code.toArray
  have h : (Window.mk data (.whole data e.order)).EndsWith 0 e.code := Window.endsWith_whole rfl
  exact ⟨⟨h.holds.le_limit, h.holds.slice_eq⟩, h.limit_eq⟩

variable {e : Expression} {args : List UInt64}

theorem endsWith_window_of_append {front rest : List UInt8} (h : e.code = front ++ rest) :
    e.window.Holds 0 front ∧ e.window.EndsWith (0 + front.length) rest := by
  have hends := e.endsWith_window
  rw [h] at hends
  exact hends.append

theorem evaluate_eq_ok {location : Location} {stop : Nat} (hne : e.code ≠ [])
    (h : execute operationLimit (args ++ List.replicate seedDepth 0) e.window 0 =
      .ok location stop) : e.evaluate args = .ok location := by
  rw [evaluate, if_neg hne, h]

theorem evaluate_eq_error {fault : Fault} {stop : Nat} (hne : e.code ≠ [])
    (h : execute operationLimit (args ++ List.replicate seedDepth 0) e.window 0 =
      .error fault stop) : e.evaluate args = .error fault := by
  rw [evaluate, if_neg hne, h]

/-- With these arguments, so many operations run until the expression ends. -/
def EndsAfter (e : Expression) (args : List UInt64) (n : Nat) (location : Location) : Prop :=
  Runs e.window 0 (args ++ List.replicate seedDepth 0) n location

/-- What an expression gives is what its operations come to, if they are not too many. -/
theorem evaluate_eq_ok_iff {location : Location} (hne : e.code ≠ []) :
    e.evaluate args = .ok location ↔ ∃ n, n ≤ operationLimit ∧ e.EndsAfter args n location := by
  constructor
  · intro h
    rw [evaluate, if_neg hne] at h
    split at h
    · cases h
      exact runs_of_execute ‹_›
    · cases h
  · rintro ⟨n, hn, hruns⟩
    obtain ⟨stop, hstop⟩ := hruns.execute_eq hn
    exact evaluate_eq_ok hne hstop

end Expression

end StackSurvey.Dwarf
