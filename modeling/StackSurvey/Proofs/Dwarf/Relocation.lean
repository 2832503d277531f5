import StackSurvey.Proofs.Dwarf.Consumption
import StackSurvey.Proofs.Dwarf.Execution
import StackSurvey.Proofs.Dwarf.OperationBytes

namespace StackSurvey.Dwarf

open Decoder

/-- A window holds all of another one `k` positions further on, in the same encoding, and nothing
behind it. -/
structure Window.Carries (v w : Window) (k : Nat) : Prop where
  format_eq : v.region.format = w.region.format
  order_eq : v.region.order = w.region.order
  addressSize_eq : v.region.addressSize = w.region.addressSize
  start_le : v.region.start ≤ w.region.start + k
  stop_eq : v.region.stop = w.region.stop + k
  limit_eq : v.limit = w.limit + k
  holds : ∀ ⦃pos : Nat⦄ ⦃bytes : List UInt8⦄, w.Holds pos bytes → v.Holds (pos + k) bytes

namespace Decoder

variable {α β : Type} {d : Decoder α} {f : α → Decoder β}

/-- A success is the same wherever the bytes lie. -/
def Movable (d : Decoder α) : Prop :=
  ∀ ⦃w v : Window⦄ ⦃k : Nat⦄, v.Carries w k → ∀ ⦃pos next : Nat⦄ ⦃a : α⦄,
    d w pos = .ok a next → d v (pos + k) = .ok a (next + k)

theorem movable_pure (a : α) : (pure a : Decoder α).Movable := by
  intro w v k _ pos next b h
  cases h
  rfl

theorem movable_throw (fault : Fault) : (throw fault : Decoder α).Movable := by
  intro w v k _ pos next a h
  cases h

theorem Movable.bind (hd : d.Movable) (hf : ∀ a, (f a).Movable) : (d >>= f).Movable := by
  intro w v k hv pos next b h
  obtain ⟨a, mid, hfirst, hsecond⟩ := bind_eq_ok h
  rw [bind_of_eq_ok f (hd hv hfirst)]
  exact hf a hv hsecond

theorem Movable.map (hd : d.Movable) (g : α → β) : (g <$> d).Movable :=
  hd.bind fun a => movable_pure (g a)

/-- Of its region a decoder may use the encoding, but not the place. -/
theorem Movable.region {f : Region → Decoder β} (hf : ∀ r, (f r).Movable)
    (hplace : ∀ r s, r.format = s.format → r.order = s.order → r.addressSize = s.addressSize →
      f r = f s) : (region >>= f).Movable := by
  intro w v k hv pos next b h
  have hsame := hplace _ _ hv.format_eq hv.order_eq hv.addressSize_eq
  change f v.region v (pos + k) = _
  rw [hsame]
  exact hf w.region hv h

theorem movable_byte : byte.Movable := by
  intro w v k hv pos next b h
  rw [byte] at h
  split at h
  · rename_i hlt
    cases h
    have hholds := Window.holds_getElem hlt (Window.lt_size_of_lt_limit hlt)
    rw [reads_byte _ rfl (hv.holds hholds), List.length_singleton, Nat.add_right_comm]
  · cases h

theorem movable_bytes (n : Nat) : (bytes n).Movable := by
  intro w v k hv pos next xs h
  obtain ⟨hholds, rfl, rfl⟩ := holds_of_bytes h
  rw [reads_bytes xs rfl (hv.holds hholds), Nat.add_right_comm]

theorem movable_unsigned (width : Nat) : (unsigned width).Movable := by
  apply Movable.region (fun r => (movable_bytes width).map _)
  intro r s _ horder _
  rw [horder]

theorem movable_signed (width : Nat) : (signed width).Movable := (movable_unsigned width).map _

theorem movable_word : word.Movable := (movable_unsigned 8).map _

theorem movable_sized (width : Nat) : (sized width).Movable := by
  unfold sized
  split
  · exact movable_throw _
  · exact (movable_unsigned width).map _

theorem movable_address : address.Movable := by
  apply Movable.region
  · intro r
    dsimp only
    split
    · exact movable_sized _
    · exact movable_throw _
  · intro r s _ _ hsize
    dsimp only
    rw [hsize]

theorem movable_leb128 : leb128.Movable := by
  intro w v k hv pos next xs h
  obtain ⟨hholds, hgroup, rfl⟩ := holds_of_leb128 h
  rw [reads_leb128 hgroup rfl (hv.holds hholds), Nat.add_right_comm]

theorem movable_uleb128 : uleb128.Movable := movable_leb128.map _

theorem movable_sleb128 : sleb128.Movable := movable_leb128.map _

end Decoder

namespace Operation

theorem movable_operands (opcode : UInt8) : (operands opcode).Movable := by
  unfold operands
  split
  · exact movable_pure _
  split
  · exact movable_pure _
  split
  · exact movable_address.map _
  · exact (movable_unsigned 1).map _
  · exact (movable_signed 1).map _
  · exact (movable_unsigned 2).map _
  · exact (movable_signed 2).map _
  · exact (movable_unsigned 4).map _
  · exact (movable_signed 4).map _
  · exact movable_word.map _
  · exact movable_word.map _
  · exact movable_uleb128.map _
  · exact movable_sleb128.map _
  · exact movable_pure _
  · exact movable_pure _
  · exact movable_pure _
  · exact (movable_unsigned 1).map _
  · exact movable_pure _
  · exact movable_pure _
  · exact movable_uleb128.map _
  · exact (movable_signed 2).map _
  · exact (movable_signed 2).map _
  · exact movable_uleb128.map _
  · exact movable_pure _
  · exact movable_uleb128.bind fun count => (movable_bytes count.toNat).map _
  · exact movable_pure _
  · split
    · exact movable_pure _
    · exact movable_pure _
    · exact movable_throw _

theorem movable_decode : decode.Movable := movable_byte.bind movable_operands

end Operation

namespace Expression

variable {w v : Window} {k pos : Nat}

theorem jump_eq (w : Window) (pos : Nat) (distance : Int) :
    jump distance w pos =
      if pos + distance < w.region.start ∨ w.region.stop < pos + distance then
        .error (.invalidBranch (pos + distance)) pos
      else
        .ok () (pos + distance).toNat := by
  have hregion : region w pos = .ok w.region pos := rfl
  rw [jump, bind_of_eq_ok _ hregion, bind_of_eq_ok _ (position_eq w pos)]
  dsimp only
  split <;> rfl

/-- A jump is relative, and the bounds that it is held to move along. -/
theorem jump_relocate (hv : v.Carries w k) {distance : Int} {target : Nat}
    (h : jump distance w pos = .ok () target) :
    jump distance v (pos + k) = .ok () (target + k) := by
  have hstart := hv.start_le
  have hstop := hv.stop_eq
  rw [jump_eq] at h ⊢
  split at h
  · cases h
  · rename_i hinside
    cases h
    have htarget : ((pos + k : Nat) + distance).toNat = (pos + distance).toNat + k := by omega
    rw [if_neg (by omega), htarget]

theorem Runs.relocate (hv : v.Carries w k) {stack : List UInt64} {n : Nat} {location : Location}
    (h : Runs w pos stack n location) : Runs v (pos + k) stack n location := by
  induction h with
  | done hend =>
    refine .done ?_
    rw [hv.limit_eq]
    exact Nat.add_le_add_right hend k
  | stop hdecode hrun => exact .stop (Operation.movable_decode hv hdecode) hrun
  | next hdecode hrun _ ih => exact .next (Operation.movable_decode hv hdecode) hrun ih
  | jump hdecode hrun hjump _ ih =>
    exact .jump (Operation.movable_decode hv hdecode) hrun (jump_relocate hv hjump) ih

/-- The code that pushes words, each as a constant of eight bytes. -/
def pushes (order : ByteOrder) (values : List UInt64) : List UInt8 :=
  values.flatMap fun value => 0x0e :: order.encode 8 value.toNat

/-- The expression with its arguments pushed by code in front, the first of them last. -/
def pushing (e : Expression) (args : List UInt64) : Expression :=
  { e with code := pushes e.order args.reverse ++ e.code }

theorem reads_push (r : Region) (value : UInt64) :
    Operation.decode.Reads r (0x0e :: r.order.encode 8 value.toNat) (.push value) := by
  have hopcode : ((0x0e : UInt8), 8) ∈ Operation.unsignedWidths := by decide
  exact (Operation.Pushes.unsigned hopcode value.toNat_lt).reads_decode

theorem Runs.pushes {values stack : List UInt64} {n : Nat} {location : Location}
    (hcode : w.Holds pos (pushes w.region.order values))
    (h : Runs w (pos + (Expression.pushes w.region.order values).length) (values.reverse ++ stack) n
      location) :
    Runs w pos stack (n + values.length) location := by
  induction values generalizing pos stack with
  | nil => exact h
  | cons value values ih =>
    obtain ⟨hpush, hrest⟩ := Window.holds_append.1 hcode
    refine .next (reads_push _ value rfl hpush) rfl (ih hrest ?_)
    rw [List.reverse_cons, List.append_assoc] at h
    rw [Nat.add_assoc, ← List.length_append]
    exact h

theorem carries_of_append (e : Expression) (front : List UInt8) :
    ({ e with code := front ++ e.code } : Expression).window.Carries e.window front.length where
  format_eq := rfl
  order_eq := rfl
  addressSize_eq := rfl
  start_le := Nat.zero_le _
  stop_eq := by
    change (front ++ e.code).length = e.code.length + front.length
    rw [List.length_append, Nat.add_comm]
  limit_eq := by
    rw [(endsWith_window _).limit_eq, e.endsWith_window.limit_eq, List.length_append, Nat.zero_add,
      Nat.zero_add, Nat.add_comm]
  holds := by
    intro pos bytes h
    have hlimit := h.le_limit
    rw [e.endsWith_window.limit_eq] at hlimit
    refine ⟨?_, ?_⟩
    · rw [(endsWith_window _).limit_eq, List.length_append]
      omega
    · have hslice := h.slice_eq
      rw [Window.slice_eq_take] at hslice ⊢
      change ((front ++ e.code).drop (pos + front.length)).take bytes.length = bytes
      rw [Nat.add_comm, List.drop_append, List.drop_eq_nil_of_le (Nat.le_add_right ..),
        List.nil_append, Nat.add_sub_cancel_left]
      exact hslice

/-- Arguments are as good as constants pushed in front: a run with arguments gives what it gives
without any behind the code that pushes them, if it ends before the pushes make it too long. -/
theorem evaluate_pushing {e : Expression} {args : List UInt64} {location : Location}
    (hne : e.code ≠ []) (h : e.evaluate args = .ok location) :
    ∃ n, e.EndsAfter args n location ∧ (∀ m, e.EndsAfter args m location → m = n) ∧
      (n + args.length ≤ 100000 → (e.pushing args).evaluate [] = .ok location) := by
  obtain ⟨n, -, hruns⟩ := (evaluate_eq_ok_iff hne).1 h
  refine ⟨n, hruns, fun m hm => (hm.unique hruns).1, ?_⟩
  intro hlimit
  have hcode : (e.pushing args).code ≠ [] := List.append_ne_nil_of_right_ne_nil _ hne
  obtain ⟨hpushes, -⟩ := endsWith_window_of_append (e := e.pushing args) rfl
  have hmoved := Runs.relocate (e.carries_of_append (pushes e.order args.reverse)) hruns
  rw [← List.length_reverse] at hlimit
  refine (evaluate_eq_ok_iff hcode).2 ⟨_, hlimit, Runs.pushes hpushes ?_⟩
  rw [List.reverse_reverse]
  exact hmoved

/-- Counts the first argument down to zero and gives the second. -/
def countdown : Expression :=
  { code := [0x31, 0x1c, 0x12, 0x28, 0xfa, 0xff, 0x13, 0x9f], order := .little }

theorem evaluate_countdown : countdown.evaluate [2, 7] = .ok (.literal 7) := by rfl

theorem decode_branch_countdown :
    Operation.decode countdown.window 3 = .ok (.branch (-6)) 6 := by
  have hdistance : (-6 : Int) = Int.bmod 0xfffa (1 <<< (8 * 2)) := by decide
  rw [hdistance]
  rfl

theorem endsAfter_countdown : countdown.EndsAfter [2, 7] 10 (.literal 7) := by
  have hone : Operation.decode countdown.window 0 = .ok (.push 1) 1 := rfl
  have hminus : Operation.decode countdown.window 1 = .ok (.binary .minus) 2 := rfl
  have hdup : Operation.decode countdown.window 2 = .ok .dup 3 := rfl
  have hbranch := decode_branch_countdown
  have hback : jump (-6) countdown.window 6 = .ok () 0 := rfl
  have hlast : Runs countdown.window 6 (0 :: 7 :: List.replicate seedDepth 0) 2 (.literal 7) :=
    .next rfl rfl (.stop rfl rfl)
  have hround : Runs countdown.window 0 (1 :: 7 :: List.replicate seedDepth 0) 6 (.literal 7) :=
    .next hone rfl (.next hminus rfl (.next hdup rfl (.next hbranch rfl hlast)))
  exact .next hone rfl (.next hminus rfl (.next hdup rfl (.jump hbranch rfl hback hround)))

theorem evaluate_pushing_countdown :
    countdown.code ≠ [] ∧ countdown.evaluate [2, 7] = .ok (.literal 7) ∧
      countdown.EndsAfter [2, 7] 10 (.literal 7) ∧ 10 + [2, 7].length ≤ 100000 ∧
      (countdown.pushing [2, 7]).evaluate [] = .ok (.literal 7) := by
  have hne : countdown.code ≠ [] := by decide
  obtain ⟨n, -, hunique, hpushing⟩ := evaluate_pushing hne evaluate_countdown
  obtain rfl : 10 = n := hunique 10 endsAfter_countdown
  have hlimit : 10 + [2, 7].length ≤ 100000 := by decide
  exact ⟨hne, evaluate_countdown, endsAfter_countdown, hlimit, hpushing hlimit⟩

end Expression

end StackSurvey.Dwarf
