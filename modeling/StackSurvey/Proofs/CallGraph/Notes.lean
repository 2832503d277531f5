import Mathlib.Algebra.Order.Monoid.Unbundled.WithTop
import Mathlib.Order.Lattice.Nat
import StackSurvey.CallGraph.Merge

namespace StackSurvey

/-- The worst case that is noted; none is below every stack. -/
def Annotation.worst (notes : Annotation) : WithBot Nat := notes.graphStack

namespace CallGraph

variable {node : CallNode} {callees : List String} {notes : Annotation} {name : String}

/-- The notes after being told of functions, each with the names of its callees. -/
def noteAll (notes : Annotation) (told : List (CallNode × List String)) : Annotation :=
  told.foldl (fun notes tiding => noteNode tiding.1 tiding.2 notes) notes

theorem mem_addNames {names : Array String} {more : List String} :
    name ∈ addNames names more ↔ name ∈ names ∨ name ∈ more := by
  induction more generalizing names with
  | nil => simp [addNames]
  | cons first more ih =>
    rw [addNames, List.foldl_cons]
    change name ∈ addNames _ more ↔ _
    rw [ih, List.mem_cons]
    split
    · rename_i hfirst
      have hmem : first ∈ names := by simpa using hfirst
      grind
    · rw [Array.mem_push, or_assoc]

theorem addNames_eq_self {names : Array String} {more : List String}
    (h : ∀ name ∈ more, name ∈ names) : addNames names more = names := by
  induction more with
  | nil => rfl
  | cons first more ih =>
    obtain ⟨hfirst, hmore⟩ := List.forall_mem_cons.1 h
    rw [addNames, List.foldl_cons, if_pos (by simpa using hfirst)]
    exact ih hmore

theorem worst_noteNode (node : CallNode) (callees : List String) (notes : Annotation) :
    (noteNode node callees notes).worst = max notes.worst node.graphStack := by
  change (noteWorst notes node).worst = _
  unfold noteWorst
  cases hstack : notes.graphStack with
  | none =>
    have hworst : notes.worst = ⊥ := hstack
    rw [hworst, Option.all_none, if_pos rfl]
    exact (max_eq_right bot_le).symm
  | some stack =>
    have hworst : notes.worst = (stack : Nat) := hstack
    rw [hworst]
    by_cases hlt : stack < node.graphStack
    · rw [if_pos (by simpa using hlt)]
      exact (max_eq_right (WithBot.coe_le_coe.2 (Nat.le_of_lt hlt))).symm
    · rw [if_neg (by simpa using hlt), hworst]
      exact (max_eq_left (WithBot.coe_le_coe.2 (Nat.le_of_not_lt hlt))).symm

/-- Notes that already say as much of recursion, worst case and callees stay as they are. -/
theorem noteNode_eq_self (hrecursion : node.recursion.rank ≤ notes.recursion.rank)
    (hstack : node.graphStack ≤ notes.worst) (hcallees : ∀ name ∈ callees, name ∈ notes.callees) :
    noteNode node callees notes = notes := by
  have hworst : noteWorst notes node = notes := by
    refine if_neg fun hall => ?_
    cases hnoted : notes.graphStack with
    | none =>
      have hnone : notes.worst = ⊥ := hnoted
      rw [hnone] at hstack
      exact WithBot.not_coe_le_bot _ hstack
    | some stack =>
      have hsome : notes.worst = (stack : Nat) := hnoted
      rw [hsome] at hstack
      rw [hnoted, Option.all_some, decide_eq_true_eq] at hall
      exact absurd (WithBot.coe_le_coe.1 hstack) (Nat.not_le_of_lt hall)
  have hescalate : notes.recursion.escalate node.recursion = notes.recursion :=
    if_neg (Nat.not_lt.2 hrecursion)
  rw [noteNode, hworst, hescalate, addNames_eq_self hcallees]

section Figures

variable {α : Type} [LinearOrder α]

/-- A figure that every step raises to that of an item ends at the greatest of all of them. -/
theorem isGreatest_foldl {σ τ : Type} (figure : σ → α) {told : τ → α} {step : σ → τ → σ}
    (hstep : ∀ s x, figure (step s x) = max (figure s) (told x)) (xs : List τ) (s : σ) :
    IsGreatest {a | a = figure s ∨ ∃ x ∈ xs, a = told x} (figure (xs.foldl step s)) := by
  induction xs generalizing s with
  | nil => exact ⟨.inl rfl, fun a ha => (ha.resolve_right (by simp)).le⟩
  | cons x xs ih =>
    obtain ⟨hmem, hbound⟩ := ih (step s x)
    have hle : max (figure s) (told x) ≤ figure (xs.foldl step (step s x)) :=
      hbound (.inl (hstep s x).symm)
    constructor
    · rcases hmem with heq | ⟨y, hy, heq⟩
      · rw [hstep] at heq
        rcases max_choice (figure s) (told x) with hmax | hmax
        · exact .inl (heq.trans hmax)
        · exact .inr ⟨x, List.mem_cons_self, heq.trans hmax⟩
      · exact .inr ⟨y, List.mem_cons_of_mem x hy, heq⟩
    · rintro a (rfl | ⟨y, hy, rfl⟩)
      · exact (le_max_left _ _).trans hle
      · rcases List.mem_cons.1 hy with rfl | hy
        · exact (le_max_right _ _).trans hle
        · exact hbound (.inr ⟨y, hy, rfl⟩)

end Figures

variable {told : List (CallNode × List String)}

theorem isGreatest_rank_noteAll (notes : Annotation) (told : List (CallNode × List String)) :
    IsGreatest {r | r = notes.recursion.rank ∨ ∃ x ∈ told, r = x.1.recursion.rank}
      (noteAll notes told).recursion.rank :=
  isGreatest_foldl (fun notes : Annotation => notes.recursion.rank)
    (fun _ _ => Recursion.rank_escalate ..) told notes

theorem isGreatest_worst_noteAll (notes : Annotation) (told : List (CallNode × List String)) :
    IsGreatest {stack : WithBot Nat | stack = notes.worst ∨ ∃ x ∈ told, stack = x.1.graphStack}
      (noteAll notes told).worst :=
  isGreatest_foldl Annotation.worst (fun notes x => worst_noteNode x.1 x.2 notes) told notes

theorem mem_callees_noteAll :
    name ∈ (noteAll notes told).callees ↔ name ∈ notes.callees ∨ ∃ x ∈ told, name ∈ x.2 := by
  induction told generalizing notes with
  | nil => simp [noteAll]
  | cons x told ih =>
    rw [noteAll, List.foldl_cons]
    change name ∈ (noteAll _ told).callees ↔ _
    rw [ih, noteNode, mem_addNames, or_assoc]
    simp only [List.mem_cons, exists_eq_or_imp]

/-- What has been noted is not noted again. -/
theorem noteNode_noteAll (notes : Annotation) {x : CallNode × List String} (hx : x ∈ told) :
    noteNode x.1 x.2 (noteAll notes told) = noteAll notes told :=
  noteNode_eq_self ((isGreatest_rank_noteAll notes told).2 (.inr ⟨x, hx, rfl⟩))
    ((isGreatest_worst_noteAll notes told).2 (.inr ⟨x, hx, rfl⟩))
    fun _ hname => mem_callees_noteAll.2 (.inr ⟨x, hx, hname⟩)

theorem noteNode_noteNode :
    noteNode node callees (noteNode node callees notes) = noteNode node callees notes :=
  noteNode_noteAll notes (x := (node, callees)) (List.mem_singleton_self _)

end CallGraph

end StackSurvey
