import Mathlib.Data.List.Chain
import Mathlib.Data.List.Nodup
import Mathlib.Logic.Relation

namespace StackSurvey.CallGraph

open Relation

/-- A path along a relation that begins at some place and passes no place twice. -/
structure SimplePath (r : Nat → Nat → Prop) (i : Nat) (p : List Nat) : Prop where
  head : p.head? = some i
  nodup : p.Nodup
  chain : p.IsChain r

namespace SimplePath

variable {r : Nat → Nat → Prop} {i j : Nat} {p : List Nat}

theorem singleton (i : Nat) : SimplePath r i [i] :=
  ⟨rfl, List.nodup_singleton i, .singleton i⟩

theorem cons (h : SimplePath r j p) (hr : r i j) (hi : i ∉ p) : SimplePath r i (i :: p) := by
  refine ⟨rfl, List.nodup_cons.2 ⟨hi, h.nodup⟩, List.isChain_cons.2 ⟨?_, h.chain⟩⟩
  intro k hk
  rw [h.head] at hk
  cases hk
  exact hr

/-- A simple path ends where it begins, or goes on as a simple path. -/
theorem eq_cons (h : SimplePath r i p) :
    ∃ q, p = i :: q ∧ i ∉ q ∧ (q = [] ∨ ∃ j, r i j ∧ SimplePath r j q) := by
  obtain ⟨q, rfl⟩ := List.head?_eq_some_iff.1 h.head
  obtain ⟨hi, hq⟩ := List.nodup_cons.1 h.nodup
  refine ⟨q, rfl, hi, ?_⟩
  cases q with
  | nil => exact .inl rfl
  | cons j q =>
    obtain ⟨hr, hchain⟩ := List.isChain_cons_cons.1 h.chain
    exact .inr ⟨j, hr, rfl, hq, hchain⟩

theorem congr {r' : Nat → Nat → Prop} (h : ∀ a b, r a b ↔ r' a b) :
    SimplePath r i p ↔ SimplePath r' i p := by
  rw [show r = r' from funext₂ fun a b => propext (h a b)]

theorem reaches (h : SimplePath r i p) (hj : j ∈ p) : ReflTransGen r i j := by
  induction p generalizing i with
  | nil => cases hj
  | cons k p ih =>
    obtain ⟨q, hcons, _, hrest⟩ := h.eq_cons
    cases hcons
    rcases List.mem_cons.1 hj with rfl | hj
    · exact .refl
    · rcases hrest with rfl | ⟨k, hr, hk⟩
      · cases hj
      · exact .head hr (ih hk hj)

end SimplePath

/-- Where a relation leads, a simple path along it does. -/
theorem exists_simplePath {r : Nat → Nat → Prop} {i j : Nat} (h : ReflTransGen r i j) :
    ∃ p, SimplePath r i p ∧ p.getLast? = some j := by
  induction h using ReflTransGen.head_induction_on with
  | refl => exact ⟨[j], .singleton j, rfl⟩
  | @head i k hr _ ih =>
    obtain ⟨p, hp, hlast⟩ := ih
    by_cases hi : i ∈ p
    · -- The path comes back to its new beginning, so what precedes that is cut off.
      obtain ⟨before, after, rfl⟩ := List.append_of_mem hi
      refine ⟨i :: after, ⟨rfl, ?_, ?_⟩, ?_⟩
      · exact (List.nodup_append.1 hp.nodup).2.1
      · exact (List.isChain_append.1 hp.chain).2.1
      · simpa [List.getLast?_append] using hlast
    · refine ⟨i :: p, hp.cons hr hi, ?_⟩
      rw [List.getLast?_cons, hlast]
      rfl

/-- A place is one of at least two distinct ones that form a cycle along a relation. -/
def OnCycle (r : Nat → Nat → Prop) (i : Nat) : Prop :=
  ∃ p j, SimplePath r i p ∧ 2 ≤ p.length ∧ p.getLast? = some j ∧ r j i

/-- Along a relation that leads from no place to itself, every closed way has a cycle. -/
theorem onCycle_iff_transGen {r : Nat → Nat → Prop} (hirrefl : ∀ a, ¬ r a a) {i : Nat} :
    OnCycle r i ↔ TransGen r i i := by
  constructor
  · rintro ⟨p, j, hp, _, hlast, hr⟩
    exact TransGen.tail' (hp.reaches (List.mem_of_getLast? hlast)) hr
  · intro h
    obtain ⟨j, hreach, hr⟩ := TransGen.tail'_iff.1 h
    obtain ⟨p, hp, hlast⟩ := exists_simplePath hreach
    refine ⟨p, j, hp, ?_, hlast, hr⟩
    obtain ⟨q, rfl, _, _⟩ := hp.eq_cons
    cases q with
    | nil =>
      cases hlast
      exact absurd hr (hirrefl i)
    | cons => simp

end StackSurvey.CallGraph
