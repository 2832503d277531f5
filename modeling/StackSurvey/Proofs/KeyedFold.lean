import Std.Data.TreeMap.Lemmas

namespace StackSurvey

variable {κ α β : Type} [Ord κ] [DecidableEq κ]

/-- A step changes a map at its own key only, and what it leaves there depends on what it brings and
on what was there. -/
def ChangesOwnKey (step : Std.TreeMap κ β → κ → α → Std.TreeMap κ β)
    (left : κ → α → Option β → Option β) : Prop :=
  ∀ (t : Std.TreeMap κ β) (key : κ) (a : α) (other : κ),
    (step t key a)[other]? = if key = other then left other a t[other]? else t[other]?

namespace ChangesOwnKey

variable {step : Std.TreeMap κ β → κ → α → Std.TreeMap κ β} {left : κ → α → Option β → Option β}
  {added : List (κ × α)} {t : Std.TreeMap κ β} {key : κ}

theorem getElem?_foldl_of_forall_ne (h : ChangesOwnKey step left)
    (hne : ∀ entry ∈ added, entry.1 ≠ key) :
    (added.foldl (fun t entry => step t entry.1 entry.2) t)[key]? = t[key]? := by
  induction added generalizing t with
  | nil => rfl
  | cons entry added ih =>
    obtain ⟨hentry, hrest⟩ := List.forall_mem_cons.1 hne
    rw [List.foldl_cons, ih hrest, h, if_neg hentry]

theorem getElem?_foldl_of_mem (h : ChangesOwnKey step left)
    (hdistinct : added.Pairwise fun a b => a.1 ≠ b.1) {a : α} (hmem : (key, a) ∈ added) :
    (added.foldl (fun t entry => step t entry.1 entry.2) t)[key]? = left key a t[key]? := by
  induction added generalizing t with
  | nil => cases hmem
  | cons entry added ih =>
    obtain ⟨hentry, hdistinct⟩ := List.pairwise_cons.1 hdistinct
    rw [List.foldl_cons]
    rcases List.mem_cons.1 hmem with rfl | hmem
    · rw [h.getElem?_foldl_of_forall_ne fun other hother => (hentry other hother).symm, h,
        if_pos rfl]
    · rw [ih hdistinct hmem, h, if_neg (hentry _ hmem)]

/-- The entries of a map change another one at their keys, each once. -/
theorem getElem?_foldl [Std.TransOrd κ] [Std.LawfulEqOrd κ] (h : ChangesOwnKey step left)
    (m : Std.TreeMap κ α) (t : Std.TreeMap κ β) (key : κ) :
    (m.foldl step t)[key]? = m[key]?.elim t[key]? fun a => left key a t[key]? := by
  have hdistinct : m.toList.Pairwise fun a b => a.1 ≠ b.1 :=
    Std.TreeMap.distinct_keys_toList.imp fun hne => mt Std.compare_eq_iff_eq.2 hne
  rw [Std.TreeMap.foldl_eq_foldl_toList]
  cases ha : m[key]? with
  | none =>
    refine h.getElem?_foldl_of_forall_ne fun entry hmem heq => ?_
    rw [← heq, Std.TreeMap.mem_toList_iff_getElem?_eq_some.1 hmem] at ha
    cases ha
  | some a =>
    exact h.getElem?_foldl_of_mem hdistinct (Std.TreeMap.mem_toList_iff_getElem?_eq_some.2 ha)

end ChangesOwnKey

end StackSurvey
