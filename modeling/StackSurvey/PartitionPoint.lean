namespace StackSurvey

/-- The first index between `low` and `high` where `p` fails, found by halving the range. -/
def partitionPointBetween {α : Type} (p : α → Bool) (xs : Array α) (low high : Nat) : Nat :=
  if h : low < high ∧ high ≤ xs.size then
    have : (low + high) / 2 < xs.size := by omega
    if p xs[(low + high) / 2] then partitionPointBetween p xs ((low + high) / 2 + 1) high
    else partitionPointBetween p xs low ((low + high) / 2)
  else
    low
termination_by high - low

/-- The first index where `p` fails. -/
def partitionPoint {α : Type} (p : α → Bool) (xs : Array α) : Nat :=
  partitionPointBetween p xs 0 xs.size

theorem partitionPointBetween_le {α : Type} (p : α → Bool) (xs : Array α) (low high : Nat)
    (hle : low ≤ high) : partitionPointBetween p xs low high ≤ high := by
  induction low, high using partitionPointBetween.induct p xs with
  | case1 low high h hmid hpmid ih =>
    rw [partitionPointBetween, dif_pos h]
    simp only [hpmid, if_true]
    exact ih (by omega)
  | case2 low high h hmid hpmid ih =>
    rw [partitionPointBetween, dif_pos h]
    simp only [hpmid]
    exact Nat.le_trans (ih (by omega)) (by omega)
  | case3 low high h =>
    rw [partitionPointBetween, dif_neg h]
    exact hle

theorem partitionPoint_le_size {α : Type} (p : α → Bool) (xs : Array α) :
    partitionPoint p xs ≤ xs.size :=
  partitionPointBetween_le p xs 0 xs.size (Nat.zero_le _)

/-- What halving the range keeps: `p` holds below `low` and fails from `high` on. -/
theorem lt_partitionPointBetween_iff {α : Type} {p : α → Bool} {xs : Array α}
    (hp : ∀ i j (_ : i ≤ j) (_ : j < xs.size), p xs[j] → p xs[i]) (low high : Nat)
    (hle : low ≤ high) (hsize : high ≤ xs.size)
    (hlow : ∀ i (_ : i < xs.size), i < low → p xs[i])
    (hhigh : ∀ i (_ : i < xs.size), high ≤ i → ¬ p xs[i]) :
    ∀ i (_ : i < xs.size), i < partitionPointBetween p xs low high ↔ p xs[i] := by
  induction low, high using partitionPointBetween.induct p xs with
  | case1 low high h hmid hpmid ih =>
    rw [partitionPointBetween, dif_pos h]
    simp only [hpmid, if_true]
    exact ih (by omega) hsize (fun i _ hi => hp i _ (by omega) hmid hpmid) hhigh
  | case2 low high h hmid hpmid ih =>
    rw [partitionPointBetween, dif_pos h]
    simp only [hpmid]
    exact ih (by omega) (by omega) hlow fun i hi hge hpi => hpmid (hp _ i hge hi hpi)
  | case3 low high h =>
    rw [partitionPointBetween, dif_neg h]
    have heq : low = high := by omega
    subst heq
    intro i hi
    exact ⟨hlow i hi, fun hpi => Nat.lt_of_not_le fun hge => hhigh i hi hge hpi⟩

/-- Where `p` holds of whatever stands before something that it holds of, it holds up to the
partition point and fails from there on. -/
theorem lt_partitionPoint_iff {α : Type} {p : α → Bool} {xs : Array α}
    (hp : ∀ i j (_ : i ≤ j) (_ : j < xs.size), p xs[j] → p xs[i]) (i : Nat) (hi : i < xs.size) :
    i < partitionPoint p xs ↔ p xs[i] :=
  lt_partitionPointBetween_iff hp 0 xs.size (Nat.zero_le _) (Nat.le_refl _)
    (fun _ _ h => absurd h (Nat.not_lt_zero _)) (fun _ h hge => absurd h (Nat.not_lt_of_le hge))
    i hi

end StackSurvey
