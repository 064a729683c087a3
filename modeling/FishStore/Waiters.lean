import Mathlib

/-!
# Counting the threads that wait

Of finitely many threads, those that wait for something are counted. A thread that
begins to wait adds one, and a thread whose waiting does not change adds nothing.
-/

namespace FishStore.Waiters

open Finset

variable {n t : ℕ} {waits waits' : ℕ → Prop} [DecidablePred waits] [DecidablePred waits']

/-- How many of the first `n` threads wait. -/
def count (n : ℕ) (waits : ℕ → Prop) [DecidablePred waits] : ℕ :=
  ((Finset.range n).filter waits).card

theorem count_le : count n waits≤n := by
  refine (card_filter_le _ _).trans ?_
  rw [card_range]

theorem count_congr (h : ∀ u<n, waits' u ↔ waits u) : count n waits'=count n waits := by
  unfold count
  rw [filter_congr fun u hu => h u (mem_range.mp hu)]

/-- One more thread waits. -/
theorem count_enter (ht : t<n) (hnot : ¬waits t) (hnow : waits' t)
    (hother : ∀ u, u ≠ t → (waits' u ↔ waits u)) : count n waits'=count n waits+1 := by
  have hinsert : (range n).filter waits'=insert t ((range n).filter waits) := by
    ext u
    simp only [mem_filter,mem_range,mem_insert]
    by_cases hut : u=t
    · rw [hut]
      simp only [ht,hnow,true_and,true_or]
    · simp only [hut,false_or,hother u hut]
  unfold count
  rw [hinsert,card_insert_of_notMem]
  simp only [mem_filter,hnot,and_false,not_false_eq_true]

end FishStore.Waiters
