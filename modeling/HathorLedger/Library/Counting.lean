import Mathlib.Data.Finset.Card
import Mathlib.Data.Nat.Count

/-!
# Counting the numbers that are not listed

How many numbers below a bound are not in a list. Where the list is without duplicates, subtracting
one for each listed number below the bound gives the count. Subtracting the length of the whole list
gives it only if the list has no duplicates and stays below the bound.

## Main results

* `Nat.count_not_mem_add_length`: one is subtracted for each listed number below the bound.
* `Nat.count_not_mem_add_length_eq_iff`: where one can be subtracted for each listed number.
-/

namespace Nat

variable {l : List ℕ} {m : ℕ}

/-- The numbers below the bound are listed or not. -/
theorem count_not_mem_add_card (l : List ℕ) (m : ℕ) :
    count (fun k => k ∉ l) m + (l.filter (· < m)).toFinset.card = m := by
  have hlisted : {k ∈ Finset.range m | k ∈ l} = (l.filter (· < m)).toFinset := by
    ext k
    simp [and_comm]
  have hsplit := (Finset.range m).card_filter_add_card_filter_not (· ∈ l)
  rw [hlisted, Finset.card_range, Nat.add_comm] at hsplit
  rw [count_eq_card_filter_range]
  exact hsplit

theorem count_not_mem_add_length (h : l.Nodup) :
    count (fun k => k ∉ l) m + (l.filter (· < m)).length = m := by
  rw [← List.toFinset_card_of_nodup (h.filter _)]
  exact count_not_mem_add_card l m

theorem count_not_mem_add_length_eq_iff :
    count (fun k => k ∉ l) m + l.length = m ↔ l.Nodup ∧ ∀ k ∈ l, k < m := by
  constructor
  · intro h
    have hcard := count_not_mem_add_card l m
    have hdup : (l.filter (· < m)).toFinset.card ≤ (l.filter (· < m)).length :=
      List.toFinset_card_le _
    have hle : (l.filter (· < m)).length ≤ l.length := List.length_filter_le _ _
    have hall : l.filter (· < m) = l := List.filter_sublist.eq_of_length (by omega)
    refine ⟨?_, fun k hk => ?_⟩
    · have hcount : Multiset.card (l : Multiset ℕ) = (l : Multiset ℕ).toFinset.card := by
        rw [hall] at hcard
        change l.length = l.toFinset.card
        omega
      exact Multiset.coe_nodup.1 (Multiset.toFinset_card_eq_card_iff_nodup.1 hcount.symm)
    · rw [← hall, List.mem_filter, decide_eq_true_eq] at hk
      exact hk.2
  · rintro ⟨hnodup, hlt⟩
    have hall : l.filter (· < m) = l := List.filter_eq_self.2 (by simpa using hlt)
    have hcount := @count_not_mem_add_length l m hnodup
    rwa [hall] at hcount

end Nat
