import HathorLedger.Ui.Display
import Mathlib.Data.List.GetD

/-!
# The selection sort of the change indices

`inplace_selection_sort` moves a least element of the unsorted part to its front in each round.
After round `i` the first `i + 1` cells are least in order (`SortedTo`).

## Main results

* `inplaceSelectionSort_perm`: the cells are permuted.
* `sortedTo_inplaceSelectionSort`, `pairwise_inplaceSelectionSort`: they end up in order.
-/

namespace HathorLedger

/-- Each of the first `k` cells is at most as large as every cell behind it. -/
def SortedTo (k : ℕ) (list : List ℕ) : Prop :=
  ∀ a b, a < k → a < b → b < list.length → list.getD a 0 ≤ list.getD b 0

variable {list : List ℕ} {i : ℕ}

/-- The inner loop finds the position of a least element from `i` on. -/
theorem selectionPosition_spec (hi : i < list.length) :
    i ≤ selectionPosition list i ∧ selectionPosition list i < list.length ∧
      ∀ j, i ≤ j → j < list.length →
        list.getD (selectionPosition list i) 0 ≤ list.getD j 0 := by
  -- after `n` steps the position is right for the cells from `i` to `i + n`
  have hloop : ∀ n, i + n < list.length →
      let position := (List.range' (i + 1) n).foldl
        (fun position j => if list.getD position 0 > list.getD j 0 then j else position) i
      i ≤ position ∧ position ≤ i + n ∧
        ∀ j, i ≤ j → j ≤ i + n → list.getD position 0 ≤ list.getD j 0 := by
    intro n
    induction n with
    | zero =>
      intro _
      refine ⟨le_rfl, le_rfl, fun j hj hj' => ?_⟩
      rw [le_antisymm hj' hj]
      exact le_rfl
    | succ n ih =>
      intro hn
      obtain ⟨hle, hlt, hleast⟩ := ih (by omega)
      simp only [List.range'_1_concat, List.foldl_append, List.foldl_cons, List.foldl_nil]
      split_ifs with hsmaller
      · refine ⟨by omega, by omega, fun j hj hj' => ?_⟩
        rcases Nat.lt_or_ge (i + n) j with hlast | hold
        · rw [show j = i + 1 + n by omega]
        · exact hsmaller.le.trans (hleast j hj hold)
      · refine ⟨hle, by omega, fun j hj hj' => ?_⟩
        rcases Nat.lt_or_ge (i + n) j with hlast | hold
        · rw [show j = i + 1 + n by omega]
          exact not_lt.1 hsmaller
        · exact hleast j hj hold
  obtain ⟨hle, hlt, hleast⟩ := hloop (list.length - (i + 1)) (by omega)
  exact ⟨hle, by rw [selectionPosition]; omega, fun j hj hj' => hleast j hj (by omega)⟩

@[simp] theorem length_selectionStep : (selectionStep list i).length = list.length := by
  unfold selectionStep
  dsimp only
  split_ifs <;> simp

theorem selectionStep_perm (hi : i < list.length) : (selectionStep list i).Perm list := by
  obtain ⟨-, hlt, -⟩ := selectionPosition_spec hi
  unfold selectionStep
  dsimp only
  split_ifs
  · rw [List.getD_eq_getElem _ _ hi, List.getD_eq_getElem _ _ hlt]
    exact List.set_set_perm hlt hi
  · exact .refl list

/-- A round puts a least element of the unsorted part into cell `i`. -/
theorem getD_selectionStep (hi : i < list.length) (j : ℕ) :
    (selectionStep list i).getD j 0 =
      if j = i then list.getD (selectionPosition list i) 0
      else if j = selectionPosition list i then list.getD i 0 else list.getD j 0 := by
  obtain ⟨-, hlt, -⟩ := selectionPosition_spec hi
  unfold selectionStep
  dsimp only
  simp only [List.getD_eq_getElem?_getD]
  split_ifs <;> grind

theorem sortedTo_selectionStep (hi : i < list.length) (h : SortedTo i list) :
    SortedTo (i + 1) (selectionStep list i) := by
  obtain ⟨hle, hlt, hleast⟩ := selectionPosition_spec hi
  intro a b ha hab hb
  rw [length_selectionStep] at hb
  rw [getD_selectionStep hi, getD_selectionStep hi]
  rcases Nat.lt_succ_iff_lt_or_eq.1 ha with ha | rfl
  · -- a cell in front of cell `i` is at most as large as all cells that are exchanged
    rw [if_neg (by omega), if_neg (by omega)]
    split_ifs with hbi hbp
    · exact h a _ ha (by omega) hlt
    · exact h a i ha ha hi
    · exact h a b ha hab hb
  · rw [if_pos rfl, if_neg (by omega)]
    split_ifs with hbp
    · exact hleast a le_rfl hi
    · exact hleast b hab.le hb

/-- The rounds up to round `n` keep the cells and put the first `n` of them in order. -/
theorem selectionRounds_spec {n : ℕ} (hn : n ≤ list.length) :
    ((List.range n).foldl selectionStep list).Perm list ∧
      SortedTo n ((List.range n).foldl selectionStep list) := by
  induction n with
  | zero => exact ⟨.refl list, fun a b ha => absurd ha (Nat.not_lt_zero a)⟩
  | succ n ih =>
    obtain ⟨hperm, hsorted⟩ := ih (by omega)
    have hlen : n < ((List.range n).foldl selectionStep list).length := by
      rw [hperm.length_eq]
      omega
    simp only [List.range_succ, List.foldl_append, List.foldl_cons, List.foldl_nil]
    exact ⟨(selectionStep_perm hlen).trans hperm, sortedTo_selectionStep hlen hsorted⟩

theorem inplaceSelectionSort_perm (list : List ℕ) : (inplaceSelectionSort list).Perm list :=
  (selectionRounds_spec (Nat.sub_le _ _)).1

/-- The last cell is in order when all cells in front of it are. -/
theorem pairwise_inplaceSelectionSort (list : List ℕ) :
    (inplaceSelectionSort list).Pairwise (· ≤ ·) := by
  have hlen := (inplaceSelectionSort_perm list).length_eq
  rw [List.pairwise_iff_getElem]
  intro a b ha hb hab
  have h := (selectionRounds_spec (Nat.sub_le list.length 1)).2 a b (by omega) hab hb
  change (inplaceSelectionSort list).getD a 0 ≤ (inplaceSelectionSort list).getD b 0 at h
  rwa [List.getD_eq_getElem _ _ ha, List.getD_eq_getElem _ _ hb] at h

end HathorLedger
