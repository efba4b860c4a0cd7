import HathorLedger.Run.Buffers

/-!
# The run of change outputs that is skipped

`skip_change_outputs` passes once over the sorted change indices. Whenever the next index is the
number of confirmed outputs it counts one output as done, so that it skips the consecutive indices
from that number on, whatever the order and the repetitions of the entries. It ends early where
`check_output_index_state` opens the confirmation or asks for more data.

## Main definitions

* `changeRun`: the number of consecutive indices from a number on that are in a list, up to a bound.
* `World.skip`: both counters are advanced.
* `SkipsRun`: what `skip_change_outputs` does.

## Main results

* `skipChangeLoop_run`: the pass is one check behind the run.
* `skipsRun`: `skip_change_outputs` skips exactly the run.
-/

namespace HathorLedger

/-- The number of consecutive indices from `c` on that are in the list, cut at `room`. -/
def changeRun (indices : List ℕ) (c : ℕ) : ℕ → ℕ
  | 0 => 0
  | room + 1 => if c ∈ indices then changeRun indices (c + 1) room + 1 else 0

/-- The outputs that can be counted before all are confirmed or the decoded ones are used up. -/
def TxInfo.room (t : TxInfo) : ℕ :=
  min (t.outputsLen - t.confirmedOutputs) (t.bufferOutputLen - t.displayIndex)

/-- The number of change outputs in front of the review. -/
def TxInfo.run (t : TxInfo) : ℕ := changeRun t.changeIndices t.confirmedOutputs t.room

/-- Both counters are advanced by `r`. -/
def World.skip (r : ℕ) (w : World) : World :=
  w.modifyTx fun t =>
    { t with displayIndex := t.displayIndex + r, confirmedOutputs := t.confirmedOutputs + r }

/-- An output is under review, and there are change entries in the cells for them. -/
structure TxInfo.UnderReview (t : TxInfo) : Prop where
  display_lt : t.displayIndex < t.bufferOutputLen
  confirmed_lt : t.confirmedOutputs < t.outputsLen
  bufferOutputLen_lt : t.bufferOutputLen < 256
  outputsLen_lt : t.outputsLen < 256
  changeLen_pos : 1 ≤ t.changeLen
  changeLen_le : t.changeLen ≤ t.changeInfo.length
  cells : t.changeInfo.length = 1 + txMaxTokens

section Run

variable {indices : List ℕ} {c room : ℕ}

theorem changeRun_le (indices : List ℕ) (c room : ℕ) : changeRun indices c room ≤ room := by
  induction room generalizing c with
  | zero => exact le_rfl
  | succ room ih =>
    rw [changeRun]
    split_ifs
    · exact Nat.succ_le_succ (ih _)
    · exact Nat.zero_le _

/-- The index behind a run that is not cut is not in the list. -/
theorem not_mem_of_changeRun_lt (h : changeRun indices c room < room) :
    c + changeRun indices c room ∉ indices := by
  induction room generalizing c with
  | zero => exact absurd h (Nat.not_lt_zero _)
  | succ room ih =>
    rw [changeRun] at h ⊢
    split_ifs at h ⊢ with hmem
    · have := ih (Nat.lt_of_succ_lt_succ h)
      rwa [Nat.add_succ, ← Nat.succ_add]
    · exact hmem

theorem changeRun_of_not_mem (h : c ∉ indices) : changeRun indices c room = 0 := by
  cases room with
  | zero => rfl
  | succ room => exact if_neg h

theorem changeRun_congr {indices' : List ℕ} (h : ∀ i, c ≤ i → (i ∈ indices ↔ i ∈ indices')) :
    changeRun indices c room = changeRun indices' c room := by
  induction room generalizing c with
  | zero => rfl
  | succ room ih =>
    have hrest := ih (c := c + 1) fun i hi => h i (Nat.le_of_succ_le hi)
    simp only [changeRun, h c le_rfl, hrest]

/-- An index in front of the run does not count. -/
theorem changeRun_cons_of_lt {index : ℕ} (h : index < c) :
    changeRun (index :: indices) c room = changeRun indices c room :=
  changeRun_congr fun i hi => by
    rw [List.mem_cons, or_iff_right (h.trans_le hi).ne']

end Run

/-! ### The pass over the indices -/

section Pass

variable {w : World}

theorem skip_skip (r s : ℕ) (w : World) : (w.skip r).skip s = w.skip (s + r) := by
  simp only [World.skip, World.modifyTx, Nat.add_assoc, Nat.add_comm r s]

theorem advanceReview_eq_skip (ht : w.ctx.txInfo.InBounds)
    (hd : w.ctx.txInfo.displayIndex ≠ w.ctx.txInfo.bufferOutputLen)
    (hc : w.ctx.txInfo.confirmedOutputs ≠ w.ctx.txInfo.outputsLen) :
    advanceReview w = w.skip 1 := by
  have hd' := ht.display_le
  have hc' := ht.confirmed_le
  have hB := ht.bufferOutputLen_lt
  have hN := ht.outputsLen_lt
  simp only [advanceReview, World.skip, World.modifyTx]
  rw [u8_of_lt (by omega), u8_of_lt (by omega)]

/-- The pass over sorted indices is one check behind the run, and none when the run is empty. -/
theorem skipChangeLoop_run {indices : List ℕ} (hsorted : indices.Pairwise (· ≤ ·))
    (ht : w.ctx.txInfo.InBounds) (hd : w.ctx.txInfo.displayIndex ≠ w.ctx.txInfo.bufferOutputLen)
    (hc : w.ctx.txInfo.confirmedOutputs ≠ w.ctx.txInfo.outputsLen) {r : ℕ}
    (hr : changeRun indices w.ctx.txInfo.confirmedOutputs w.ctx.txInfo.room = r) :
    skipChangeLoop indices w =
      if r = 0 then (false, w) else checkOutputIndexState (w.skip r) := by
  induction indices generalizing w r with
  | nil =>
    rw [changeRun_of_not_mem List.not_mem_nil] at hr
    rw [if_pos hr.symm]
    rfl
  | cons index indices ih =>
    obtain ⟨hleast, hsorted'⟩ := List.pairwise_cons.1 hsorted
    rcases lt_trichotomy index w.ctx.txInfo.confirmedOutputs with hlt | hindex | hgt
    · -- a repetition, or an output that was confirmed before
      rw [changeRun_cons_of_lt hlt] at hr
      rw [skipChangeLoop, if_neg hlt.ne', ih hsorted' ht hd hc hr]
    · have hadvance := advanceReview_eq_skip ht hd hc
      obtain ⟨hrecord, hbounds⟩ := txInfo_advanceReview ht hd hc
      have hroom : w.ctx.txInfo.room = (advanceReview w).ctx.txInfo.room + 1 := by
        have hd' := ht.display_le
        have hc' := ht.confirmed_le
        rw [hrecord]
        simp only [TxInfo.room]
        omega
      have hconfirmed : (advanceReview w).ctx.txInfo.confirmedOutputs =
          w.ctx.txInfo.confirmedOutputs + 1 := by rw [hrecord]
      rw [hroom, changeRun, if_pos (hindex ▸ List.mem_cons_self),
        changeRun_cons_of_lt (by omega), ← hconfirmed] at hr
      have hne : r ≠ 0 := by omega
      rw [skipChangeLoop, if_pos hindex.symm, if_neg hne]
      rcases @checkOutputIndexState_cases (advanceReview w) with
        ⟨hdone, hasked⟩ | ⟨hcheck, hc', hd'⟩
      · -- the run is cut here
        have hfull : (advanceReview w).ctx.txInfo.room = 0 := by
          refine Nat.min_eq_zero_iff.2 (hasked.stopped.imp (fun hall => ?_) fun hused => ?_)
          · exact Nat.sub_eq_zero_of_le hall.ge
          · exact Nat.sub_eq_zero_of_le hused.ge
        rw [hfull] at hr
        obtain rfl : 1 = r := hr
        rw [← hadvance]
        exact Prod.ext (by simp [hdone]) (by simp [hdone])
      · rw [hcheck]
        have hrest := ih hsorted' hbounds hd' hc' rfl
        change skipChangeLoop indices (advanceReview w) = _
        rw [hrest]
        split_ifs with hzero
        · rw [hzero] at hr
          obtain rfl : 1 = r := hr
          rw [← hadvance, hcheck]
        · rw [hadvance, skip_skip, ← hadvance, hr]
    · have hnot : w.ctx.txInfo.confirmedOutputs ∉ index :: indices := fun hmem =>
        absurd ((List.mem_cons.1 hmem).elim ge_of_eq fun h => hleast _ h) hgt.not_ge
      rw [changeRun_of_not_mem hnot] at hr
      rw [skipChangeLoop_of_not_mem hnot, if_pos hr.symm]

end Pass

/-! ### What the function does -/

/-- `skip_change_outputs` skips exactly the run of change outputs in front of the review. -/
structure SkipsRun (w : World) : Prop where
  /-- It returns true behind a run that is cut. -/
  returns : (skipChangeOutputs w).1 = true ↔ 0 < w.ctx.txInfo.run ∧
    (w.ctx.txInfo.confirmedOutputs + w.ctx.txInfo.run = w.ctx.txInfo.outputsLen ∨
      w.ctx.txInfo.displayIndex + w.ctx.txInfo.run = w.ctx.txInfo.bufferOutputLen)
  /-- With all outputs confirmed, the send confirmation is opened. -/
  confirms : 0 < w.ctx.txInfo.run →
    w.ctx.txInfo.confirmedOutputs + w.ctx.txInfo.run = w.ctx.txInfo.outputsLen →
    (skipChangeOutputs w).2 =
      uiDisplayTxConfirm { (recordChangesRead w).skip w.ctx.txInfo.run with ctx.state := .parsed }
  /-- The user is asked "Send Transaction?", as the context holds a transaction. -/
  opens : 0 < w.ctx.txInfo.run →
    w.ctx.txInfo.confirmedOutputs + w.ctx.txInfo.run = w.ctx.txInfo.outputsLen →
    w.ctx.reqType = .confirmTransaction → (skipChangeOutputs w).2.ui.shown = .confirmTx ∧
      (skipChangeOutputs w).2.ui.validateCallback = .txConfirm
  /-- With the decoded outputs used up, the host is asked for more data. -/
  requests : 0 < w.ctx.txInfo.run →
    w.ctx.txInfo.confirmedOutputs + w.ctx.txInfo.run ≠ w.ctx.txInfo.outputsLen →
    w.ctx.txInfo.displayIndex + w.ctx.txInfo.run = w.ctx.txInfo.bufferOutputLen →
    (skipChangeOutputs w).2 = uiMenuMain (ioSendSw Sw.ok
      (((recordChangesRead w).skip w.ctx.txInfo.run).modifyTx fun t =>
        { t with bufferOutputLen := 0, displayIndex := 0 })).2
  /-- Otherwise only the counters move, and they stop in front of an output that is no change. -/
  stops : (skipChangeOutputs w).1 = false →
    (skipChangeOutputs w).2 = (recordChangesRead w).skip w.ctx.txInfo.run ∧
      w.ctx.txInfo.confirmedOutputs + w.ctx.txInfo.run ∉ w.ctx.txInfo.changeIndices
  /-- The indices that the pass runs over are those of the entries, in ascending order. -/
  sorted : (inplaceSelectionSort w.ctx.txInfo.changeIndices).Perm w.ctx.txInfo.changeIndices ∧
    (inplaceSelectionSort w.ctx.txInfo.changeIndices).Pairwise (· ≤ ·)

section Function

variable {w : World}

/-- `skip_change_outputs` is one check behind the run. -/
theorem skipChangeOutputs_run (ht : w.ctx.txInfo.UnderReview) :
    skipChangeOutputs w = if w.ctx.txInfo.run = 0 then (false, recordChangesRead w)
      else checkOutputIndexState ((recordChangesRead w).skip w.ctx.txInfo.run) := by
  have hctx : (recordChangesRead w).ctx = w.ctx := by
    obtain ⟨n, hrecord⟩ := globals_recordChangesRead w
    exact congrArg Globals.ctx hrecord
  rw [skipChangeOutputs_eq]
  refine skipChangeLoop_run (pairwise_inplaceSelectionSort _) ?_ ?_ ?_ ?_
  · rw [hctx]
    exact ⟨ht.display_lt.le, ht.confirmed_lt.le, ht.bufferOutputLen_lt, ht.outputsLen_lt⟩
  · rw [hctx]
    exact ht.display_lt.ne
  · rw [hctx]
    exact ht.confirmed_lt.ne
  · rw [hctx]
    exact changeRun_congr fun i _ => (inplaceSelectionSort_perm _).mem_iff

theorem checkOutputIndexState_fst : (checkOutputIndexState w).1 = true ↔
    w.ctx.txInfo.confirmedOutputs = w.ctx.txInfo.outputsLen ∨
      w.ctx.txInfo.displayIndex = w.ctx.txInfo.bufferOutputLen := by
  rw [checkOutputIndexState]
  split_ifs with hall hused
  · exact iff_of_true rfl (.inl hall)
  · exact iff_of_true rfl (.inr hused)
  · exact iff_of_false nofun (not_or.2 ⟨hall, hused⟩)

/-- `skip_change_outputs` skips exactly the consecutive change outputs in front of the review, for
all change lists and in all states with an output under review. -/
theorem skipsRun (ht : w.ctx.txInfo.UnderReview) : SkipsRun w := by
  have hskip := skipChangeOutputs_run ht
  have hctx : (recordChangesRead w).ctx = w.ctx := by
    obtain ⟨n, hrecord⟩ := globals_recordChangesRead w
    exact congrArg Globals.ctx hrecord
  -- the state that is checked behind the run
  obtain ⟨w', hw'⟩ : ∃ w', w' = (recordChangesRead w).skip w.ctx.txInfo.run := ⟨_, rfl⟩
  have hctx' : w'.ctx = { w.ctx with txInfo := { w.ctx.txInfo with
      displayIndex := w.ctx.txInfo.displayIndex + w.ctx.txInfo.run
      confirmedOutputs := w.ctx.txInfo.confirmedOutputs + w.ctx.txInfo.run } } := by
    rw [hw', World.skip, World.ctx_modifyTx, hctx]
  have hpos : 0 < w.ctx.txInfo.run → skipChangeOutputs w = checkOutputIndexState w' := by
    intro hr
    rw [hskip, if_neg hr.ne', hw']
  have hconfirms : 0 < w.ctx.txInfo.run →
      w.ctx.txInfo.confirmedOutputs + w.ctx.txInfo.run = w.ctx.txInfo.outputsLen →
      (skipChangeOutputs w).2 = uiDisplayTxConfirm { w' with ctx.state := .parsed } := by
    intro hr hall
    rw [hpos hr, checkOutputIndexState, if_pos (by rw [hctx']; exact hall)]
  have hreturns : (skipChangeOutputs w).1 = true ↔ 0 < w.ctx.txInfo.run ∧
      (w.ctx.txInfo.confirmedOutputs + w.ctx.txInfo.run = w.ctx.txInfo.outputsLen ∨
        w.ctx.txInfo.displayIndex + w.ctx.txInfo.run = w.ctx.txInfo.bufferOutputLen) := by
    rcases Nat.eq_zero_or_pos w.ctx.txInfo.run with hr | hr
    · rw [hskip, if_pos hr, hr]
      exact iff_of_false Bool.false_ne_true fun h => absurd h.1 (lt_irrefl 0)
    · rw [hpos hr, checkOutputIndexState_fst, hctx', and_iff_right hr]
  refine ⟨hreturns, hw' ▸ hconfirms, ?_, ?_, ?_,
    inplaceSelectionSort_perm _, pairwise_inplaceSelectionSort _⟩
  · intro hr hall hreq
    rw [hconfirms hr hall, uiDisplayTxConfirm, if_neg (by simp [hctx', hreq])]
    exact ⟨rfl, rfl⟩
  · intro hr hall hused
    rw [hpos hr, checkOutputIndexState, if_neg (by rw [hctx']; exact hall),
      if_pos (by rw [hctx']; exact hused), hw']
  · intro hfalse
    have hstop : w.ctx.txInfo.run < w.ctx.txInfo.room := by
      have hle : w.ctx.txInfo.run ≤ w.ctx.txInfo.room := changeRun_le _ _ _
      have hnot := mt hreturns.2 (Bool.eq_false_iff.1 hfalse)
      have hd := ht.display_lt
      have hc := ht.confirmed_lt
      rw [TxInfo.room] at hle ⊢
      omega
    refine ⟨?_, not_mem_of_changeRun_lt hstop⟩
    rcases Nat.eq_zero_or_pos w.ctx.txInfo.run with hr | hr
    · rw [hskip, if_pos hr, hr]
      rfl
    · rw [hpos hr] at hfalse ⊢
      rcases @checkOutputIndexState_cases w' with ⟨hdone, -⟩ | ⟨hcheck, -⟩
      · rw [hdone] at hfalse
        cases hfalse
      · rw [hcheck, hw']

/-- Only a transaction has change entries, so that a cut run always ends in one of the screens. -/
theorem reqType_of_changeLen {sdk : Sdk} {guard : World → Input → Prop}
    (hw : Reachable Booted (step sdk) guard w) (hlen : 1 ≤ w.ctx.txInfo.changeLen) :
    w.ctx.reqType = .confirmTransaction := by
  by_contra hreq
  have hnone := (vacant_of_reachable hw hreq).changeLen
  omega

/-- Three outputs are decoded of five, and the first one is under review. The entries 1, 0, 3 and 1
declare it and the next one as change. -/
def sampleChanges : World :=
  { secret := [], ctx.reqType := .confirmTransaction, ctx.state := .recvData,
    ctx.txInfo.outputsLen := 5, ctx.txInfo.bufferOutputLen := 3, ctx.txInfo.changeLen := 4,
    ctx.txInfo.changeInfo := [1, 0, 3, 1, 0, 0, 0, 0, 0, 0, 0].map fun index => { index } }

theorem skipsRun_sampleChanges : SkipsRun sampleChanges :=
  skipsRun ⟨by decide, by decide, by decide, by decide, by decide, by decide, by decide⟩

/-- Two outputs are skipped, and the third one is left under review. -/
example : sampleChanges.ctx.txInfo.run = 2 ∧ (skipChangeOutputs sampleChanges).1 = false := by
  decide +kernel

end Function

end HathorLedger
