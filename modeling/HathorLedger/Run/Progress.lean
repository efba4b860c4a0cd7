import HathorLedger.Run.Paths
import HathorLedger.Run.Records
import HathorLedger.Run.Sequential

/-!
# The review comes to an end

The counters of the review only move forward. If no declared change index lies behind the outputs of
the transaction, a user who approves one screen after the other comes to an answer: every approval
takes the review at least one output further, also after the display index has left the array of
decoded outputs.

## Main definitions

* `TxInfo.InRange`: the declared indices belong to announced outputs.
* `Orderly`: the invariant of the counters.

## Main results

* `exists_displayedBy_of_approve`: the approval of an output takes the review forward.
* `exists_answered`: the review of a chunk ends with an answer.
-/

namespace HathorLedger

/-- The declared change indices belong to outputs that the transaction announces. -/
def TxInfo.InRange (t : TxInfo) : Prop := ∀ i ∈ t.changeIndices, i < t.outputsLen

instance (t : TxInfo) : Decidable t.InRange := inferInstanceAs (Decidable (∀ i ∈ _, _))

variable {sdk : Sdk} {w : World} {g g' : Globals}

/-! ### Moving forward -/

/-- Both counters fit into a byte, and there are outputs that are not done yet. -/
structure TxInfo.Advanceable (t : TxInfo) : Prop where
  display_le : t.displayIndex ≤ t.confirmedOutputs
  confirmed_lt : t.confirmedOutputs < t.outputsLen
  outputsLen_lt : t.outputsLen < 256

theorem txInfo_advanceReview_of_advanceable (ht : w.ctx.txInfo.Advanceable) :
    (advanceReview w).ctx.txInfo = { w.ctx.txInfo with
      displayIndex := w.ctx.txInfo.displayIndex + 1
      confirmedOutputs := w.ctx.txInfo.confirmedOutputs + 1 } := by
  obtain ⟨hd, hc, hN⟩ := ht
  simp only [advanceReview, World.ctx_modifyTx]
  rw [u8_of_lt (by omega), u8_of_lt (by omega)]

/-- A function of the review has moved both counters forward by `k`, and either asked for something
or stopped in front of an output. -/
def MovedBy (indices : List ℕ) (k : ℕ) (w : World) (result : Bool × World) : Prop :=
  w.ctx.txInfo.confirmedOutputs + k ≤ w.ctx.txInfo.outputsLen ∧
    ∃ n, (result.1 = true ∧ 0 < k ∧
        Asked ((w.globals.readChanges n).review (w.ctx.txInfo.displayIndex + k)
          (w.ctx.txInfo.confirmedOutputs + k)) result.2.globals ∨
      result.1 = false ∧ result.2.globals = (w.globals.readChanges n).review
          (w.ctx.txInfo.displayIndex + k) (w.ctx.txInfo.confirmedOutputs + k) ∧
        (k = 0 ∧ w.ctx.txInfo.confirmedOutputs ∉ indices ∨
          0 < k ∧ w.ctx.txInfo.displayIndex + k ≠ w.ctx.txInfo.bufferOutputLen ∧
            w.ctx.txInfo.confirmedOutputs + k ≠ w.ctx.txInfo.outputsLen))

theorem exists_movedBy_skipChangeLoop {indices : List ℕ}
    (hindices : ∀ i ∈ indices, i < w.ctx.txInfo.outputsLen)
    (hd : w.ctx.txInfo.displayIndex ≤ w.ctx.txInfo.confirmedOutputs)
    (hc : w.ctx.txInfo.confirmedOutputs ≤ w.ctx.txInfo.outputsLen)
    (hN : w.ctx.txInfo.outputsLen < 256) :
    ∃ k, MovedBy indices k w (skipChangeLoop indices w) := by
  induction indices generalizing w with
  | nil => exact ⟨0, hc, 0, .inr ⟨rfl, rfl, .inl ⟨rfl, by simp⟩⟩⟩
  | cons index indices ih =>
    have hlater : ∀ i ∈ indices, i < w.ctx.txInfo.outputsLen :=
      fun i hi => hindices i (List.mem_cons_of_mem _ hi)
    by_cases hindex : w.ctx.txInfo.confirmedOutputs = index
    · have hlt : w.ctx.txInfo.confirmedOutputs < w.ctx.txInfo.outputsLen :=
        hindex ▸ hindices index List.mem_cons_self
      have hrecord := txInfo_advanceReview_of_advanceable ⟨hd, hlt, hN⟩
      have hadvance : (advanceReview w).globals = w.globals.review
          (w.ctx.txInfo.displayIndex + 1) (w.ctx.txInfo.confirmedOutputs + 1) := by
        rw [globals_advanceReview, u8_of_lt (by omega), u8_of_lt (by omega)]
      rcases @checkOutputIndexState_cases (advanceReview w) with
        ⟨hdone, hasked⟩ | ⟨hcheck, hcne, hdne⟩
      · have hloop : skipChangeLoop (index :: indices) w =
            (true, (checkOutputIndexState (advanceReview w)).2) := by
          rw [skipChangeLoop, if_pos hindex]
          simp [hdone]
        rw [hloop]
        rw [hadvance] at hasked
        exact ⟨1, hlt, 0, .inl ⟨rfl, Nat.one_pos, hasked⟩⟩
      · have hloop : skipChangeLoop (index :: indices) w =
            skipChangeLoop indices (advanceReview w) := by
          rw [skipChangeLoop, if_pos hindex, hcheck]
          rfl
        rw [hrecord] at hcne hdne
        obtain ⟨k, hk⟩ := @ih (advanceReview w) (by rw [hrecord]; exact hlater)
          (by rw [hrecord]; exact Nat.succ_le_succ hd) (by rw [hrecord]; exact hlt)
          (by rw [hrecord]; exact hN)
        obtain ⟨hle, n, hcases⟩ := hk
        rw [hadvance] at hcases
        rw [hrecord] at hle hcases
        simp only [Nat.add_assoc, Nat.add_comm 1 k] at hle hcases
        rw [hloop]
        refine ⟨k + 1, hle, n, ?_⟩
        rcases hcases with ⟨hdone, -, hasked⟩ | ⟨hdone, hglobals, hcounters⟩
        · exact .inl ⟨hdone, Nat.succ_pos k, hasked⟩
        · refine .inr ⟨hdone, hglobals, .inr ⟨Nat.succ_pos k, ?_⟩⟩
          rcases hcounters with ⟨rfl, -⟩ | ⟨-, hcounters⟩
          · exact ⟨hdne, hcne⟩
          · exact hcounters
    · rw [skipChangeLoop, if_neg hindex]
      obtain ⟨k, hle, n, hcases⟩ := @ih w hlater hd hc hN
      refine ⟨k, hle, n, ?_⟩
      rcases hcases with hasked | ⟨hdone, hglobals, hcounters⟩
      · exact .inl hasked
      · refine .inr ⟨hdone, hglobals, ?_⟩
        rcases hcounters with ⟨hk, hmem⟩ | hcounters
        · exact .inl ⟨hk, by rw [List.mem_cons, not_or]; exact ⟨hindex, hmem⟩⟩
        · exact .inr hcounters

theorem exists_movedBy_skipChangeOutputs (hrange : w.ctx.txInfo.InRange)
    (hd : w.ctx.txInfo.displayIndex ≤ w.ctx.txInfo.confirmedOutputs)
    (hc : w.ctx.txInfo.confirmedOutputs ≤ w.ctx.txInfo.outputsLen)
    (hN : w.ctx.txInfo.outputsLen < 256) :
    ∃ k, MovedBy w.ctx.txInfo.changeIndices k w (skipChangeOutputs w) := by
  obtain ⟨n, hrecord⟩ := globals_recordChangesRead w
  have hctx : (recordChangesRead w).ctx = w.ctx := congrArg Globals.ctx hrecord
  have hperm := inplaceSelectionSort_perm w.ctx.txInfo.changeIndices
  rw [skipChangeOutputs_eq]
  obtain ⟨k, hle, m, hcases⟩ : ∃ k, MovedBy (inplaceSelectionSort w.ctx.txInfo.changeIndices) k
      (recordChangesRead w)
      (skipChangeLoop (inplaceSelectionSort w.ctx.txInfo.changeIndices) (recordChangesRead w)) :=
    exists_movedBy_skipChangeLoop (by rw [hctx]; exact fun i hi => hrange i (hperm.mem_iff.1 hi))
      (by rw [hctx]; exact hd) (by rw [hctx]; exact hc) (by rw [hctx]; exact hN)
  rw [hrecord, hctx, Globals.readChanges_readChanges, hperm.mem_iff] at hcases
  rw [hctx] at hle
  exact ⟨k, hle, m + n, hcases⟩

/-- The review has moved both counters forward by `k`, and goes on. -/
def DisplayedBy (sdk : Sdk) (k : ℕ) (g g' : Globals) : Prop :=
  g.ctx.txInfo.confirmedOutputs + k ≤ g.ctx.txInfo.outputsLen ∧
    ∃ n, Displayed sdk ((g.readChanges n).review (g.ctx.txInfo.displayIndex + k)
      (g.ctx.txInfo.confirmedOutputs + k)) g'

theorem exists_displayedBy_uiDisplayTxOutputs (sdk : Sdk) (hrange : w.ctx.txInfo.InRange)
    (hd : w.ctx.txInfo.displayIndex ≤ w.ctx.txInfo.confirmedOutputs)
    (hc : w.ctx.txInfo.confirmedOutputs ≤ w.ctx.txInfo.outputsLen)
    (hN : w.ctx.txInfo.outputsLen < 256) :
    ∃ k, DisplayedBy sdk k w.globals (uiDisplayTxOutputs sdk w).globals := by
  rcases @checkOutputIndexState_cases w with ⟨hdone, hasked⟩ | ⟨hcheck, hcne, hdne⟩
  · have hdisplay : uiDisplayTxOutputs sdk w = (checkOutputIndexState w).2 := by
      simp [uiDisplayTxOutputs, prepareDisplayOutput, hdone]
    rw [hdisplay]
    exact ⟨0, hc, 0, .asked hasked⟩
  · obtain ⟨k, hle, n, hcases⟩ := exists_movedBy_skipChangeOutputs hrange hd hc hN
    refine ⟨k, hle, ?_⟩
    rcases hcases with ⟨hdone, -, hasked⟩ | ⟨hdone, hglobals, hcounters⟩
    · have hdisplay : uiDisplayTxOutputs sdk w = (skipChangeOutputs w).2 := by
        simp [uiDisplayTxOutputs, prepareDisplayOutput, hcheck, hdone]
      rw [hdisplay]
      exact ⟨n, .asked hasked⟩
    · have hcounters' : w.ctx.txInfo.confirmedOutputs + k ≠ w.ctx.txInfo.outputsLen ∧
          w.ctx.txInfo.displayIndex + k ≠ w.ctx.txInfo.bufferOutputLen := by
        rcases hcounters with ⟨rfl, -⟩ | ⟨-, hdne', hcne'⟩
        · exact ⟨hcne, hdne⟩
        · exact ⟨hcne', hdne'⟩
      obtain ⟨m, hdisplay⟩ := exists_showOutput_uiDisplayTxOutputs sdk hcheck hdone
      rw [hdisplay, hglobals]
      refine ⟨m + n, ?_⟩
      rw [← Globals.readChanges_readChanges]
      exact .output hcounters'.1 hcounters'.2

/-- The review has gone on from where it had moved both counters forward by `k`. -/
theorem DisplayedBy.of_moved {k k' n : ℕ} {g₁ : Globals}
    (hg₁ : g₁ = (g.readChanges n).review (g.ctx.txInfo.displayIndex + k)
      (g.ctx.txInfo.confirmedOutputs + k)) (h : DisplayedBy sdk k' g₁ g') :
    DisplayedBy sdk (k + k') g g' := by
  subst hg₁
  obtain ⟨hle, m, hdisplayed⟩ := h
  refine ⟨(Nat.add_assoc _ k k').symm.trans_le hle, m + n, ?_⟩
  rw [← Globals.readChanges_readChanges, ← Nat.add_assoc, ← Nat.add_assoc]
  exact hdisplayed

/-- An approved output counts as done, and the review goes on behind it. An output behind it that is
declared as change is skipped in any case. -/
theorem exists_displayedBy_uiConfirmOutput (ht : w.ctx.txInfo.Advanceable)
    (hrange : w.ctx.txInfo.InRange) :
    ∃ k, 0 < k ∧ DisplayedBy sdk k w.globals (uiConfirmOutput sdk true w).globals ∧
      (w.ctx.txInfo.confirmedOutputs + 1 ∈ w.ctx.txInfo.changeIndices → 1 < k) := by
  have hrecord := txInfo_advanceReview_of_advanceable ht
  obtain ⟨hd, hc, hN⟩ := ht
  have hadvance : (advanceReview w).globals = (w.globals.readChanges 0).review
      (w.globals.ctx.txInfo.displayIndex + 1) (w.globals.ctx.txInfo.confirmedOutputs + 1) := by
    rw [globals_advanceReview, u8_of_lt (by omega), u8_of_lt (by omega)]
    rfl
  have hd' : (advanceReview w).ctx.txInfo.displayIndex ≤
      (advanceReview w).ctx.txInfo.confirmedOutputs := by
    rw [hrecord]
    exact Nat.succ_le_succ hd
  have hc' : (advanceReview w).ctx.txInfo.confirmedOutputs ≤
      (advanceReview w).ctx.txInfo.outputsLen := by
    rw [hrecord]
    exact hc
  have hN' : (advanceReview w).ctx.txInfo.outputsLen < 256 := by
    rw [hrecord]
    exact hN
  have hrange' : (advanceReview w).ctx.txInfo.InRange := by
    rw [hrecord]
    exact hrange
  obtain ⟨k, hle, n, hcases⟩ := exists_movedBy_skipChangeOutputs hrange' hd' hc' hN'
  rcases hcases with ⟨hdone, hpos, hasked⟩ | ⟨hdone, hglobals, hcounters⟩
  · have hconfirm : uiConfirmOutput sdk true w = (skipChangeOutputs (advanceReview w)).2 := by
      simp [uiConfirmOutput, hdone]
    have hdisplayed : DisplayedBy sdk k (advanceReview w).globals
        (uiConfirmOutput sdk true w).globals := by
      rw [hconfirm]
      exact ⟨hle, n, .asked hasked⟩
    exact ⟨1 + k, by omega, .of_moved hadvance hdisplayed, fun _ => by omega⟩
  · have hconfirm : uiConfirmOutput sdk true w =
        uiDisplayTxOutputs sdk (skipChangeOutputs (advanceReview w)).2 := by
      simp [uiConfirmOutput, hdone]
    have hctx : (skipChangeOutputs (advanceReview w)).2.ctx.txInfo =
        { (advanceReview w).ctx.txInfo with
          displayIndex := (advanceReview w).ctx.txInfo.displayIndex + k
          confirmedOutputs := (advanceReview w).ctx.txInfo.confirmedOutputs + k } :=
      congrArg (fun g => g.ctx.txInfo) hglobals
    obtain ⟨k', hk'⟩ := exists_displayedBy_uiDisplayTxOutputs sdk
      (w := (skipChangeOutputs (advanceReview w)).2) (by rw [hctx]; exact hrange')
      (by rw [hctx]; exact Nat.add_le_add_right hd' k) (by rw [hctx]; exact hle)
      (by rw [hctx]; exact hN')
    have hdisplayed : DisplayedBy sdk (k + k') (advanceReview w).globals
        (uiConfirmOutput sdk true w).globals := by
      rw [hconfirm]
      exact .of_moved hglobals hk'
    refine ⟨1 + (k + k'), by omega, .of_moved hadvance hdisplayed, fun hmem => ?_⟩
    rcases hcounters with ⟨-, hnot⟩ | ⟨hpos, -⟩
    · rw [hrecord] at hnot
      exact absurd hmem hnot
    · omega

/-- The approval of an output takes the review forward. -/
theorem exists_displayedBy_of_approve (sdk : Sdk) (hready : w.globals.Ready)
    (hflow : w.ui.flow = .txOutput) (ht : w.ctx.txInfo.Advanceable) (hrange : w.ctx.txInfo.InRange) :
    ∃ k, 0 < k ∧
      DisplayedBy sdk k (w.globals.press .approve) (step sdk w (.press .approve)).globals ∧
      (w.ctx.txInfo.confirmedOutputs + 1 ∈ w.ctx.txInfo.changeIndices → 1 < k) := by
  have hactive : w.ui.flow.hasApprove = true := by
    rw [hflow]
    rfl
  have hcallback : w.ui.validateCallback = .confirmOutput := by
    have := hready.callback hactive
    change w.ui.validateCallback = w.ui.flow.callback at this
    rw [this, hflow]
    rfl
  have hstep : step sdk w (.press .approve) =
      uiConfirmOutput sdk true (w.emit (.pressed .approve w.ui.shown)) := by
    have hrun : runPress sdk .approve w =
        validateCallback sdk true (w.emit (.pressed .approve w.ui.shown)) := if_pos hactive
    rw [step, hrun, validateCallback, World.ui_emit, hcallback]
  rw [hstep, ← globals_press]
  exact exists_displayedBy_uiConfirmOutput (w := w.emit (.pressed .approve w.ui.shown)) ht hrange

/-! ### The counters in sequential runs -/

/-- The counters fit into a byte, and if the declared indices are in range, so are they. -/
structure Orderly (t : TxInfo) : Prop where
  outputsLen_lt : t.outputsLen < 256
  display_le : t.InRange → t.displayIndex ≤ t.confirmedOutputs
  confirmed_le : t.InRange → t.confirmedOutputs ≤ t.outputsLen

section Orderly

variable {t t' : TxInfo} {i : Input}

theorem SameContext.changeIndices (h : SameContext t t') : t'.changeIndices = t.changeIndices := by
  rw [TxInfo.changeIndices, h.changeEntries]
  rfl

theorem Orderly.of_same (ht : Orderly t) (h : SameContext t t') : Orderly t' := by
  obtain ⟨hN, hd, hc⟩ := ht
  have hrange : t'.InRange → t.InRange := by
    rw [TxInfo.InRange, h.changeIndices, h.outputsLen]
    exact id
  refine ⟨h.outputsLen ▸ hN, fun hr => ?_, fun hr => ?_⟩
  · rw [h.displayIndex, h.confirmedOutputs]
    exact hd (hrange hr)
  · rw [h.confirmedOutputs, h.outputsLen]
    exact hc (hrange hr)

/-- A record of which nothing was reviewed. -/
theorem orderly_of_zero (hN : t.outputsLen < 256) (hd : t.displayIndex = 0)
    (hc : t.confirmedOutputs = 0) : Orderly t :=
  ⟨hN, fun _ => by rw [hd]; exact Nat.zero_le _, fun _ => by rw [hc]; exact Nat.zero_le _⟩

/-- The review of a chunk starts with the display index zero. -/
theorem Orderly.restart (ht : Orderly t) :
    Orderly { t with displayIndex := 0, bufferOutputLen := 0 } :=
  ⟨ht.outputsLen_lt, fun _ => Nat.zero_le _, ht.confirmed_le⟩

theorem Orderly.chunked {g₁ : Globals} (ht : Orderly g.ctx.txInfo) (hq : Chunked g i g₁) :
    Orderly g₁.ctx.txInfo ∧ g₁.ctx.txInfo.displayIndex = 0 := by
  obtain ⟨apdu, data, chunk, -, -, hq⟩ := hq
  cases hq with
  | first h => exact ⟨orderly_of_zero (UInt8.toNat_lt h.outputs) rfl rfl, rfl⟩
  | next =>
    have hrestart := ht.restart
    exact ⟨⟨hrestart.outputsLen_lt, hrestart.display_le, hrestart.confirmed_le⟩, rfl⟩

/-- A review inside the bounds keeps the counters in order. -/
theorem Orderly.recount (ht : Orderly t) (hb : t.bufferOutputLen < 256) (hd : t.displayIndex = 0)
    {d c : ℕ} (hskipped : t.InBounds → Skipped t.changeIndices t d c) (h : Recount t d c t') :
    Orderly t' := by
  have hskipped' : t.InRange → Skipped t.changeIndices t d c := fun hrange =>
    hskipped ⟨hd ▸ Nat.zero_le _, ht.confirmed_le hrange, hb, ht.outputsLen_lt⟩
  have hd' : t.InRange → d ≤ c := fun hrange => by
    have hsame := (hskipped' hrange).same
    rw [hd] at hsame
    omega
  cases h with
  | moved => exact ⟨ht.outputsLen_lt, hd', fun hrange => (hskipped' hrange).confirmed_le⟩
  | emptied =>
    exact ⟨ht.outputsLen_lt, fun _ => Nat.zero_le _, fun hrange => (hskipped' hrange).confirmed_le⟩

theorem Orderly.recordStep (hs : Sound sdk g) (ht : Orderly g.ctx.txInfo)
    (hnot : i = .press .approve → g.ui.flow ≠ .txOutput) {ctx : GlobalCtx}
    (h : RecordStep sdk g i ctx) : Orderly ctx.txInfo := by
  cases h with
  | kept hreq h => exact h ▸ ht
  | restarted hreq h =>
    rw [h]
    exact ht.restart
  | finished hreq hfinish =>
    obtain ⟨sighashAll, sha256, heq⟩ := finishSighashAll_eq hfinish
    rw [heq]
    have hrestart := ht.restart
    exact ⟨hrestart.outputsLen_lt, hrestart.display_le, hrestart.confirmed_le⟩
  | cleared hreq h =>
    obtain ⟨buffer, h⟩ := h
    rw [h]
    exact orderly_of_zero (Nat.zero_lt_succ _) rfl rfl
  | failed hi hcall h =>
    cases h with
    | changes | header => exact orderly_of_zero (Nat.zero_lt_succ _) rfl rfl
  | decoded hq hready hreq hskipped h =>
    obtain ⟨_, _, hqueueing⟩ := hq.queueing hs
    obtain ⟨_, _, -, -, _, hprogress⟩ := hqueueing.decode hready
    obtain ⟨hchunk, hd⟩ := ht.chunked hq
    have hdecoded := hchunk.of_same hprogress.context
    have hle := hprogress.held.bufferOutputLen_le.trans hprogress.held.outputs_le
    exact hdecoded.recount (hle.trans_lt hdecoded.outputsLen_lt)
      (hprogress.context.displayIndex.trans hd) hskipped h
  | reviewed hi hflow => exact absurd hflow (hnot hi)

/-- An output screen is open only while there are outputs that are not done. -/
structure Reviewable (g : Globals) : Prop where
  orderly : Orderly g.ctx.txInfo
  pending : g.ui.flow = .txOutput → g.ctx.txInfo.confirmedOutputs ≠ g.ctx.txInfo.outputsLen

theorem Reviewable.advanceable (hr : Reviewable g) (hflow : g.ui.flow = .txOutput)
    (hrange : g.ctx.txInfo.InRange) : g.ctx.txInfo.Advanceable :=
  ⟨hr.orderly.display_le hrange,
    lt_of_le_of_ne (hr.orderly.confirmed_le hrange) (hr.pending hflow), hr.orderly.outputsLen_lt⟩

theorem Displayed.pending (h : Displayed sdk g g') (hflow : g'.ui.flow = .txOutput) :
    g'.ctx.txInfo.confirmedOutputs ≠ g'.ctx.txInfo.outputsLen := by
  cases h with
  | asked h =>
    cases h with
    | send | refused | more => cases hflow
  | output hc => exact hc

/-- A press that is not the approval of an output leaves no output screen behind, or changes
nothing. -/
theorem PressStep.pending {button : Button} (h : PressStep sdk g button g')
    (hnot : button = .approve → g.ui.flow ≠ .txOutput) (hr : Reviewable g)
    (hflow : g'.ui.flow = .txOutput) :
    g'.ctx.txInfo.confirmedOutputs ≠ g'.ctx.txInfo.outputsLen := by
  cases h with
  | inactive => exact hr.pending hflow
  | approveOutput houtput => exact absurd houtput (hnot rfl)
  | approveTx | approveXpub | approveToken | approveAddress | approveReset | reject | rejectReset
    | exitToMenu | quit | about | back => cases hflow

theorem DisplayedBy.reviewable {k : ℕ} (ht : g.ctx.txInfo.Advanceable)
    (h : DisplayedBy sdk k g g') : Reviewable g' := by
  obtain ⟨hd, hc, hN⟩ := ht
  obtain ⟨hle, n, hdisplayed⟩ := h
  refine ⟨?_, hdisplayed.pending⟩
  rcases displayed_ctx hdisplayed with hctx | ⟨-, hrecord⟩
  · rw [hctx]
    exact orderly_of_zero (Nat.zero_lt_succ _) rfl rfl
  · generalize g'.ctx.txInfo = t at hrecord
    cases hrecord with
    | moved => exact ⟨hN, fun _ => Nat.add_le_add_right hd k, fun _ => hle⟩
    | emptied => exact ⟨hN, fun _ => Nat.zero_le _, fun _ => hle⟩

/-- If the declared indices are not in range, nothing is said about the counters. -/
theorem Orderly.approveOutput_of_not_inRange (ht : Orderly g.ctx.txInfo)
    (hrange : ¬g.ctx.txInfo.InRange) (hflow : g.ui.flow = .txOutput)
    (h : PressStep sdk g .approve g') : Reviewable g' := by
  cases h with
  | inactive _ hreacts =>
    rw [hflow] at hreacts
    cases hreacts
  | approveTx hother | approveXpub hother | approveToken hother | approveAddress hother
    | approveReset hother => cases hflow.symm.trans hother
  | approveOutput _ n d c _ hdisplayed =>
    refine ⟨?_, hdisplayed.pending⟩
    rcases displayed_ctx hdisplayed with hctx | ⟨-, hrecord⟩
    · rw [hctx]
      exact orderly_of_zero (Nat.zero_lt_succ _) rfl rfl
    · have hrecord' : Recount g.ctx.txInfo d c g'.ctx.txInfo := hrecord
      generalize g'.ctx.txInfo = t at hrecord'
      cases hrecord' with
      | moved | emptied =>
        exact ⟨ht.outputsLen_lt, fun h => absurd h hrange, fun h => absurd h hrange⟩

end Orderly

/-- The invariant of the counters in sequential runs. -/
theorem reviewable_of_reachable {guard : World → Input → Prop}
    (hguard : ∀ w i, guard w i → Sequential w i)
    (hw : Reachable Booted (step sdk) guard w) : Reviewable w.globals := by
  refine hw.invariant (I := fun w => Reviewable w.globals) ?_ fun w i hw hi hr => ?_
  · rintro _ ⟨secret, -, rfl⟩
    rw [globals_boot]
    exact ⟨orderly_of_zero (Nat.zero_lt_succ _) rfl rfl, nofun⟩
  have hs := sound_of_reachable hw
  have hstep := @globalsStep sdk w hs.ready i
  by_cases houtput : i = .press .approve ∧ w.ui.flow = .txOutput
  · obtain ⟨rfl, hflow⟩ := houtput
    by_cases hrange : w.ctx.txInfo.InRange
    · obtain ⟨k, -, hk, -⟩ := exists_displayedBy_of_approve sdk hs.ready hflow
        (hr.advanceable hflow hrange) hrange
      exact hk.reviewable (g := w.globals.press .approve) (hr.advanceable hflow hrange)
    · cases hstep with
      | press _ _ h => exact hr.orderly.approveOutput_of_not_inRange hrange hflow h
  · have hnot : i = .press .approve → w.ui.flow ≠ .txOutput := fun hi hflow => houtput ⟨hi, hflow⟩
    refine ⟨hr.orderly.recordStep hs hnot (recordStep_of_globalsStep hs hstep), ?_⟩
    generalize (step sdk w i).globals = g' at hstep
    intro hflow
    cases hstep with
    | command apdu ends g₁ h =>
      have hclosed := (attended_of_reachable hguard hw).closed (hguard w _ hi apdu rfl)
      obtain ⟨call, -, hshown, hresume⟩ := shown_of_command hs hclosed h hflow
      rw [hresume] at hflow ⊢
      cases hshown with
      | intro data stage chunk g₂ hqueued hready hsome n d c _ hdisplayed =>
        exact hdisplayed.pending hflow
    | press button _ h => exact h.pending (fun hb => hnot (hb ▸ rfl)) hr hflow
    | ioReset => cases hflow

/-! ### Approving to the end -/

/-- The app after `k` approvals. -/
def approvals (sdk : Sdk) (k : ℕ) (w : World) : World :=
  run sdk w (List.replicate k (.press .approve))

/-- The command is answered, and no screen asks for anything. -/
structure AnsweredSince (old : List Bytes) (g : Globals) : Prop where
  closed : g.ui.flow.hasApprove = false
  response : ∃ response, responses g.log = response :: old

section Answered

variable {old : List Bytes} {rdata : Option Bytes} {sw : ℕ}

/-- A response to a waiting host is an answer if it leaves no screen open. -/
theorem Unanswered.answeredSince {g₁ : Globals} (h : Unanswered g g₁) (hio : g.io.state = .waiting)
    (hflow : g₁.ui.flow.hasApprove = false) (rdata : Option Bytes) (sw : ℕ) :
    AnsweredSince (responses g.log) (g₁.reply rdata sw) := by
  refine ⟨hflow, responseBody rdata sw, ?_⟩
  rw [responses_reply, h.io_eq, if_pos hio, h.responses_eq]
  rfl

/-- The approval of anything but an output is an answer. -/
theorem PressStep.answered (h : PressStep sdk g .approve g') (hopen : g.ui.flow.hasApprove = true)
    (hother : g.ui.flow ≠ .txOutput) (hio : g.io.state = .waiting) :
    AnsweredSince (responses g.log) g' := by
  have hclosed : g'.ui.flow.hasApprove = false := by
    cases h with
    | inactive _ hreacts => cases hopen.symm.trans hreacts
    | approveOutput hflow => exact absurd hflow hother
    | approveTx | approveXpub | approveToken | approveAddress | approveReset => rfl
  cases outcome_of_pressStep hopen h with
  | answered g₁ h₁ hflow rdata sw => exact h₁.answeredSince hio (hflow trivial) rdata sw
  | asked _ _ hflow => cases hflow.symm.trans hclosed

end Answered

theorem answered_of_approve (hw : Reachable Booted (step sdk) Sequential w)
    (hopen : w.globals.ui.flow.hasApprove = true) (hother : w.globals.ui.flow ≠ .txOutput) :
    AnsweredSince (responses w.globals.log) (step sdk w (.press .approve)).globals := by
  have hstep := @globalsStep sdk w (sound_of_reachable hw).ready (.press .approve)
  have hio := (attended_of_reachable (fun _ _ => id) hw).hasApprove_iff.1 hopen
  generalize (step sdk w (.press .approve)).globals = g' at hstep
  cases hstep with
  | press _ _ h => exact h.answered hopen hother hio

/-- The approval of an output is an answer, or "Send Transaction?" is shown, or an output further
on. -/
inductive ApprovedOutput (t : TxInfo) (old : List Bytes) (g' : Globals) : Prop
  | answered (h : AnsweredSince old g')
  | send (hflow : g'.ui.flow = .confirmTx) (hresponses : responses g'.log = old)
  | output (k : ℕ) (hpos : 0 < k) (hle : t.confirmedOutputs + k ≤ t.outputsLen)
    (hflow : g'.ui.flow = .txOutput) (hresponses : responses g'.log = old)
    (hrecord : g'.ctx.txInfo = { t with
      displayIndex := t.displayIndex + k, confirmedOutputs := t.confirmedOutputs + k })

theorem approvedOutput_of_approve (hw : Reachable Booted (step sdk) Sequential w)
    (hflow : w.ui.flow = .txOutput) (hrange : w.ctx.txInfo.InRange) :
    ApprovedOutput w.ctx.txInfo (responses w.globals.log)
      (step sdk w (.press .approve)).globals := by
  have ht := (reviewable_of_reachable (fun _ _ => id) hw).advanceable hflow hrange
  have hio : w.globals.io.state = .waiting := by
    refine (attended_of_reachable (fun _ _ => id) hw).hasApprove_iff.1 ?_
    rw [show w.globals.ui.flow = _ from hflow]
    rfl
  obtain ⟨k, hpos, ⟨hle, n, hdisplayed⟩, -⟩ :=
    exists_displayedBy_of_approve sdk (sound_of_reachable hw).ready hflow ht hrange
  have hreview := (unanswered_press .approve w.globals).trans
    (unanswered_review _ n (w.ctx.txInfo.displayIndex + k) (w.ctx.txInfo.confirmedOutputs + k))
  generalize (step sdk w (.press .approve)).globals = g' at hdisplayed
  cases hdisplayed with
  | asked hasked =>
    cases hasked with
    | send => exact .send rfl hreview.responses_eq
    | refused =>
      exact .answered ((hreview.trans (unanswered_cancel _)).answeredSince hio rfl none Sw.badState)
    | more =>
      refine .answered (Unanswered.answeredSince ?_ hio rfl none Sw.ok)
      exact hreview.trans (unanswered_of_log rfl [] rfl (by simp))
  | output => exact .output k hpos hle rfl (hreview.trans (unanswered_showOutput _)).responses_eq rfl

/-- From an output screen on, the approvals of the outputs that are left and of the transaction lead
to an answer. -/
theorem exists_answered_of_output {n : ℕ} (hw : Reachable Booted (step sdk) Sequential w)
    (hflow : w.ui.flow = .txOutput) (hrange : w.ctx.txInfo.InRange)
    (hn : w.ctx.txInfo.outputsLen - w.ctx.txInfo.confirmedOutputs = n) :
    ∃ k ≤ n + 1, AnsweredSince (responses w.globals.log) (approvals sdk k w).globals := by
  induction n using Nat.strong_induction_on generalizing w with
  | _ n ih =>
    have ht := (reviewable_of_reachable (fun _ _ => id) hw).advanceable hflow hrange
    have hpending : 0 < n := by
      have := ht.confirmed_lt
      change w.ctx.txInfo.confirmedOutputs < w.ctx.txInfo.outputsLen at this
      omega
    have hnextw := hw.next (.press .approve) (sequential_press .approve)
    cases approvedOutput_of_approve hw hflow hrange with
    | answered h => exact ⟨1, by omega, h⟩
    | send hsend hresponses =>
      have hopen : (step sdk w (.press .approve)).globals.ui.flow.hasApprove = true := by
        rw [hsend]
        rfl
      refine ⟨2, by omega, ?_⟩
      rw [← hresponses]
      exact answered_of_approve hnextw hopen (by rw [hsend]; nofun)
    | output k hpos hle houtput hresponses hrecord =>
      change (step sdk w (.press .approve)).ctx.txInfo = _ at hrecord
      have hrange' : (step sdk w (.press .approve)).ctx.txInfo.InRange := by
        rw [hrecord]
        exact hrange
      have hleft : (step sdk w (.press .approve)).ctx.txInfo.outputsLen -
          (step sdk w (.press .approve)).ctx.txInfo.confirmedOutputs = n - k := by
        rw [hrecord]
        change w.ctx.txInfo.outputsLen - (w.ctx.txInfo.confirmedOutputs + k) = n - k
        omega
      obtain ⟨m, hm, hanswered⟩ := ih (n - k) (by omega) hnextw houtput hrange' hleft
      rw [hresponses] at hanswered
      exact ⟨m + 1, by omega, hanswered⟩

/-- While a screen asks for an approval, a user who approves one screen after the other comes to the
answer of the command, after at most one screen for each output that is not done and one for the
transaction. For the review of outputs the declared change indices have to be in range. -/
theorem exists_answered (hw : Reachable Booted (step sdk) Sequential w)
    (hopen : w.ui.flow.hasApprove = true)
    (hrange : w.ui.flow = .txOutput → w.ctx.txInfo.InRange) :
    ∃ k ≤ w.ctx.txInfo.outputsLen - w.ctx.txInfo.confirmedOutputs + 1,
      (approvals sdk k w).ui.flow.hasApprove = false ∧
        ∃ response, responses (approvals sdk k w).trace = response :: responses w.trace := by
  have hanswered : ∃ k ≤ w.ctx.txInfo.outputsLen - w.ctx.txInfo.confirmedOutputs + 1,
      AnsweredSince (responses w.globals.log) (approvals sdk k w).globals := by
    by_cases hflow : w.ui.flow = .txOutput
    · exact exists_answered_of_output hw hflow (hrange hflow) rfl
    · exact ⟨1, Nat.le_add_left _ _, answered_of_approve hw hopen hflow⟩
  obtain ⟨k, hk, hclosed, response, hresponses⟩ := hanswered
  refine ⟨k, hk, hclosed, response, ?_⟩
  rw [← World.responses_log, ← World.responses_log]
  exact hresponses

/-- The review of the sample transaction has just begun. -/
theorem exists_answered_sampleApproved :
    ∃ k ≤ 2, (approvals Sdk.sample k
        (run Sdk.sample sampleBoot (sampleApproved.take 1))).ui.flow.hasApprove = false ∧
      ∃ response, responses (approvals Sdk.sample k
          (run Sdk.sample sampleBoot (sampleApproved.take 1))).trace =
        response :: responses (run Sdk.sample sampleBoot (sampleApproved.take 1)).trace := by
  have hfollows : Follows (step Sdk.sample) Sequential sampleBoot (sampleApproved.take 1) :=
    ⟨fun _ _ => by decide, trivial⟩
  exact exists_answered ((Reachable.start booted_sampleBoot).follow hfollows) (by decide +kernel)
    fun _ => by decide +kernel

end HathorLedger
