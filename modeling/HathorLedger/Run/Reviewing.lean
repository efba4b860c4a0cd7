import HathorLedger.Run.History
import HathorLedger.Ui.SelectionSort

/-!
# What the review of the outputs does

The functions behind the output screen move two counters: the position in the array of decoded
outputs and the number of outputs that are done. They skip the outputs that are declared as change,
and end by opening a screen or by asking for more data. Here this is stated for the globals.

## Main definitions

* `Skipped`: the counters have moved over change outputs only.
* `Displayed`: the review goes on with a screen or with a request for more data.

## Main results

* `displayed_uiDisplayTxOutputs`, `displayed_uiConfirmOutput`: the outcomes of the two functions,
  and which counters they end with.
-/

namespace HathorLedger

variable (sdk : Sdk)

/-! ### Outcomes -/

namespace Globals

/-- The globals with other counters of the review. -/
def review (d c : ℕ) (g : Globals) : Globals :=
  { g with ctx.txInfo.displayIndex := d, ctx.txInfo.confirmedOutputs := c }

/-- Loops over the change entries have run `n` times. -/
def readChanges (n : ℕ) (g : Globals) : Globals :=
  { g with log := List.replicate n (.changesRead g.ctx.txInfo.changeLen) ++ g.log }

/-- All outputs are done: the screen "Send Transaction?" is opened. -/
def askSend (g : Globals) : Globals :=
  { g with
    ctx.state := .parsed
    ui.flow := .confirmTx
    ui.validateCallback := .txConfirm
    log := .shown .confirmTx :: g.log }

/-- All decoded outputs are done: the host is asked for more data. -/
def askMore (g : Globals) : Globals :=
  { g with
    ctx.txInfo.displayIndex := 0
    ctx.txInfo.bufferOutputLen := 0
    ui.flow := .menuMain }.reply none Sw.ok

/-- The events that `recordTokenRead` records. -/
def tokenReads (output : TxOutput) : List Event :=
  if tokenIndex output.tokenData = 0 then [] else [.tokenRead (tokenIndex output.tokenData - 1)]

/-- The strings of the output screen, with the screen open. -/
def outputUi (registry : TokenDataCtx) (t : TxInfo) (output : TxOutput) (ui : Ui) : Ui :=
  { ui with
    flow := .txOutput
    validateCallback := .confirmOutput
    outputIndex := outputIndexText t output
    address := b58Address (sdk.p2pkhVersionByte :: output.pubkeyHash.take pubkeyHashLen ++
      (sha256d sdk (sdk.p2pkhVersionByte :: output.pubkeyHash.take pubkeyHashLen)).take 4)
    amount := amountText (outputSymbol registry t output) output.value }

/-- The output at the display position is shown. -/
def showOutput (g : Globals) : Globals :=
  let output := displayedOutput sdk g.ctx.txInfo
  let ui := outputUi sdk g.tokenSymbols g.ctx.txInfo output g.ui
  { g with ui, log := .shown ui.shown :: tokenReads output ++ g.log }

end Globals

open Globals

/-- The review asks for the confirmation of the transaction or for more data, or finds that the
context holds no transaction. -/
inductive Asked (g : Globals) : Globals → Prop
  | send (h : g.ctx.txInfo.confirmedOutputs = g.ctx.txInfo.outputsLen)
    (hreq : g.ctx.reqType = .confirmTransaction) : Asked g g.askSend
  | refused (h : g.ctx.txInfo.confirmedOutputs = g.ctx.txInfo.outputsLen)
    (hreq : g.ctx.reqType ≠ .confirmTransaction) : Asked g (g.cancel.reply none Sw.badState)
  | more (h : g.ctx.txInfo.confirmedOutputs ≠ g.ctx.txInfo.outputsLen)
    (hd : g.ctx.txInfo.displayIndex = g.ctx.txInfo.bufferOutputLen) : Asked g g.askMore

/-- The review asks for something or shows the next output. -/
inductive Displayed (g : Globals) : Globals → Prop
  | asked {g' : Globals} (h : Asked g g') : Displayed g g'
  | output (h : g.ctx.txInfo.confirmedOutputs ≠ g.ctx.txInfo.outputsLen)
    (hd : g.ctx.txInfo.displayIndex ≠ g.ctx.txInfo.bufferOutputLen) :
    Displayed g (g.showOutput sdk)

/-- The counters of the review have moved from those of `t` to `d` and `c`, over change outputs
only, and as far as possible. -/
structure Skipped (indices : List ℕ) (t : TxInfo) (d c : ℕ) : Prop where
  same : d + t.confirmedOutputs = c + t.displayIndex
  le : t.confirmedOutputs ≤ c
  display_le : d ≤ t.bufferOutputLen
  confirmed_le : c ≤ t.outputsLen
  change : ∀ i, t.confirmedOutputs ≤ i → i < c → i ∈ indices
  stop : d ≠ t.bufferOutputLen → c ≠ t.outputsLen → c ∉ indices

/-- The counters of the review are inside their bounds, which are numbers of one byte. -/
structure TxInfo.InBounds (t : TxInfo) : Prop where
  display_le : t.displayIndex ≤ t.bufferOutputLen
  confirmed_le : t.confirmedOutputs ≤ t.outputsLen
  bufferOutputLen_lt : t.bufferOutputLen < 256
  outputsLen_lt : t.outputsLen < 256

variable {sdk} {w : World}

@[simp] theorem Globals.readChanges_zero (g : Globals) : g.readChanges 0 = g := rfl

@[simp] theorem Globals.readChanges_readChanges (m n : ℕ) (g : Globals) :
    (g.readChanges n).readChanges m = g.readChanges (m + n) := by
  simp [readChanges, ← List.replicate_append_replicate]

@[simp] theorem Globals.history_readChanges (n : ℕ) (g : Globals) :
    (g.readChanges n).history = g.history := by
  induction n with
  | zero => rfl
  | succ n ih => exact ih

theorem recordChangesRead_eq (w : World) :
    recordChangesRead w = w ∨ recordChangesRead w = w.emit (.changesRead w.ctx.txInfo.changeLen) := by
  unfold recordChangesRead
  split_ifs
  · exact .inl rfl
  · exact .inr rfl

theorem globals_recordChangesRead (w : World) :
    ∃ n, (recordChangesRead w).globals = w.globals.readChanges n := by
  rcases recordChangesRead_eq w with h | h <;> rw [h]
  · exact ⟨0, rfl⟩
  · exact ⟨1, (World.globals_emit w _).trans rfl⟩

/-! ### One check -/

section Check

theorem Asked.stopped {g g' : Globals} (h : Asked g g') :
    g.ctx.txInfo.confirmedOutputs = g.ctx.txInfo.outputsLen ∨
      g.ctx.txInfo.displayIndex = g.ctx.txInfo.bufferOutputLen := by
  cases h with
  | send h | refused h => exact .inl h
  | more h hd => exact .inr hd

theorem Skipped.refl {indices : List ℕ} {t : TxInfo} (ht : t.InBounds)
    (hstop : t.displayIndex ≠ t.bufferOutputLen → t.confirmedOutputs ≠ t.outputsLen →
      t.confirmedOutputs ∉ indices) :
    Skipped indices t t.displayIndex t.confirmedOutputs where
  same := Nat.add_comm _ _
  le := le_rfl
  display_le := ht.display_le
  confirmed_le := ht.confirmed_le
  change _ hi hi' := absurd hi' (not_lt.2 hi)
  stop := hstop

theorem globals_advanceReview : (advanceReview w).globals =
    w.globals.review (u8 (w.ctx.txInfo.displayIndex + 1)) (u8 (w.ctx.txInfo.confirmedOutputs + 1)) :=
  rfl

theorem checkOutputIndexState_cases :
    (checkOutputIndexState w).1 = true ∧ Asked w.globals (checkOutputIndexState w).2.globals ∨
      checkOutputIndexState w = (false, w) ∧
        w.ctx.txInfo.confirmedOutputs ≠ w.ctx.txInfo.outputsLen ∧
        w.ctx.txInfo.displayIndex ≠ w.ctx.txInfo.bufferOutputLen := by
  unfold checkOutputIndexState
  split_ifs with hconfirmed hdisplay
  · refine .inl ⟨rfl, ?_⟩
    by_cases hreq : w.ctx.reqType = .confirmTransaction
    · have : (uiDisplayTxConfirm { w with ctx.state := .parsed }).globals = w.globals.askSend := by
        rw [uiDisplayTxConfirm, if_neg (by simp [hreq]), showWithCallback, globals_uxFlowInit]
        rfl
      rw [this]
      exact .send hconfirmed hreq
    · have : (uiDisplayTxConfirm { w with ctx.state := .parsed }).globals =
          w.globals.cancel.reply none Sw.badState := by
        rw [uiDisplayTxConfirm, if_pos (.inl hreq), globals_cancel]
        rfl
      rw [this]
      exact .refused hconfirmed hreq
  · refine .inl ⟨rfl, ?_⟩
    have : (uiMenuMain (ioSendSw Sw.ok (w.modifyTx fun t =>
        { t with bufferOutputLen := 0, displayIndex := 0 })).2).globals = w.globals.askMore := by
      rw [uiMenuMain_eq, globals_uxFlowInit, ioSendSw_eq, globals_ioSendResponse]
      rfl
    dsimp only
    rw [this]
    exact .more hconfirmed hdisplay
  · exact .inr ⟨rfl, hconfirmed, hdisplay⟩

end Check

/-! ### Skipping change outputs -/

section Skip

theorem skipChangeLoop_of_not_mem {indices : List ℕ}
    (h : w.ctx.txInfo.confirmedOutputs ∉ indices) : skipChangeLoop indices w = (false, w) := by
  induction indices with
  | nil => rfl
  | cons index indices ih =>
    rw [List.mem_cons, not_or] at h
    rw [skipChangeLoop, if_neg h.1, ih h.2]

/-- After one change output has been skipped, the rest is skipped from the next one on. -/
theorem Skipped.cons {index : ℕ} {indices : List ℕ} {t : TxInfo} {d c : ℕ}
    (hindex : t.confirmedOutputs = index)
    (h : Skipped indices { t with
      displayIndex := t.displayIndex + 1, confirmedOutputs := t.confirmedOutputs + 1 } d c) :
    Skipped (index :: indices) t d c where
  same := by
    have := h.same
    simp only at this
    omega
  le := Nat.le_of_succ_le h.le
  display_le := h.display_le
  confirmed_le := h.confirmed_le
  change i hi hi' := by
    rcases Nat.eq_or_lt_of_le hi with rfl | hlt
    · exact hindex ▸ List.mem_cons_self
    · exact List.mem_cons_of_mem _ (h.change i hlt hi')
  stop hd hc := by
    have hle := h.le
    simp only at hle
    rw [List.mem_cons, not_or]
    exact ⟨by omega, h.stop hd hc⟩

/-- An index that is no position under review is passed over. -/
theorem Skipped.cons_of_ne {index : ℕ} {indices : List ℕ} {t : TxInfo} {d c : ℕ}
    (hsorted : (index :: indices).Pairwise (· ≤ ·)) (hindex : t.confirmedOutputs ≠ index)
    (h : Skipped indices t d c) : Skipped (index :: indices) t d c where
  same := h.same
  le := h.le
  display_le := h.display_le
  confirmed_le := h.confirmed_le
  change i hi hi' := List.mem_cons_of_mem _ (h.change i hi hi')
  stop hd hc := by
    have hle := h.le
    rw [List.mem_cons, not_or]
    refine ⟨?_, h.stop hd hc⟩
    rintro rfl
    -- the indices behind this one are at least as large, so nothing was skipped
    have hmem := h.change t.confirmedOutputs le_rfl (lt_of_le_of_ne hle hindex)
    exact absurd ((List.pairwise_cons.1 hsorted).1 _ hmem)
      (not_le.2 (lt_of_le_of_ne hle hindex))

/-- Inside the bounds the counters advance without wrapping around. -/
theorem txInfo_advanceReview (ht : w.ctx.txInfo.InBounds)
    (hd : w.ctx.txInfo.displayIndex ≠ w.ctx.txInfo.bufferOutputLen)
    (hc : w.ctx.txInfo.confirmedOutputs ≠ w.ctx.txInfo.outputsLen) :
    (advanceReview w).ctx.txInfo = { w.ctx.txInfo with
        displayIndex := w.ctx.txInfo.displayIndex + 1
        confirmedOutputs := w.ctx.txInfo.confirmedOutputs + 1 } ∧
      (advanceReview w).ctx.txInfo.InBounds := by
  obtain ⟨hd', hc', hB, hN⟩ := ht
  have hrecord : (advanceReview w).ctx.txInfo = { w.ctx.txInfo with
      displayIndex := w.ctx.txInfo.displayIndex + 1
      confirmedOutputs := w.ctx.txInfo.confirmedOutputs + 1 } := by
    simp only [advanceReview, World.ctx_modifyTx]
    rw [u8_of_lt (by omega), u8_of_lt (by omega)]
  rw [hrecord]
  exact ⟨rfl, by constructor <;> simp only <;> omega⟩

theorem skipChangeLoop_cases {indices : List ℕ} (hsorted : indices.Pairwise (· ≤ ·)) :
    ∃ d c, ((skipChangeLoop indices w).1 = true ∧
          Asked (w.globals.review d c) (skipChangeLoop indices w).2.globals ∨
        (skipChangeLoop indices w).1 = false ∧
          (skipChangeLoop indices w).2.globals = w.globals.review d c ∧
          (d = w.ctx.txInfo.displayIndex ∧ c = w.ctx.txInfo.confirmedOutputs ∨
            d ≠ w.ctx.txInfo.bufferOutputLen ∧ c ≠ w.ctx.txInfo.outputsLen)) ∧
      (w.ctx.txInfo.InBounds → w.ctx.txInfo.displayIndex ≠ w.ctx.txInfo.bufferOutputLen →
        w.ctx.txInfo.confirmedOutputs ≠ w.ctx.txInfo.outputsLen →
        Skipped indices w.ctx.txInfo d c) := by
  induction indices generalizing w with
  | nil =>
    exact ⟨_, _, .inr ⟨rfl, rfl, .inl ⟨rfl, rfl⟩⟩, fun ht _ _ => .refl ht fun _ _ => by simp⟩
  | cons index indices ih =>
    have hsorted' := (List.pairwise_cons.1 hsorted).2
    by_cases hindex : w.ctx.txInfo.confirmedOutputs = index
    · rcases @checkOutputIndexState_cases (advanceReview w) with
        ⟨hdone, hasked⟩ | ⟨hcheck, hcne', hdne'⟩
      · have hloop : skipChangeLoop (index :: indices) w =
            (true, (checkOutputIndexState (advanceReview w)).2) := by
          rw [skipChangeLoop, if_pos hindex]
          simp [hdone]
        refine ⟨(advanceReview w).ctx.txInfo.displayIndex,
          (advanceReview w).ctx.txInfo.confirmedOutputs, .inl ?_, fun ht hdne hcne => ?_⟩
        · rw [hloop]
          exact ⟨rfl, hasked⟩
        · obtain ⟨hrecord, hbounds⟩ := txInfo_advanceReview ht hdne hcne
          have hskipped : Skipped indices (advanceReview w).ctx.txInfo
              (advanceReview w).ctx.txInfo.displayIndex
              (advanceReview w).ctx.txInfo.confirmedOutputs :=
            .refl hbounds fun hd hc => (hasked.stopped.elim hc hd).elim
          rw [hrecord] at hskipped ⊢
          exact hskipped.cons hindex
      · have hloop : skipChangeLoop (index :: indices) w =
            skipChangeLoop indices (advanceReview w) := by
          rw [skipChangeLoop, if_pos hindex, hcheck]
          rfl
        obtain ⟨d, c, hcases, hskipped⟩ := @ih (advanceReview w) hsorted'
        rw [hloop]
        refine ⟨d, c, ?_, fun ht hdne hcne => ?_⟩
        · rcases hcases with hasked | ⟨hdone, hglobals, hcounters⟩
          · exact .inl hasked
          · refine .inr ⟨hdone, hglobals, .inr ?_⟩
            rcases hcounters with ⟨rfl, rfl⟩ | hcounters
            · exact ⟨hdne', hcne'⟩
            · exact hcounters
        · obtain ⟨hrecord, hbounds⟩ := txInfo_advanceReview ht hdne hcne
          have := hskipped hbounds hdne' hcne'
          rw [hrecord] at this
          exact this.cons hindex
    · rw [skipChangeLoop, if_neg hindex]
      obtain ⟨d, c, hcases, hskipped⟩ := @ih w hsorted'
      exact ⟨d, c, hcases, fun ht hdne hcne => (hskipped ht hdne hcne).cons_of_ne hsorted hindex⟩

theorem Skipped.trans {indices : List ℕ} {t : TxInfo} {d c d' c' : ℕ}
    (h : Skipped indices t d c)
    (h' : Skipped indices { t with displayIndex := d, confirmedOutputs := c } d' c') :
    Skipped indices t d' c' where
  same := by
    have := h.same
    have := h'.same
    simp only at this
    omega
  le := h.le.trans h'.le
  display_le := h'.display_le
  confirmed_le := h'.confirmed_le
  change i hi hi' := by
    rcases Nat.lt_or_ge i c with hlt | hge
    · exact h.change i hi hlt
    · exact h'.change i hge hi'
  stop := h'.stop

theorem Skipped.of_perm {indices indices' : List ℕ} {t : TxInfo} {d c : ℕ}
    (hperm : indices.Perm indices') (h : Skipped indices t d c) : Skipped indices' t d c where
  same := h.same
  le := h.le
  display_le := h.display_le
  confirmed_le := h.confirmed_le
  change i hi hi' := hperm.mem_iff.1 (h.change i hi hi')
  stop hd hc := fun hmem => h.stop hd hc (hperm.mem_iff.2 hmem)

theorem Skipped.inBounds {indices : List ℕ} {t : TxInfo} {d c : ℕ} (ht : t.InBounds)
    (h : Skipped indices t d c) :
    TxInfo.InBounds { t with displayIndex := d, confirmedOutputs := c } :=
  ⟨h.display_le, h.confirmed_le, ht.bufferOutputLen_lt, ht.outputsLen_lt⟩

/-- Without change entries there is nothing to skip, as the code checks first. -/
theorem skipChangeOutputs_eq : skipChangeOutputs w =
    skipChangeLoop (inplaceSelectionSort w.ctx.txInfo.changeIndices) (recordChangesRead w) := by
  unfold skipChangeOutputs
  split_ifs with hnone
  · have hindices : w.ctx.txInfo.changeIndices = [] := by
      simp [TxInfo.changeIndices, TxInfo.changeEntries, hnone]
    have hrecord : recordChangesRead w = w := if_pos hnone
    rw [hindices, hrecord]
    rfl
  · rfl

theorem skipChangeOutputs_cases :
    ∃ n d c, ((skipChangeOutputs w).1 = true ∧
          Asked ((w.globals.readChanges n).review d c) (skipChangeOutputs w).2.globals ∨
        (skipChangeOutputs w).1 = false ∧
          (skipChangeOutputs w).2.globals = (w.globals.readChanges n).review d c ∧
          (d = w.ctx.txInfo.displayIndex ∧ c = w.ctx.txInfo.confirmedOutputs ∨
            d ≠ w.ctx.txInfo.bufferOutputLen ∧ c ≠ w.ctx.txInfo.outputsLen)) ∧
      (w.ctx.txInfo.InBounds → w.ctx.txInfo.displayIndex ≠ w.ctx.txInfo.bufferOutputLen →
        w.ctx.txInfo.confirmedOutputs ≠ w.ctx.txInfo.outputsLen →
        Skipped w.ctx.txInfo.changeIndices w.ctx.txInfo d c) := by
  obtain ⟨n, hrecord⟩ := globals_recordChangesRead w
  have hctx : (recordChangesRead w).ctx = w.ctx := congrArg Globals.ctx hrecord
  rw [skipChangeOutputs_eq]
  obtain ⟨d, c, hcases, hskipped⟩ := skipChangeLoop_cases (w := recordChangesRead w)
    (pairwise_inplaceSelectionSort w.ctx.txInfo.changeIndices)
  rw [hrecord, hctx] at hcases
  rw [hctx] at hskipped
  exact ⟨n, d, c, hcases, fun ht hd hc =>
    (hskipped ht hd hc).of_perm (inplaceSelectionSort_perm _)⟩

theorem skipChangeOutputs_of_not_mem
    (h : w.ctx.txInfo.confirmedOutputs ∉ w.ctx.txInfo.changeIndices) :
    skipChangeOutputs w = (false, recordChangesRead w) := by
  obtain ⟨n, hrecord⟩ := globals_recordChangesRead w
  have hctx : (recordChangesRead w).ctx = w.ctx := congrArg Globals.ctx hrecord
  rw [skipChangeOutputs_eq]
  refine skipChangeLoop_of_not_mem fun hmem => h ?_
  rw [hctx] at hmem
  exact (inplaceSelectionSort_perm _).mem_iff.1 hmem

end Skip

/-! ### The output screen -/

section Display

theorem globals_recordTokenRead (output : TxOutput) :
    (recordTokenRead output w).globals =
      { w.globals with log := tokenReads output ++ w.globals.log } := by
  unfold recordTokenRead tokenReads
  split_ifs
  · rfl
  · exact World.globals_emit w _

theorem globals_showWithCallback_txOutput :
    (showWithCallback .confirmOutput .txOutput w).globals =
      { w.globals with ui.validateCallback := .confirmOutput }.openFlow .txOutput := by
  rw [showWithCallback, globals_uxFlowInit]
  rfl

/-- With nothing to ask for, the output behind the skipped ones is shown. -/
theorem exists_showOutput_uiDisplayTxOutputs (sdk : Sdk) (hcheck : checkOutputIndexState w = (false, w))
    (hdone : (skipChangeOutputs w).1 = false) :
    ∃ m, (uiDisplayTxOutputs sdk w).globals =
      ((skipChangeOutputs w).2.globals.readChanges m).showOutput sdk := by
  simp only [uiDisplayTxOutputs, prepareDisplayOutput, hcheck, hdone, addressFromPubkeyHash_eq,
    Bool.false_eq_true, if_false]
  rw [globals_showWithCallback_txOutput, globals_recordTokenRead]
  rcases recordChangesRead_eq { (skipChangeOutputs w).2 with
    ui.outputIndex := outputIndexText (skipChangeOutputs w).2.ctx.txInfo
      (displayedOutput sdk (skipChangeOutputs w).2.ctx.txInfo)
    ui.address := [] } with h | h <;> rw [h]
  · exact ⟨0, rfl⟩
  · exact ⟨1, rfl⟩

/-- `ui_display_tx_outputs` skips change outputs and goes on with the review. -/
theorem displayed_uiDisplayTxOutputs :
    ∃ n d c,
      Displayed sdk ((w.globals.readChanges n).review d c) (uiDisplayTxOutputs sdk w).globals ∧
      (w.ctx.txInfo.InBounds → Skipped w.ctx.txInfo.changeIndices w.ctx.txInfo d c) := by
  rcases @checkOutputIndexState_cases w with ⟨hdone, hasked⟩ | ⟨hcheck, hc, hd⟩
  · have hdisplay : uiDisplayTxOutputs sdk w = (checkOutputIndexState w).2 := by
      simp [uiDisplayTxOutputs, prepareDisplayOutput, hdone]
    rw [hdisplay]
    exact ⟨0, _, _, .asked hasked, fun ht =>
      .refl ht fun hd hc => (hasked.stopped.elim hc hd).elim⟩
  · obtain ⟨n, d, c, hcases, hskipped⟩ := @skipChangeOutputs_cases w
    rcases hcases with ⟨hdone, hasked⟩ | ⟨hdone, hglobals, hcounters⟩
    · have hdisplay : uiDisplayTxOutputs sdk w = (skipChangeOutputs w).2 := by
        simp [uiDisplayTxOutputs, prepareDisplayOutput, hcheck, hdone]
      rw [hdisplay]
      exact ⟨n, d, c, .asked hasked, fun ht => hskipped ht hd hc⟩
    · have hcounters' : c ≠ w.ctx.txInfo.outputsLen ∧ d ≠ w.ctx.txInfo.bufferOutputLen := by
        rcases hcounters with ⟨rfl, rfl⟩ | ⟨hd', hc'⟩
        · exact ⟨hc, hd⟩
        · exact ⟨hc', hd'⟩
      obtain ⟨m, hdisplay⟩ := exists_showOutput_uiDisplayTxOutputs sdk hcheck hdone
      rw [hdisplay, hglobals]
      refine ⟨m + n, d, c, ?_, fun ht => hskipped ht hd hc⟩
      rw [← Globals.readChanges_readChanges]
      exact .output hcounters'.1 hcounters'.2

/-- An approved output counts as done, and the review goes on with the next one. -/
theorem displayed_uiConfirmOutput :
    ∃ n d c,
      Displayed sdk ((w.globals.readChanges n).review d c) (uiConfirmOutput sdk true w).globals ∧
      (w.ctx.txInfo.InBounds → w.ctx.txInfo.displayIndex ≠ w.ctx.txInfo.bufferOutputLen →
        w.ctx.txInfo.confirmedOutputs ≠ w.ctx.txInfo.outputsLen →
        (w.ctx.txInfo.displayIndex + 1 = w.ctx.txInfo.bufferOutputLen ∨
            w.ctx.txInfo.confirmedOutputs + 1 = w.ctx.txInfo.outputsLen →
          w.ctx.txInfo.confirmedOutputs + 1 ∉ w.ctx.txInfo.changeIndices) →
        Skipped w.ctx.txInfo.changeIndices { w.ctx.txInfo with
          displayIndex := w.ctx.txInfo.displayIndex + 1
          confirmedOutputs := w.ctx.txInfo.confirmedOutputs + 1 } d c) := by
  by_cases hchange : (advanceReview w).ctx.txInfo.confirmedOutputs ∈ w.ctx.txInfo.changeIndices
  · obtain ⟨n, d, c, hcases, hskipped⟩ := @skipChangeOutputs_cases (advanceReview w)
    have hskipped' : w.ctx.txInfo.InBounds →
        w.ctx.txInfo.displayIndex ≠ w.ctx.txInfo.bufferOutputLen →
        w.ctx.txInfo.confirmedOutputs ≠ w.ctx.txInfo.outputsLen →
        (w.ctx.txInfo.displayIndex + 1 = w.ctx.txInfo.bufferOutputLen ∨
            w.ctx.txInfo.confirmedOutputs + 1 = w.ctx.txInfo.outputsLen →
          w.ctx.txInfo.confirmedOutputs + 1 ∉ w.ctx.txInfo.changeIndices) →
        Skipped w.ctx.txInfo.changeIndices (advanceReview w).ctx.txInfo d c := by
      intro ht hd hc hboundary
      obtain ⟨hrecord, hbounds⟩ := txInfo_advanceReview ht hd hc
      rw [hrecord] at hchange
      refine hskipped hbounds ?_ ?_
      all_goals
        rw [hrecord]
        intro heq
        exact hboundary (by tauto) hchange
    rcases hcases with ⟨hdone, hasked⟩ | ⟨hdone, hglobals, -⟩
    · have hconfirm : uiConfirmOutput sdk true w = (skipChangeOutputs (advanceReview w)).2 := by
        simp [uiConfirmOutput, hdone]
      rw [hconfirm]
      refine ⟨n, d, c, .asked hasked, fun ht hd hc hboundary => ?_⟩
      have := hskipped' ht hd hc hboundary
      rwa [(txInfo_advanceReview ht hd hc).1] at this
    · have hconfirm : uiConfirmOutput sdk true w =
          uiDisplayTxOutputs sdk (skipChangeOutputs (advanceReview w)).2 := by
        simp [uiConfirmOutput, hdone]
      have hctx : (skipChangeOutputs (advanceReview w)).2.ctx =
          (((advanceReview w).globals.readChanges n).review d c).ctx := congrArg Globals.ctx hglobals
      obtain ⟨n', d', c', hdisplayed, hskipped''⟩ :=
        @displayed_uiDisplayTxOutputs sdk (skipChangeOutputs (advanceReview w)).2
      rw [hconfirm]
      rw [hglobals] at hdisplayed
      refine ⟨n' + n, d', c', ?_, fun ht hd hc hboundary => ?_⟩
      · rw [← Globals.readChanges_readChanges]
        exact hdisplayed
      have hfirst := hskipped' ht hd hc hboundary
      rw [hctx] at hskipped''
      have hsecond := hskipped'' (hfirst.inBounds (txInfo_advanceReview ht hd hc).2)
      have := hfirst.trans hsecond
      rwa [(txInfo_advanceReview ht hd hc).1] at this
  · have hconfirm : uiConfirmOutput sdk true w =
        uiDisplayTxOutputs sdk (recordChangesRead (advanceReview w)) := by
      simp [uiConfirmOutput, skipChangeOutputs_of_not_mem hchange]
    obtain ⟨n, hglobals⟩ := globals_recordChangesRead (advanceReview w)
    have hctx : (recordChangesRead (advanceReview w)).ctx = (advanceReview w).ctx :=
      congrArg Globals.ctx hglobals
    obtain ⟨n', d, c, hdisplayed, hskipped⟩ :=
      @displayed_uiDisplayTxOutputs sdk (recordChangesRead (advanceReview w))
    rw [hconfirm]
    rw [hglobals, Globals.readChanges_readChanges] at hdisplayed
    rw [hctx] at hskipped
    refine ⟨n' + n, d, c, hdisplayed, fun ht hd hc _ => ?_⟩
    obtain ⟨hrecord, hbounds⟩ := txInfo_advanceReview ht hd hc
    have := hskipped hbounds
    rwa [hrecord] at this

end Display

end HathorLedger
