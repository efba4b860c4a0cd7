import HathorLedger.Library.TwoRuns
import HathorLedger.Run.Effects

/-!
# Two sessions in lockstep

Two apps with the same token registry go through the same session of commands `SIGN_TX` and of
presses on the screens that the session opens. What they had done before makes no difference: the
context is set up anew before it is read, the strings of a screen are written before they are shown,
and the buffer of the exchange is written before it is sent.

## Main definitions

* `HasShown`: the session has opened a screen.
* `Apart`: the apps differ in their contexts and in what was left behind by earlier commands only.
* `Alike`: their contexts are the same as well.

## Main results

* `apart_ioSendResponse`, `apart_uxFlowInit`, `apart_mainLoop`, ...: the functions of the app keep the
  apps in lockstep.
-/

namespace HathorLedger

/-! ### The relation -/

/-- Since the events `old` a screen was opened. -/
def HasShown (old : List Event) (w : World) : Prop :=
  (screens old).length < (screens w.trace).length

instance (old : List Event) (w : World) : Decidable (HasShown old w) :=
  inferInstanceAs (Decidable (_ < _))

/-- The flows that a session of `SIGN_TX` can open. -/
def Flow.ofSigning : Flow → Bool
  | .menuMain | .menuAbout | .processing | .confirmTx | .txOutput => true
  | _ => false

/-- The same flow of a session is open, with its own callback and the same strings. -/
structure UiAlike (u₁ u₂ : Ui) : Prop where
  flow : u₁.flow = u₂.flow
  ofSigning : u₁.flow.ofSigning = true
  callback : u₁.flow.hasApprove = true →
    u₁.validateCallback = u₁.flow.callback ∧ u₂.validateCallback = u₁.flow.callback
  strings : u₁.flow = .txOutput →
    u₁.outputIndex = u₂.outputIndex ∧ u₁.address = u₂.address ∧ u₁.amount = u₂.amount

/-- The apps have done the same since the events `old₁` and `old₂`, and differ in their contexts and
in what was left behind only. Where `sync` holds, they are blocked in the same exchange. -/
structure Apart (sync : Prop) (old₁ old₂ : List Event) (w₁ w₂ : World) : Prop where
  tokenSymbols : w₁.tokenSymbols = w₂.tokenSymbols
  state : w₁.io.state = w₂.io.state
  asynch : sync → w₁.io.asynch = w₂.io.asynch
  /-- A response that waits in the buffer is the same. -/
  output : w₁.io.state = .ready → w₁.io.outputLen = w₂.io.outputLen ∧
    w₁.io.apduBuffer.take w₁.io.outputLen = w₂.io.apduBuffer.take w₁.io.outputLen
  trace : ∃ new, w₁.trace = new ++ old₁ ∧ w₂.trace = new ++ old₂
  ui : HasShown old₁ w₁ → UiAlike w₁.ui w₂.ui

/-- The apps differ in what was left behind only. -/
structure Alike (sync : Prop) (old₁ old₂ : List Event) (w₁ w₂ : World) : Prop
    extends Apart sync old₁ old₂ w₁ w₂ where
  ctx : w₁.ctx = w₂.ctx

variable {sync : Prop} {old₁ old₂ : List Event} {w₁ w₂ : World}

theorem UiAlike.shown {u₁ u₂ : Ui} (h : UiAlike u₁ u₂) : u₁.shown = u₂.shown := by
  obtain ⟨hflow, hsigning, -, hstrings⟩ := h
  unfold Ui.shown
  rw [← hflow]
  cases hf : u₁.flow with
  | txOutput =>
    obtain ⟨hindex, haddress, hamount⟩ := hstrings hf
    simp only [hindex, haddress, hamount]
  | menuMain | menuAbout | processing | confirmTx | xpub | resetTokenSignatures => rfl
  | address | signTokenData =>
    rw [hf] at hsigning
    cases hsigning

theorem hasShown_emit {old : List Event} {w : World} {e : Event} (he : e.screen = none) :
    HasShown old (w.emit e) ↔ HasShown old w := by
  have hsame : screens (w.emit e).trace = screens w.trace := List.filterMap_cons_none he
  rw [HasShown, HasShown, hsame]

/-! ### Changes to one component -/

section Components

variable (h : Apart sync old₁ old₂ w₁ w₂)

include h

theorem Apart.emit {e : Event} (he : e.screen = none) :
    Apart sync old₁ old₂ (w₁.emit e) (w₂.emit e) := by
  obtain ⟨new, h₁, h₂⟩ := h.trace
  refine ⟨h.tokenSymbols, h.state, h.asynch, h.output, ⟨e :: new, ?_, ?_⟩, fun hshown => ?_⟩
  · exact congrArg (e :: ·) h₁
  · exact congrArg (e :: ·) h₂
  · exact h.ui ((hasShown_emit he).1 hshown)

theorem Apart.setCtx (c₁ c₂ : GlobalCtx) :
    Apart sync old₁ old₂ { w₁ with ctx := c₁ } { w₂ with ctx := c₂ } :=
  ⟨h.tokenSymbols, h.state, h.asynch, h.output, h.trace, h.ui⟩

/-- The exchanges are in the same state, with the same response waiting. -/
theorem Apart.setIo {sync' : Prop} (io₁ io₂ : Io) (hstate : io₁.state = io₂.state)
    (hasynch : sync' → io₁.asynch = io₂.asynch) (houtput : io₁.state = .ready →
      io₁.outputLen = io₂.outputLen ∧
        io₁.apduBuffer.take io₁.outputLen = io₂.apduBuffer.take io₁.outputLen) :
    Apart sync' old₁ old₂ { w₁ with io := io₁ } { w₂ with io := io₂ } :=
  ⟨h.tokenSymbols, hstate, hasynch, houtput, h.trace, h.ui⟩

theorem apart_explicitBzeroContext :
    Alike sync old₁ old₂ (explicitBzeroContext w₁) (explicitBzeroContext w₂) :=
  ⟨(h.setCtx {} {}).emit rfl, rfl⟩

/-- The same screen is opened. -/
theorem Apart.openScreen {ui₁ ui₂ : Ui} (hui : UiAlike ui₁ ui₂) : Apart sync old₁ old₂
    (World.emit (.shown ui₁.shown) { w₁ with ui := ui₁ })
    (World.emit (.shown ui₂.shown) { w₂ with ui := ui₂ }) := by
  obtain ⟨new, h₁, h₂⟩ := h.trace
  refine ⟨h.tokenSymbols, h.state, h.asynch, h.output, ⟨.shown ui₁.shown :: new, ?_, ?_⟩,
    fun _ => hui⟩
  · exact congrArg (_ :: ·) h₁
  · rw [hui.shown]
    exact congrArg (_ :: ·) h₂

/-- A flow without an approve step needs no callback. -/
theorem apart_uxFlowInit {flow : Flow} (hsigning : flow.ofSigning = true)
    (hflow : flow.hasApprove = false) :
    Apart sync old₁ old₂ (uxFlowInit flow w₁) (uxFlowInit flow w₂) := by
  refine h.openScreen ⟨rfl, hsigning, fun happrove => ?_, fun houtput => ?_⟩
  · cases hflow.symm.trans happrove
  · cases hflow.symm.trans (congrArg Flow.hasApprove houtput)

theorem apart_uiMenuMain : Apart sync old₁ old₂ (uiMenuMain w₁) (uiMenuMain w₂) :=
  apart_uxFlowInit h rfl rfl

/-- The same response is queued, or sent at once. -/
theorem apart_ioSendResponse (rdata : Option Bytes) (sw : ℕ) :
    (ioSendResponse rdata sw w₁).1 = (ioSendResponse rdata sw w₂).1 ∧
      Apart sync old₁ old₂ (ioSendResponse rdata sw w₁).2 (ioSendResponse rdata sw w₂).2 := by
  have htake : ∀ buffer body : Bytes, (memmove buffer 0 body).take body.length = body := by
    intro buffer body
    rw [take_memmove (Nat.zero_le _) (Nat.zero_add _).symm, List.take_zero, List.nil_append]
  have hstate := h.state
  unfold ioSendResponse
  generalize (if (rdata.getD []).length > ioApduBufferSize - 2 then beBytes 2 Sw.wrongResponseLength
    else rdata.getD [] ++ beBytes 2 sw) = body
  have houtput : (memmove w₁.io.apduBuffer 0 body).take body.length =
      (memmove w₂.io.apduBuffer 0 body).take body.length := by
    rw [htake, htake]
  cases hio : w₁.io.state with
  | ready =>
    simp only [hio, ← hstate]
    exact ⟨trivial, h.setIo _ _ rfl h.asynch fun _ => ⟨rfl, houtput⟩⟩
  | received =>
    simp only [hio, ← hstate]
    exact ⟨trivial, h.setIo _ _ rfl h.asynch fun _ => ⟨rfl, houtput⟩⟩
  | waiting =>
    simp only [hio, ← hstate, ioTransmit]
    refine ⟨trivial, ?_⟩
    split_ifs with hlen
    · exact h.setIo _ _ rfl h.asynch fun _ => ⟨rfl, rfl⟩
    · have hsent := h.emit (e := .sent body) rfl
      refine ⟨h.tokenSymbols, rfl, h.asynch, fun _ => ⟨rfl, rfl⟩, ?_, hsent.ui⟩
      simp only [World.emit, htake]
      exact hsent.trace

end Components

/-! ### The loop of the app -/

/-- A restart leaves nothing of the past in the apps but strings that are not on the screen. -/
theorem apart_appMain (h : Apart sync old₁ old₂ w₁ w₂) :
    Alike True old₁ old₂ (appMain w₁) (appMain w₂) := by
  have hwiped := apart_explicitBzeroContext (apart_uiMenuMain h)
  have hcleared : Apart sync old₁ old₂
      (explicitBzeroTokenSymbols (explicitBzeroContext (uiMenuMain w₁)))
      (explicitBzeroTokenSymbols (explicitBzeroContext (uiMenuMain w₂))) :=
    ⟨rfl, hwiped.state, hwiped.asynch, hwiped.output, hwiped.trace, hwiped.ui⟩
  have hstarted := hcleared.emit (e := .started) rfl
  refine ⟨hstarted.setIo { w₁.io with outputLen := 0, state := .received, asynch := false }
    { w₂.io with outputLen := 0, state := .received, asynch := false } rfl (fun _ => rfl) ?_, rfl⟩
  exact nofun

theorem apart_mainLoop (h : Apart sync old₁ old₂ w₁ w₂) :
    Apart True old₁ old₂ (mainLoop w₁) (mainLoop w₂) := by
  have hstate := h.state
  unfold mainLoop ioRecvCommand
  cases hio : w₁.io.state with
  | ready =>
    obtain ⟨hlen, htake⟩ := h.output hio
    simp only [hio, ← hstate, Option.getD_some, ioTransmit]
    rw [← hlen]
    split_ifs with hzero
    · refine h.setIo _ _ rfl (fun _ => rfl) ?_
      rintro ⟨⟩
    · have hsent := h.emit (e := .sent (w₁.io.apduBuffer.take w₁.io.outputLen)) rfl
      refine ⟨h.tokenSymbols, rfl, fun _ => rfl, ?_, ?_, hsent.ui⟩
      · rintro ⟨⟩
      · simp only [World.emit, ← htake]
        exact hsent.trace
  | received =>
    simp only [hio, ← hstate, Option.getD_some]
    refine h.setIo _ _ rfl (fun _ => rfl) ?_
    rintro ⟨⟩
  | waiting =>
    simp only [hio, ← hstate, Option.getD_none]
    exact (apart_appMain h).toApart

/-! ### Apps with the same context -/

section SameContext

theorem ctx_ioSendResponse (w : World) (rdata : Option Bytes) (sw : ℕ) :
    (ioSendResponse rdata sw w).2.ctx = w.ctx :=
  congrArg Globals.ctx (globals_ioSendResponse w rdata sw)

variable (h : Alike sync old₁ old₂ w₁ w₂)

include h

theorem Alike.emit {e : Event} (he : e.screen = none) :
    Alike sync old₁ old₂ (w₁.emit e) (w₂.emit e) :=
  ⟨h.toApart.emit he, h.ctx⟩

theorem Alike.setCtx (c : GlobalCtx) :
    Alike sync old₁ old₂ { w₁ with ctx := c } { w₂ with ctx := c } :=
  ⟨h.toApart.setCtx c c, rfl⟩

theorem Alike.modifyTx (f : TxInfo → TxInfo) :
    Alike sync old₁ old₂ (w₁.modifyTx f) (w₂.modifyTx f) := by
  unfold World.modifyTx
  rw [← h.ctx]
  exact h.setCtx _

theorem alike_uiMenuMain : Alike sync old₁ old₂ (uiMenuMain w₁) (uiMenuMain w₂) :=
  ⟨apart_uiMenuMain h.toApart, h.ctx⟩

theorem alike_ioSendResponse (rdata : Option Bytes) (sw : ℕ) :
    (ioSendResponse rdata sw w₁).1 = (ioSendResponse rdata sw w₂).1 ∧
      Alike sync old₁ old₂ (ioSendResponse rdata sw w₁).2 (ioSendResponse rdata sw w₂).2 := by
  obtain ⟨hret, hapart⟩ := apart_ioSendResponse h.toApart rdata sw
  exact ⟨hret, hapart, by rw [ctx_ioSendResponse, ctx_ioSendResponse, h.ctx]⟩

theorem alike_ioSendSw (sw : ℕ) :
    (ioSendSw sw w₁).1 = (ioSendSw sw w₂).1 ∧
      Alike sync old₁ old₂ (ioSendSw sw w₁).2 (ioSendSw sw w₂).2 :=
  alike_ioSendResponse h none sw

/-- The context is wiped, the host is told, and the main menu is shown. -/
theorem alike_cancel (sw : ℕ) : Alike sync old₁ old₂
    (uiMenuMain (ioSendSw sw (explicitBzeroContext w₁)).2)
    (uiMenuMain (ioSendSw sw (explicitBzeroContext w₂)).2) :=
  alike_uiMenuMain (alike_ioSendSw (apart_explicitBzeroContext h.toApart) sw).2

theorem alike_uiDisplayTxConfirm :
    Alike sync old₁ old₂ (uiDisplayTxConfirm w₁) (uiDisplayTxConfirm w₂) := by
  unfold uiDisplayTxConfirm
  rw [← h.ctx]
  split_ifs
  · exact alike_cancel h _
  · exact ⟨h.toApart.openScreen ⟨rfl, rfl, fun _ => ⟨rfl, rfl⟩, nofun⟩, h.ctx⟩

theorem alike_checkOutputIndexState :
    (checkOutputIndexState w₁).1 = (checkOutputIndexState w₂).1 ∧
      Alike sync old₁ old₂ (checkOutputIndexState w₁).2 (checkOutputIndexState w₂).2 := by
  unfold checkOutputIndexState
  rw [← h.ctx]
  split_ifs
  · exact ⟨rfl, alike_uiDisplayTxConfirm (h.setCtx _)⟩
  · exact ⟨rfl, alike_uiMenuMain (alike_ioSendSw (h.modifyTx _) _).2⟩
  · exact ⟨rfl, h⟩

end SameContext

theorem alike_skipChangeLoop (h : Alike sync old₁ old₂ w₁ w₂) (indices : List ℕ) :
    (skipChangeLoop indices w₁).1 = (skipChangeLoop indices w₂).1 ∧
      Alike sync old₁ old₂ (skipChangeLoop indices w₁).2 (skipChangeLoop indices w₂).2 := by
  induction indices generalizing w₁ w₂ with
  | nil => exact ⟨rfl, h⟩
  | cons index indices ih =>
    have hadvanced : Alike sync old₁ old₂ (advanceReview w₁) (advanceReview w₂) := h.modifyTx _
    obtain ⟨hdone, hcheck⟩ := alike_checkOutputIndexState hadvanced
    simp only [skipChangeLoop, ← h.ctx, ← hdone]
    split_ifs
    · exact ⟨rfl, hcheck⟩
    · exact ih hcheck
    · exact ih h

theorem alike_recordChangesRead (h : Alike sync old₁ old₂ w₁ w₂) :
    Alike sync old₁ old₂ (recordChangesRead w₁) (recordChangesRead w₂) := by
  unfold recordChangesRead
  rw [← h.ctx]
  split_ifs
  · exact h
  · exact h.emit rfl

theorem alike_skipChangeOutputs (h : Alike sync old₁ old₂ w₁ w₂) :
    (skipChangeOutputs w₁).1 = (skipChangeOutputs w₂).1 ∧
      Alike sync old₁ old₂ (skipChangeOutputs w₁).2 (skipChangeOutputs w₂).2 := by
  unfold skipChangeOutputs
  rw [← h.ctx]
  split_ifs
  · exact ⟨rfl, h⟩
  · exact alike_skipChangeLoop (alike_recordChangesRead h) _

/-! ### The review -/

/-- The same platform with other contents behind `outputs`. -/
def Sdk.withPast (sdk : Sdk) (past : ℕ → TxOutput) : Sdk := { sdk with pastOutputs := past }

/-- The display index points behind the array `outputs`. -/
def TxInfo.ReadsPast (t : TxInfo) : Prop :=
  t.outputs.length ≤ t.displayIndex ∧ t.displayIndex ≠ t.bufferOutputLen

variable {sdk : Sdk} {past : ℕ → TxOutput}

theorem displayedOutput_withPast {t : TxInfo} (h : t.displayIndex < t.outputs.length) :
    displayedOutput (sdk.withPast past) t = displayedOutput sdk t := by
  rw [displayedOutput, displayedOutput, List.getD_eq_getElem?_getD, List.getD_eq_getElem?_getD,
    List.getElem?_eq_getElem h, Option.getD_some, Option.getD_some]

theorem alike_recordTokenRead (h : Alike sync old₁ old₂ w₁ w₂) (output : TxOutput) :
    Alike sync old₁ old₂ (recordTokenRead output w₁) (recordTokenRead output w₂) := by
  unfold recordTokenRead
  split_ifs
  · exact h
  · exact h.emit rfl

/-- The end of `ui_display_tx_outputs`, where an output is left to show. -/
def showDisplayed (sdk : Sdk) (w : World) : World :=
  let output := displayedOutput sdk w.ctx.txInfo
  let ui := Globals.outputUi sdk w.tokenSymbols w.ctx.txInfo output w.ui
  World.emit (.shown ui.shown) { recordTokenRead output (recordChangesRead w) with ui }

theorem uiDisplayTxOutputs_eq (w : World) : uiDisplayTxOutputs sdk w =
    if (checkOutputIndexState w).1 then (checkOutputIndexState w).2
    else if (skipChangeOutputs (checkOutputIndexState w).2).1 then
      (skipChangeOutputs (checkOutputIndexState w).2).2
    else showDisplayed sdk (skipChangeOutputs (checkOutputIndexState w).2).2 := by
  obtain ⟨done, w₁, hcheck⟩ : ∃ done w₁, checkOutputIndexState w = (done, w₁) := ⟨_, _, rfl⟩
  obtain ⟨done', w₂, hskip⟩ : ∃ done' w₂, skipChangeOutputs w₁ = (done', w₂) := ⟨_, _, rfl⟩
  cases done with
  | true => simp [uiDisplayTxOutputs, prepareDisplayOutput, hcheck]
  | false =>
    cases done' with
    | true => simp [uiDisplayTxOutputs, prepareDisplayOutput, hcheck, hskip]
    | false =>
      simp only [uiDisplayTxOutputs, prepareDisplayOutput, hcheck, hskip, Bool.false_eq_true,
        if_false, addressFromPubkeyHash_eq]
      unfold showWithCallback uxFlowInit showDisplayed recordTokenRead recordChangesRead
      dsimp only
      split_ifs <;> rfl

theorem io_showDisplayed (w : World) : (showDisplayed sdk w).io = w.io := by
  unfold showDisplayed recordTokenRead recordChangesRead
  dsimp only
  split_ifs <;> rfl

theorem ctx_showDisplayed (w : World) : (showDisplayed sdk w).ctx = w.ctx := by
  unfold showDisplayed recordTokenRead recordChangesRead
  dsimp only
  split_ifs <;> rfl

/-- The next output is shown, unless it is one behind the array. -/
theorem alike_showDisplayed (h : Alike sync old₁ old₂ w₁ w₂)
    (hlt : w₁.ctx.txInfo.displayIndex < w₁.ctx.txInfo.outputs.length) :
    Alike sync old₁ old₂ (showDisplayed sdk w₁) (showDisplayed (sdk.withPast past) w₂) := by
  have hctx := h.ctx
  have htokens := h.tokenSymbols
  unfold showDisplayed
  rw [← hctx, ← htokens, displayedOutput_withPast hlt]
  have hread := alike_recordTokenRead (alike_recordChangesRead h)
    (displayedOutput sdk w₁.ctx.txInfo)
  refine ⟨hread.toApart.openScreen ⟨rfl, rfl, fun _ => ⟨rfl, rfl⟩, fun _ => ⟨rfl, rfl, rfl⟩⟩, ?_⟩
  exact hread.ctx

/-- Where something is left to show, the display index is not at the end of the decoded outputs. -/
theorem displayIndex_ne_of_shown (w : World) (hcheck : (checkOutputIndexState w).1 = false)
    (hskip : (skipChangeOutputs (checkOutputIndexState w).2).1 = false) :
    (skipChangeOutputs (checkOutputIndexState w).2).2.ctx.txInfo.displayIndex ≠
        (skipChangeOutputs (checkOutputIndexState w).2).2.ctx.txInfo.bufferOutputLen ∧
      (skipChangeOutputs (checkOutputIndexState w).2).2.io = w.io := by
  rcases @checkOutputIndexState_cases w with ⟨hdone, -⟩ | ⟨hsame, -, hne⟩
  · cases hcheck.symm.trans hdone
  · rw [hsame] at hskip ⊢
    obtain ⟨n, d, c, ⟨hdone, -⟩ | ⟨-, hglobals, hcounters⟩, -⟩ := @skipChangeOutputs_cases w
    · cases hskip.symm.trans hdone
    · have hctx : (skipChangeOutputs w).2.ctx = ((w.globals.readChanges n).review d c).ctx :=
        congrArg Globals.ctx hglobals
      have hio : (skipChangeOutputs w).2.io = w.io := congrArg Globals.io hglobals
      refine ⟨?_, hio⟩
      rw [hctx]
      rcases hcounters with ⟨rfl, -⟩ | ⟨hd, -⟩
      · exact hne
      · exact hd

/-- The review goes on with the next output, unless it is one behind the array. -/
theorem alike_uiDisplayTxOutputs (h : Alike sync old₁ old₂ w₁ w₂) :
    Alike sync old₁ old₂ (uiDisplayTxOutputs sdk w₁) (uiDisplayTxOutputs (sdk.withPast past) w₂) ∨
      (uiDisplayTxOutputs sdk w₁).ctx.txInfo.ReadsPast ∧
        (uiDisplayTxOutputs sdk w₁).io = w₁.io := by
  obtain ⟨hdone, hcheck⟩ := alike_checkOutputIndexState h
  obtain ⟨hdone', hskip⟩ := alike_skipChangeOutputs hcheck
  rw [uiDisplayTxOutputs_eq, uiDisplayTxOutputs_eq, ← hdone, ← hdone']
  split_ifs with hc hs
  · exact .inl hcheck
  · exact .inl hskip
  · rcases lt_or_ge (skipChangeOutputs (checkOutputIndexState w₁).2).2.ctx.txInfo.displayIndex
      (skipChangeOutputs (checkOutputIndexState w₁).2).2.ctx.txInfo.outputs.length with hlt | hge
    · exact .inl (alike_showDisplayed hskip hlt)
    · obtain ⟨hne, hio⟩ := displayIndex_ne_of_shown w₁ (Bool.eq_false_iff.2 hc)
        (Bool.eq_false_iff.2 hs)
      rw [ctx_showDisplayed, io_showDisplayed]
      exact .inr ⟨⟨hge, hne⟩, hio⟩

/-! ### Presses -/

theorem alike_uiActionTxConfirm (h : Alike sync old₁ old₂ w₁ w₂) (choice : Bool) :
    Alike sync old₁ old₂ (uiActionTxConfirm choice w₁) (uiActionTxConfirm choice w₂) := by
  unfold uiActionTxConfirm
  cases choice with
  | true =>
    obtain ⟨-, hsent⟩ := alike_ioSendSw (h.setCtx { w₁.ctx with state := .approved }) Sw.ok
    rw [← h.ctx]
    exact ⟨apart_uxFlowInit hsent.toApart rfl rfl, hsent.ctx⟩
  | false => exact alike_cancel h Sw.deny

theorem alike_uiConfirmOutput (h : Alike sync old₁ old₂ w₁ w₂) (choice : Bool) :
    Alike sync old₁ old₂ (uiConfirmOutput sdk choice w₁)
        (uiConfirmOutput (sdk.withPast past) choice w₂) ∨
      (uiConfirmOutput sdk choice w₁).ctx.txInfo.ReadsPast := by
  cases choice with
  | true =>
    have hadvanced : Alike sync old₁ old₂ (advanceReview w₁) (advanceReview w₂) := h.modifyTx _
    obtain ⟨hdone, hskip⟩ := alike_skipChangeOutputs hadvanced
    simp only [uiConfirmOutput, if_true, ← hdone]
    split_ifs
    · exact .inl hskip
    · exact (alike_uiDisplayTxOutputs hskip).imp id And.left
  | false => exact .inl (alike_cancel h Sw.deny)

theorem alike_validateCallback (h : Alike sync old₁ old₂ w₁ w₂) (hui : UiAlike w₁.ui w₂.ui)
    (hopen : w₁.ui.flow.hasApprove = true) (choice : Bool) :
    Alike sync old₁ old₂ (validateCallback sdk choice w₁)
        (validateCallback (sdk.withPast past) choice w₂) ∨
      (validateCallback sdk choice w₁).ctx.txInfo.ReadsPast := by
  obtain ⟨h₁, h₂⟩ := hui.callback hopen
  have hsigning := hui.ofSigning
  unfold validateCallback
  rw [h₁, h₂]
  cases hflow : w₁.ui.flow with
  | confirmTx => exact .inl (alike_uiActionTxConfirm h choice)
  | txOutput => exact alike_uiConfirmOutput h choice
  | menuMain | menuAbout | processing =>
    rw [hflow] at hopen
    cases hopen
  | xpub | address | resetTokenSignatures | signTokenData =>
    rw [hflow] at hsigning
    cases hsigning

/-- A press on a screen that the session has opened. -/
theorem alike_runPress (h : Alike True old₁ old₂ w₁ w₂) (hshown : HasShown old₁ w₁)
    (button : Button) :
    Alike True old₁ old₂ (runPress sdk button w₁) (runPress (sdk.withPast past) button w₂) ∨
      (runPress sdk button w₁).ctx.txInfo.ReadsPast := by
  have hui := h.ui hshown
  have hpressed : Alike True old₁ old₂ (w₁.emit (.pressed button w₁.ui.shown))
      (w₂.emit (.pressed button w₂.ui.shown)) := by
    rw [← hui.shown]
    exact h.emit rfl
  generalize hv₁ : w₁.emit (.pressed button w₁.ui.shown) = v₁ at hpressed
  generalize hv₂ : w₂.emit (.pressed button w₂.ui.shown) = v₂ at hpressed
  have hui' : UiAlike v₁.ui v₂.ui := by
    rw [← hv₁, ← hv₂]
    exact hui
  have hflow := hui'.flow
  have hopened : ∀ flow : Flow, flow.ofSigning = true → flow.hasApprove = false →
      Alike True old₁ old₂ (uxFlowInit flow v₁) (uxFlowInit flow v₂) := fun flow hsigning hclosed =>
    ⟨apart_uxFlowInit hpressed.toApart hsigning hclosed, hpressed.ctx⟩
  simp only [runPress, hv₁, hv₂]
  cases button with
  | approve =>
    dsimp only
    rw [← hflow]
    split_ifs with hopen
    · exact alike_validateCallback hpressed hui' hopen true
    · exact .inl hpressed
  | reject =>
    dsimp only
    rw [← hflow]
    split_ifs with hreject
    · exact alike_validateCallback hpressed hui' (hasApprove_of_hasReject hreject) false
    · exact .inl hpressed
  | quit =>
    dsimp only
    rw [← hflow]
    cases v₁.ui.flow with
    | processing => exact .inl (alike_uiMenuMain (apart_explicitBzeroContext hpressed.toApart))
    | menuMain => exact .inl (apart_appMain hpressed.toApart)
    | _ => exact .inl hpressed
  | about =>
    dsimp only
    rw [← hflow]
    split_ifs
    · exact .inl (hopened .menuAbout rfl rfl)
    · exact .inl hpressed
  | back =>
    dsimp only
    rw [← hflow]
    split_ifs
    · exact .inl (hopened .menuMain rfl rfl)
    · exact .inl hpressed

/-! ### The data stage -/

open EStateM (Agree)

theorem agree_onTx {α : Type} (h : Alike sync old₁ old₂ w₁ w₂) (x : EStateM ℕ TxInfo α) :
    (onTx x).Agree (onTx x) (fun _ v₁ v₂ => Alike sync old₁ old₂ v₁ v₂ ∧ v₁.io = w₁.io)
      (fun _ v₁ v₂ => Alike sync old₁ old₂ v₁ v₂) w₁ w₂ := by
  have hset : ∀ t, Alike sync old₁ old₂ { w₁ with ctx.txInfo := t } { w₂ with ctx.txInfo := t } := by
    intro t
    rw [← h.ctx]
    exact h.setCtx _
  refine EStateM.agree_zoom (congrArg GlobalCtx.txInfo h.ctx.symm) ?_
  exact EStateM.wp_mono (fun _ t _ => ⟨hset t, rfl⟩) (fun _ t _ => hset t) (EStateM.wp_run x _)

theorem alike_sighashAllHash (h : Alike sync old₁ old₂ w₁ w₂) (cdata : Buffer) :
    Alike sync old₁ old₂ (sighashAllHash cdata w₁) (sighashAllHash cdata w₂) :=
  (h.modifyTx _).emit rfl

theorem alike_initSignTxCtx (h : Apart sync old₁ old₂ w₁ w₂) :
    Alike sync old₁ old₂ (initSignTxCtx w₁) (initSignTxCtx w₂) :=
  ((apart_explicitBzeroContext h).setCtx
    { state := .recvData, reqType := .confirmTransaction, txInfo.sha256 := .fed [] }).emit rfl

/-- A first chunk needs nothing of the context but its state. -/
theorem agree_receiveChunk {cdata : Buffer} {chunk : ℕ} (h : Apart sync old₁ old₂ w₁ w₂)
    (hstate : w₁.ctx.state = w₂.ctx.state) (hctx : chunk ≠ 0 → w₁.ctx = w₂.ctx) :
    (receiveChunk cdata chunk).Agree (receiveChunk cdata chunk)
      (fun _ v₁ v₂ => Alike sync old₁ old₂ v₁ v₂ ∧ v₁.io = w₁.io)
      (fun _ v₁ v₂ => Alike sync old₁ old₂ v₁ v₂) w₁ w₂ := by
  unfold receiveChunk
  split_ifs with hchunk
  · rw [EStateM.agree_get_bind, ← hstate]
    split_ifs
    · rw [EStateM.agree_modify_bind, EStateM.agree_throw]
      exact apart_explicitBzeroContext h
    · rw [EStateM.agree_modify_bind]
      have hinit := alike_initSignTxCtx h
      refine EStateM.agree_bind (agree_onTx hinit _) fun cdata v₁ v₂ ⟨hv, hio⟩ => ?_
      rw [EStateM.agree_modify_bind]
      have hhashed := alike_sighashAllHash hv cdata
      refine EStateM.agree_bind (agree_onTx hhashed _) fun cdata u₁ u₂ ⟨hu, hio'⟩ => ?_
      refine EStateM.agree_bind (agree_onTx hu _) fun _ u₁' u₂' ⟨hu', hio''⟩ => ?_
      rw [EStateM.agree_modify]
      exact ⟨hu'.emit rfl, hio''.trans (hio'.trans hio)⟩
  · rw [EStateM.agree_modify_bind]
    exact agree_onTx (alike_sighashAllHash ⟨h, hctx hchunk⟩ cdata) _

/-! ### Decoding on two platforms -/

theorem verifyChanges_withPast (output : TxOutput) (infos : List ChangeOutputInfo) :
    verifyChanges (sdk.withPast past) output infos = verifyChanges sdk output infos := by
  induction infos with
  | nil => rfl
  | cons info infos ih =>
    simp only [verifyChanges, ih]
    rfl

theorem decodeElements_withPast (registry : TokenDataCtx) (t : TxInfo) :
    decodeElements (sdk.withPast past) registry t = decodeElements sdk registry t := by
  have houtput : decodeOutput (sdk.withPast past) = decodeOutput sdk := by
    unfold decodeOutput
    simp only [verifyChanges_withPast]
  have hstep : decodeElementsStep (sdk.withPast past) = decodeElementsStep sdk := by
    unfold decodeElementsStep
    rw [houtput]
  have hloop : ∀ n, decodeElementsLoop (sdk.withPast past) registry n =
      decodeElementsLoop sdk registry n := by
    intro n
    induction n with
    | zero => rfl
    | succ n ih => rw [decodeElementsLoop, decodeElementsLoop, hstep, ih]
  unfold decodeElements
  rw [hloop]

theorem alike_recordDecoded (h : Alike sync old₁ old₂ w₁ w₂) (t t' : TxInfo) :
    Alike sync old₁ old₂ (recordDecoded t t' w₁) (recordDecoded t t' w₂) := by
  have hnone : screens (decodeEvents t t') = [] := List.filterMap_eq_nil_iff.2 fun e he => by
    rcases mem_decodeEvents he with rfl | rfl | ⟨info, -, rfl⟩ <;> rfl
  have hsame : screens (recordDecoded t t' w₁).trace = screens w₁.trace := by
    have happend : screens (decodeEvents t t' ++ w₁.trace) =
        screens (decodeEvents t t') ++ screens w₁.trace := List.filterMap_append
    rw [hnone, List.nil_append] at happend
    exact happend
  obtain ⟨new, h₁, h₂⟩ := h.trace
  refine ⟨⟨h.tokenSymbols, h.state, h.asynch, h.output, ⟨decodeEvents t t' ++ new, ?_, ?_⟩,
    fun hshown => h.ui ?_⟩, h.ctx⟩
  · exact (congrArg (decodeEvents t t' ++ ·) h₁).trans (List.append_assoc ..).symm
  · exact (congrArg (decodeEvents t t' ++ ·) h₂).trans (List.append_assoc ..).symm
  · rwa [HasShown, hsame] at hshown

theorem agree_decodeChunk (h : Alike sync old₁ old₂ w₁ w₂) :
    (decodeChunk sdk).Agree (decodeChunk (sdk.withPast past))
      (fun done v₁ v₂ => Alike sync old₁ old₂ v₁ v₂ ∨
        v₁.ctx.txInfo.ReadsPast ∧ v₁.io = w₁.io ∧ done = true)
      (fun _ _ _ => False) w₁ w₂ := by
  unfold decodeChunk
  rw [EStateM.agree_get_bind]
  obtain ⟨result, t, hdecode⟩ : ∃ result t,
      decodeElements sdk w₁.tokenSymbols w₁.ctx.txInfo = (result, t) := ⟨_, _, rfl⟩
  have hdecode' : decodeElements (sdk.withPast past) w₂.tokenSymbols w₂.ctx.txInfo =
      (result, t) := by
    rw [decodeElements_withPast, ← h.ctx, ← h.tokenSymbols, hdecode]
  have hdecoded : Alike sync old₁ old₂
      (recordDecoded w₁.ctx.txInfo t { w₁ with ctx.txInfo := t })
      (recordDecoded w₂.ctx.txInfo t { w₂ with ctx.txInfo := t }) := by
    rw [← h.ctx]
    exact alike_recordDecoded (h.setCtx _) w₁.ctx.txInfo t
  rw [hdecode, hdecode']
  dsimp only
  rw [EStateM.agree_set_bind]
  split_ifs
  · rw [EStateM.agree_modify_bind, EStateM.agree_modifyGet_bind, EStateM.agree_modify_bind,
      EStateM.agree_pure]
    exact .inl (alike_cancel hdecoded _)
  · rw [EStateM.agree_modify_bind, EStateM.agree_pure]
    exact (alike_uiDisplayTxOutputs hdecoded).imp id fun ⟨hpast, hio⟩ => ⟨hpast, hio, rfl⟩
  · rw [EStateM.agree_modifyGet_bind, EStateM.agree_pure]
    exact .inl (alike_ioSendSw hdecoded _).2
  · rw [EStateM.agree_pure]
    exact .inl hdecoded

theorem agree_receiveData {cdata : Buffer} {chunk : ℕ} (h : Apart sync old₁ old₂ w₁ w₂)
    (hstate : w₁.ctx.state = w₂.ctx.state) (hctx : chunk ≠ 0 → w₁.ctx = w₂.ctx) :
    (receiveData sdk cdata chunk).Agree (receiveData (sdk.withPast past) cdata chunk)
      (fun done v₁ v₂ => Alike sync old₁ old₂ v₁ v₂ ∨
        v₁.ctx.txInfo.ReadsPast ∧ v₁.io = w₁.io ∧ done = true)
      (fun _ v₁ v₂ => Alike sync old₁ old₂ v₁ v₂) w₁ w₂ := by
  refine EStateM.agree_bind (agree_receiveChunk h hstate hctx) fun _ v₁ v₂ ⟨hv, hio⟩ => ?_
  rw [← hio]
  exact EStateM.agree_mono (fun _ _ _ => id) (fun _ _ _ => False.elim) (agree_decodeChunk hv)

/-! ### The sign stage -/

theorem agree_signTxWithKey (h : Alike sync old₁ old₂ w₁ w₂) :
    (signTxWithKey sdk).Agree (signTxWithKey sdk) (fun _ v₁ v₂ => Alike sync old₁ old₂ v₁ v₂)
      (fun _ _ _ => False) w₁ w₂ := by
  have hreply : ∀ {v₁ v₂ : World} (rdata : Option Bytes) (sw : ℕ) (f : ℤ → Bool),
      Alike sync old₁ old₂ v₁ v₂ →
      (modifyGet (ioSendResponse rdata sw) >>= fun ret => pure (f ret) : App Bool).Agree
        (modifyGet (ioSendResponse rdata sw) >>= fun ret => pure (f ret))
        (fun _ v₁ v₂ => Alike sync old₁ old₂ v₁ v₂) (fun _ _ _ => False) v₁ v₂ := by
    intro v₁ v₂ rdata sw f hv
    obtain ⟨hret, hsent⟩ := alike_ioSendResponse hv rdata sw
    rw [EStateM.agree_modifyGet_bind, ← hret, EStateM.agree_pure]
    exact hsent
  unfold signTxWithKey
  rw [EStateM.agree_get_bind]
  simp only [← h.ctx]
  split_ifs
  · exact hreply none _ _ h
  · have hderived := h.emit (e := .derived w₁.ctx.bip32Path) rfl
    rw [EStateM.agree_modify_bind]
    cases sdk.derivePrivateKey w₁.ctx.bip32Path.components with
    | none => exact hreply none _ _ hderived
    | some keys =>
      cases finishSighashAll sdk w₁.ctx.txInfo with
      | none => exact hreply none _ _ hderived
      | some t =>
        have hfinished := (hderived.modifyTx fun _ => t).emit (e := .hashFinished) rfl
        dsimp only
        rw [EStateM.agree_modify_bind]
        cases sdk.ecdsaSign keys.1 t.sighashAll with
        | none => exact hreply none _ _ hfinished
        | some signature =>
          dsimp only
          rw [EStateM.agree_modify_bind]
          exact hreply (some signature) _ _ (hfinished.emit rfl)

/-! ### Commands -/

/-- The apps are in lockstep: their contexts are the same, or both hold nothing and the session has
opened no screen yet. -/
structure Joined (sync : Prop) (old₁ old₂ : List Event) (w₁ w₂ : World) : Prop
    extends Apart sync old₁ old₂ w₁ w₂ where
  ctx : w₁.ctx = w₂.ctx ∨
    w₁.ctx.state = .none ∧ w₂.ctx.state = .none ∧ ¬HasShown old₁ w₁

theorem Alike.joined (h : Alike sync old₁ old₂ w₁ w₂) : Joined sync old₁ old₂ w₁ w₂ :=
  ⟨h.toApart, .inl h.ctx⟩

theorem Joined.state_eq (h : Joined sync old₁ old₂ w₁ w₂) : w₁.ctx.state = w₂.ctx.state := by
  rcases h.ctx with hctx | ⟨h₁, h₂, -⟩
  · rw [hctx]
  · rw [h₁, h₂]

/-- Where the context is in use, it is the same. -/
theorem Joined.alike (h : Joined sync old₁ old₂ w₁ w₂) (hstate : w₁.ctx.state ≠ .none) :
    Alike sync old₁ old₂ w₁ w₂ :=
  ⟨h.toApart, h.ctx.resolve_right fun hnone => hstate hnone.1⟩

theorem Joined.restartReview (h : Joined sync old₁ old₂ w₁ w₂) : Joined sync old₁ old₂
    (w₁.modifyTx fun t => { t with displayIndex := 0, bufferOutputLen := 0 })
    (w₂.modifyTx fun t => { t with displayIndex := 0, bufferOutputLen := 0 }) := by
  refine ⟨h.toApart.setCtx _ _, ?_⟩
  rcases h.ctx with hctx | hnone
  · exact .inl ((Alike.mk h.toApart hctx).modifyTx _).ctx
  · exact .inr hnone

theorem screens_ioSendResponse (w : World) (rdata : Option Bytes) (sw : ℕ) :
    screens (ioSendResponse rdata sw w).2.trace = screens w.trace := by
  unfold ioSendResponse ioTransmit
  dsimp only
  split
  · rfl
  · rfl
  · split_ifs <;> rfl

theorem joined_ioSendSw (h : Joined sync old₁ old₂ w₁ w₂) (sw : ℕ) :
    (ioSendSw sw w₁).1 = (ioSendSw sw w₂).1 ∧
      Joined sync old₁ old₂ (ioSendSw sw w₁).2 (ioSendSw sw w₂).2 := by
  obtain ⟨hret, hsent⟩ := apart_ioSendResponse h.toApart none sw
  refine ⟨hret, hsent, ?_⟩
  unfold ioSendSw HasShown
  rw [ctx_ioSendResponse, ctx_ioSendResponse, screens_ioSendResponse]
  exact h.ctx

/-- A context is wiped, whether it was the same or not, and the command is answered. -/
theorem agree_cancel (h : Apart sync old₁ old₂ w₁ w₂) (sw : ℕ) :
    (modify (uiMenuMain ∘ explicitBzeroContext) >>= fun _ => modifyGet (ioSendSw sw) : App ℤ).Agree
      (modify (uiMenuMain ∘ explicitBzeroContext) >>= fun _ => modifyGet (ioSendSw sw))
      (fun _ v₁ v₂ => Alike sync old₁ old₂ v₁ v₂) (fun _ _ _ => False) w₁ w₂ := by
  rw [EStateM.agree_modify_bind, EStateM.agree_modifyGet]
  exact alike_ioSendSw (alike_uiMenuMain (apart_explicitBzeroContext h)) sw

/-- The two apps handle a command in the same way. -/
theorem agree_handlerSignTx (h : Joined sync old₁ old₂ w₁ w₂) (cdata : Buffer) (stage chunk : ℕ) :
    (handlerSignTx sdk cdata stage chunk).Agree (handlerSignTx (sdk.withPast past) cdata stage chunk)
      (fun ret v₁ v₂ => Joined sync old₁ old₂ v₁ v₂ ∨
        v₁.ctx.txInfo.ReadsPast ∧ v₁.io = w₁.io ∧ 0 ≤ ret)
      (fun _ v₁ v₂ => Joined sync old₁ old₂ v₁ v₂) w₁ w₂ := by
  have hcancel : ∀ {v₁ v₂ : World} (sw : ℕ), Apart sync old₁ old₂ v₁ v₂ →
      (modify (uiMenuMain ∘ explicitBzeroContext) >>= fun _ => modifyGet (ioSendSw sw) : App ℤ).Agree
        (modify (uiMenuMain ∘ explicitBzeroContext) >>= fun _ => modifyGet (ioSendSw sw))
        (fun ret v₁ v₂ => Joined sync old₁ old₂ v₁ v₂ ∨
        v₁.ctx.txInfo.ReadsPast ∧ v₁.io = w₁.io ∧ 0 ≤ ret)
        (fun _ v₁ v₂ => Joined sync old₁ old₂ v₁ v₂) v₁ v₂ := fun sw hv =>
    EStateM.agree_mono (fun _ _ _ hq => .inl hq.joined) (fun _ _ _ => False.elim)
      (agree_cancel hv sw)
  have hanswer : ∀ {v₁ v₂ : World} (sw : ℕ), Joined sync old₁ old₂ v₁ v₂ →
      (modifyGet (ioSendSw sw) : App ℤ).Agree (modifyGet (ioSendSw sw))
        (fun ret v₁ v₂ => Joined sync old₁ old₂ v₁ v₂ ∨
        v₁.ctx.txInfo.ReadsPast ∧ v₁.io = w₁.io ∧ 0 ≤ ret)
        (fun _ v₁ v₂ => Joined sync old₁ old₂ v₁ v₂) v₁ v₂ := by
    intro v₁ v₂ sw hv
    obtain ⟨hret, hsent⟩ := joined_ioSendSw hv sw
    exact (EStateM.agree_modifyGet _ _).2 ⟨hret, .inl hsent⟩
  have hrestarted := h.restartReview
  unfold handlerSignTx
  rw [EStateM.agree_modify_bind, EStateM.agree_get_bind]
  generalize hv₁ : w₁.modifyTx (fun t => { t with displayIndex := 0, bufferOutputLen := 0 }) = v₁
    at hrestarted
  generalize w₂.modifyTx (fun t => { t with displayIndex := 0, bufferOutputLen := 0 }) = v₂
    at hrestarted
  have hio : v₁.io = w₁.io := by
    rw [← hv₁]
    rfl
  rw [← hrestarted.state_eq]
  split_ifs with hsend hsign happroved hdata hrefused
  · exact hcancel _ hrestarted.toApart
  · exact hanswer _ hrestarted
  · have halike := hrestarted.alike (by rw [not_not.1 happroved]; nofun)
    obtain ⟨accepted, path, rest, hread⟩ : ∃ accepted path rest,
        cdata.readBip32Path v₁.ctx.bip32Path = (accepted, path, rest) := ⟨_, _, _, rfl⟩
    have hpath := halike.setCtx { v₁.ctx with bip32Path := path }
    rw [← halike.ctx, hread]
    dsimp only
    rw [EStateM.agree_set_bind]
    split_ifs
    · exact hanswer _ hpath.joined
    · have hsame : signTxWithKey (sdk.withPast past) = signTxWithKey sdk := rfl
      rw [hsame]
      refine EStateM.agree_bind (EStateM.agree_mono (fun _ _ _ => id) (fun _ _ _ => False.elim)
        (agree_signTxWithKey hpath)) fun signed u₁ u₂ hu => ?_
      rw [EStateM.agree_pure]
      exact .inl hu.joined
  · exact hcancel _ hrestarted.toApart
  · have hctx : chunk ≠ 0 → v₁.ctx = v₂.ctx := by
      intro hchunk
      refine (hrestarted.alike fun hnone => hrefused (.inr ⟨Nat.pos_of_ne_zero hchunk, ?_⟩)).ctx
      rw [hnone]
      nofun
    have hreceived : (receiveData sdk cdata chunk).Agree (receiveData (sdk.withPast past) cdata chunk)
        (fun done u₁ u₂ => Joined sync old₁ old₂ u₁ u₂ ∨
          u₁.ctx.txInfo.ReadsPast ∧ u₁.io = w₁.io ∧ done = true)
        (fun _ u₁ u₂ => Joined sync old₁ old₂ u₁ u₂) v₁ v₂ := by
      rw [← hio]
      exact EStateM.agree_mono (fun _ _ _ => .imp Alike.joined id) (fun _ _ _ => Alike.joined)
        (agree_receiveData hrestarted.toApart hrestarted.state_eq hctx)
    refine EStateM.agree_bind hreceived fun received u₁ u₂ hu => ?_
    rw [EStateM.agree_pure]
    refine hu.imp id fun ⟨hpast, hio, hdone⟩ => ⟨hpast, hio, ?_⟩
    rw [hdone]
    rfl
  · exact hcancel _ hrestarted.toApart

theorem ctx_mainLoop {w : World} (hne : w.io.state ≠ .waiting) :
    (mainLoop w).ctx = w.ctx ∧ screens (mainLoop w).trace = screens w.trace := by
  unfold mainLoop ioRecvCommand ioTransmit
  cases hio : w.io.state with
  | ready =>
    dsimp only [Option.getD_some]
    split_ifs <;> exact ⟨rfl, rfl⟩
  | received => exact ⟨rfl, rfl⟩
  | waiting => exact absurd hio hne

theorem joined_mainLoop (h : Joined sync old₁ old₂ w₁ w₂) :
    Joined True old₁ old₂ (mainLoop w₁) (mainLoop w₂) := by
  have hloop := apart_mainLoop h.toApart
  by_cases hwaiting : w₁.io.state = .waiting
  · have hrestart : ∀ w : World, w.io.state = .waiting → mainLoop w = appMain w := by
      intro w hio
      rw [mainLoop, ioRecvCommand, hio]
      rfl
    rw [hrestart w₁ hwaiting, hrestart w₂ (h.state.symm.trans hwaiting)]
    exact (apart_appMain h.toApart).joined
  · obtain ⟨hctx₁, hscreens⟩ := ctx_mainLoop hwaiting
    obtain ⟨hctx₂, -⟩ := ctx_mainLoop (h.state ▸ hwaiting)
    refine ⟨hloop, ?_⟩
    rw [hctx₁, hctx₂, HasShown, hscreens]
    exact h.ctx

/-- The command that is handled in the same way is written to both buffers. -/
theorem joined_ioDeliver (h : Joined True old₁ old₂ w₁ w₂) (apdu : Bytes) :
    Joined False old₁ old₂ (ioDeliver apdu w₁) (ioDeliver apdu w₂) := by
  have hasynch := h.asynch trivial
  have hdelivered : Apart False old₁ old₂
      { w₁ with io := { w₁.io with
        apduBuffer := memmove w₁.io.apduBuffer 0 apdu
        state := if w₁.io.asynch then .received else w₁.io.state } }
      { w₂ with io := { w₂.io with
        apduBuffer := memmove w₂.io.apduBuffer 0 apdu
        state := if w₂.io.asynch then .received else w₂.io.state } } := by
    refine h.toApart.setIo _ _ ?_ False.elim fun hready => ?_
    · dsimp only
      rw [hasynch, h.state]
    · have hstate : w₁.io.state = .ready := by
        dsimp only at hready
        split_ifs at hready
        exact hready
      obtain ⟨hlen, htake⟩ := h.output hstate
      refine ⟨hlen, ?_⟩
      have hdrop := congrArg (List.drop apdu.length) htake
      rw [List.drop_take, List.drop_take] at hdrop
      dsimp only
      rw [memmove_zero, memmove_zero, List.take_append, List.take_append, hdrop]
  refine ⟨hdelivered.emit rfl, ?_⟩
  exact h.ctx

/-- The two apps go through a command in the same way. -/
theorem joined_runCommand {apdu : Bytes} (hsign : IsSignTx apdu)
    (h : Joined False old₁ old₂ (ioDeliver apdu w₁) (ioDeliver apdu w₂))
    (hio : (ioDeliver apdu w₁).io.state ≠ .waiting) :
    Joined True old₁ old₂ (runCommand sdk apdu w₁) (runCommand (sdk.withPast past) apdu w₂) ∨
      (runCommand sdk apdu w₁).ctx.txInfo.ReadsPast := by
  unfold runCommand
  generalize ioDeliver apdu w₁ = v₁ at h hio
  generalize ioDeliver apdu w₂ = v₂ at h
  cases hparse : apduParser apdu with
  | none => exact .inl (joined_mainLoop (joined_ioSendSw h _).2)
  | some cmd =>
    have hagree : (apduDispatcher sdk cmd).Agree (apduDispatcher (sdk.withPast past) cmd)
        (fun ret u₁ u₂ => Joined False old₁ old₂ u₁ u₂ ∨
          u₁.ctx.txInfo.ReadsPast ∧ u₁.io = v₁.io ∧ 0 ≤ ret)
        (fun _ u₁ u₂ => Joined False old₁ old₂ u₁ u₂) v₁ v₂ := by
      unfold apduDispatcher
      cases hcheck : checkCommand cmd with
      | error sw =>
        obtain ⟨hret, hsent⟩ := joined_ioSendSw h sw
        exact (EStateM.agree_modifyGet _ _).2 ⟨hret, .inl hsent⟩
      | ok call =>
        have hcall : callOf apdu = some call := by simp [callOf, hparse, hcheck, Except.toOption]
        obtain ⟨data, rfl⟩ := call_of_isSignTx hsign hcall
        exact agree_handlerSignTx h _ _ _
    dsimp only
    unfold Agree at hagree
    cases hrun₁ : (apduDispatcher sdk cmd).run v₁ with
    | ok ret u₁ =>
      cases hrun₂ : (apduDispatcher (sdk.withPast past) cmd).run v₂ with
      | ok ret' u₂ =>
        rw [hrun₁, hrun₂] at hagree
        obtain ⟨rfl, hjoined | ⟨hpast, hsame, hret⟩⟩ := hagree
        · dsimp only
          split_ifs
          · exact .inl (apart_appMain hjoined.toApart).joined
          · exact .inl (joined_mainLoop hjoined)
        · dsimp only
          rw [if_neg (not_lt.2 hret), (ctx_mainLoop (hsame ▸ hio)).1]
          exact .inr hpast
      | error e u₂ =>
        rw [hrun₁, hrun₂] at hagree
        exact hagree.elim
    | error e u₁ =>
      cases hrun₂ : (apduDispatcher (sdk.withPast past) cmd).run v₂ with
      | ok ret u₂ =>
        rw [hrun₁, hrun₂] at hagree
        exact hagree.elim
      | error e' u₂ =>
        rw [hrun₁, hrun₂] at hagree
        obtain ⟨rfl, hjoined⟩ := hagree
        exact .inl (joined_mainLoop (joined_ioSendSw hjoined e).2)

end HathorLedger
