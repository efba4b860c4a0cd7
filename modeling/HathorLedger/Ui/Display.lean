import HathorLedger.World
import HathorLedger.Token.TokenData

/-!
# The screens

The functions of `ui/display.c`, `ui/action/validate.c` and `helper/send_response.c`: the callbacks
of the approve and reject steps, the review of the outputs of a transaction, and the confirmation
screens of the other commands. The path step that `UI_SHOW_PATH` adds is not part of the default
build and is left out.

## Main definitions

* `checkOutputIndexState`, `inplaceSelectionSort`, `skipChangeOutputs`, `prepareDisplayOutput`,
  `uiDisplayTxOutputs`: the review of the outputs.
* `uiActionTxConfirm`, `uiConfirmOutput`, `uiActionConfirmXpub`, `uiActionConfirmAddress`,
  `uiActionSignTokenData`, `uiConfirmResetTokenSignatures`: the callbacks.
* `validateCallback`: the call through `g_validate_callback`.
-/

namespace HathorLedger

variable (sdk : Sdk)

/-- `action_exit_to_menu`. -/
def actionExitToMenu (w : World) : World := uiMenuMain (explicitBzeroContext w)

/-- Open a flow with the callback of its approve and reject steps. -/
def showWithCallback (callback : Callback) (flow : Flow) (w : World) : World :=
  uxFlowInit flow { w with ui.validateCallback := callback }

/-! ### Confirmation of the transaction -/

def uiActionTxConfirm (choice : Bool) (w : World) : World :=
  if choice then
    let w := { w with ctx.state := .approved }
    let w := (ioSendSw Sw.ok w).2
    uxFlowInit .processing w
  else
    let w := explicitBzeroContext w
    let w := (ioSendSw Sw.deny w).2
    uiMenuMain w

def uiDisplayTxConfirm (w : World) : World :=
  if w.ctx.reqType ≠ .confirmTransaction ∨ w.ctx.state ≠ .parsed then
    let w := explicitBzeroContext w
    let w := (ioSendSw Sw.badState w).2
    uiMenuMain w
  else showWithCallback .txConfirm .confirmTx w

/-! ### Review of the outputs -/

/-- `check_output_index_state`: whether something is shown to the user or data was requested. -/
def checkOutputIndexState (w : World) : Bool × World :=
  if w.ctx.txInfo.confirmedOutputs = w.ctx.txInfo.outputsLen then
    (true, uiDisplayTxConfirm { w with ctx.state := .parsed })
  else if w.ctx.txInfo.displayIndex = w.ctx.txInfo.bufferOutputLen then
    let w := w.modifyTx fun t => { t with bufferOutputLen := 0, displayIndex := 0 }
    let w := (ioSendSw Sw.ok w).2
    (true, uiMenuMain w)
  else (false, w)

/-- The inner loop of `inplace_selection_sort`: the position of a least element from `i` on. -/
def selectionPosition (list : List ℕ) (i : ℕ) : ℕ :=
  (List.range' (i + 1) (list.length - (i + 1))).foldl
    (fun position j => if list.getD position 0 > list.getD j 0 then j else position) i

/-- One round of `inplace_selection_sort`. -/
def selectionStep (list : List ℕ) (i : ℕ) : List ℕ :=
  let position := selectionPosition list i
  if position ≠ i then (list.set position (list.getD i 0)).set i (list.getD position 0) else list

/-- `inplace_selection_sort`. -/
def inplaceSelectionSort (list : List ℕ) : List ℕ :=
  (List.range (list.length - 1)).foldl selectionStep list

/-- Count the output under review as done: both counters advance. -/
def advanceReview (w : World) : World :=
  w.modifyTx fun t =>
    { t with displayIndex := u8 (t.displayIndex + 1), confirmedOutputs := u8 (t.confirmedOutputs + 1) }

/-- The loop of `skip_change_outputs` over the sorted indices. -/
def skipChangeLoop : List ℕ → World → Bool × World
  | [], w => (false, w)
  | index :: indices, w =>
    if w.ctx.txInfo.confirmedOutputs = index then
      let (done, w) := checkOutputIndexState (advanceReview w)
      if done then (true, w) else skipChangeLoop indices w
    else skipChangeLoop indices w

/-- Record a loop over the change entries. -/
def recordChangesRead (w : World) : World :=
  if w.ctx.txInfo.changeLen = 0 then w else w.emit (.changesRead w.ctx.txInfo.changeLen)

/-- `skip_change_outputs`. -/
def skipChangeOutputs (w : World) : Bool × World :=
  if w.ctx.txInfo.changeLen = 0 then (false, w)
  else skipChangeLoop (inplaceSelectionSort w.ctx.txInfo.changeIndices) (recordChangesRead w)

/-- The element of `outputs` that is displayed. -/
def displayedOutput (t : TxInfo) : TxOutput :=
  t.outputs.getD t.displayIndex (sdk.pastOutputs t.displayIndex)

/-- The text of `g_output_index`: the position of the output among the outputs that are no change,
and their number. Both are computed in `uint8_t` arithmetic, one step for each change entry. -/
def outputIndexText (t : TxInfo) (output : TxOutput) : Bytes :=
  let behind := (t.changeIndices.filter fun index => output.index > index).length
  let fakeOutputIndex := u8 (u8 (output.index + 1) + 256 - behind)
  let totalOutputs := u8 (t.outputsLen + 256 - t.changeLen)
  decimal fakeOutputIndex ++ [47] ++ (itoa totalOutputs 10).getD []

/-- The symbol shown with an output: `HTR`, or the symbol that the token pointer leads to. -/
def outputSymbol (registry : TokenDataCtx) (t : TxInfo) (output : TxOutput) : Bytes :=
  if tokenIndex output.tokenData = 0 then [0x48, 0x54, 0x52]
  else
    let token := registry.tokens.getD (t.tokens.getD (tokenIndex output.tokenData - 1) 0) {}
    cstr token.symbol

/-- Record the read of `tokens` that `outputSymbol` makes. -/
def recordTokenRead (output : TxOutput) (w : World) : World :=
  if tokenIndex output.tokenData = 0 then w
  else w.emit (.tokenRead (tokenIndex output.tokenData - 1))

/-- The text of `g_amount`. -/
def amountText (symbol : Bytes) (value : ℕ) : Bytes := symbol ++ [32] ++ formatValue value

/-- `prepare_display_output`: whether nothing is left to render. -/
def prepareDisplayOutput (w : World) : Bool × World :=
  let (done, w) := checkOutputIndexState w
  if done then (true, w)
  else
    let (done, w) := skipChangeOutputs w
    if done then (true, w)
    else
      let output := displayedOutput sdk w.ctx.txInfo
      let w := recordChangesRead
        { w with ui.outputIndex := outputIndexText w.ctx.txInfo output, ui.address := [] }
      match addressFromPubkeyHash sdk output.pubkeyHash pubkeyHashLen addressLen with
      | none =>
        let w := explicitBzeroContext w
        let w := (ioSendSw Sw.internalError w).2
        (true, uiMenuMain w)
      | some address =>
        let symbol := outputSymbol w.tokenSymbols w.ctx.txInfo output
        (false, recordTokenRead output { w with
          ui.address := b58Address address
          ui.amount := amountText symbol output.value })

/-- `ui_display_tx_outputs`, which always returns `0`. -/
def uiDisplayTxOutputs (w : World) : World :=
  let (done, w) := prepareDisplayOutput sdk w
  if done then w else showWithCallback .confirmOutput .txOutput w

/-- `ui_confirm_output`. -/
def uiConfirmOutput (choice : Bool) (w : World) : World :=
  if choice then
    let (done, w) := skipChangeOutputs (advanceReview w)
    if done then w else uiDisplayTxOutputs sdk w
  else
    let w := explicitBzeroContext w
    let w := (ioSendSw Sw.deny w).2
    uiMenuMain w

/-! ### The other screens -/

/-- `helper_send_response_xpub`. -/
def helperSendResponseXpub (w : World) : ℤ × World :=
  let info := w.ctx.pkInfo
  ioSendResponse (some (info.rawPublicKey ++ info.chainCode ++ info.fingerprint)) Sw.ok
    (w.emit (.xpubSent info))

/-- `helper_send_token_data_signature`. -/
def helperSendTokenDataSignature (w : World) : ℤ × World :=
  let (secret, w) := getSecret sdk w
  let sign := signToken sdk secret w.ctx.token
  ioSendResponse (some sign) Sw.ok (w.emit (.tokenSigned secret w.ctx.token))

/-- The common body of the callbacks of `ui/action/validate.c`: answer, and return to the menu. -/
def uiAction (answer : World → ℤ × World) (choice : Bool) (w : World) : World :=
  let w := if choice then (answer w).2 else (ioSendSw Sw.deny (explicitBzeroContext w)).2
  uiMenuMain w

def uiActionConfirmXpub : Bool → World → World := uiAction helperSendResponseXpub

def uiActionConfirmAddress : Bool → World → World := uiAction (ioSendSw Sw.ok)

def uiActionSignTokenData : Bool → World → World := uiAction (helperSendTokenDataSignature sdk)

/-- `ui_confirm_reset_token_signatures`. A rejection does not wipe the context. -/
def uiConfirmResetTokenSignatures (choice : Bool) (w : World) : World :=
  let w := if choice then (ioSendSw Sw.ok (generateSecret sdk w)).2 else (ioSendSw Sw.deny w).2
  uiMenuMain w

/-- `ui_display_xpub_confirm`. -/
def uiDisplayXpubConfirm (w : World) : ℤ × World :=
  if w.ctx.reqType ≠ .confirmXpub ∨ w.ctx.state ≠ .none then
    ioSendSw Sw.badState { w with ctx.state := .none }
  else (0, showWithCallback .confirmXpub .xpub w)

/-- The address computed by `ui_display_confirm_address`, or `none` where a call fails. -/
def confirmedAddress (path : Bip32Path) : Option Bytes := do
  let (privateKey, _) ← sdk.derivePrivateKey path.components
  let publicKey ← sdk.initPublicKey privateKey
  addressFromPubkey sdk publicKey addressLen

/-- `ui_display_confirm_address`. -/
def uiDisplayConfirmAddress (w : World) : ℤ × World :=
  if w.ctx.reqType ≠ .confirmAddress ∨ w.ctx.state ≠ .none then
    ioSendSw Sw.badState { w with ctx.state := .none }
  else
    let w := { w with ui.address := [] }.emit (.derived w.ctx.bip32Path)
    match confirmedAddress sdk w.ctx.bip32Path with
    | none =>
      let w := explicitBzeroContext w
      let w := (ioSendSw Sw.internalError w).2
      (1, uiMenuMain w)
    | some address =>
      (0, showWithCallback .confirmAddress .address { w with ui.address := b58Address address })

/-- `ui_display_reset_token_signatures_confirm`. -/
def uiDisplayResetTokenSignaturesConfirm (w : World) : ℤ × World :=
  (0, showWithCallback .confirmResetTokenSignatures .resetTokenSignatures w)

/-- The static strings of the token screen. -/
def tokenUi (token : Token) (ui : Ui) : Ui :=
  { ui with
    tokenSymbol := token.symbolBytes ++ [0]
    tokenName := token.nameBytes ++ [0]
    tokenUid := (formatHex token.uid 65).getD [] }

/-- `ui_display_sign_token_data`. -/
def uiDisplaySignTokenData (w : World) : ℤ × World :=
  if w.ctx.token.symbolLen > maxTokenSymbolLen ∨ w.ctx.token.nameLen > maxTokenNameLen then
    let w := explicitBzeroContext w
    let w := (ioSendSw Sw.internalError w).2
    (1, uiMenuMain w)
  else
    let w := { w with ui := tokenUi w.ctx.token w.ui }.emit (.tokenShown w.ctx.token)
    (0, showWithCallback .signTokenData .signTokenData w)

/-! ### Presses -/

/-- The call `(*g_validate_callback)(choice)` of the approve and reject steps. -/
def validateCallback (choice : Bool) (w : World) : World :=
  match w.ui.validateCallback with
  | .null => w
  | .txConfirm => uiActionTxConfirm choice w
  | .confirmOutput => uiConfirmOutput sdk choice w
  | .confirmXpub => uiActionConfirmXpub choice w
  | .confirmAddress => uiActionConfirmAddress choice w
  | .confirmResetTokenSignatures => uiConfirmResetTokenSignatures sdk choice w
  | .signTokenData => uiActionSignTokenData sdk choice w

/-- The flows with an approve step. -/
def Flow.hasApprove : Flow → Bool
  | .confirmTx | .txOutput | .xpub | .address | .resetTokenSignatures | .signTokenData => true
  | .menuMain | .menuAbout | .processing => false

/-- The flows with a reject step; the address flow has none. -/
def Flow.hasReject : Flow → Bool
  | .confirmTx | .txOutput | .xpub | .resetTokenSignatures | .signTokenData => true
  | .menuMain | .menuAbout | .processing | .address => false

end HathorLedger
