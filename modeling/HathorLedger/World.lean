import HathorLedger.Library.Throwing
import HathorLedger.Sdk

/-!
# The state of the device and its input and output

`World` holds the globals of the app: the context `G_context`, the token registry
`G_token_symbols`, the persistent secret, the static strings and the open flow of the screen, and
the state of the APDU exchange. It also holds a trace of what the app did. No function of the app
reads the trace; it is there to state properties of runs.

The app is always blocked in one of the two `io_exchange` calls of `io_recv_command`, the plain one
or the one with `IO_ASYNCH_REPLY` that is used while a screen waits for the user (`Io.asynch`).

## Main definitions

* `Flow`, `Callback`, `Button`, `Screen`, `Ui`: the screen. `Ui.shown` is what the user sees.
* `Event`, `World`: the globals and the trace.
* `App`: computations of the app that may throw a status word.
* `ioSendResponse`, `ioSendSw`, `ioRecvCommand`: from `io.c`.
* `getSecret`, `generateSecret`: from `storage.c`.
-/

namespace HathorLedger

/-! ### The screen -/

/-- The flows given to `ux_flow_init`. -/
inductive Flow
  | menuMain
  | menuAbout
  | processing
  | confirmTx
  | txOutput
  | xpub
  | address
  | resetTokenSignatures
  | signTokenData
  deriving DecidableEq, Repr

/-- The values of the function pointer `g_validate_callback`. -/
inductive Callback
  | null
  | txConfirm
  | confirmOutput
  | confirmXpub
  | confirmAddress
  | confirmResetTokenSignatures
  | signTokenData
  deriving DecidableEq, Repr

/-- The steps of the flows that react to a press of both buttons. -/
inductive Button
  | approve
  | reject
  | quit
  | about
  | back
  deriving DecidableEq, Repr

/-- What the user sees: the flow with the texts of its steps. -/
inductive Screen
  | menuMain
  | menuAbout
  | processing
  | confirmTx
  | txOutput (outputIndex address amount : Bytes)
  | xpub
  | address (address : Bytes)
  | resetTokenSignatures
  | signTokenData (symbol name uid : Bytes)
  deriving DecidableEq, Repr

/-- The open flow, the callback of its approve and reject steps, and the static strings. -/
structure Ui where
  flow : Flow := .menuMain
  validateCallback : Callback := .null
  amount : Bytes := []
  outputIndex : Bytes := []
  address : Bytes := []
  tokenSymbol : Bytes := []
  tokenName : Bytes := []
  tokenUid : Bytes := []
  deriving DecidableEq, Repr

/-- The screen that the open flow shows. -/
def Ui.shown (ui : Ui) : Screen :=
  match ui.flow with
  | .menuMain => .menuMain
  | .menuAbout => .menuAbout
  | .processing => .processing
  | .confirmTx => .confirmTx
  | .txOutput => .txOutput (cstr ui.outputIndex) (cstr ui.address) (cstr ui.amount)
  | .xpub => .xpub
  | .address => .address (cstr ui.address)
  | .resetTokenSignatures => .resetTokenSignatures
  | .signTokenData => .signTokenData (cstr ui.tokenSymbol) (cstr ui.tokenName) (cstr ui.tokenUid)

/-! ### Globals and trace -/

/-- What the trace records. -/
inductive Event
  /-- A command has arrived in `G_io_apdu_buffer`. -/
  | received (apdu : Bytes)
  /-- The user pressed both buttons on a step of the open flow. -/
  | pressed (button : Button) (screen : Screen)
  /-- A response went out on the wire. -/
  | sent (response : Bytes)
  /-- A flow was opened. -/
  | shown (screen : Screen)
  /-- `explicit_bzero` on the whole context. -/
  | wiped
  /-- `init_sign_tx_ctx` set up a new transaction. -/
  | txInit
  /-- `sighash_all_hash` fed bytes to the transaction hash. -/
  | hashed (data : Bytes)
  /-- The change information and the header of a first chunk were read and the rest of the chunk
  was copied to the decode buffer. -/
  | firstChunkRead
  /-- `decode_elements` has ended, with this many pointers stored in `tokens`. -/
  | decoded (tokensLen : ℕ)
  /-- `prepare_display_output` has read a cell of `tokens`. -/
  | tokenRead (cell : ℕ)
  /-- A loop has run over the first cells of `change_info`. -/
  | changesRead (count : ℕ)
  /-- `derive_private_key` was called with the cells of a path and its length. -/
  | derived (path : Bip32Path)
  /-- `sign_tx_with_key` got the digest of the transaction out of the hash context. -/
  | hashFinished
  /-- `cx_ecdsa_sign_no_throw` signed a digest with the key of a path. -/
  | signed (path : List ℕ) (digest signature : Bytes)
  /-- `SEND_TOKEN_DATA` stored a token whose signature was valid under the secret. -/
  | tokenAccepted (secret : Bytes) (token : Token) (signature : Bytes)
  /-- The screen that asks to sign a token was opened. -/
  | tokenShown (token : Token)
  /-- The device signed a token. -/
  | tokenSigned (secret : Bytes) (token : Token)
  /-- `derive_xpub` filled `pk_info` with the key of a path. -/
  | xpubDerived (path : List ℕ) (info : PkInfo)
  /-- The device handed out the contents of `pk_info`. -/
  | xpubSent (info : PkInfo)
  /-- `app_main` has started. -/
  | started
  deriving DecidableEq, Repr

/-- The state of the APDU exchange. -/
structure Io where
  state : IoState := .ready
  outputLen : ℕ := 0
  apduBuffer : Bytes := List.replicate ioApduBufferSize 0
  /-- The app is blocked in the exchange with `IO_ASYNCH_REPLY`. -/
  asynch : Bool := false
  deriving DecidableEq, Repr

/-- The globals of the app and the trace, the newest event first. -/
structure World where
  ctx : GlobalCtx := {}
  tokenSymbols : TokenDataCtx := {}
  /-- `N_storage.secret`. -/
  secret : Bytes
  /-- The number of calls of the random generator so far. -/
  draws : ℕ := 0
  ui : Ui := {}
  io : Io := {}
  trace : List Event := []
  deriving DecidableEq, Repr

/-- Computations of the app that may throw a status word. -/
abbrev App (α : Type) := EStateM ℕ World α

namespace World

/-- Record an event. -/
def emit (e : Event) (w : World) : World := { w with trace := e :: w.trace }

/-- Change the transaction record of the context. -/
def modifyTx (f : TxInfo → TxInfo) (w : World) : World := { w with ctx.txInfo := f w.ctx.txInfo }

end World

/-- `explicit_bzero(&G_context, sizeof(G_context))`. -/
def explicitBzeroContext (w : World) : World := { w with ctx := {} }.emit .wiped

/-- `explicit_bzero(&G_token_symbols, sizeof(G_token_symbols))`. -/
def explicitBzeroTokenSymbols (w : World) : World := { w with tokenSymbols := {} }

/-- `ux_flow_init`. -/
def uxFlowInit (flow : Flow) (w : World) : World :=
  let w := { w with ui.flow := flow }
  w.emit (.shown w.ui.shown)

/-- `ui_menu_main`. -/
def uiMenuMain (w : World) : World := uxFlowInit .menuMain w

/-- `ui_menu_about`. -/
def uiMenuAbout (w : World) : World := uxFlowInit .menuAbout w

/-! ### Input and output -/

/-- The sending half of `io_exchange`: the first `n` cells of the APDU buffer go out on the wire. -/
def ioTransmit (n : ℕ) (w : World) : World :=
  if n = 0 then w else w.emit (.sent (w.io.apduBuffer.take n))

/-- `io_send_response`, with `none` for no response data. A response is queued while a command is
being handled and sent at once while the app waits for the user. Response data that does not fit is
replaced by the status word `SW_WRONG_RESPONSE_LENGTH`. -/
def ioSendResponse (rdata : Option Bytes) (sw : ℕ) (w : World) : ℤ × World :=
  let body :=
    if (rdata.getD []).length > ioApduBufferSize - 2 then beBytes 2 Sw.wrongResponseLength
    else rdata.getD [] ++ beBytes 2 sw
  let w := { w with io.apduBuffer := memmove w.io.apduBuffer 0 body, io.outputLen := body.length }
  match w.io.state with
  | .ready => (-1, w)
  | .received => (0, { w with io.state := .ready })
  | .waiting =>
    let w := ioTransmit w.io.outputLen w
    (0, { w with io.outputLen := 0, io.state := .ready })

/-- `io_send_sw`. -/
def ioSendSw (sw : ℕ) (w : World) : ℤ × World := ioSendResponse none sw w

/-- `io_recv_command` up to the point where the app is blocked in `io_exchange`, or `none` where it
returns `-1`. The exchange with `IO_ASYNCH_REPLY` sends nothing. -/
def ioRecvCommand (w : World) : Option World :=
  match w.io.state with
  | .ready => some (ioTransmit w.io.outputLen { w with io.state := .received, io.asynch := false })
  | .received => some { w with io.state := .waiting, io.asynch := true }
  | .waiting => none

/-- The arrival of a command: `io_exchange` returns, and `io_recv_command` with it. -/
def ioDeliver (apdu : Bytes) (w : World) : World :=
  { w with
    io.apduBuffer := memmove w.io.apduBuffer 0 apdu
    io.state := if w.io.asynch then .received else w.io.state }.emit (.received apdu)

/-! ### The secret -/

variable (sdk : Sdk)

/-- `generate_secret`. -/
def generateSecret (w : World) : World :=
  { w with secret := memmove w.secret 0 ((sdk.rng w.draws).take secretLen), draws := w.draws + 1 }

/-- `get_secret`, which generates the secret on the first access. -/
def getSecret (w : World) : Bytes × World :=
  if w.secret.any (· != 0) then (w.secret, w)
  else
    let w := generateSecret sdk w
    (w.secret, w)

end HathorLedger
