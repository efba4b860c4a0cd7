import HathorLedger.Handler.Commands

/-!
# The app: dispatcher, main loop and runs

The functions of `apdu/parser.c`, `apdu/dispatcher.c` and `main.c`, and the steps of the app: the
arrival of a command and a press of the user. `app_main` ends when a handler or `io_recv_command`
returns a negative number, or on `EXCEPTION_IO_RESET`; the loop of `main` then starts it again.

## Main definitions

* `Command`, `apduParser`, `apduDispatcher`; `callOf`: the handler that a command calls.
* `Command.encode`, `Input.command`: a command as the host sends it.
* `appMain`, `mainLoop`: the start of the app and the rest of a round of its loop.
* `Input`, `step`, `run`: what can happen to the app while it is blocked, and its effect.
* `World.boot`: the app after its start with a given secret.
-/

namespace HathorLedger

variable (sdk : Sdk)

/-! ### Commands -/

/-- `command_t`. Data of length `lc`; the pointer `data` is `NULL` exactly when `lc` is zero. -/
structure Command where
  cla : ℕ
  ins : ℕ
  p1 : ℕ
  p2 : ℕ
  data : Bytes
  deriving DecidableEq, Repr

namespace Ins

def getVersion : ℕ := 0x03
def getAddress : ℕ := 0x04
def getXpub : ℕ := 0x05
def signTx : ℕ := 0x06
def signTokenData : ℕ := 0x07
def sendTokenData : ℕ := 0x08
def verifyTokenSignature : ℕ := 0x09
def resetTokenSignatures : ℕ := 0x0A

end Ins

/-- The bytes of a command, as the host sends it. -/
def Command.encode (cmd : Command) : Bytes :=
  [cmd.cla, cmd.ins, cmd.p1, cmd.p2, cmd.data.length].map UInt8.ofNat ++ cmd.data

/-- `apdu_parser`. -/
def apduParser (buf : Bytes) : Option Command :=
  if buf.length < 5 ∨ buf.length - 5 ≠ byteAt buf 4 then none
  else some
    { cla := byteAt buf 0
      ins := byteAt buf 1
      p1 := byteAt buf 2
      p2 := byteAt buf 3
      data := buf.drop 5 }

/-- The call of a handler, with its arguments. -/
inductive Call
  | getVersion
  | getAddress (data : Bytes)
  | getXpub (data : Bytes)
  | signTx (data : Bytes) (stage chunk : ℕ)
  | signTokenData (data : Bytes)
  | sendTokenData (first : Bool) (data : Bytes)
  | verifyTokenSignature (data : Bytes)
  | resetTokenSignatures
  deriving DecidableEq, Repr

/-- The checks of `apdu_dispatcher` on the class, the instruction and the parameters: the handler
that it calls, or the status word with which it rejects the command. -/
def checkCommand (cmd : Command) : Except ℕ Call :=
  if cmd.cla ≠ cla then .error Sw.claNotSupported
  else if cmd.ins = Ins.getVersion then
    if cmd.p1 ≠ 0 ∨ cmd.p2 ≠ 0 then .error Sw.wrongP1P2
    else .ok .getVersion
  else if cmd.ins = Ins.getAddress then
    if cmd.p1 ≠ 0 ∨ cmd.p2 ≠ 0 then .error Sw.wrongP1P2
    else if cmd.data = [] then .error Sw.wrongDataLength
    else .ok (.getAddress cmd.data)
  else if cmd.ins = Ins.getXpub then
    if cmd.p1 ≠ 0 ∨ cmd.p2 ≠ 0 then .error Sw.wrongP1P2
    else if cmd.data = [] then .error Sw.wrongDataLength
    else .ok (.getXpub cmd.data)
  else if cmd.ins = Ins.signTx then
    if cmd.p1 > 2 ∨ (cmd.p1 = 1 ∧ cmd.p2 ≠ 0) ∨ (cmd.p1 = 2 ∧ cmd.p2 ≠ 0) then
      .error Sw.wrongP1P2
    else if (cmd.p1 = 0 ∧ cmd.data = []) ∨ (cmd.p1 = 1 ∧ cmd.data = []) ∨
        (cmd.p1 = 2 ∧ cmd.data ≠ []) then
      .error Sw.wrongDataLength
    else .ok (.signTx cmd.data cmd.p1 cmd.p2)
  else if cmd.ins = Ins.signTokenData then
    if cmd.p1 ≠ 0 ∨ cmd.p2 ≠ 0 then .error Sw.wrongP1P2
    else .ok (.signTokenData cmd.data)
  else if cmd.ins = Ins.sendTokenData then
    if cmd.p2 ≠ 0 then .error Sw.wrongP1P2
    else .ok (.sendTokenData (cmd.p1 = 0) cmd.data)
  else if cmd.ins = Ins.verifyTokenSignature then
    if cmd.p1 ≠ 0 ∨ cmd.p2 ≠ 0 then .error Sw.wrongP1P2
    else .ok (.verifyTokenSignature cmd.data)
  else if cmd.ins = Ins.resetTokenSignatures then
    if cmd.p1 ≠ 0 ∨ cmd.p2 ≠ 0 then .error Sw.wrongP1P2
    else .ok .resetTokenSignatures
  else .error Sw.insNotSupported

/-- The handlers get a buffer over the data of the command. -/
def Call.handle : Call → App ℤ
  | .getVersion => handlerGetVersion
  | .getAddress data => handlerGetAddress sdk (.ofBytes data)
  | .getXpub data => handlerGetXpub sdk (.ofBytes data)
  | .signTx data stage chunk => handlerSignTx sdk (.ofBytes data) stage chunk
  | .signTokenData data => handlerSignTokenData (.ofBytes data)
  | .sendTokenData first data => handlerSendTokenData sdk first (.ofBytes data)
  | .verifyTokenSignature data => handlerVerifyTokenSignature sdk (.ofBytes data)
  | .resetTokenSignatures => handlerResetTokenSignatures

/-- `apdu_dispatcher`. -/
def apduDispatcher (cmd : Command) : App ℤ :=
  match checkCommand cmd with
  | .error sw => modifyGet (ioSendSw sw)
  | .ok call => call.handle sdk

/-- The call that a command makes, if it is not rejected. -/
def callOf (apdu : Bytes) : Option Call := do
  let cmd ← apduParser apdu
  (checkCommand cmd).toOption

/-! ### The main loop -/

/-- A round of the loop of `main`: reset the screen and start `app_main`, which wipes the context
and the registry and blocks in `io_recv_command`. -/
def appMain (w : World) : World :=
  let w := uiMenuMain w
  let w := { w with io.outputLen := 0, io.state := .ready }
  let w := (explicitBzeroTokenSymbols (explicitBzeroContext w)).emit .started
  (ioRecvCommand w).getD w

/-- The next round of the loop of `app_main`: block in `io_recv_command`. -/
def mainLoop (w : World) : World := (ioRecvCommand w).getD (appMain w)

/-- `app_main` from the arrival of a command to the next blocking call. -/
def runCommand (apdu : Bytes) (w : World) : World :=
  let w := ioDeliver apdu w
  match apduParser apdu with
  | none => mainLoop (ioSendSw Sw.wrongDataLength w).2
  | some cmd =>
    match (apduDispatcher sdk cmd).run w with
    | .ok ret w => if ret < 0 then appMain w else mainLoop w
    | .error e w => mainLoop (ioSendSw e w).2

/-- A press on a step of the open flow. A press on a step that the flow does not have does nothing.
Quitting from the main menu ends the app; the next thing to happen is its next start. -/
def runPress (button : Button) (w : World) : World :=
  let w := w.emit (.pressed button w.ui.shown)
  match button with
  | .approve => if w.ui.flow.hasApprove then validateCallback sdk true w else w
  | .reject => if w.ui.flow.hasReject then validateCallback sdk false w else w
  | .quit =>
    match w.ui.flow with
    | .processing => actionExitToMenu w
    | .menuMain => appMain w
    | _ => w
  | .about => if w.ui.flow = .menuMain then uiMenuAbout w else w
  | .back => if w.ui.flow = .menuAbout then uiMenuMain w else w

/-- What can happen to the app while it is blocked. -/
inductive Input
  /-- The host sends a command. -/
  | apdu (bytes : Bytes)
  /-- The user presses both buttons on a step. -/
  | press (button : Button)
  /-- The USB power is lost: `io_event` throws `EXCEPTION_IO_RESET`. -/
  | ioReset
  deriving DecidableEq, Repr

/-- The host sends a well-formed command with the class of the app. -/
def Input.command (ins p1 p2 : ℕ) (data : Bytes) : Input :=
  .apdu (Command.encode { cla, ins, p1, p2, data })

/-- The effect of an input on the blocked app. -/
def step (w : World) : Input → World
  | .apdu bytes => runCommand sdk bytes w
  | .press button => runPress sdk button w
  | .ioReset => appMain w

/-- The app after a sequence of inputs. -/
def run (w : World) (inputs : List Input) : World := inputs.foldl (step sdk) w

/-- The app after its start, with the contents of the persistent storage. -/
def World.boot (secret : Bytes) : World := appMain { secret }

end HathorLedger
