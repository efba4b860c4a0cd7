import HathorLedger.Run.Requests
import HathorLedger.Run.Stages

/-!
# What a step does

The effect of every input on the globals: one case for each way in which a command or a press can
end. An invariant of the globals is then proved by a case analysis, without another look at the
code.

## Main definitions

* `Handled`: what the call of a handler does.
* `CommandStep`, `PressStep`: what a command and a press do.
* `GlobalsStep`: what a step does.

## Main results

* `wp_handle`, `commandStep_runCommand`, `pressStep_runPress`: handlers, commands and presses have
  these effects.
* `globalsStep`: so every step has one of the effects.
-/

namespace HathorLedger

variable (sdk : Sdk)

/-! ### Commands -/

namespace Globals

/-- The screen that asks whether to reset the token signatures is opened. -/
def askReset (g : Globals) : Globals :=
  { g with
    ui.flow := .resetTokenSignatures
    ui.validateCallback := .confirmResetTokenSignatures }

/-- The app goes on with its loop, or ends and starts anew. -/
def resume (ends : Bool) (g : Globals) : Globals := if ends then g.restart else g.mainLoop

/-- A press is recorded with the screen on which it was made. -/
def press (button : Button) (g : Globals) : Globals :=
  { g with log := .pressed button g.ui.shown :: g.log }

end Globals

/-- What a handler does together with the catch of `app_main`, and whether the app ends with it. -/
inductive Handled (g : Globals) : Call → Bool → Globals → Prop
  | getVersion : Handled g .getVersion (decide (g.io.state = .ready))
      (g.reply (some ([0x48, 0x54, 0x52] ++ appVersion)) Sw.ok)
  | getAddress (data : Bytes) (ends : Bool) (g' : Globals)
    (h : Requested .address (requestedPath data).toList (AddressRequest sdk data) (fun _ => True) g
      ends g') : Handled g (.getAddress data) ends g'
  | getXpub (data : Bytes) (ends : Bool) (g' : Globals)
    (h : Requested .xpub (requestedPaths data) (XpubRequest sdk data) XpubHeld g ends g') :
    Handled g (.getXpub data) ends g'
  | signTx (data : Bytes) (stage chunk : ℕ) (ends : Bool) (g' : Globals)
    (h : StageStep sdk data stage chunk g ends g') : Handled g (.signTx data stage chunk) ends g'
  | signTokenData (data : Bytes) (ends : Bool) (g' : Globals)
    (h : Requested .signTokenData [] (TokenRequest data)
      (fun g => TokenHeld g ∧ g.ctx.token = requestedToken data) g ends g') :
    Handled g (.signTokenData data) ends g'
  | sendFirst (data : Bytes) (g' : Globals)
    (h : RegistryStep sdk data { g.wipe with tokenSymbols := {} } g') :
    Handled g (.sendTokenData true data) (decide (g.io.state = .ready)) g'
  | sendNext (data : Bytes) (g' : Globals) (h : RegistryStep sdk data g g') :
    Handled g (.sendTokenData false data) (decide (g.io.state = .ready)) g'
  | verifyTokenSignature (data : Bytes) :
    Handled g (.verifyTokenSignature data) (decide (g.io.state = .ready)) (g.wipe.verify sdk data)
  | resetTokenSignatures : Handled g .resetTokenSignatures false g.askReset

/-- What a command does, and whether the app ends with it. -/
inductive CommandStep (g : Globals) (apdu : Bytes) : Bool → Globals → Prop
  | malformed (h : apduParser apdu = none) :
    CommandStep g apdu false ((g.receive apdu).reply none Sw.wrongDataLength)
  | rejected (cmd : Command) (sw : ℕ) (hparse : apduParser apdu = some cmd)
    (hcheck : checkCommand cmd = .error sw) :
    CommandStep g apdu (decide ((g.receive apdu).io.state = .ready))
      ((g.receive apdu).reply none sw)
  | handled (call : Call) (hcall : callOf apdu = some call) (ends : Bool) (g' : Globals)
    (h : Handled sdk (g.receive apdu) call ends g') : CommandStep g apdu ends g'

/-! ### Presses -/

/-- The flow has a step for the button. -/
def Flow.reacts (flow : Flow) : Button → Bool
  | .approve => flow.hasApprove
  | .reject => flow.hasReject
  | .quit => flow = .processing ∨ flow = .menuMain
  | .about => flow = .menuMain
  | .back => flow = .menuAbout

/-- What a press does, in a state whose screen has its own callback. -/
inductive PressStep (g : Globals) : Button → Globals → Prop
  | inactive (button : Button) (h : g.ui.flow.reacts button = false) :
    PressStep g button (g.press button)
  | approveTx (hflow : g.ui.flow = .confirmTx) :
    PressStep g .approve
      (({ g.press .approve with ctx.state := .approved }.reply none Sw.ok).openFlow .processing)
  | approveOutput (hflow : g.ui.flow = .txOutput) (n d c : ℕ) (g' : Globals)
    (hdisplayed : Displayed sdk (((g.press .approve).readChanges n).review d c) g')
    (hskipped : g.ctx.txInfo.InBounds →
      g.ctx.txInfo.displayIndex ≠ g.ctx.txInfo.bufferOutputLen →
      g.ctx.txInfo.confirmedOutputs ≠ g.ctx.txInfo.outputsLen →
      (g.ctx.txInfo.displayIndex + 1 = g.ctx.txInfo.bufferOutputLen ∨
          g.ctx.txInfo.confirmedOutputs + 1 = g.ctx.txInfo.outputsLen →
        g.ctx.txInfo.confirmedOutputs + 1 ∉ g.ctx.txInfo.changeIndices) →
      Skipped g.ctx.txInfo.changeIndices { g.ctx.txInfo with
        displayIndex := g.ctx.txInfo.displayIndex + 1
        confirmedOutputs := g.ctx.txInfo.confirmedOutputs + 1 } d c) :
    PressStep g .approve g'
  | approveXpub (hflow : g.ui.flow = .xpub) :
    PressStep g .approve (({ g.press .approve with
      log := .xpubSent g.ctx.pkInfo :: (g.press .approve).log }.reply
        (some (g.ctx.pkInfo.rawPublicKey ++ g.ctx.pkInfo.chainCode ++ g.ctx.pkInfo.fingerprint))
        Sw.ok).openFlow .menuMain)
  | approveToken (hflow : g.ui.flow = .signTokenData) (secret : Bytes)
    (hsecret : secret = ((g.press .approve).readSecret sdk).secret) :
    PressStep g .approve (({ (g.press .approve).readSecret sdk with
      log := .tokenSigned secret g.ctx.token :: (g.press .approve).log }.reply
        (some (signToken sdk secret g.ctx.token)) Sw.ok).openFlow .menuMain)
  | approveAddress (hflow : g.ui.flow = .address) :
    PressStep g .approve (((g.press .approve).reply none Sw.ok).openFlow .menuMain)
  | approveReset (hflow : g.ui.flow = .resetTokenSignatures) :
    PressStep g .approve
      ((((g.press .approve).generateSecret sdk).reply none Sw.ok).openFlow .menuMain)
  | reject (hflow : g.ui.flow.hasReject = true) (hreset : g.ui.flow ≠ .resetTokenSignatures) :
    PressStep g .reject ((g.press .reject).cancel.reply none Sw.deny)
  | rejectReset (hflow : g.ui.flow = .resetTokenSignatures) :
    PressStep g .reject (((g.press .reject).reply none Sw.deny).openFlow .menuMain)
  | exitToMenu (hflow : g.ui.flow = .processing) : PressStep g .quit (g.press .quit).cancel
  | quit (hflow : g.ui.flow = .menuMain) : PressStep g .quit (g.press .quit).restart
  | about (hflow : g.ui.flow = .menuMain) :
    PressStep g .about ((g.press .about).openFlow .menuAbout)
  | back (hflow : g.ui.flow = .menuAbout) :
    PressStep g .back ((g.press .back).openFlow .menuMain)

/-- What an input does to the blocked app. -/
inductive GlobalsStep (g : Globals) : Input → Globals → Prop
  | command (apdu : Bytes) (ends : Bool) (g' : Globals) (h : CommandStep sdk g apdu ends g') :
    GlobalsStep g (.apdu apdu) (g'.resume ends)
  | press (button : Button) (g' : Globals) (h : PressStep sdk g button g') :
    GlobalsStep g (.press button) g'
  | ioReset : GlobalsStep g .ioReset g.restart

/-- What the code relies on in every blocked state: a screen with an approve step has its own
callback, and between two chunks few bytes are pending. -/
structure Globals.Ready (g : Globals) : Prop where
  callback : g.ui.flow.hasApprove = true → g.ui.validateCallback = g.ui.flow.callback
  bufferLen_lt : g.ctx.state = .recvData → g.ctx.txInfo.bufferLen < 36

variable {sdk} {w : World} {data : Bytes}

/-! ### Handlers -/

theorem wp_handle {call : Call} (hready : w.globals.Ready)
    (hdata : ∀ data stage chunk, call = .signTx data stage chunk → data.length ≤ 255) :
    (call.handle sdk).wp
      (fun ret w' => Handled sdk w.globals call (decide (ret < 0)) w'.globals)
      (fun sw w' => Handled sdk w.globals call false (w'.globals.reply none sw)) w := by
  cases call with
  | getVersion =>
    refine (EStateM.wp_modifyGet _).2 ?_
    simp only [globals_ioSendResponse, fst_ioSendResponse_neg_iff]
    exact .getVersion
  | getAddress data =>
    exact EStateM.wp_mono (fun _ _ h => .getAddress data _ _ h)
      (fun _ _ h => .getAddress data _ _ h) wp_handlerGetAddress
  | getXpub data =>
    exact EStateM.wp_mono (fun _ _ h => .getXpub data _ _ h)
      (fun _ _ h => .getXpub data _ _ h) wp_handlerGetXpub
  | signTx data stage chunk =>
    exact EStateM.wp_mono (fun _ _ h => .signTx data stage chunk _ _ h)
      (fun _ _ h => .signTx data stage chunk _ _ h)
      (wp_handlerSignTx (hdata data stage chunk rfl) hready.bufferLen_lt)
  | signTokenData data =>
    exact EStateM.wp_mono (fun _ _ h => .signTokenData data _ _ h) (fun _ _ => False.elim)
      wp_handlerSignTokenData
  | sendTokenData first data =>
    refine EStateM.wp_mono ?_ (fun _ _ => False.elim) (wp_handlerSendTokenData first)
    rintro ret w' ⟨hret, h⟩
    rw [decide_eq_decide.2 hret]
    cases first with
    | true => exact .sendFirst data _ h
    | false => exact .sendNext data _ h
  | verifyTokenSignature data =>
    refine EStateM.wp_mono ?_ (fun _ _ => False.elim) wp_handlerVerifyTokenSignature
    rintro ret w' ⟨hret, h⟩
    rw [decide_eq_decide.2 hret, h]
    exact .verifyTokenSignature data
  | resetTokenSignatures =>
    have hopened : (uiDisplayResetTokenSignaturesConfirm w).2.globals = w.globals.askReset := by
      rw [uiDisplayResetTokenSignaturesConfirm, showWithCallback, globals_uxFlowInit]
      rfl
    refine (EStateM.wp_modifyGet _).2 ?_
    rw [hopened]
    exact .resetTokenSignatures

/-! ### Calls -/

theorem callOf_eq_some {apdu : Bytes} {call : Call} (h : callOf apdu = some call) :
    ∃ cmd, apduParser apdu = some cmd ∧ checkCommand cmd = .ok call := by
  unfold callOf at h
  cases hparse : apduParser apdu with
  | none => simp [hparse] at h
  | some cmd =>
    refine ⟨cmd, rfl, ?_⟩
    cases hcheck : checkCommand cmd with
    | error sw => simp [hparse, hcheck, Except.toOption] at h
    | ok call' =>
      simp only [hparse, hcheck, Except.toOption, Option.bind_eq_bind, Option.bind_some,
        Option.some.injEq] at h
      rw [h]

theorem length_data_of_apduParser {apdu : Bytes} {cmd : Command}
    (h : apduParser apdu = some cmd) : cmd.data.length ≤ 255 := by
  have hbyte := byteAt_lt apdu 4
  unfold apduParser at h
  split_ifs at h with hlen
  rw [← Option.some.inj h, List.length_drop]
  omega

/-- The data that a handler is called with. -/
def Call.payload : Call → Bytes
  | .getVersion | .resetTokenSignatures => []
  | .getAddress data | .getXpub data | .signTx data _ _ | .signTokenData data
  | .sendTokenData _ data | .verifyTokenSignature data => data

/-- The checks hand the data of the command on as it is, if at all. -/
def HandsOn (data : Bytes) : Except ℕ Call → Prop
  | .ok call => call.payload = data ∨ call.payload = []
  | .error _ => True

theorem HandsOn.ite {c : Prop} [Decidable c] {x y : Except ℕ Call} (hx : HandsOn data x)
    (hy : HandsOn data y) : HandsOn data (if c then x else y) := by
  split
  · exact hx
  · exact hy

theorem handsOn_checkCommand (cmd : Command) : HandsOn cmd.data (checkCommand cmd) := by
  unfold checkCommand
  repeat' apply HandsOn.ite
  all_goals first | exact trivial | exact .inl rfl | exact .inr rfl

theorem Call.length_payload {apdu : Bytes} {call : Call} (h : callOf apdu = some call) :
    call.payload.length ≤ 255 := by
  obtain ⟨cmd, hparse, hcheck⟩ := callOf_eq_some h
  have hdata := handsOn_checkCommand cmd
  rw [hcheck] at hdata
  rcases hdata with hdata | hdata
  · rw [hdata]
    exact length_data_of_apduParser hparse
  · rw [hdata]
    exact Nat.zero_le _

theorem length_of_callOf {apdu data : Bytes} {stage chunk : ℕ}
    (h : callOf apdu = some (.signTx data stage chunk)) : data.length ≤ 255 :=
  Call.length_payload h

/-- The command has the class of the app and the instruction `SIGN_TX`. -/
def IsSignTx (apdu : Bytes) : Prop := byteAt apdu 0 = cla ∧ byteAt apdu 1 = Ins.signTx

instance (apdu : Bytes) : Decidable (IsSignTx apdu) := inferInstanceAs (Decidable (_ ∧ _))

/-- Such a command calls no other handler. -/
theorem call_of_isSignTx {apdu : Bytes} {call : Call} (h : IsSignTx apdu)
    (hcall : callOf apdu = some call) :
    ∃ data, call = .signTx data (byteAt apdu 2) (byteAt apdu 3) := by
  obtain ⟨cmd, hparse, hcheck⟩ := callOf_eq_some hcall
  unfold apduParser at hparse
  split_ifs at hparse
  obtain rfl := Option.some.inj hparse
  simp only [checkCommand, h.1, h.2] at hcheck
  rw [if_neg (not_not.2 rfl), if_neg (by decide), if_neg (by decide), if_neg (by decide),
    if_pos trivial] at hcheck
  split_ifs at hcheck
  exact ⟨_, (Except.ok.inj hcheck).symm⟩

/-! ### The main loop -/

theorem globals_resume (ends : Bool) :
    (if ends then appMain w else mainLoop w).globals = w.globals.resume ends := by
  cases ends with
  | true => exact globals_appMain w
  | false => exact globals_mainLoop w

theorem commandStep_runCommand {apdu : Bytes} (hready : w.globals.Ready) :
    ∃ ends g', CommandStep sdk w.globals apdu ends g' ∧
      (runCommand sdk apdu w).globals = g'.resume ends := by
  have hdeliver : (ioDeliver apdu w).globals = w.globals.receive apdu := globals_ioDeliver w apdu
  have hio : (ioDeliver apdu w).io = (w.globals.receive apdu).io := congrArg Globals.io hdeliver
  unfold runCommand
  cases hparse : apduParser apdu with
  | none =>
    refine ⟨_, _, .malformed hparse, ?_⟩
    dsimp only
    rw [globals_mainLoop, ioSendSw_eq, globals_ioSendResponse, hdeliver]
    rfl
  | some cmd =>
    simp only [apduDispatcher]
    cases hcheck : checkCommand cmd with
    | error sw =>
      have hrun : (modifyGet (ioSendSw sw) : App ℤ).run (ioDeliver apdu w) =
          .ok (ioSendSw sw (ioDeliver apdu w)).1 (ioSendSw sw (ioDeliver apdu w)).2 := rfl
      refine ⟨_, _, .rejected cmd sw hparse hcheck, ?_⟩
      rw [hrun]
      simp only [ioSendSw_eq, fst_ioSendResponse_neg_iff, hio]
      split_ifs with hends
      · rw [globals_appMain, globals_ioSendResponse, hdeliver, decide_eq_true hends]
        rfl
      · rw [globals_mainLoop, globals_ioSendResponse, hdeliver, decide_eq_false hends]
        rfl
    | ok call =>
      have hcall : callOf apdu = some call := by simp [callOf, hparse, hcheck, Except.toOption]
      have hhandled := @wp_handle sdk (ioDeliver apdu w) call
        (by rw [hdeliver]; exact ⟨hready.callback, hready.bufferLen_lt⟩)
        (fun data stage chunk h => length_of_callOf (hcall.trans (congrArg some h)))
      rw [EStateM.wp, hdeliver] at hhandled
      cases hrun : (call.handle sdk).run (ioDeliver apdu w) with
      | ok ret w' =>
        rw [hrun] at hhandled
        refine ⟨_, _, .handled call hcall _ _ hhandled, ?_⟩
        dsimp only
        split_ifs with hends
        · rw [globals_appMain, decide_eq_true hends]
          rfl
        · rw [globals_mainLoop, decide_eq_false hends]
          rfl
      | error sw w' =>
        rw [hrun] at hhandled
        refine ⟨_, _, .handled call hcall _ _ hhandled, ?_⟩
        dsimp only
        rw [globals_mainLoop, ioSendSw_eq, globals_ioSendResponse]
        rfl

/-! ### Presses -/

theorem globals_uiAction (answer : World → ℤ × World) (choice : Bool) :
    (uiAction answer choice w).globals =
      if choice then (answer w).2.globals.openFlow .menuMain
      else w.globals.cancel.reply none Sw.deny := by
  cases choice with
  | true => exact globals_uxFlowInit _ _
  | false => exact globals_cancel w Sw.deny

theorem hasApprove_of_hasReject {flow : Flow} (h : flow.hasReject = true) :
    flow.hasApprove = true := by
  cases flow <;> first | rfl | cases h

theorem globals_press (button : Button) :
    (w.emit (.pressed button w.ui.shown)).globals = w.globals.press button :=
  World.globals_emit w _

theorem pressStep_approve (hready : w.globals.Ready) :
    PressStep sdk w.globals .approve (runPress sdk .approve w).globals := by
  have hpress := @globals_press w .approve
  by_cases hactive : w.ui.flow.hasApprove = true
  · have hrun : runPress sdk .approve w =
        validateCallback sdk true (w.emit (.pressed .approve w.ui.shown)) := if_pos hactive
    have hcallback := hready.callback hactive
    rw [hrun, validateCallback, World.ui_emit]
    change w.ui.validateCallback = w.ui.flow.callback at hcallback
    rw [hcallback]
    cases hflow : w.ui.flow with
    | confirmTx =>
      have happrove : (uiActionTxConfirm true (w.emit (.pressed .approve w.ui.shown))).globals =
          (({ w.globals.press .approve with ctx.state := .approved }.reply none Sw.ok).openFlow
            .processing) := by
        simp only [uiActionTxConfirm, if_true, globals_uxFlowInit, ioSendSw_eq,
          globals_ioSendResponse]
        rw [← hpress]
        rfl
      simp only [Flow.callback, happrove]
      exact .approveTx hflow
    | txOutput =>
      obtain ⟨n, d, c, hdisplayed, hskipped⟩ :=
        @displayed_uiConfirmOutput sdk (w.emit (.pressed .approve w.ui.shown))
      rw [hpress] at hdisplayed
      exact .approveOutput hflow n d c _ hdisplayed hskipped
    | xpub =>
      simp only [Flow.callback, uiActionConfirmXpub, globals_uiAction, if_true,
        helperSendResponseXpub, globals_ioSendResponse]
      rw [World.globals_emit, hpress]
      exact .approveXpub hflow
    | address =>
      simp only [Flow.callback, uiActionConfirmAddress, globals_uiAction, if_true, ioSendSw_eq,
        globals_ioSendResponse, hpress]
      exact .approveAddress hflow
    | resetTokenSignatures =>
      have hreset : (uiConfirmResetTokenSignatures sdk true
          (w.emit (.pressed .approve w.ui.shown))).globals =
          (((w.globals.press .approve).generateSecret sdk).reply none Sw.ok).openFlow .menuMain := by
        simp only [uiConfirmResetTokenSignatures, if_true, uiMenuMain_eq, globals_uxFlowInit,
          ioSendSw_eq, globals_ioSendResponse]
        rw [← hpress]
        rfl
      simp only [Flow.callback, hreset]
      exact .approveReset hflow
    | signTokenData =>
      simp only [Flow.callback, uiActionSignTokenData, globals_uiAction, if_true,
        helperSendTokenDataSignature, globals_ioSendResponse]
      obtain ⟨hsecret, hglobals⟩ := @getSecret_eq sdk (w.emit (.pressed .approve w.ui.shown))
      rw [hpress] at hsecret hglobals
      have htoken : (getSecret sdk (w.emit (.pressed .approve w.ui.shown))).2.ctx.token =
          w.ctx.token := by
        change (World.globals _).ctx.token = _
        rw [hglobals, Globals.ctx_readSecret]
        rfl
      have hsigned : ∀ secret, ((w.globals.press .approve).readSecret sdk).emit
            (.tokenSigned secret w.ctx.token) =
          { (w.globals.press .approve).readSecret sdk with
            log := .tokenSigned secret w.ctx.token :: (w.globals.press .approve).log } := by
        intro secret
        rw [← Globals.log_readSecret sdk (w.globals.press .approve)]
        rfl
      rw [World.globals_emit, hglobals, hsecret, htoken, hsigned]
      exact .approveToken hflow _ rfl
    | _ => simp [hflow, Flow.hasApprove] at hactive
  · have hrun : runPress sdk .approve w = w.emit (.pressed .approve w.ui.shown) := if_neg hactive
    rw [hrun, hpress]
    exact .inactive .approve (Bool.eq_false_iff.2 hactive)

theorem pressStep_reject (hready : w.globals.Ready) :
    PressStep sdk w.globals .reject (runPress sdk .reject w).globals := by
  have hpress := @globals_press w .reject
  by_cases hactive : w.ui.flow.hasReject = true
  · have hrun : runPress sdk .reject w =
        validateCallback sdk false (w.emit (.pressed .reject w.ui.shown)) := if_pos hactive
    have hcallback : w.ui.validateCallback = w.ui.flow.callback :=
      hready.callback (hasApprove_of_hasReject hactive)
    by_cases hreset : w.ui.flow = .resetTokenSignatures
    · have hmenu : (uiConfirmResetTokenSignatures sdk false
          (w.emit (.pressed .reject w.ui.shown))).globals =
          ((w.globals.press .reject).reply none Sw.deny).openFlow .menuMain := by
        simp only [uiConfirmResetTokenSignatures, Bool.false_eq_true, if_false, uiMenuMain_eq,
          globals_uxFlowInit, ioSendSw_eq, globals_ioSendResponse, hpress]
      rw [hrun, validateCallback, World.ui_emit, hcallback, hreset]
      simp only [Flow.callback, hmenu]
      exact .rejectReset hreset
    · have hwiped : (validateCallback sdk false (w.emit (.pressed .reject w.ui.shown))).globals =
          (w.globals.press .reject).cancel.reply none Sw.deny := by
        rw [validateCallback, World.ui_emit, hcallback, ← hpress]
        cases hflow : w.ui.flow with
        | confirmTx | txOutput => exact globals_cancel _ _
        | xpub | signTokenData => exact globals_uiAction _ false
        | resetTokenSignatures => exact absurd hflow hreset
        | _ =>
          rw [hflow] at hactive
          cases hactive
      rw [hrun, hwiped]
      exact .reject hactive hreset
  · have hrun : runPress sdk .reject w = w.emit (.pressed .reject w.ui.shown) := if_neg hactive
    rw [hrun, hpress]
    exact .inactive .reject (Bool.eq_false_iff.2 hactive)

theorem pressStep_runPress (button : Button) (hready : w.globals.Ready) :
    PressStep sdk w.globals button (runPress sdk button w).globals := by
  have hpress := @globals_press w button
  have hinactive : w.ui.flow.reacts button = false →
      PressStep sdk w.globals button (w.emit (.pressed button w.ui.shown)).globals := by
    intro hreacts
    rw [hpress]
    exact .inactive button hreacts
  cases button with
  | approve => exact pressStep_approve hready
  | reject => exact pressStep_reject hready
  | quit =>
    simp only [runPress, World.ui_emit]
    split
    · next hflow =>
      rw [actionExitToMenu, uiMenuMain_eq, globals_uxFlowInit, globals_explicitBzeroContext, hpress]
      exact .exitToMenu hflow
    · next hflow =>
      rw [globals_appMain, hpress]
      exact .quit hflow
    · next hprocessing hmenu => exact hinactive (decide_eq_false (not_or.2 ⟨hprocessing, hmenu⟩))
  | about =>
    by_cases hflow : w.ui.flow = .menuMain
    · have hrun : runPress sdk .about w = uiMenuAbout (w.emit (.pressed .about w.ui.shown)) :=
        if_pos hflow
      rw [hrun, uiMenuAbout_eq, globals_uxFlowInit, hpress]
      exact .about hflow
    · have hrun : runPress sdk .about w = w.emit (.pressed .about w.ui.shown) := if_neg hflow
      rw [hrun]
      exact hinactive (decide_eq_false hflow)
  | back =>
    by_cases hflow : w.ui.flow = .menuAbout
    · have hrun : runPress sdk .back w = uiMenuMain (w.emit (.pressed .back w.ui.shown)) :=
        if_pos hflow
      rw [hrun, uiMenuMain_eq, globals_uxFlowInit, hpress]
      exact .back hflow
    · have hrun : runPress sdk .back w = w.emit (.pressed .back w.ui.shown) := if_neg hflow
      rw [hrun]
      exact hinactive (decide_eq_false hflow)

/-! ### Steps -/

/-- A command that is not rejected is handled. -/
theorem CommandStep.handled_of_callOf {g g' : Globals} {apdu : Bytes} {ends : Bool} {call : Call}
    (h : CommandStep sdk g apdu ends g') (hcall : callOf apdu = some call) :
    Handled sdk (g.receive apdu) call ends g' := by
  cases h with
  | malformed hparse =>
    rw [callOf, hparse] at hcall
    cases hcall
  | rejected cmd sw hparse hcheck =>
    rw [callOf, hparse] at hcall
    simp [hcheck, Except.toOption] at hcall
  | handled call' hcall' _ _ h =>
    obtain rfl := Option.some.inj (hcall.symm.trans hcall')
    exact h

/-- Every step has one of the effects. -/
theorem globalsStep (hready : w.globals.Ready) (i : Input) :
    GlobalsStep sdk w.globals i (step sdk w i).globals := by
  cases i with
  | apdu apdu =>
    obtain ⟨ends, g', hcommand, hglobals⟩ := @commandStep_runCommand sdk w apdu hready
    rw [step, hglobals]
    exact .command apdu ends g' hcommand
  | press button => exact .press button _ (pressStep_runPress button hready)
  | ioReset =>
    rw [step, globals_appMain]
    exact .ioReset

end HathorLedger
