import HathorLedger.Run.Serving

/-!
# Requests on a screen of their own

`GET_ADDRESS`, `GET_XPUB`, `SIGN_TOKEN_DATA` and `RESET_TOKEN_SIGNATURES` each ask the user on a
screen of their own. When the answer has gone out, the user pressed a button on the screen that the
command had opened, and the answer holds what the context held when the screen was opened: nothing
that happens in between changes it.

## Main definitions

* `PressedSince`: a button was pressed on a screen after some moment of the run.
* `approval`, `approvedSecret`: the data of the answer when the open screen is approved, and the
  secret that is stored then.
* `Confirmed`: what an answer says about the open screen.

## Main results

* `Serves.confirmed`: the answer of an exchange in which a screen was opened.
* `serves_approve`: the approval is one press.
* `Serves.asks`, `exists_serves_of_accepted`: which commands are answered with `SW_OK`.
-/

namespace HathorLedger

variable (sdk : Sdk)

/-! ### Screens and presses -/

/-- The flows that belong to a single command. -/
def Flow.asks : Flow → Bool
  | .xpub | .address | .signTokenData | .resetTokenSignatures => true
  | _ => false

/-- After the log `base`, the button was pressed on the screen. -/
def PressedSince (button : Button) (screen : Screen) (base log : List Event) : Prop :=
  ∃ rest, .pressed button screen :: rest <:+ log ∧ base <:+ rest

/-- The answer of `GET_XPUB`. -/
def PkInfo.bytes (info : PkInfo) : Bytes := info.rawPublicKey ++ info.chainCode ++ info.fingerprint

/-- The data that approving the open screen answers. -/
def approval (g : Globals) : Bytes :=
  match g.ui.flow with
  | .xpub => g.ctx.pkInfo.bytes
  | .signTokenData => signToken sdk (g.readSecret sdk).secret g.ctx.token
  | _ => []

/-- The secret that is stored when the open screen has been approved. -/
def approvedSecret (g : Globals) : Bytes :=
  match g.ui.flow with
  | .signTokenData => (g.readSecret sdk).secret
  | .resetTokenSignatures => (g.generateSecret sdk).secret
  | _ => g.secret

/-- The answer to a command behind which the globals are `g₀` with a screen open, when the log has
grown to `log` and the secret `secret` is stored. -/
inductive Confirmed (g₀ : Globals) (log : List Event) (secret : Bytes) : ℕ × Bytes → Prop
  | approved (h : PressedSince .approve g₀.ui.shown g₀.log log)
    (hsecret : secret = approvedSecret sdk g₀) :
    Confirmed g₀ log secret (Sw.ok, approval sdk g₀)
  | denied (h : PressedSince .reject g₀.ui.shown g₀.log log) (hsecret : secret = g₀.secret) :
    Confirmed g₀ log secret (Sw.deny, [])

variable {sdk} {g₀ g g' : Globals} {w w' : World} {apdu data : Bytes} {answer : ℕ × Bytes}
  {button : Button} {screen : Screen} {base log log' : List Event}

theorem Flow.hasApprove_of_asks {flow : Flow} (h : flow.asks = true) : flow.hasApprove = true := by
  cases flow <;> first | rfl | cases h

theorem PressedSince.mono (h : PressedSince button screen base log) (hlog : log <:+ log') :
    PressedSince button screen base log' := by
  obtain ⟨rest, hrest, hbase⟩ := h
  exact ⟨rest, hrest.trans hlog, hbase⟩

theorem PressedSince.of_suffix {base' : List Event} (h : PressedSince button screen base log)
    (hbase : base' <:+ base) : PressedSince button screen base' log := by
  obtain ⟨rest, hrest, hsuffix⟩ := h
  exact ⟨rest, hrest, hbase.trans hsuffix⟩

/-- The answer fits into the buffer. -/
theorem length_approval_le (g : Globals) : (approval sdk g).length ≤ 101 := by
  unfold approval
  split
  · rw [PkInfo.bytes, List.length_append, List.length_append]
    exact Nat.add_le_add (Nat.add_le_add (List.length_take_le _ _) (List.length_take_le _ _))
      (List.length_take_le _ _)
  · rw [signToken, sdk.length_sha256]
    decide
  · exact Nat.zero_le _

theorem responseBody_approval (g : Globals) :
    responseBody (some (approval sdk g)) Sw.ok = approval sdk g ++ beBytes 2 Sw.ok := by
  have hle := @length_approval_le sdk g
  refine if_neg (not_lt.2 ?_)
  rw [Option.getD_some, ioApduBufferSize]
  omega

theorem Confirmed.mono {secret : Bytes} (h : Confirmed sdk g₀ log secret answer)
    (hlog : log <:+ log') : Confirmed sdk g₀ log' secret answer := by
  cases h with
  | approved h hsecret => exact .approved (h.mono hlog) hsecret
  | denied h hsecret => exact .denied (h.mono hlog) hsecret

/-! ### The open screen -/

/-- The screen that was open in `g₀` is still open, and nothing but presses has happened. -/
structure StillOpen (g₀ g : Globals) : Prop where
  ui_eq : g.ui = g₀.ui
  ctx_eq : g.ctx = g₀.ctx
  secret_eq : g.secret = g₀.secret
  draws_eq : g.draws = g₀.draws
  waiting : g.io.state = .waiting
  responses_eq : responses g.log = responses g₀.log
  log_suffix : g₀.log <:+ g.log

/-- The screen was answered. -/
structure Answered (sdk : Sdk) (g₀ g : Globals) (answer : ℕ × Bytes) : Prop where
  quiet : Quiet ((answer.2 ++ beBytes 2 answer.1) :: responses g₀.log) g
  confirmed : Confirmed sdk g₀ g.log g.secret answer

/-- While the app waits for the user, an answer goes out at once. -/
theorem quiet_reply {sent : List Bytes} (hio : g.io.state = .waiting) (hsent : responses g.log = sent)
    (rdata : Option Bytes) (sw : ℕ) : Quiet (responseBody rdata sw :: sent) (g.reply rdata sw) := by
  refine ⟨nofun, ?_⟩
  rw [responses_reply, hio, if_pos rfl, hsent]
  rfl

/-- The press stands in the log in front of what the answer has logged. -/
theorem StillOpen.pressedSince (ho : StillOpen g₀ g) (button : Button) (events : List Event) :
    PressedSince button g₀.ui.shown g₀.log (events ++ .pressed button g.ui.shown :: g.log) :=
  ⟨g.log, by rw [ho.ui_eq]; exact List.suffix_append .., ho.log_suffix⟩

theorem secret_readSecret_congr (hsecret : g.secret = g'.secret) (hdraws : g.draws = g'.draws) :
    (g.readSecret sdk).secret = (g'.readSecret sdk).secret := by
  unfold Globals.readSecret Globals.generateSecret
  rw [hsecret, hdraws]
  split_ifs
  · exact hsecret
  · rfl

/-- A press of approve on the open screen answers with the data that was held when the screen was
opened. -/
theorem StillOpen.approve (ho : StillOpen g₀ g) (hasks : g₀.ui.flow.asks = true)
    (h : PressStep sdk g .approve g') : Answered sdk g₀ g' (Sw.ok, approval sdk g₀) := by
  have hbody := @responseBody_approval sdk g₀
  rw [← ho.ui_eq] at hasks
  have hreplied (g₁ : Globals) (events : List Event)
      (hlog : g₁.log = events ++ .pressed .approve g.ui.shown :: g.log) (hio : g₁.io = g.io)
      (hresponses : responses g₁.log = responses g.log)
      (hsecret : g₁.secret = approvedSecret sdk g₀) (rdata : Option Bytes)
      (hdata : rdata.getD [] = approval sdk g₀) :
      Answered sdk g₀ ((g₁.reply rdata Sw.ok).openFlow .menuMain) (Sw.ok, approval sdk g₀) := by
    have hquiet := quiet_reply (hio ▸ ho.waiting) (hresponses.trans ho.responses_eq) rdata Sw.ok
    refine ⟨?_, .approved ?_ hsecret⟩
    · rw [← hbody]
      unfold responseBody at hquiet ⊢
      rw [hdata] at hquiet
      exact hquiet
    · refine (ho.pressedSince .approve events).mono ?_
      change _ <:+ (g₁.reply rdata Sw.ok).log
      rw [Globals.log_reply, ← hlog]
      exact List.suffix_append ..
  have hui : g.ui = g₀.ui := ho.ui_eq
  have hctx : g.ctx = g₀.ctx := ho.ctx_eq
  cases h with
  | inactive _ hreacts => exact absurd ((Flow.hasApprove_of_asks hasks).symm.trans hreacts) (by simp)
  | approveTx hflow | approveOutput hflow =>
    rw [hflow] at hasks
    cases hasks
  | approveXpub hflow =>
    rw [hui] at hflow
    refine hreplied { g.press .approve with log := .xpubSent g.ctx.pkInfo :: (g.press .approve).log }
      [.xpubSent g.ctx.pkInfo] rfl rfl rfl ?_ _ ?_
    · rw [approvedSecret, hflow]
      exact ho.secret_eq
    · rw [approval, hflow, hctx]
      rfl
  | approveToken hflow secret hsecret =>
    rw [hui] at hflow
    have hsecret₀ : ((g.press .approve).readSecret sdk).secret = (g₀.readSecret sdk).secret :=
      secret_readSecret_congr ho.secret_eq ho.draws_eq
    refine hreplied { (g.press .approve).readSecret sdk with
        log := .tokenSigned secret g.ctx.token :: (g.press .approve).log }
      [.tokenSigned secret g.ctx.token] rfl (Globals.io_readSecret sdk _) rfl ?_ _ ?_
    · rw [approvedSecret, hflow]
      exact hsecret₀
    · rw [approval, hflow, hctx, hsecret, hsecret₀]
      rfl
  | approveAddress hflow =>
    rw [hui] at hflow
    refine hreplied (g.press .approve) [] rfl rfl rfl ?_ _ ?_
    · rw [approvedSecret, hflow]
      exact ho.secret_eq
    · rw [approval, hflow]
      rfl
  | approveReset hflow =>
    rw [hui] at hflow
    refine hreplied ((g.press .approve).generateSecret sdk) [] rfl rfl rfl ?_ _ ?_
    · rw [approvedSecret, hflow]
      change memmove g.secret 0 ((sdk.rng g.draws).take secretLen) = _
      rw [ho.secret_eq, ho.draws_eq]
      rfl
    · rw [approval, hflow]
      rfl

/-- A press of reject on the open screen denies the request, if the screen has a step for it. -/
theorem StillOpen.reject (ho : StillOpen g₀ g) (hasks : g₀.ui.flow.hasReject = true)
    (h : PressStep sdk g .reject g') : Answered sdk g₀ g' (Sw.deny, []) := by
  rw [← ho.ui_eq] at hasks
  have hquiet (g₁ : Globals) (hio : g₁.io = g.io) (hlog : responses g₁.log = responses g.log) :=
    quiet_reply (hio ▸ ho.waiting) (hlog.trans ho.responses_eq) none Sw.deny
  cases h with
  | inactive _ hreacts => exact absurd (hasks.symm.trans hreacts) (by simp)
  | reject =>
    refine ⟨hquiet (g.press .reject).cancel rfl rfl, .denied ?_ ho.secret_eq⟩
    refine (ho.pressedSince .reject [.wiped]).mono ?_
    rw [Globals.log_reply]
    exact List.suffix_append ..
  | rejectReset =>
    refine ⟨hquiet (g.press .reject) rfl rfl, .denied ?_ ho.secret_eq⟩
    refine (ho.pressedSince .reject []).mono ?_
    change _ <:+ ((g.press .reject).reply none Sw.deny).log
    rw [Globals.log_reply]
    exact List.suffix_append ..

/-- A press on a step that the screen does not have leaves it open. -/
theorem StillOpen.press (ho : StillOpen g₀ g) (button : Button) : StillOpen g₀ (g.press button) where
  ui_eq := ho.ui_eq
  ctx_eq := ho.ctx_eq
  secret_eq := ho.secret_eq
  draws_eq := ho.draws_eq
  waiting := ho.waiting
  responses_eq := ho.responses_eq
  log_suffix := ho.log_suffix.trans (List.suffix_cons _ _)

/-- A press on a screen that asks for nothing keeps the secret. -/
theorem secret_of_closed (hclosed : g.ui.flow.hasApprove = false) (h : PressStep sdk g button g') :
    g'.secret = g.secret := by
  cases h with
  | inactive | exitToMenu | quit | about | back => rfl
  | approveTx hflow | approveOutput hflow | approveXpub hflow | approveToken hflow
  | approveAddress hflow | approveReset hflow | rejectReset hflow =>
    rw [hflow] at hclosed
    cases hclosed
  | reject hflow => cases (hasApprove_of_hasReject hflow).symm.trans hclosed

theorem Answered.pressStep (ha : Attended g) (hd : Answered sdk g₀ g answer)
    (h : PressStep sdk g button g') : Answered sdk g₀ g' answer := by
  have hclosed := ha.closed hd.quiet.1
  refine ⟨hd.quiet.pressStep hclosed h, ?_⟩
  rw [secret_of_closed hclosed h]
  exact hd.confirmed.mono (emits_pressStep h).suffix

/-- The exchange after a screen was opened: the screen is still open, or it was answered. -/
inductive Asking (sdk : Sdk) (g₀ g : Globals) : Prop
  | stillOpen (h : StillOpen g₀ g)
  | answered (answer : ℕ × Bytes) (h : Answered sdk g₀ g answer)

theorem Asking.pressStep (hasks : g₀.ui.flow.asks = true) (ha : Attended g)
    (hasking : Asking sdk g₀ g) (h : PressStep sdk g button g') : Asking sdk g₀ g' := by
  cases hasking with
  | answered answer hd => exact .answered answer (hd.pressStep ha h)
  | stillOpen ho =>
    have hopen : g.ui.flow.asks = true := ho.ui_eq ▸ hasks
    cases h with
    | inactive button => exact .stillOpen (ho.press button)
    | approveTx hflow | approveOutput hflow | exitToMenu hflow | quit hflow | about hflow
    | back hflow =>
      rw [hflow] at hopen
      cases hopen
    | approveXpub hflow => exact .answered _ (ho.approve hasks (.approveXpub hflow))
    | approveToken hflow secret hsecret =>
      exact .answered _ (ho.approve hasks (.approveToken hflow secret hsecret))
    | approveAddress hflow => exact .answered _ (ho.approve hasks (.approveAddress hflow))
    | approveReset hflow => exact .answered _ (ho.approve hasks (.approveReset hflow))
    | reject hflow hreset => exact .answered _ (ho.reject (ho.ui_eq ▸ hflow) (.reject hflow hreset))
    | rejectReset hflow =>
      exact .answered _ (ho.reject (by rw [← ho.ui_eq, hflow]; rfl) (.rejectReset hflow))

/-! ### Exchanges -/

/-- After a command that has opened a screen, the app waits for the user. -/
theorem stillOpen_of_step (hw : Reachable Booted (step sdk) Sequential w)
    (hidle : w.io.state ≠ .waiting) (hasks : (step sdk w (.apdu apdu)).ui.flow.asks = true) :
    StillOpen (step sdk w (.apdu apdu)).globals (step sdk w (.apdu apdu)).globals ∧
      responses (step sdk w (.apdu apdu)).trace = responses w.trace := by
  have hattended := attended_of_reachable (fun _ _ => id) hw
  obtain ⟨ends, g', hcommand, hglobals⟩ : ∃ ends g', CommandStep sdk w.globals apdu ends g' ∧
      (step sdk w (.apdu apdu)).globals = g'.resume ends :=
    commandStep_runCommand (sound_of_reachable hw).ready
  have hexchange : InExchange (responses w.globals.log) (step sdk w (.apdu apdu)).globals :=
    hglobals ▸ inExchange_commandStep hattended.listening hcommand
  have hnext := attended_of_reachable (fun _ _ => id) (hw.next (.apdu apdu) fun _ _ => hidle)
  have hwaiting := hnext.hasApprove_iff.1 (Flow.hasApprove_of_asks hasks)
  refine ⟨⟨rfl, rfl, rfl, rfl, hwaiting, rfl, List.suffix_rfl⟩, ?_⟩
  rw [← World.responses_log, ← World.responses_log]
  cases hexchange with
  | waiting _ hresponses => exact hresponses
  | restarted hq => exact absurd hwaiting hq.1
  | answered _ hq => exact absurd hwaiting hq.1

/-- The answer of an exchange in which a screen was opened: the user pressed a button on it, and the
answer holds what was held when it was opened. -/
theorem Serves.confirmed (hw : Reachable Booted (step sdk) Sequential w)
    (hidle : w.io.state ≠ .waiting) (h : Serves sdk w apdu answer w')
    (hasks : (step sdk w (.apdu apdu)).ui.flow.asks = true) :
    Confirmed sdk (step sdk w (.apdu apdu)).globals w'.log w'.secret answer := by
  obtain ⟨hopen, hresponses⟩ := stillOpen_of_step hw hidle hasks
  obtain ⟨-, hasking⟩ := h.induct
    (P := fun v => Asking sdk (step sdk w (.apdu apdu)).globals v.globals) hw hidle
    (.stillOpen hopen) fun v button hv ha =>
      ha.pressStep hasks (attended_of_reachable (fun _ _ => id) hv) (pressStep_of_reachable hv button)
  have hanswered := h.answered
  rw [← hresponses, ← World.responses_log, ← World.responses_log] at hanswered
  cases hasking with
  | stillOpen ho =>
    exact absurd (ho.responses_eq.symm.trans hanswered) (by simp [World.globals])
  | answered answer' hd =>
    have heq := List.cons.inj (hd.quiet.2.symm.trans hanswered)
    have hlt : answer'.1 < 2 ^ 16 := by
      cases hd.confirmed with
      | approved => exact Sw.ok_lt
      | denied => decide
    obtain ⟨hdata, hsw⟩ := eq_of_response_eq hlt h.sw_lt heq.1
    obtain rfl : answer' = answer := Prod.ext hsw hdata
    exact hd.confirmed

/-- A press of approve ends the exchange. -/
theorem serves_approve (hw : Reachable Booted (step sdk) Sequential w)
    (hidle : w.io.state ≠ .waiting) (hasks : (step sdk w (.apdu apdu)).ui.flow.asks = true) :
    ∃ w', Serves sdk w apdu (Sw.ok, approval sdk (step sdk w (.apdu apdu)).globals) w' := by
  obtain ⟨hopen, hresponses⟩ := stillOpen_of_step hw hidle hasks
  have hnext := hw.next (.apdu apdu) fun _ _ => hidle
  have hd := hopen.approve hasks (pressStep_of_reachable hnext .approve)
  refine ⟨_, ⟨[.approve], rfl⟩, ?_, Sw.ok_lt⟩
  rw [← hresponses, ← World.responses_log, ← World.responses_log]
  exact hd.quiet.2

/-! ### Commands -/

variable (sdk) in
/-- What a handled command leaves. -/
theorem exists_handled (hw : Reachable Booted (step sdk) Sequential w) {call : Call}
    (hcall : callOf apdu = some call) :
    ∃ ends g', Handled sdk (w.globals.receive apdu) call ends g' ∧
      (step sdk w (.apdu apdu)).globals = g'.resume ends ∧
      (w.globals.receive apdu).io.state = .received := by
  obtain ⟨ends, g', hcommand, hglobals⟩ : ∃ ends g', CommandStep sdk w.globals apdu ends g' ∧
      (step sdk w (.apdu apdu)).globals = g'.resume ends :=
    commandStep_runCommand (sound_of_reachable hw).ready
  exact ⟨ends, g', hcommand.handled_of_callOf hcall, hglobals,
    (attended_of_reachable (fun _ _ => id) hw).listening.received apdu⟩

/-- What a handler leaves is what its command leaves. -/
theorem exists_handled_of_wp (hready : w.globals.Ready) {call : Call}
    (hcall : callOf apdu = some call) {Q : ℤ → World → Prop} {E : ℕ → World → Prop}
    (h : (call.handle sdk).wp Q E (ioDeliver apdu w)) :
    ∃ ends g', Handled sdk (w.globals.receive apdu) call ends g' ∧
      (step sdk w (.apdu apdu)).globals = g'.resume ends ∧
      ((∃ ret v, Q ret v ∧ g' = v.globals) ∨ ∃ sw v, E sw v ∧ g' = v.globals.reply none sw) := by
  have hdeliver : (ioDeliver apdu w).globals = w.globals.receive apdu := globals_ioDeliver w apdu
  obtain ⟨cmd, hparse, hcheck⟩ := callOf_eq_some hcall
  have hhandled := @wp_handle sdk (ioDeliver apdu w) call
    (by rw [hdeliver]; exact ⟨hready.callback, hready.bufferLen_lt⟩)
    (fun data stage chunk h => length_of_callOf (hcall.trans (congrArg some h)))
  rw [hdeliver] at hhandled
  have hboth := EStateM.wp_and hhandled h
  have hdispatch : apduDispatcher sdk cmd = call.handle sdk := by simp only [apduDispatcher, hcheck]
  have hstep : step sdk w (.apdu apdu) = runCommand sdk apdu w := rfl
  rw [runCommand, hparse] at hstep
  dsimp only at hstep
  rw [hdispatch] at hstep
  cases hrun : (call.handle sdk).run (ioDeliver apdu w) with
  | ok ret w' =>
    obtain ⟨hdone, hQ⟩ := (EStateM.wp_of_run_ok hrun).1 hboth
    refine ⟨_, _, hdone, ?_, .inl ⟨ret, w', hQ, rfl⟩⟩
    rw [hstep, hrun, ← globals_resume]
    simp only [decide_eq_true_eq]
  | error sw w' =>
    obtain ⟨hdone, hE⟩ := (EStateM.wp_of_run_error hrun).1 hboth
    refine ⟨_, _, hdone, ?_, .inr ⟨sw, w', hE, rfl⟩⟩
    rw [hstep, hrun]
    dsimp only
    rw [globals_mainLoop, ioSendSw_eq, globals_ioSendResponse]
    rfl

/-- The postcondition of a handler that asks if it accepts its data, so that `P` holds of the context
and of the screen, and otherwise ends with an error. -/
def AsksOrRefuses (accepted : Prop) (P : GlobalCtx → Ui → Prop) (w : World) : Prop :=
  accepted ∧ P w.ctx w.ui ∨ ¬accepted ∧ ∃ sw ∈ Sw.errors, ∃ w', w = (ioSendSw sw w').2

/-- A command has opened the screen of the flow, and `P` holds of the context and of the screen. -/
structure Asks (flow : Flow) (P : GlobalCtx → Ui → Prop) (g g' : Globals) : Prop where
  flow_eq : g'.ui.flow = flow
  holds : P g'.ctx g'.ui
  secret_eq : g'.secret = g.secret
  draws_eq : g'.draws = g.draws

/-- A command that asks the user opens its screen, or it is refused with an error. -/
theorem asks_or_refuses (hw : Reachable Booted (step sdk) Sequential w) {call : Call}
    (hcall : callOf apdu = some call) {flow : Flow} {paths : List Bip32Path} {accepted : Prop}
    {P₀ : Globals → Prop} {P : GlobalCtx → Ui → Prop}
    (hrequested : ∀ ends g', Handled sdk (w.globals.receive apdu) call ends g' →
      Requested flow paths accepted P₀ (w.globals.receive apdu) ends g')
    (hwp : (call.handle sdk).wp (fun _ => AsksOrRefuses accepted P)
      (fun sw _ => ¬accepted ∧ sw ∈ Sw.errors) (ioDeliver apdu w)) :
    accepted ∧ Asks flow P w.globals (step sdk w (.apdu apdu)).globals ∨
      ¬accepted ∧ ∃ sw ∈ Sw.errors, ∃ g₁ : Globals,
        (step sdk w (.apdu apdu)).globals = (g₁.reply none sw).mainLoop := by
  have hio := (attended_of_reachable (fun _ _ => id) hw).listening.received apdu
  obtain ⟨ends, g', hhandled, hstep, hleft⟩ :=
    exists_handled_of_wp (sound_of_reachable hw).ready hcall hwp
  rw [hstep]
  have hrequest := hrequested ends g' hhandled
  cases hrequest with
  | opened g' haccepted hidle hopened =>
    have hio' : g'.io.state = .received := by rw [hidle.io, hio]
    have hloop : g'.resume false = { g' with io := { g'.io with state := .waiting, asynch := true } } := by
      change g'.mainLoop = _
      rw [Globals.mainLoop, hio']
    refine .inl ⟨haccepted, ?_⟩
    rw [hloop]
    rcases hleft with ⟨ret, v, (⟨-, hP⟩ | ⟨hnot, -⟩), hv⟩ | ⟨sw, v, ⟨hnot, -⟩, -⟩
    · exact ⟨hopened.flow, by rw [hv]; exact hP, hidle.secret, hidle.draws⟩
    · exact absurd haccepted hnot
    · exact absurd haccepted hnot
  | rejected g₁ sw' hnot hidle hui ends hends =>
    have hfalse : ends = false := by
      cases ends with
      | false => rfl
      | true => cases (hends rfl).symm.trans hio
    refine .inr ⟨hnot, ?_⟩
    rw [hfalse]
    change ∃ sw ∈ Sw.errors, ∃ g₂ : Globals, (g₁.reply none sw').mainLoop = _
    rcases hleft with ⟨ret, v, (⟨haccepted, -⟩ | ⟨-, sw, hsw, v', rfl⟩), hv⟩ | ⟨sw, v, ⟨-, hsw⟩, hv⟩
    · exact absurd haccepted hnot
    · refine ⟨sw, hsw, v'.globals, ?_⟩
      rw [hv, ioSendSw_eq, globals_ioSendResponse]
    · exact ⟨sw, hsw, v.globals, by rw [hv]⟩

/-- The answer of a command that replies at once. -/
theorem Serves.answer_eq (hw : Reachable Booted (step sdk) Sequential w)
    (hidle : w.io.state ≠ .waiting) (h : Serves sdk w apdu answer w') {g₁ : Globals}
    {rdata : Option Bytes} {sw : ℕ}
    (hstep : (step sdk w (.apdu apdu)).globals = (g₁.reply rdata sw).mainLoop) :
    responseBody rdata sw = answer.2 ++ beBytes 2 answer.1 := by
  have hready : (step sdk w (.apdu apdu)).io.state ≠ .waiting := by
    change (step sdk w (.apdu apdu)).globals.io.state ≠ .waiting
    rw [hstep]
    nofun
  have hresponses := h.responses_eq hw hidle hready
  rw [← World.responses_log] at hresponses
  change responses (step sdk w (.apdu apdu)).globals.log = _ at hresponses
  rw [hstep, responses_mainLoop_reply] at hresponses
  exact (List.cons.inj hresponses).1

/-- A command that replies at once can be answered without presses. -/
theorem serves_of_reply {g₁ : Globals} {rdata : Option Bytes} {sw : ℕ}
    (hstep : (step sdk w (.apdu apdu)).globals = (g₁.reply rdata sw).mainLoop)
    (hsent : responses g₁.log = responses w.log)
    (hbody : responseBody rdata sw = data ++ beBytes 2 sw) (hlt : sw < 2 ^ 16) :
    Serves sdk w apdu (sw, data) (step sdk w (.apdu apdu)) := by
  refine ⟨⟨[], rfl⟩, ?_, hlt⟩
  rw [← World.responses_log, ← World.responses_log]
  change responses (step sdk w (.apdu apdu)).globals.log = _
  rw [hstep, responses_mainLoop_reply, hbody]
  exact congrArg _ hsent

/-- A command that was answered with `SW_OK` was not refused. -/
theorem Serves.not_refused (hw : Reachable Booted (step sdk) Sequential w)
    (hidle : w.io.state ≠ .waiting) (h : Serves sdk w apdu (Sw.ok, data) w') {sw : ℕ}
    (hsw : sw ∈ Sw.errors) (g₁ : Globals) :
    (step sdk w (.apdu apdu)).globals ≠ (g₁.reply none sw).mainLoop := fun hstep =>
  @error_ne_ok sw hsw data [] [] (congrArg (List.cons · []) (h.answer_eq hw hidle hstep))

/-- A command that asks the user and was answered with `SW_OK` has opened its screen. -/
theorem Serves.asks (hw : Reachable Booted (step sdk) Sequential w) (hidle : w.io.state ≠ .waiting)
    {call : Call} (hcall : callOf apdu = some call) {flow : Flow} (hflow : flow.asks = true)
    {paths : List Bip32Path} {accepted : Prop} {P₀ : Globals → Prop} {P : GlobalCtx → Ui → Prop}
    (hrequested : ∀ ends g', Handled sdk (w.globals.receive apdu) call ends g' →
      Requested flow paths accepted P₀ (w.globals.receive apdu) ends g')
    (hwp : (call.handle sdk).wp (fun _ => AsksOrRefuses accepted P)
      (fun sw _ => ¬accepted ∧ sw ∈ Sw.errors) (ioDeliver apdu w))
    (h : Serves sdk w apdu (Sw.ok, data) w') :
    accepted ∧ Asks flow P w.globals (step sdk w (.apdu apdu)).globals ∧
      data = approval sdk (step sdk w (.apdu apdu)).globals ∧
      w'.secret = approvedSecret sdk (step sdk w (.apdu apdu)).globals ∧
      PressedSince .approve (step sdk w (.apdu apdu)).ui.shown w.log w'.log := by
  rcases asks_or_refuses hw hcall hrequested hwp with ⟨haccepted, hopened⟩ | ⟨-, sw, hsw, g₁, hstep⟩
  · have hasks : (step sdk w (.apdu apdu)).ui.flow.asks = true := by
      change (step sdk w (.apdu apdu)).globals.ui.flow.asks = true
      rw [hopened.flow_eq, hflow]
    have hconfirmed := h.confirmed hw hidle hasks
    generalize hanswer : (Sw.ok, data) = answer at hconfirmed
    cases hconfirmed with
    | approved hpressed hsecret =>
      exact ⟨haccepted, hopened, (Prod.mk.inj hanswer).2, hsecret,
        hpressed.of_suffix (log_suffix_step hw _)⟩
    | denied => exact absurd (Prod.mk.inj hanswer).1 (by decide)
  · exact absurd hstep (h.not_refused hw hidle hsw g₁)

/-- A command whose data is accepted can be answered with `SW_OK`. -/
theorem exists_serves_of_accepted (hw : Reachable Booted (step sdk) Sequential w)
    (hidle : w.io.state ≠ .waiting) {call : Call} (hcall : callOf apdu = some call) {flow : Flow}
    (hflow : flow.asks = true) {paths : List Bip32Path} {accepted : Prop} {P₀ : Globals → Prop}
    {P : GlobalCtx → Ui → Prop}
    (hrequested : ∀ ends g', Handled sdk (w.globals.receive apdu) call ends g' →
      Requested flow paths accepted P₀ (w.globals.receive apdu) ends g')
    (hwp : (call.handle sdk).wp (fun _ => AsksOrRefuses accepted P)
      (fun sw _ => ¬accepted ∧ sw ∈ Sw.errors) (ioDeliver apdu w)) (haccepted : accepted) :
    Asks flow P w.globals (step sdk w (.apdu apdu)).globals ∧
      ∃ w', Serves sdk w apdu (Sw.ok, approval sdk (step sdk w (.apdu apdu)).globals) w' := by
  rcases asks_or_refuses hw hcall hrequested hwp with ⟨-, hopened⟩ | ⟨hnot, -⟩
  · refine ⟨hopened, serves_approve hw hidle ?_⟩
    change (step sdk w (.apdu apdu)).globals.ui.flow.asks = true
    rw [hopened.flow_eq, hflow]
  · exact absurd haccepted hnot

end HathorLedger
