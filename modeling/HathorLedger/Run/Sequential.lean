import HathorLedger.Run.Exchange
import HathorLedger.Run.Faithful

/-!
# Commands one after the other

If the host sends a command only after the previous one was answered, a screen is open exactly while
the app waits for the user, and where no output screen is open all decoded outputs are confirmed. Then
no command disturbs a screen.

## Main definitions

* `Sequential`: no command arrives while the app waits for the user.
* `Listening`, `Attended`: a screen is open while the app waits, and only then.
* `CaughtUp`: the review has caught up with the decoder.
* `Answering`: the presses with which the user answers a command.
* `ShownByChunk`: the review of the outputs that a chunk has brought.

## Main results

* `attended_of_reachable`: the invariant of sequential runs.
* `shown_of_command`: a command that finds no screen open shows an output only for a chunk.
* `faithful_of_sequential`: the screens are faithful in sequential runs without a boundary press.
-/

namespace HathorLedger

variable (sdk : Sdk)

/-- A command is sent only after the previous one was answered. -/
def Sequential (w : World) (i : Input) : Prop := ∀ apdu, i = .apdu apdu → w.io.state ≠ .waiting

/-- A screen with an approve step is open exactly while the app waits for the user. -/
structure Attended (g : Globals) : Prop where
  hasApprove_iff : g.ui.flow.hasApprove = true ↔ g.io.state = .waiting
  asynch : g.io.state ≠ .received → g.io.asynch = true

/-- The app is blocked for the next command, or it waits for the user with a screen open. -/
structure Listening (g : Globals) : Prop where
  hasApprove : g.io.state = .waiting → g.ui.flow.hasApprove = true
  asynch : g.io.state ≠ .received → g.io.asynch = true

/-- While the app waits, the user answers. -/
def Answering (w : World) (i : Input) : Prop :=
  w.io.state = .waiting ∧ ∃ button, i = .press button

instance (w : World) : ∀ i, Decidable (Sequential w i)
  | .apdu apdu => decidable_of_iff (w.io.state ≠ .waiting) ⟨fun h _ _ => h, fun h => h apdu rfl⟩
  | .press _ | .ioReset => isTrue nofun

variable {sdk} {g g' : Globals} {w : World}

theorem sequential_press (button : Button) : Sequential w (.press button) := nofun

theorem not_boundaryPress_apdu (apdu : Bytes) : ¬BoundaryPress w (.apdu apdu) := nofun

theorem Attended.closed (ha : Attended g) (hio : g.io.state ≠ .waiting) :
    g.ui.flow.hasApprove = false :=
  Bool.eq_false_iff.2 fun h => hio (ha.hasApprove_iff.1 h)

theorem Attended.listening (ha : Attended g) : Listening g := ⟨ha.hasApprove_iff.2, ha.asynch⟩

theorem Listening.received (hl : Listening g) (apdu : Bytes) :
    (g.receive apdu).io.state = .received := by
  change (if g.io.asynch then IoState.received else g.io.state) = _
  split_ifs with hasynch
  · rfl
  · by_contra hne
    exact hasynch (hl.asynch hne)

theorem attended_restart (g : Globals) : Attended g.restart :=
  ⟨⟨nofun, nofun⟩, fun h => absurd rfl h⟩

/-- A question makes the app wait for the user. -/
theorem Unanswered.mainLoop (hio : g.io.state = .received) (h : Unanswered g g') :
    g'.mainLoop = { g' with io := { g'.io with state := .waiting, asynch := true } } := by
  unfold Globals.mainLoop
  rw [h.io_eq, hio]

section Outcomes

variable {cause closed : Prop} {ends : Bool}

/-- After an outcome the app waits for the user or for the next command. -/
theorem Outcome.listening_resume (hio : g.io.state = .received)
    (h : Outcome cause closed g ends g') : Listening (g'.resume ends) := by
  cases h with
  | answered g₁ h hflow rdata sw =>
    have hstate : (g₁.reply rdata sw).mainLoop.io.state = .received := rfl
    refine ⟨fun hwaiting => ?_, fun hne => absurd hstate hne⟩
    cases hstate.symm.trans hwaiting
  | asked _ h hflow =>
    change Listening g'.mainLoop
    rw [h.mainLoop hio]
    exact ⟨fun _ => hflow, fun _ => rfl⟩
  | ended _ hresponses hcause => exact (attended_restart g').listening

/-- A press leaves the app waiting, or makes it ready for the next command. -/
theorem Outcome.listening (hl : Listening g) (hio : g.io.state = .waiting)
    (h : Outcome cause closed g false g') : Listening g' := by
  have hasynch : g.io.asynch = true := hl.asynch (by rw [hio]; nofun)
  cases h with
  | answered g₁ h hflow rdata sw =>
    refine ⟨nofun, fun _ => ?_⟩
    change g₁.io.asynch = true
    rw [h.io_eq, hasynch]
  | asked _ h hflow =>
    rw [← h.io_eq] at hasynch
    exact ⟨fun _ => hflow, fun _ => hasynch⟩

/-- If no screen was open, the app waits for the user exactly if one is open now. -/
theorem Outcome.attended_resume (hclosed : closed) (hio : g.io.state = .received)
    (h : Outcome cause closed g ends g') : Attended (g'.resume ends) := by
  have hlistening := h.listening_resume hio
  refine ⟨⟨fun hopen => ?_, hlistening.hasApprove⟩, hlistening.asynch⟩
  cases h with
  | answered g₁ h hflow rdata sw =>
    have hclosed' : (g₁.reply rdata sw).mainLoop.ui.flow.hasApprove = false := hflow hclosed
    cases hclosed'.symm.trans hopen
  | asked _ h hflow =>
    change g'.mainLoop.io.state = .waiting
    rw [h.mainLoop hio]
  | ended => cases hopen

/-- An answer to a screen closes it. -/
theorem Outcome.attended (ha : Attended g) (hio : g.io.state = .waiting)
    (h : Outcome cause True g false g') : Attended g' := by
  have hlistening := h.listening ha.listening hio
  refine ⟨⟨fun hopen => ?_, hlistening.hasApprove⟩, hlistening.asynch⟩
  cases h with
  | answered g₁ h hflow rdata sw =>
    have hclosed : (g₁.reply rdata sw).ui.flow.hasApprove = false := hflow trivial
    cases hclosed.symm.trans hopen
  | asked _ h hflow => rw [h.io_eq, hio]

end Outcomes

theorem Attended.pressStep (ha : Attended g) {button : Button} (h : PressStep sdk g button g') :
    Attended g' := by
  cases hopen : g.ui.flow.hasApprove with
  | true => exact (outcome_of_pressStep hopen h).attended ha (ha.hasApprove_iff.1 hopen)
  | false =>
    have hmenu : ∀ g₁ : Globals, g₁.io = g.io → g₁.ui.flow.hasApprove = false → Attended g₁ := by
      intro g₁ hio hflow
      refine ⟨?_, by rw [hio]; exact ha.asynch⟩
      rw [hflow, hio, ← ha.hasApprove_iff, hopen]
    cases h with
    | inactive => exact hmenu _ rfl hopen
    | exitToMenu => exact hmenu _ rfl rfl
    | quit => exact attended_restart _
    | about => exact hmenu _ rfl rfl
    | back => exact hmenu _ rfl rfl
    | reject hflow => rw [hasApprove_of_hasReject hflow] at hopen; cases hopen
    | approveTx hflow | approveOutput hflow | approveXpub hflow | approveToken hflow
      | approveAddress hflow | approveReset hflow | rejectReset hflow =>
      rw [hflow] at hopen
      cases hopen

/-- In sequential runs a screen is open exactly while the app waits. -/
theorem attended_of_reachable {guard : World → Input → Prop}
    (hguard : ∀ w i, guard w i → Sequential w i)
    (hw : Reachable Booted (step sdk) guard w) : Attended w.globals := by
  refine hw.invariant (I := fun w => Attended w.globals) ?_ fun w i hw hi ha => ?_
  · rintro _ ⟨secret, -, rfl⟩
    rw [globals_boot]
    exact ⟨⟨nofun, nofun⟩, fun h => absurd rfl h⟩
  · have hstep := @globalsStep sdk w (sound_of_reachable hw).ready i
    have hsequential := hguard w i hi
    generalize (step sdk w i).globals = g' at hstep
    cases hstep with
    | command apdu ends g' h =>
      have hio : w.globals.io.state ≠ .waiting := hsequential apdu rfl
      have hreceived := ha.listening.received apdu
      exact (outcome_of_commandStep hreceived h).attended_resume (ha.closed hio) hreceived
    | press button g' h => exact ha.pressStep h
    | ioReset => exact attended_restart _

/-! ### The review catches up -/

/-- Where no output screen is open, the review has caught up with the decoder. -/
def CaughtUp (g : Globals) : Prop :=
  g.ctx.state = .recvData → g.ui.flow ≠ .txOutput →
    g.ctx.txInfo.confirmedOutputs = g.ctx.txInfo.currentOutput

theorem caughtUp_of_state (hstate : g.ctx.state ≠ .recvData) : CaughtUp g :=
  fun h => absurd h hstate

theorem CaughtUp.calm (hc : CaughtUp g) (hflow : g.ui.flow ≠ .txOutput) (h : Calm sdk g g') :
    CaughtUp g' := by
  intro hstate _
  rw [h.confirmedOutputs, h.currentOutput]
  exact hc (h.state ▸ hstate) hflow

/-- At the end of the decoded outputs all of them are confirmed. -/
theorem UnderWay.caughtUp {h : Header} {e : Elements} (hu : UnderWay sdk h e g)
    (hdisplayed : Displayed sdk g g') : CaughtUp g' := by
  cases hdisplayed with
  | asked hasked =>
    cases hasked with
    | send | refused => exact caughtUp_of_state nofun
    | more _ hd =>
      intro _ _
      have hsum := hu.sum_eq
      have hcurrent := hu.session.held.currentOutput
      change g.ctx.txInfo.confirmedOutputs = g.ctx.txInfo.currentOutput
      omega
  | output => exact fun _ hflow => absurd rfl hflow

theorem caughtUp_of_decoded {h : Header} {e : Elements} (hr : Resumed sdk h e g)
    (hconfirmed : g.ctx.txInfo.confirmedOutputs = g.ctx.txInfo.currentOutput) {ends : Bool}
    (hd : Decoded sdk g ends g') (hends : ends = false) : CaughtUp g' := by
  cases hd with
  | invalid => exact caughtUp_of_state nofun
  | failed => cases hends
  | silent hready hnone =>
    obtain ⟨e', ⟨hsession, -⟩, -, -, hconfirmed', hsum⟩ := hr.queueing.decoded hready
    have hcurrent := hr.queueing.session.held.currentOutput
    have hcurrent' := hsession.held.currentOutput
    intro _ _
    change (g.decode sdk).ctx.txInfo.confirmedOutputs = (g.decode sdk).ctx.txInfo.currentOutput
    omega
  | displayed hready hsome n d c _ hdisplayed hskipped =>
    obtain ⟨e', hu⟩ := hr.underWay hconfirmed hready hsome hskipped n
    exact hu.caughtUp hdisplayed

theorem CaughtUp.stageStep (hc : CaughtUp g) (hf : Faithful sdk g) (hs : Sound sdk g)
    (hflow : g.ui.flow ≠ .txOutput) {data : Bytes} {stage chunk : ℕ} {ends : Bool}
    (hdata : data.length ≤ 255) (h : StageStep sdk data stage chunk g ends g')
    (hends : ends = false) : CaughtUp g' := by
  cases h with
  | cancelled | wiped => exact caughtUp_of_state nofun
  | refused | misread => exact hc
  | signing _ _ path rest _ _ _ h =>
    exact hc.calm hflow ((calm_restartReview hflow path).trans (calm_signStep h))
  | failed _ _ _ _ g₁ sw hfailed => cases hfailed <;> exact fun _ _ => rfl
  | received _ _ _ g₁ _ _ hq hd =>
    obtain ⟨h, e, hr⟩ := hf.queued hs hdata hq
    refine caughtUp_of_decoded hr ?_ hd hends
    rcases hq.cases_record with ⟨-, hconfirmed, hcurrent⟩ | ⟨-, hstate, hrecord⟩
    · rw [hconfirmed, hcurrent]
    · rw [hrecord]
      exact hc hstate hflow

theorem CaughtUp.handled (hc : CaughtUp g) (hf : Faithful sdk g) (hs : Sound sdk g)
    (hflow : g.ui.flow ≠ .txOutput) {call : Call} {ends : Bool}
    (hdata : ∀ data stage chunk, call = .signTx data stage chunk → data.length ≤ 255)
    (h : Handled sdk g call ends g') (hends : ends = false) : CaughtUp g' := by
  have hrequest : ∀ {flow paths accepted P}, Requested flow paths accepted P g ends g' →
      CaughtUp g' := by
    intro flow paths accepted P h
    cases h with
    | rejected g₁ sw h hidle =>
      have hstate : g₁.ctx.state ≠ .recvData := by
        rw [hidle.state]
        nofun
      exact caughtUp_of_state hstate
    | opened _ h hidle =>
      refine caughtUp_of_state ?_
      rw [hidle.state]
      nofun
  cases h with
  | getVersion => exact hc
  | getAddress data _ _ h => exact hrequest h
  | getXpub data _ _ h => exact hrequest h
  | signTokenData data _ _ h => exact hrequest h
  | signTx data stage chunk _ _ h => exact hc.stageStep hf hs hflow (hdata data stage chunk rfl) h hends
  | sendFirst data _ h =>
    have hwiped : CaughtUp { g.wipe with tokenSymbols := {} } := caughtUp_of_state nofun
    exact hwiped.calm hflow (calm_registryStep h)
  | sendNext data _ h => exact hc.calm hflow (calm_registryStep h)
  | verifyTokenSignature data =>
    have hwiped : CaughtUp g.wipe := caughtUp_of_state nofun
    unfold Globals.verify
    split
    · exact hwiped
    · have hread : CaughtUp (g.wipe.readSecret sdk) := hwiped.calm hflow (calm_readSecret _)
      exact hread
  | resetTokenSignatures => exact fun hstate _ => hc hstate hflow

theorem CaughtUp.resume {ends : Bool} (hc : ends = false → CaughtUp g) : CaughtUp (g.resume ends) := by
  cases ends with
  | true => exact caughtUp_of_state nofun
  | false =>
    change CaughtUp g.mainLoop
    unfold Globals.mainLoop
    split
    · exact hc rfl
    · exact hc rfl
    · exact caughtUp_of_state nofun

theorem CaughtUp.commandStep (hc : CaughtUp g) (hf : Faithful sdk g) (hs : Sound sdk g)
    (hflow : g.ui.flow ≠ .txOutput) {apdu : Bytes} {ends : Bool}
    (h : CommandStep sdk g apdu ends g') : CaughtUp (g'.resume ends) := by
  refine CaughtUp.resume ?_
  cases h with
  | malformed | rejected => exact fun _ => hc
  | handled call hcall _ _ h =>
    have hreceived : CaughtUp (g.receive apdu) := hc
    exact hreceived.handled (hf.calm (calm_receive apdu g)) (hs.receive apdu) hflow
      (fun _ _ _ heq => length_of_callOf (hcall.trans (congrArg some heq))) h

theorem CaughtUp.pressStep (hc : CaughtUp g) (hf : Faithful sdk g) (hs : Sound sdk g)
    {button : Button} (hguard : button = .approve → g.ui.flow = .txOutput →
      g.ctx.txInfo.displayIndex + 1 = g.ctx.txInfo.bufferOutputLen →
      g.ctx.txInfo.confirmedOutputs + 1 ∉ g.ctx.txInfo.changeIndices)
    (h : PressStep sdk g button g') : CaughtUp g' := by
  have hmenu : ∀ g₁ : Globals, g₁.ctx = g.ctx → g.ui.flow ≠ .txOutput → CaughtUp g₁ := by
    intro g₁ hctx hflow hstate _
    rw [hctx] at hstate ⊢
    exact hc hstate hflow
  cases h with
  | inactive => exact hc
  | approveTx | reject | exitToMenu | quit => exact caughtUp_of_state nofun
  | approveOutput hflow n d c _ hdisplayed hskipped =>
    obtain ⟨h, e, hu⟩ := hf.underWay hs hflow (hguard rfl hflow) hskipped n
    exact hu.caughtUp hdisplayed
  | approveToken hflow => exact hmenu _ (Globals.ctx_readSecret sdk _) (by rw [hflow]; nofun)
  | approveXpub hflow | approveAddress hflow | approveReset hflow | rejectReset hflow | about hflow
    | back hflow => exact hmenu _ rfl (by rw [hflow]; nofun)

/-! ### Sequential runs are undisturbed -/

theorem hasApprove_of_standsForContext {flow : Flow} (h : flow.standsForContext = true) :
    flow.hasApprove = true := by
  cases flow <;> first | rfl | cases h

/-- Where the review has caught up, commands that find no screen open disturb nothing. -/
theorem not_disturbs_of_caughtUp (ha : Attended w.globals) (hc : CaughtUp w.globals) {i : Input}
    (hi : Sequential w i) : ¬Disturbs sdk w i := by
  rintro ⟨apdu, call, rfl, -, hdisturbs⟩
  have hclosed := ha.closed (hi apdu rfl)
  have hstands : w.globals.ui.flow.standsForContext ≠ true := fun hstands =>
    Bool.false_ne_true (hclosed.symm.trans (hasApprove_of_standsForContext hstands))
  have houtput : w.globals.ui.flow ≠ .txOutput := fun hflow => hstands (by rw [hflow]; rfl)
  cases call with
  | getAddress | getXpub | signTokenData | sendTokenData => exact hstands hdisturbs.1
  | verifyTokenSignature => exact hstands hdisturbs
  | resetTokenSignatures | getVersion => exact hdisturbs
  | signTx =>
    rcases hdisturbs with ⟨-, -, h, -⟩ | ⟨-, -, hstate, hne, -⟩ | ⟨-, hflow⟩
    · exact hstands h
    · exact hne (hc hstate houtput)
    · exact houtput hflow

/-- In sequential runs without a boundary press the screens are faithful, and the review catches
up. -/
theorem caughtUp_of_sequential
    (hw : Reachable Booted (step sdk) (fun w i => Sequential w i ∧ ¬BoundaryPress w i) w) :
    Faithful sdk w.globals ∧ CaughtUp w.globals := by
  refine hw.invariant (I := fun w => Faithful sdk w.globals ∧ CaughtUp w.globals) ?_ ?_
  · rintro _ ⟨secret, -, rfl⟩
    rw [globals_boot]
    exact ⟨faithful_of_closed rfl nofun rfl, caughtUp_of_state nofun⟩
  · rintro w i hw ⟨hsequential, hboundary⟩ ⟨hf, hc⟩
    have hs := sound_of_reachable hw
    have ha := attended_of_reachable (fun _ _ h => h.1) hw
    refine ⟨hf.step hs ⟨not_disturbs_of_caughtUp ha hc hsequential, hboundary⟩, ?_⟩
    have hstep := @globalsStep sdk w hs.ready i
    generalize (step sdk w i).globals = g' at hstep
    cases hstep with
    | command apdu ends g' h =>
      have hclosed := ha.closed (hsequential apdu rfl)
      exact hc.commandStep hf hs (fun hflow => by rw [hflow] at hclosed; cases hclosed) h
    | press button g' h =>
      refine hc.pressStep hf hs (fun hbutton hflow hlast hchange => ?_) h
      exact hboundary ⟨congrArg Input.press hbutton, hflow, hlast, hchange⟩
    | ioReset => exact caughtUp_of_state nofun

theorem faithful_of_sequential
    (hw : Reachable Booted (step sdk) (fun w i => Sequential w i ∧ ¬BoundaryPress w i) w) :
    Faithful sdk w.globals :=
  (caughtUp_of_sequential hw).1

/-! ### Output screens -/

variable (sdk) in
/-- A chunk was queued and decoded, and the review has started with the outputs in it. -/
inductive ShownByChunk (g : Globals) : Call → Globals → Prop
  | intro (data : Bytes) (stage chunk : ℕ) (g₁ : Globals) (hqueued : Queued data chunk g g₁)
    (hready : (decodeElements sdk g₁.tokenSymbols g₁.ctx.txInfo).1 = TxState.ready)
    (hsome : (g₁.decode sdk).ctx.txInfo.bufferOutputLen ≠ 0) (n d c : ℕ) (g' : Globals)
    (hdisplayed : Displayed sdk (((g₁.decode sdk).readChanges n).review d c) g')
    (hskipped : (g₁.decode sdk).ctx.txInfo.InBounds →
      Skipped (g₁.decode sdk).ctx.txInfo.changeIndices (g₁.decode sdk).ctx.txInfo d c) :
    ShownByChunk g (.signTx data stage chunk) g'

/-- A call that finds no screen open shows an output only for a chunk. -/
theorem shown_of_handled (hs : Sound sdk g) (hflow : g.ui.flow.hasApprove = false) {call : Call}
    {ends : Bool} (hends : ends = false) (h : Handled sdk g call ends g') :
    g'.ui.flow ≠ .txOutput ∨ ShownByChunk sdk g call g' := by
  have hclosed : g.ui.flow ≠ .txOutput := fun h => by
    rw [h] at hflow
    cases hflow
  have hrequest : ∀ {flow paths accepted P}, Requested flow paths accepted P g ends g' →
      flow ≠ .txOutput → g'.ui.flow ≠ .txOutput := by
    intro flow paths accepted P h hne
    cases h with
    | rejected g₁ sw h hidle hui => exact hui ▸ hclosed
    | opened _ h hidle hopened => rwa [hopened.flow]
  have hsecret : ∀ g₁ : Globals, g₁.ui = g.ui → (g₁.readSecret sdk).ui.flow ≠ .txOutput := by
    intro g₁ hui
    rw [Globals.ui_readSecret, hui]
    exact hclosed
  cases h with
  | getVersion => exact .inl hclosed
  | getAddress data _ _ h => exact .inl (hrequest h nofun)
  | getXpub data _ _ h => exact .inl (hrequest h nofun)
  | signTokenData data _ _ h => exact .inl (hrequest h nofun)
  | sendFirst data _ h | sendNext data _ h =>
    left
    cases h with
    | full | malformed => exact hclosed
    | invalid | stored => exact hsecret _ rfl
  | verifyTokenSignature data =>
    left
    unfold Globals.verify
    split
    · exact hclosed
    · rw [Globals.ui_reply]
      exact hsecret _ rfl
  | resetTokenSignatures => exact .inl nofun
  | signTx data stage chunk _ _ h =>
    cases h with
    | cancelled => exact .inl nofun
    | refused | misread | wiped => exact .inl hclosed
    | signing hstage hstate path rest haccepted _ _ h =>
      left
      cases h <;> exact hclosed
    | failed hstage hchunk hstate happroved g₁ sw hfailed =>
      left
      cases hfailed <;> exact hclosed
    | received hstage happroved hfirst g₁ _ _ hq hd =>
      obtain ⟨-, hui⟩ := hq.log hs.gated
      have hopen : g₁.ui.flow ≠ .txOutput := hui ▸ hclosed
      cases hd with
      | invalid => exact .inl nofun
      | failed => cases hends
      | silent => exact .inl hopen
      | displayed hready hsome n d c _ hdisplayed hskipped =>
        exact .inr ⟨data, stage, chunk, g₁, hq, hready, hsome, n, d, c, g', hdisplayed, hskipped⟩

/-- A command that finds no screen open shows an output only for a chunk. -/
theorem shown_of_command (hs : Sound sdk g) (hflow : g.ui.flow.hasApprove = false) {apdu : Bytes}
    {ends : Bool} (h : CommandStep sdk g apdu ends g') (houtput : (g'.resume ends).ui.flow = .txOutput) :
    ∃ call, callOf apdu = some call ∧ ShownByChunk sdk (g.receive apdu) call g' ∧
      g'.resume ends = { g' with io := (g'.resume ends).io, log := (g'.resume ends).log } := by
  cases ends with
  | true => cases houtput
  | false =>
    change g'.mainLoop.ui.flow = _ at houtput
    have hloop : g'.mainLoop = { g' with io := g'.mainLoop.io, log := g'.mainLoop.log } ∧
        g'.ui.flow = .txOutput := by
      unfold Globals.mainLoop at houtput ⊢
      split at houtput
      · exact ⟨rfl, houtput⟩
      · exact ⟨rfl, houtput⟩
      · cases houtput
    have hclosed : g.ui.flow ≠ .txOutput := fun h => by
      rw [h] at hflow
      cases hflow
    generalize hends : false = ends at h
    cases h with
    | malformed | rejected => exact absurd hloop.2 hclosed
    | handled call hcall _ _ h =>
      subst hends
      refine ⟨call, hcall, ?_, hloop.1⟩
      exact (shown_of_handled (hs.receive apdu) hflow rfl h).resolve_left (not_not.2 hloop.2)

end HathorLedger
