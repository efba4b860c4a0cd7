import HathorLedger.Run.Buffers
import HathorLedger.Run.Sequential

/-!
# One response for each command

A command that arrives while the app does not wait for the user is answered once: at once, or by the
user's answers to the screens that it opens, of which there are only finitely many. The loop of
`app_main` goes on.

The exception is a sign stage with the empty path. `sign_tx_with_key` takes a positive result of
`io_send_sw` for a success, but there is none, so that after `SW_SIGNATURE_FAIL` the handler returns
`-1` and `app_main` ends before the response is sent.

## Main definitions

* `StalePress`: a press on a screen that is still open although the app does not wait.
* `InTurn`: the conditions on the inputs of a run.
* `AnsweredOnce`: a command is answered once, and the app goes on.

## Main results

* `listening_of_reachable`: the invariant of runs without stale presses.
* `pending_lt`: an answer of the user brings the response closer.
* `answeredOnce_iff`: the commands that are answered once.
-/

namespace HathorLedger

variable (sdk : Sdk)

/-! ### Runs -/

/-- A screen with an approve step is answered while the app does not wait for the user. This takes a
command that was sent while the screen was open. -/
def StalePress (w : World) (i : Input) : Prop :=
  (i = .press .approve ∨ i = .press .reject) ∧ w.ui.flow.hasApprove = true ∧ w.io.state ≠ .waiting

instance (w : World) (i : Input) : Decidable (StalePress w i) :=
  inferInstanceAs (Decidable (_ ∧ _))

/-- No header announces too many tokens, approvals of outputs are on review, and no press is
stale. -/
def InTurn (w : World) (i : Input) : Prop :=
  (i.announcesTokens = false ∧ ¬OffReview w i) ∧ ¬StalePress w i

instance (w : World) (i : Input) : Decidable (InTurn w i) := inferInstanceAs (Decidable (_ ∧ _))

/-- The user answers the open screen, and approves outputs on review only. -/
def Reacting (w : World) (i : Input) : Prop :=
  w.io.state = .waiting ∧ (∃ button, i = .press button ∧ w.ui.flow.reacts button = true) ∧
    ¬OffReview w i

/-- The command is answered once, by the app or by the user's answers, and the loop goes on. -/
structure AnsweredOnce (w : World) (apdu : Bytes) : Prop where
  /-- Until the user has answered there is no response, and then there is one. -/
  once : ∀ w', Reachable (· = step sdk w (.apdu apdu)) (step sdk) Answering w' →
    (w'.io.state = .waiting → responses w'.trace = responses w.trace) ∧
      (w'.io.state ≠ .waiting → ∃ response, responses w'.trace = response :: responses w.trace)
  /-- The app does not start anew. -/
  goesOn : ∀ w', Reachable (· = step sdk w (.apdu apdu)) (step sdk) Answering w' →
    starts w'.trace = starts w.trace
  /-- The user can answer as long as the app waits. -/
  answerable : ∀ w', Reachable (· = step sdk w (.apdu apdu)) (step sdk) Answering w' →
    w'.io.state = .waiting → ∃ i, Reacting w' i
  /-- The user is not asked for ever. -/
  bounded : ∃ n, ∀ presses, Follows (step sdk) Reacting (step sdk w (.apdu apdu)) presses →
    presses.length ≤ n

variable {sdk} {g g' : Globals} {w : World}

/-- Silent events start nothing. -/
theorem World.starts_log (w : World) : starts w.log = starts w.trace :=
  List.count_filter rfl

/-! ### The invariant -/

theorem Listening.pressStep (hl : Listening g) {button : Button}
    (hturn : (button = .approve ∨ button = .reject) → g.ui.flow.hasApprove = true →
      g.io.state = .waiting) (h : PressStep sdk g button g') : Listening g' := by
  by_cases hwaiting : g.io.state = .waiting
  · exact (outcome_of_pressStep (hl.hasApprove hwaiting) h).listening hl hwaiting
  · have hsame : ∀ g₁ : Globals, g₁.io = g.io → Listening g₁ := by
      intro g₁ hio
      exact ⟨fun h => absurd (hio ▸ h) hwaiting, hio ▸ hl.asynch⟩
    have hclosed : ∀ {flow : Flow}, (button = .approve ∨ button = .reject) →
        g.ui.flow = flow → flow.hasApprove ≠ true := by
      rintro _ hbutton rfl hopen
      exact hwaiting (hturn hbutton hopen)
    cases h with
    | inactive => exact hsame _ rfl
    | exitToMenu => exact hsame _ rfl
    | quit => exact (attended_restart _).listening
    | about | back => exact hsame _ rfl
    | reject hflow => exact absurd (hasApprove_of_hasReject hflow) (hclosed (.inr rfl) rfl)
    | rejectReset hflow => exact absurd rfl (hclosed (.inr rfl) hflow)
    | approveTx hflow | approveOutput hflow | approveXpub hflow | approveToken hflow
      | approveAddress hflow | approveReset hflow =>
      exact absurd rfl (hclosed (.inl rfl) hflow)

/-- In runs without stale presses the app is blocked for the next command, or waits for the user with
a screen open. -/
theorem listening_of_reachable {guard : World → Input → Prop}
    (hguard : ∀ w i, guard w i → ¬StalePress w i) (hw : Reachable Booted (step sdk) guard w) :
    Listening w.globals := by
  refine hw.invariant (I := fun w => Listening w.globals) ?_ fun w i hw hi hl => ?_
  · rintro _ ⟨secret, -, rfl⟩
    rw [globals_boot]
    exact ⟨nofun, fun h => absurd rfl h⟩
  · have hstep := @globalsStep sdk w (sound_of_reachable hw).ready i
    have hturn := hguard w i hi
    generalize (step sdk w i).globals = g' at hstep
    cases hstep with
    | command apdu ends g' h =>
      have hreceived := hl.received apdu
      exact (outcome_of_commandStep hreceived h).listening_resume hreceived
    | press button g' h =>
      refine hl.pressStep (fun hbutton hopen => ?_) h
      by_contra hne
      refine hturn ⟨?_, hopen, hne⟩
      rcases hbutton with rfl | rfl
      · exact .inl rfl
      · exact .inr rfl
    | ioReset => exact (attended_restart _).listening

/-! ### The answers of the user -/

/-- How many answers the user gives at most until the response is sent: one for each decoded output
that is left, and one for the screen "Send Transaction?". -/
def Globals.pending (g : Globals) : ℕ :=
  if g.io.state ≠ .waiting then 0
  else if g.ui.flow = .txOutput then
    g.ctx.txInfo.bufferOutputLen - g.ctx.txInfo.displayIndex + 1
  else 1

theorem pending_of_waiting (h : g.io.state = .waiting) : g.pending =
    if g.ui.flow = .txOutput then g.ctx.txInfo.bufferOutputLen - g.ctx.txInfo.displayIndex + 1
    else 1 :=
  if_neg (not_not.2 h)

theorem pending_pos (h : g.io.state = .waiting) : 0 < g.pending := by
  rw [pending_of_waiting h]
  split_ifs
  · exact Nat.succ_pos _
  · exact Nat.one_pos

/-- An answer that is sent leaves nothing to ask. -/
theorem pending_reply (rdata : Option Bytes) (sw : ℕ) (g : Globals) :
    (g.reply rdata sw).pending = 0 :=
  if_pos nofun

/-- A response brings the review to an end, or it goes on with a later output. -/
theorem Displayed.pending_lt {b d d' : ℕ} (h : Displayed sdk g g') (hio : g.io.state = .waiting)
    (hb : g.ctx.txInfo.bufferOutputLen = b) (hd : g.ctx.txInfo.displayIndex = d') (hlt : d < d')
    (hlast : d < b) : g'.pending < b - d + 1 := by
  cases h with
  | asked h =>
    cases h with
    | send =>
      have hone : g.askSend.pending = 1 := pending_of_waiting hio
      rw [hone]
      omega
    | refused => exact (pending_reply ..).trans_lt (Nat.succ_pos _)
    | more => exact (pending_reply ..).trans_lt (Nat.succ_pos _)
  | output =>
    have hleft : (g.showOutput sdk).pending = b - d' + 1 := by
      rw [← hb, ← hd]
      exact pending_of_waiting hio
    rw [hleft]
    omega

/-- An answer of the user brings the response closer. -/
theorem pending_lt (hw : Reachable Booted (step sdk) InTurn w) {i : Input} (hi : Reacting w i) :
    (step sdk w i).globals.pending < w.globals.pending := by
  obtain ⟨hwaiting, ⟨button, rfl, hreacts⟩, hon⟩ := hi
  have hs := sound_of_reachable hw
  have hopen := (listening_of_reachable (fun _ _ h => h.2) hw).hasApprove hwaiting
  have hbounded := bounded_of_reachable (fun _ _ h => h.1) hw
  have hpos : 0 < w.globals.pending := pending_pos hwaiting
  have hstep := @globalsStep sdk w hs.ready (.press button)
  generalize (step sdk w (.press button)).globals = g' at hstep
  have hanswered : ∀ {flow : Flow}, flow.hasApprove = false → ∀ (g₁ : Globals)
      (rdata : Option Bytes) (sw : ℕ),
      ((g₁.reply rdata sw).openFlow flow).pending < w.globals.pending := by
    intro flow hflow g₁ rdata sw
    rw [openFlow_reply hflow, pending_reply]
    exact hpos
  cases hstep with
  | press _ _ h =>
    cases h with
    | inactive _ h =>
      cases hreacts.symm.trans h
    | approveTx => exact hanswered rfl ..
    | approveOutput hflow n d c _ hdisplayed hskipped =>
      have hskip := skipped_of_onReview hs (vacant_of_reachable hw) hbounded hflow hon hskipped
      have hsame := hskip.same
      have hle := hskip.le
      have hdisplay := hbounded.display_le
      have hne : w.ctx.txInfo.displayIndex ≠ w.ctx.txInfo.bufferOutputLen := fun heq =>
        hon ⟨rfl, hflow, .inl heq⟩
      simp only at hsame hle
      have hpending : w.globals.pending =
          w.ctx.txInfo.bufferOutputLen - w.ctx.txInfo.displayIndex + 1 := by
        rw [pending_of_waiting hwaiting, if_pos hflow]
        rfl
      rw [hpending]
      exact hdisplayed.pending_lt hwaiting rfl rfl (by change _ < d; omega) (by omega)
    | approveXpub => exact hanswered rfl ..
    | approveToken => exact hanswered rfl ..
    | approveAddress => exact hanswered rfl ..
    | approveReset => exact hanswered rfl ..
    | reject => exact (pending_reply ..).trans_lt hpos
    | rejectReset => exact hanswered rfl ..
    | exitToMenu hflow | quit hflow | about hflow | back hflow =>
      rw [hflow] at hopen
      cases hopen

/-- The user answers in turn. -/
theorem Reacting.inTurn {i : Input} (hi : Reacting w i) : InTurn w i := by
  obtain ⟨hwaiting, ⟨button, rfl, -⟩, hon⟩ := hi
  exact ⟨⟨rfl, hon⟩, fun hstale => hstale.2.2 hwaiting⟩

theorem length_le_pending (hw : Reachable Booted (step sdk) InTurn w) {presses : List Input}
    (h : Follows (step sdk) Reacting w presses) : presses.length ≤ w.globals.pending := by
  induction presses generalizing w with
  | nil => exact Nat.zero_le _
  | cons i presses ih =>
    obtain ⟨hi, hrest⟩ := h
    have hlt := pending_lt hw hi
    have hle := ih (hw.next i hi.inTurn) hrest
    rw [List.length_cons]
    omega

/-- Every screen that the app waits for can be answered. -/
theorem Listening.reacting (hl : Listening w.globals) (hwaiting : w.io.state = .waiting) :
    ∃ i, Reacting w i := by
  have hopen := hl.hasApprove hwaiting
  change w.ui.flow.hasApprove = true at hopen
  cases hreject : w.ui.flow.hasReject with
  | true => exact ⟨.press .reject, hwaiting, ⟨_, rfl, hreject⟩, nofun⟩
  | false =>
    have hflow : w.ui.flow ≠ .txOutput := fun h => by
      rw [h] at hreject
      cases hreject
    exact ⟨.press .approve, hwaiting, ⟨_, rfl, hopen⟩, fun hoff => hflow hoff.2.1⟩

/-! ### One response -/

/-- Since the moment with the given responses and starts there was one response, or there was none and
the app waits for the user. -/
structure Once (old : List Bytes) (n : ℕ) (g : Globals) : Prop where
  waiting : g.io.state = .waiting → responses g.log = old
  answered : g.io.state ≠ .waiting → ∃ response, responses g.log = response :: old
  starts_eq : starts g.log = n

/-- A command that does not end the app is answered, or the app waits for the user. -/
theorem once_of_outcome {cause closed : Prop} {ends : Bool} (hio : g.io.state = .received)
    (hcause : ¬cause) (h : Outcome cause closed g ends g') :
    Once (responses g.log) (starts g.log) (g'.resume ends) := by
  cases h with
  | answered g₁ h hflow rdata sw =>
    have hlog : ((g₁.reply rdata sw).resume false).log = .sent (responseBody rdata sw) :: g₁.log :=
      log_mainLoop_reply rdata sw g₁
    refine ⟨nofun, fun _ => ⟨responseBody rdata sw, ?_⟩, ?_⟩
    · rw [hlog, responses_sent, h.responses_eq]
    · rw [hlog, starts_sent, h.starts_eq]
  | asked _ h hflow =>
    have hloop : g'.resume false = { g' with io := { g'.io with state := .waiting, asynch := true } } :=
      h.mainLoop hio
    rw [hloop]
    exact ⟨fun _ => h.responses_eq, fun hne => absurd rfl hne, h.starts_eq⟩
  | ended _ hresponses h => exact absurd h hcause

/-- An answer of the user is the response, or the app waits on. -/
theorem Once.press {old : List Bytes} {n : ℕ} {closed : Prop} (ho : Once old n g)
    (hio : g.io.state = .waiting) (h : Outcome False closed g false g') : Once old n g' := by
  cases h with
  | answered g₁ h hflow rdata sw =>
    have hlog : (g₁.reply rdata sw).log = .sent (responseBody rdata sw) :: g₁.log := by
      rw [Globals.log_reply, if_pos (h.io_eq ▸ hio)]
      rfl
    refine ⟨nofun, fun _ => ⟨responseBody rdata sw, ?_⟩, ?_⟩
    · rw [hlog, responses_sent, h.responses_eq, ho.waiting hio]
    · rw [hlog, starts_sent, h.starts_eq, ho.starts_eq]
  | asked _ h hflow =>
    exact ⟨fun _ => h.responses_eq.trans (ho.waiting hio), fun hne => absurd (h.io_eq ▸ hio) hne,
      h.starts_eq.trans ho.starts_eq⟩

/-- A sign stage with the empty path ends the app. -/
theorem ends_of_signsEmptyPath {apdu : Bytes} {call : Call} {ends : Bool}
    (hcall : callOf apdu = some call) (hempty : SignsEmptyPath call g)
    (h : CommandStep sdk g apdu ends g') : ends = true ∧ starts g'.log = starts g.log := by
  obtain ⟨data, chunk, path, rest, rfl, happroved, hread, hpath⟩ := hempty
  cases h.handled_of_callOf hcall with
  | signTx _ _ _ _ _ h =>
    cases h with
    | cancelled h => omega
    | refused _ hstate => exact absurd happroved hstate
    | misread _ _ _ hfail => cases (congrArg Prod.fst hread).symm.trans hfail
    | signing _ _ path' rest' hread' _ _ h =>
      obtain rfl : path = path' := congrArg (·.2.1) (hread.symm.trans hread')
      cases h with
      | empty => exact ⟨rfl, starts_reply ..⟩
      | refused hne | finished hne | signed hne => exact absurd hpath hne
    | wiped hstage | failed hstage | received hstage => cases hstage

/-- For every state of a run whose inputs are in turn, and every command that does not announce too
many tokens: the command is answered once, by the app or by the user's answers, and the loop goes on,
unless it asks for a signature with the empty path. -/
theorem answeredOnce_iff (hsdk : sdk.Succeeds) (hw : Reachable Booted (step sdk) InTurn w)
    {apdu : Bytes} (hannounce : (Input.apdu apdu).announcesTokens = false) :
    AnsweredOnce sdk w apdu ↔
      ¬∃ call, callOf apdu = some call ∧ SignsEmptyPath call w.globals := by
  have hl := listening_of_reachable (fun _ _ h => h.2) hw
  have hreceived := hl.received apdu
  obtain ⟨ends, g', hcommand, hglobals⟩ : ∃ ends g', CommandStep sdk w.globals apdu ends g' ∧
      (step sdk w (.apdu apdu)).globals = g'.resume ends :=
    commandStep_runCommand (sound_of_reachable hw).ready
  constructor
  · rintro h ⟨call, hcall, hempty⟩
    obtain ⟨rfl, hstarts⟩ := ends_of_signsEmptyPath hcall hempty hcommand
    have hsame := h.goesOn _ (.start rfl)
    have hlog : (step sdk w (.apdu apdu)).log = .started :: .wiped :: g'.log :=
      congrArg Globals.log hglobals
    have hwiped : starts (.wiped :: g'.log) = starts g'.log :=
      List.count_cons_of_ne (show Event.wiped ≠ .started by nofun)
    have hstarted : starts (.started :: .wiped :: g'.log) = starts (.wiped :: g'.log) + 1 :=
      List.count_cons_self
    rw [← World.starts_log, ← World.starts_log, hlog, hstarted, hwiped, hstarts] at hsame
    exact absurd hsame (Nat.succ_ne_self _)
  · intro hnot
    have hturn : Reachable Booted (step sdk) InTurn (step sdk w (.apdu apdu)) :=
      hw.next _ ⟨⟨hannounce, nofun⟩, fun hstale => by rcases hstale.1 with h | h <;> cases h⟩
    have houtcome := outcome_of_commandStep hreceived hcommand
    have honce : ∀ w', Reachable (· = step sdk w (.apdu apdu)) (step sdk) Answering w' →
        Once (responses w.trace) (starts w.trace) w'.globals ∧ Listening w'.globals := by
      intro w' hw'
      refine hw'.invariant (I := fun w' => Once (responses w.trace) (starts w.trace) w'.globals ∧
        Listening w'.globals) ?_ ?_
      · rintro _ rfl
        have hfirst := once_of_outcome hreceived (fun h => hnot (h hsdk)) houtcome
        rw [responses_receive, starts_receive] at hfirst
        rw [hglobals, ← World.responses_log, ← World.starts_log]
        exact ⟨hfirst, houtcome.listening_resume hreceived⟩
      · rintro v _ hv ⟨hwaiting, button, rfl⟩ ⟨honce, hl⟩
        -- the state is reachable, whatever the user pressed
        have hall : Reachable Booted (step sdk) (fun _ _ => True) v :=
          (hturn.mono fun _ _ _ _ => trivial).trans (hv.mono fun _ _ _ _ => trivial)
        have hpress := @globalsStep sdk v (sound_of_reachable hall).ready (.press button)
        generalize (step sdk v (.press button)).globals = g' at hpress
        cases hpress with
        | press _ _ h =>
          have houtcome := outcome_of_pressStep (hl.hasApprove hwaiting) h
          exact ⟨honce.press hwaiting houtcome, houtcome.listening hl hwaiting⟩
    refine ⟨fun w' hw' => ?_, fun w' hw' => ?_, fun w' hw' => ?_, _,
      fun presses => length_le_pending hturn⟩
    · rw [← World.responses_log w']
      exact ⟨(honce w' hw').1.waiting, (honce w' hw').1.answered⟩
    · rw [← World.starts_log w']
      exact (honce w' hw').1.starts_eq
    · exact (honce w' hw').2.reacting

/-- The platform of the sample runs, on which all calls succeed. -/
def succeedingSdk : Sdk := { Sdk.sample with zeroedDigest := some (List.replicate 32 0) }

theorem succeeds_succeedingSdk : succeedingSdk.Succeeds := ⟨nofun, nofun, nofun, nofun⟩

/-- A first chunk with an output, which the user is asked to approve. -/
def sampleChunk : Bytes :=
  Command.encode ⟨cla, Ins.signTx, 0, 0, 0 :: sampleHeader.bytes ++ sampleOutput.bytes⟩

theorem answeredOnce_sampleChunk : AnsweredOnce succeedingSdk sampleBoot sampleChunk := by
  refine (answeredOnce_iff succeeds_succeedingSdk (.start booted_sampleBoot) (by decide +kernel)).2 ?_
  rintro ⟨call, -, data, chunk, path, rest, -, happroved, -⟩
  cases happroved

/-- The sign stage of an approved transaction with the empty path. -/
def sampleEmptySign : Bytes := Command.encode ⟨cla, Ins.signTx, 1, 0, [0]⟩

/-- The app starts anew without an answer. -/
theorem not_answeredOnce_sampleEmptySign :
    Reachable Booted (step succeedingSdk) InTurn (run succeedingSdk sampleBoot sampleApproved) ∧
      ¬AnsweredOnce succeedingSdk (run succeedingSdk sampleBoot sampleApproved) sampleEmptySign := by
  have hfollows : Follows (step succeedingSdk) InTurn sampleBoot sampleApproved := by
    decide +kernel
  refine ⟨(Reachable.start booted_sampleBoot).follow hfollows, fun h => ?_⟩
  exact absurd (h.goesOn _ (.start rfl)) (by decide +kernel)

end HathorLedger
