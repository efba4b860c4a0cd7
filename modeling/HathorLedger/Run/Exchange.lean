import HathorLedger.Run.Session

/-!
# Responses

A response is put into the APDU buffer and goes out on the wire when the app blocks for the next
command, or at once when the app waits for the user. Either way a command that is answered puts its
response on the wire, unless the app ends with it.

A command that arrives while no screen is open is answered by its handler, or its handler opens a
screen and the user's answer is the response, or the app ends.

## Main definitions

* `responses`: the responses that went out on the wire.
* `Outcome`: how the handling of a command ends.

## Main results

* `responses_mainLoop_reply`: an answer followed by the loop of the app is one response.
* `outcome_of_commandStep`, `outcome_of_pressStep`: the outcomes of commands and of presses.
-/

namespace HathorLedger

/-! ### The wire -/

/-- The response that an event sends. -/
def Event.response : Event → Option Bytes
  | .sent response => some response
  | _ => none

/-- The responses that went out on the wire, the newest first. -/
def responses (events : List Event) : List Bytes := events.filterMap Event.response

variable {sdk : Sdk} {g g' : Globals} {w : World}

@[simp] theorem responses_nil : responses [] = [] := rfl

@[simp] theorem responses_append (events log : List Event) :
    responses (events ++ log) = responses events ++ responses log :=
  List.filterMap_append

@[simp] theorem responses_sent (response : Bytes) (log : List Event) :
    responses (.sent response :: log) = response :: responses log := rfl

theorem responses_cons_of_ne {e : Event} (h : e.response = none) (log : List Event) :
    responses (e :: log) = responses log :=
  List.filterMap_cons_none h

/-- Silent events send nothing. -/
theorem World.responses_log (w : World) : responses w.log = responses w.trace := by
  unfold World.log
  induction w.trace with
  | nil => rfl
  | cons e events ih =>
    cases he : e.silent with
    | true =>
      have hnone : e.response = none := by
        cases e with
        | shown screen => rfl
        | _ => cases he
      rw [List.filter_cons_of_neg (by simp [he]), responses_cons_of_ne hnone, ih]
    | false =>
      rw [List.filter_cons_of_pos (by simp [he])]
      simp only [responses, List.filterMap_cons] at ih ⊢
      rw [ih]

theorem responses_reply (rdata : Option Bytes) (sw : ℕ) (g : Globals) :
    responses (g.reply rdata sw).log =
      (if g.io.state = .waiting then [responseBody rdata sw] else []) ++ responses g.log := by
  rw [Globals.log_reply, responses_append]
  split_ifs <;> rfl

@[simp] theorem responses_receive (apdu : Bytes) (g : Globals) :
    responses (g.receive apdu).log = responses g.log := rfl

@[simp] theorem responses_restart (g : Globals) : responses g.restart.log = responses g.log := rfl

/-- An answer goes out when the app blocks again. -/
theorem log_mainLoop_reply (rdata : Option Bytes) (sw : ℕ) (g : Globals) :
    (g.reply rdata sw).mainLoop.log = .sent (responseBody rdata sw) :: g.log := by
  have hpos := length_responseBody rdata sw
  have htake : (memmove g.io.apduBuffer 0 (responseBody rdata sw)).take
      (responseBody rdata sw).length = responseBody rdata sw := by
    rw [take_memmove (Nat.zero_le _) (Nat.zero_add _).symm, List.take_zero, List.nil_append]
  have hloop : (g.reply rdata sw).mainLoop.log =
      (if (g.reply rdata sw).io.outputLen = 0 then []
        else [.sent ((g.reply rdata sw).io.apduBuffer.take (g.reply rdata sw).io.outputLen)]) ++
      (g.reply rdata sw).log := by
    change (if (g.reply rdata sw).io.outputLen = 0 then _ else _) = _
    split_ifs <;> rfl
  rw [hloop, Globals.log_reply]
  by_cases hstate : g.io.state = .waiting
  · have hzero : (g.reply rdata sw).io.outputLen = 0 := if_pos hstate
    rw [if_pos hzero, if_pos hstate]
    rfl
  · have hlen : (g.reply rdata sw).io.outputLen = (responseBody rdata sw).length := if_neg hstate
    rw [if_neg (by omega), if_neg hstate, hlen]
    exact congrArg (.sent · :: g.log) htake

theorem responses_mainLoop_reply (rdata : Option Bytes) (sw : ℕ) (g : Globals) :
    responses (g.reply rdata sw).mainLoop.log = responseBody rdata sw :: responses g.log := by
  rw [log_mainLoop_reply, responses_sent]

/-- An answer is one response, unless the app ends because it had answered already. -/
theorem responses_resume_reply (rdata : Option Bytes) (sw : ℕ) (g : Globals) :
    responses ((g.reply rdata sw).resume (decide (g.io.state = .ready))).log =
      if g.io.state = .ready then responses g.log
      else responseBody rdata sw :: responses g.log := by
  split_ifs with hstate
  · rw [decide_eq_true hstate]
    change responses (g.reply rdata sw).restart.log = _
    rw [responses_restart, responses_reply, if_neg (by rw [hstate]; nofun), List.nil_append]
  · rw [decide_eq_false hstate]
    exact responses_mainLoop_reply rdata sw g

/-! ### Outcomes of commands -/

/-- How often the app was started. -/
def starts (events : List Event) : ℕ := events.count .started

@[simp] theorem starts_append (events log : List Event) :
    starts (events ++ log) = starts events + starts log :=
  List.count_append

@[simp] theorem starts_sent (response : Bytes) (log : List Event) :
    starts (.sent response :: log) = starts log :=
  List.count_cons_of_ne (show Event.sent response ≠ .started by nofun)

theorem starts_reply (rdata : Option Bytes) (sw : ℕ) (g : Globals) :
    starts (g.reply rdata sw).log = starts g.log := by
  rw [Globals.log_reply]
  split_ifs
  · exact starts_sent _ _
  · rfl

@[simp] theorem starts_receive (apdu : Bytes) (g : Globals) :
    starts (g.receive apdu).log = starts g.log :=
  List.count_cons_of_ne (show Event.received apdu ≠ .started by nofun)

/-- Nothing was answered, and the app was not started. -/
structure Unanswered (g g' : Globals) : Prop where
  io_eq : g'.io = g.io
  responses_eq : responses g'.log = responses g.log
  starts_eq : starts g'.log = starts g.log

/-- The command is a sign stage that asks for a signature with the key of the empty path. -/
def SignsEmptyPath (call : Call) (g : Globals) : Prop :=
  ∃ data chunk path rest, call = .signTx data 1 chunk ∧ g.ctx.state = .approved ∧
    (Buffer.ofBytes data).readBip32Path g.ctx.bip32Path = (true, path, rest) ∧ path.length = 0

/-- How the handling of a command or of a press ends: with an answer, with the question of a screen,
or with the end of the app, for which there is a `cause`. After an answer no screen is open, if it was
`closed` before. -/
inductive Outcome (cause closed : Prop) (g : Globals) : Bool → Globals → Prop
  | answered (g₁ : Globals) (h : Unanswered g g₁) (hflow : closed → g₁.ui.flow.hasApprove = false)
    (rdata : Option Bytes) (sw : ℕ) : Outcome cause closed g false (g₁.reply rdata sw)
  | asked (g' : Globals) (h : Unanswered g g') (hflow : g'.ui.flow.hasApprove = true) :
    Outcome cause closed g false g'
  | ended (g' : Globals) (hresponses : responses g'.log = responses g.log) (hcause : cause) :
    Outcome cause closed g true g'

theorem Unanswered.refl (g : Globals) : Unanswered g g := ⟨rfl, rfl, rfl⟩

theorem Unanswered.trans {g₁ : Globals} (h : Unanswered g g₁) (h' : Unanswered g₁ g') :
    Unanswered g g' :=
  ⟨h'.io_eq.trans h.io_eq, h'.responses_eq.trans h.responses_eq, h'.starts_eq.trans h.starts_eq⟩

/-- The events that are no responses and no starts. -/
def Event.quiet : Event → Bool
  | .sent _ | .started => false
  | _ => true

theorem unanswered_of_log (hio : g'.io = g.io) (events : List Event)
    (hlog : g'.log = events ++ g.log) (hquiet : ∀ e ∈ events, e.quiet = true) : Unanswered g g' := by
  have hnone : responses events = [] := List.filterMap_eq_nil_iff.2 fun e he => by
    have := hquiet e he
    cases e <;> first | rfl | cases this
  have hzero : starts events = 0 := List.count_eq_zero.2 fun hmem => by
    have := hquiet _ hmem
    cases this
  exact ⟨hio, by rw [hlog, responses_append, hnone, List.nil_append],
    by rw [hlog, starts_append, hzero, Nat.zero_add]⟩

theorem Event.quiet_of_ofRequest {paths : List Bip32Path} {e : Event}
    (he : e.ofRequest paths = true) : e.quiet = true := by
  cases e <;> first | rfl | cases he

theorem unanswered_cancel (g : Globals) : Unanswered g g.cancel :=
  ⟨rfl, rfl, rfl⟩

theorem unanswered_readSecret (g : Globals) : Unanswered g (g.readSecret sdk) :=
  ⟨by simp, by simp, by simp⟩

variable {cause closed : Prop}

theorem outcome_of_requested {flow : Flow} {paths : List Bip32Path} {accepted : Prop}
    {P : Globals → Prop} {ends : Bool} (hio : g.io.state = .received)
    (hclosed : closed → g.ui.flow.hasApprove = false) (hflow : flow.hasApprove = true)
    (h : Requested flow paths accepted P g ends g') : Outcome cause closed g ends g' := by
  cases h with
  | rejected g₁ sw hrejected hidle hui _ hends =>
    obtain ⟨events, hlog, hevents⟩ := hidle.log
    have hunanswered : Unanswered g g₁ :=
      unanswered_of_log hidle.io _ hlog fun e he => Event.quiet_of_ofRequest (hevents e he)
    cases ends with
    | true =>
      have := hends rfl
      rw [hio] at this
      cases this
    | false => exact .answered g₁ hunanswered (hui ▸ hclosed) _ _
  | opened _ haccepted hidle hopened hP =>
    obtain ⟨events, hlog, hevents⟩ := hidle.log
    exact .asked g' (unanswered_of_log hidle.io _ hlog fun e he => Event.quiet_of_ofRequest (hevents e he))
      (by rw [hopened.flow]; exact hflow)

theorem outcome_of_asked (h : Asked g g') : Outcome cause closed g false g' := by
  cases h with
  | send => exact .asked _ (unanswered_of_log rfl [.shown .confirmTx] rfl (by simp [Event.quiet])) rfl
  | refused => exact .answered g.cancel (unanswered_cancel g) (fun _ => rfl) _ _
  | more =>
    refine .answered _ ?_ ?_ none Sw.ok
    · exact ⟨rfl, rfl, rfl⟩
    · exact fun _ => rfl

theorem unanswered_showOutput (g : Globals) : Unanswered g (g.showOutput sdk) := by
  refine unanswered_of_log rfl (.shown _ ::
    Globals.tokenReads (displayedOutput sdk g.ctx.txInfo)) rfl fun e he => ?_
  rcases List.mem_cons.1 he with rfl | he
  · rfl
  · unfold Globals.tokenReads at he
    split_ifs at he
    · cases he
    · rw [List.mem_singleton.1 he]
      rfl

theorem outcome_of_displayed (h : Displayed sdk g g') : Outcome cause closed g false g' := by
  cases h with
  | asked h => exact outcome_of_asked h
  | output => exact .asked _ (unanswered_showOutput g) rfl

/-- The outcome counted from an earlier moment. -/
theorem Outcome.of_unanswered {g₁ : Globals} {ends : Bool} (h : Unanswered g g₁)
    (h' : Outcome cause closed g₁ ends g') : Outcome cause closed g ends g' := by
  cases h' with
  | answered g₂ h₂ hflow rdata sw => exact .answered g₂ (h.trans h₂) hflow rdata sw
  | asked _ h₂ hflow => exact .asked g' (h.trans h₂) hflow
  | ended _ hresponses hcause => exact .ended g' (hresponses.trans h.responses_eq) hcause

theorem Outcome.imp {cause' : Prop} {ends : Bool} (h : Outcome cause closed g ends g')
    (hcause : cause → cause') : Outcome cause' closed g ends g' := by
  cases h with
  | answered g₁ h hflow rdata sw => exact .answered g₁ h hflow rdata sw
  | asked _ h hflow => exact .asked g' h hflow
  | ended _ hresponses h => exact .ended g' hresponses (hcause h)

theorem finishSighashAll_ne_none (hsdk : sdk.Succeeds) (t : TxInfo) :
    finishSighashAll sdk t ≠ none := by
  have hlast : ∀ ctx data, sdk.hashLast ctx data ≠ none := by
    intro ctx data
    cases ctx with
    | zeroed => simpa [Sdk.hashLast] using hsdk.zeroedDigest
    | fed old => simp [Sdk.hashLast]
  unfold finishSighashAll
  split_ifs
  · cases hfirst : sdk.hashLast t.sha256 [] with
    | none => exact absurd hfirst (hlast _ _)
    | some first => simp [Sdk.hashLast]
  · rintro ⟨⟩

theorem outcome_of_registryStep {data : Bytes} (hclosed : closed → g.ui.flow.hasApprove = false)
    (h : RegistryStep sdk data g g') : Outcome cause closed g false g' := by
  cases h with
  | full =>
    refine .answered _ ?_ ?_ _ _
    · exact ⟨rfl, rfl, rfl⟩
    · exact hclosed
  | malformed => exact .answered g (.refl g) hclosed _ _
  | invalid =>
    exact .answered _ (unanswered_readSecret g) (by rw [Globals.ui_readSecret]; exact hclosed) _ _
  | stored hlen token signature =>
    refine .answered _ (unanswered_of_log ?_ [.tokenAccepted (g.readSecret sdk).secret token
      signature] rfl (by simp [Event.quiet])) ?_ _ _
    · exact Globals.io_readSecret sdk g
    · change closed → (g.readSecret sdk).ui.flow.hasApprove = false
      rw [Globals.ui_readSecret]
      exact hclosed

theorem outcome_of_signStep {ends : Bool} (hio : g.io.state = .received)
    (hclosed : closed → g.ui.flow.hasApprove = false)
    (h : SignStep sdk g ends g') :
    Outcome (sdk.Succeeds → g.ctx.bip32Path.length = 0) closed g ends g' := by
  have hsent : ∀ (rdata : Option Bytes) (sw : ℕ) (g₁ : Globals), g₁.io = g.io →
      responses g₁.log = responses g.log → responses (g₁.reply rdata sw).log = responses g.log := by
    intro rdata sw g₁ hio₁ hlog
    rw [responses_reply, hio₁, hio, hlog]
    rfl
  cases h with
  | empty h => exact .ended _ (hsent _ _ _ rfl rfl) fun _ => h
  | refused h hsdk =>
    refine .ended _ (hsent _ _ _ rfl rfl) fun hsucceeds => ?_
    rcases hsdk with hsdk | hsdk
    · exact absurd hsdk (hsucceeds.derivePrivateKey _)
    · exact absurd hsdk (finishSighashAll_ne_none hsucceeds _)
  | finished h t hfinish privateKey hsdk =>
    exact .ended _ (hsent _ _ _ rfl rfl) fun hsucceeds => absurd hsdk (hsucceeds.ecdsaSign _ _)
  | signed h t hfinish privateKey chainCode signature =>
    rw [decide_eq_false (by rw [hio]; nofun)]
    refine .answered _ ?_ ?_ _ _
    · exact unanswered_of_log rfl [.signed g.ctx.bip32Path.components t.sighashAll signature,
        .hashFinished, .derived g.ctx.bip32Path] rfl (by simp [Event.quiet])
    · exact hclosed

theorem unanswered_decode (g : Globals) : Unanswered g (g.decode sdk) :=
  unanswered_of_log rfl _ rfl fun e he => by
    rcases mem_decodeEvents he with rfl | rfl | ⟨info, -, rfl⟩ <;> rfl

/-- The review goes on with other counters. -/
theorem unanswered_review (g : Globals) (n d c : ℕ) :
    Unanswered g ((g.readChanges n).review d c) :=
  unanswered_of_log rfl _ rfl fun e he => by
    rw [List.eq_of_mem_replicate he]
    rfl

theorem outcome_of_decoded {ends : Bool} (hclosed : closed → g.ui.flow.hasApprove = false)
    (h : Decoded sdk g ends g') : Outcome (¬sdk.Succeeds) closed g ends g' := by
  have hdecode : Unanswered g (g.decode sdk) := unanswered_decode g
  cases h with
  | invalid =>
    exact .answered _ (hdecode.trans (unanswered_cancel _)) (fun _ => rfl) _ _
  | failed herr hready =>
    refine .ended _ hdecode.responses_eq fun hsucceeds => ?_
    rcases decodeElements_of_succeeds hsucceeds with h | h
    · exact hready h
    · exact herr h
  | silent => exact .answered _ hdecode hclosed _ _
  | displayed hready hsome n d c _ hdisplayed =>
    exact (outcome_of_displayed hdisplayed).of_unanswered
      (hdecode.trans (unanswered_review _ n d c))

theorem outcome_of_stageStep {data : Bytes} {stage chunk : ℕ} {ends : Bool}
    (hio : g.io.state = .received) (hclosed : closed → g.ui.flow.hasApprove = false)
    (h : StageStep sdk data stage chunk g ends g') :
    Outcome (sdk.Succeeds → SignsEmptyPath (.signTx data stage chunk) g) closed g ends g' := by
  have hready : decide (g.io.state = .ready) = false := decide_eq_false (by rw [hio]; nofun)
  cases h with
  | cancelled =>
    rw [hready]
    exact .answered _ (unanswered_cancel g) (fun _ => rfl) _ _
  | refused =>
    rw [hready]
    refine .answered _ ?_ ?_ _ _
    · exact ⟨rfl, rfl, rfl⟩
    · exact hclosed
  | misread hstage hstate path =>
    rw [hready]
    refine .answered _ ?_ ?_ _ _
    · exact ⟨rfl, rfl, rfl⟩
    · exact hclosed
  | signing hstage hstate path rest haccepted _ _ h =>
    have hrestart : Unanswered g { g.restartReview with ctx.bip32Path := path } := ⟨rfl, rfl, rfl⟩
    have hsign := outcome_of_signStep (g := { g.restartReview with ctx.bip32Path := path }) hio
      hclosed h
    refine (hsign.of_unanswered hrestart).imp fun hempty hsdk => ?_
    exact ⟨data, chunk, path, rest, by rw [hstage], hstate, haccepted, hempty hsdk⟩
  | wiped =>
    refine .answered _ ?_ ?_ _ _
    · exact ⟨rfl, rfl, rfl⟩
    · exact hclosed
  | failed hstage hchunk hstate happroved g₁ sw hfailed =>
    have hunanswered : Unanswered g g₁ ∧ g₁.ui = g.ui := by
      cases hfailed with
      | changes => exact ⟨⟨rfl, rfl, rfl⟩, rfl⟩
      | header => exact ⟨⟨rfl, rfl, rfl⟩, rfl⟩
    exact .answered g₁ hunanswered.1 (hunanswered.2 ▸ hclosed) _ _
  | received hstage happroved hfirst g₁ _ _ hq hd =>
    have hunanswered : Unanswered g g₁ ∧ g₁.ui = g.ui := by
      cases hq with
      | first => exact ⟨⟨rfl, rfl, rfl⟩, rfl⟩
      | next => exact ⟨⟨rfl, rfl, rfl⟩, rfl⟩
    refine ((outcome_of_decoded (hunanswered.2 ▸ hclosed) hd).of_unanswered hunanswered.1).imp ?_
    exact fun hnot hsdk => absurd hsdk hnot

theorem outcome_of_handled {call : Call} {ends : Bool} (hio : g.io.state = .received)
    (hclosed : closed → g.ui.flow.hasApprove = false) (h : Handled sdk g call ends g') :
    Outcome (sdk.Succeeds → SignsEmptyPath call g) closed g ends g' := by
  have hready : decide (g.io.state = .ready) = false := decide_eq_false (by rw [hio]; nofun)
  cases h with
  | getVersion =>
    rw [hready]
    exact .answered g (.refl g) hclosed _ _
  | getAddress data _ _ h => exact outcome_of_requested hio hclosed rfl h
  | getXpub data _ _ h => exact outcome_of_requested hio hclosed rfl h
  | signTx data stage chunk _ _ h => exact outcome_of_stageStep hio hclosed h
  | signTokenData data _ _ h => exact outcome_of_requested hio hclosed rfl h
  | sendFirst data _ h =>
    have hwiped : Unanswered g { g.wipe with tokenSymbols := {} } := ⟨rfl, rfl, rfl⟩
    rw [hready]
    exact Outcome.of_unanswered hwiped
      (outcome_of_registryStep (g := { g.wipe with tokenSymbols := {} }) hclosed h)
  | sendNext data _ h =>
    rw [hready]
    exact outcome_of_registryStep hclosed h
  | verifyTokenSignature data =>
    have hwiped : Unanswered g g.wipe := ⟨rfl, rfl, rfl⟩
    rw [hready]
    unfold Globals.verify
    split
    · exact .answered g.wipe hwiped hclosed _ _
    · exact .answered _ (hwiped.trans (unanswered_readSecret _))
        (by rw [Globals.ui_readSecret]; exact hclosed) _ _
  | resetTokenSignatures => exact .asked g.askReset ⟨rfl, rfl, rfl⟩ rfl

/-- The outcomes of a command that arrives while the app does not owe a response. -/
theorem outcome_of_commandStep {apdu : Bytes} {ends : Bool}
    (hio : (g.receive apdu).io.state = .received) (h : CommandStep sdk g apdu ends g') :
    Outcome (sdk.Succeeds → ∃ call, callOf apdu = some call ∧ SignsEmptyPath call g)
      (g.ui.flow.hasApprove = false) (g.receive apdu) ends g' := by
  cases h with
  | malformed => exact .answered (g.receive apdu) (.refl _) id _ _
  | rejected =>
    rw [decide_eq_false (by rw [hio]; nofun)]
    exact .answered (g.receive apdu) (.refl _) id _ _
  | handled call hcall _ _ h =>
    exact (outcome_of_handled hio id h).imp fun hempty hsdk => ⟨call, hcall, hempty hsdk⟩

/-! ### Outcomes of presses -/

/-- An answer does not depend on the screen. -/
theorem openFlow_reply {flow : Flow} (hflow : flow.hasApprove = false) (rdata : Option Bytes)
    (sw : ℕ) (g : Globals) :
    (g.reply rdata sw).openFlow flow = ({ g with ui.flow := flow } : Globals).reply rdata sw := by
  have hlog := (g.reply rdata sw).log_openFlow hflow
  ext1 <;> first | rfl | exact hlog

theorem unanswered_press (button : Button) (g : Globals) : Unanswered g (g.press button) :=
  ⟨rfl, rfl, rfl⟩

/-- The user answers the question of the screen, or the screen asks on. -/
theorem outcome_of_pressStep {button : Button} (hopen : g.ui.flow.hasApprove = true)
    (h : PressStep sdk g button g') : Outcome False True g false g' := by
  have hpress : ∀ b, Unanswered g (g.press b) := fun b => unanswered_press b g
  have hmenu : ∀ flow, flow.hasApprove = false → ∀ (g₁ : Globals) (rdata : Option Bytes) (sw : ℕ),
      Unanswered g g₁ → Outcome False True g false ((g₁.reply rdata sw).openFlow flow) := by
    intro flow hflow g₁ rdata sw h₁
    rw [openFlow_reply hflow]
    refine .answered _ (h₁.trans ?_) (fun _ => hflow) _ _
    exact ⟨rfl, rfl, rfl⟩
  cases h with
  | inactive button h => exact .asked _ (hpress button) hopen
  | approveTx hflow => exact hmenu _ rfl _ _ _ ⟨rfl, rfl, rfl⟩
  | approveOutput hflow n d c _ hdisplayed =>
    exact (outcome_of_displayed hdisplayed).of_unanswered
      ((hpress .approve).trans (unanswered_review _ n d c))
  | approveXpub hflow => exact hmenu _ rfl _ _ _ ⟨rfl, rfl, rfl⟩
  | approveToken hflow secret =>
    have hsecret : Unanswered (g.press .approve) ((g.press .approve).readSecret sdk) :=
      unanswered_readSecret _
    refine hmenu _ rfl _ _ _ ((hpress .approve).trans (hsecret.trans ?_))
    exact unanswered_of_log rfl [.tokenSigned secret g.ctx.token] (by simp) (by simp [Event.quiet])
  | approveAddress hflow => exact hmenu _ rfl _ _ _ (hpress .approve)
  | approveReset hflow => exact hmenu _ rfl _ _ _ ⟨rfl, rfl, rfl⟩
  | reject hflow hreset =>
    exact .answered _ ((hpress .reject).trans (unanswered_cancel _)) (fun _ => rfl) _ _
  | rejectReset hflow => exact hmenu _ rfl _ _ _ (hpress .reject)
  | exitToMenu hflow | quit hflow | about hflow | back hflow =>
    rw [hflow] at hopen
    cases hopen

end HathorLedger
