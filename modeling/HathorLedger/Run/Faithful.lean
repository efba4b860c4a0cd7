import HathorLedger.Run.Calm

/-!
# What the open screen stands for

The approve callback acts on the context, not on the screen. It does what the screen says if the
context still holds what the screen was opened for. Some commands that arrive while a screen is open
disturb this. So does one press, the approval of the last decoded output when the next one is
declared as change: the change output is skipped before the end of the decoded outputs is noticed.

In runs without these the screens are faithful. An output screen shows the output under review, and
the outputs in front of it are change or were approved on screens of their own.

## Main definitions

* `ShowsOutput`, `OutputDone`, `Reviewed`: the state of the review.
* `Faithful`: the screens stand for what the context holds.
* `UnderWay`: the review goes on, with everything in front of it done.

## Main results

* `Faithful.step`: undisturbed inputs keep the screens faithful.
-/

namespace HathorLedger

variable (sdk : Sdk)

/-! ### The review -/

/-- The screen shows the address and the value of the output. -/
def ShowsOutput (output : TxOutput) (screen : Screen) : Prop :=
  ∃ index symbol address,
    addressFromPubkeyHash sdk output.pubkeyHash pubkeyHashLen addressLen = some address ∧
    screen = .txOutput index (cstr (b58Address address)) (cstr (amountText symbol output.value))

/-- The output with index `i` is declared as change or was approved on a screen of its own. -/
def OutputDone (e : Elements) (g : Globals) (i : ℕ) : Prop :=
  i ∈ g.ctx.txInfo.changeIndices ∨ ∃ output screen, e.txOutputs[i]? = some output ∧
    ShowsOutput sdk output screen ∧ screen ∈ g.history.approved

/-- The review of the outputs among the elements `e`: those in front of `confirmed_outputs` are done,
and the one at `display_index` is next. -/
structure Reviewed (e : Elements) (g : Globals) : Prop where
  done : ∀ i < g.ctx.txInfo.confirmedOutputs, OutputDone sdk e g i
  output : g.ui.flow = .txOutput →
    g.ctx.txInfo.displayIndex < g.ctx.txInfo.bufferOutputLen ∧
    g.ctx.txInfo.confirmedOutputs + g.ctx.txInfo.bufferOutputLen =
      e.outputs.length + g.ctx.txInfo.displayIndex ∧
    ∃ output, e.txOutputs[g.ctx.txInfo.confirmedOutputs]? = some output ∧
      displayedOutput sdk g.ctx.txInfo = output ∧ ShowsOutput sdk output g.ui.shown
  le : g.ctx.txInfo.confirmedOutputs ≤ e.outputs.length
  complete : g.ctx.state = .parsed ∨ g.ctx.state = .approved →
    0 < g.ctx.txInfo.confirmedOutputs ∧ g.ctx.txInfo.confirmedOutputs = e.outputs.length ∧
      g.ctx.txInfo.confirmedOutputs = g.ctx.txInfo.outputsLen

/-- The open screen stands for what the context holds. -/
structure Faithful (g : Globals) : Prop where
  output : g.ui.flow = .txOutput → g.ctx.state = .recvData
  send : g.ui.flow = .confirmTx →
    g.ctx.state = .parsed ∧ g.history.sendShown = some g.history.hashed
  xpub : g.ui.flow = .xpub → g.ctx.state = .none ∧ XpubHeld g
  token : g.ui.flow = .signTokenData → g.ctx.state = .none ∧ TokenHeld g
  review : g.ctx.reqType = .confirmTransaction → ∃ h e,
    (Session sdk h e g ∧ Rested h e g.ctx.txInfo) ∧ Reviewed sdk e g

variable {sdk} {g g' g'' : Globals} {h : Header} {e : Elements}

/-! ### Faithful screens -/

/-- Calm steps keep the screens faithful. -/
theorem Faithful.calm (hf : Faithful sdk g) (h : Calm sdk g g') : Faithful sdk g' := by
  obtain ⟨hhashed, happroved, hsend, hxpub, htoken⟩ := h.requests
  -- where a screen is closed, the new one stands for nothing
  have hsame : ∀ flow : Flow, flow.standsForContext = true → g'.ui.flow = flow → g'.ui = g.ui := by
    intro flow hstands hflow
    rcases h.ui with ⟨hui, -⟩ | hclosed
    · exact hui
    · rw [hflow, hstands] at hclosed
      cases hclosed
  refine ⟨fun hflow => ?_, fun hflow => ?_, fun hflow => ?_, fun hflow => ?_, fun hreq => ?_⟩
  · rw [h.state]
    exact hf.output (hsame _ rfl hflow ▸ hflow)
  · rw [h.state, hsend, hhashed]
    exact hf.send (hsame _ rfl hflow ▸ hflow)
  · rw [h.state, XpubHeld, hxpub, h.pkInfo]
    exact hf.xpub (hsame _ rfl hflow ▸ hflow)
  · rw [h.state, TokenHeld, htoken, h.token, hsame _ rfl hflow]
    exact hf.token (hsame _ rfl hflow ▸ hflow)
  · rw [h.reqType] at hreq
    obtain ⟨header, e, hsession, hr⟩ := hf.review hreq
    refine ⟨header, e, h.session _ _ hsession, ⟨fun i hi => ?_, fun hflow => ?_, ?_, ?_⟩⟩
    · rw [h.confirmedOutputs] at hi
      rw [OutputDone, h.changeIndices]
      refine (hr.done i hi).imp_right ?_
      rintro ⟨output, screen, ho, hshows, hmem⟩
      exact ⟨output, screen, ho, hshows, happroved screen hmem⟩
    · have hui := hsame _ rfl hflow
      have hflow' : g.ui.flow = .txOutput := hui ▸ hflow
      rcases h.ui with ⟨-, hcounters⟩ | hclosed
      · obtain ⟨hd, hb, ho⟩ := hcounters hflow'
        rw [h.confirmedOutputs, displayedOutput, hd, hb, ho, hui]
        exact hr.output hflow'
      · rw [hflow] at hclosed
        cases hclosed
    · rw [h.confirmedOutputs]
      exact hr.le
    · rw [h.state, h.confirmedOutputs, h.outputsLen]
      exact hr.complete

/-- Without a transaction the screens of the review are closed. -/
theorem faithful_of_idle (hstate : g.ctx.state = .none) (hreq : g.ctx.reqType ≠ .confirmTransaction)
    (houtput : g.ui.flow ≠ .txOutput) (hsend : g.ui.flow ≠ .confirmTx)
    (hxpub : g.ui.flow = .xpub → XpubHeld g) (htoken : g.ui.flow = .signTokenData → TokenHeld g) :
    Faithful sdk g :=
  ⟨fun h => absurd h houtput, fun h => absurd h hsend, fun h => ⟨hstate, hxpub h⟩,
    fun h => ⟨hstate, htoken h⟩, fun h => absurd h hreq⟩

/-- The context was wiped, and the open screen does not stand for it. -/
theorem faithful_of_closed (hstate : g.ctx.state = .none)
    (hreq : g.ctx.reqType ≠ .confirmTransaction) (hflow : g.ui.flow.standsForContext = false) :
    Faithful sdk g :=
  faithful_of_idle hstate hreq (fun h => by rw [h] at hflow; cases hflow)
    (fun h => by rw [h] at hflow; cases hflow) (fun h => by rw [h] at hflow; cases hflow)
    fun h => by rw [h] at hflow; cases hflow

theorem faithful_cancel (g : Globals) : Faithful sdk g.cancel := faithful_of_closed rfl nofun rfl

theorem faithful_restart (g : Globals) : Faithful sdk g.restart := faithful_of_closed rfl nofun rfl

theorem Faithful.mainLoop (hf : Faithful sdk g) : Faithful sdk g.mainLoop := by
  by_cases hstate : g.io.state = .waiting
  · have hloop : g.mainLoop = g.restart := by
      unfold Globals.mainLoop
      rw [hstate]
    rw [hloop]
    exact faithful_restart g
  · exact hf.calm (calm_mainLoop hstate)

theorem Faithful.resume {ends : Bool} (hf : ends = false → Faithful sdk g) :
    Faithful sdk (g.resume ends) := by
  cases ends with
  | true => exact faithful_restart g
  | false => exact (hf rfl).mainLoop

/-! ### The review goes on -/

theorem showsOutput_showOutput (g : Globals) :
    ShowsOutput sdk (displayedOutput sdk g.ctx.txInfo) (g.showOutput sdk).ui.shown :=
  ⟨_, outputSymbol g.tokenSymbols g.ctx.txInfo (displayedOutput sdk g.ctx.txInfo), _,
    addressFromPubkeyHash_eq sdk _, rfl⟩

/-- Showing an output is a calm event. -/
theorem calm_of_mem_showOutput {ev : Event} (hev : ev ∈ .shown (g.showOutput sdk).ui.shown ::
    Globals.tokenReads (displayedOutput sdk g.ctx.txInfo)) : ev.calm = true := by
  rcases List.mem_cons.1 hev with rfl | hev
  · rfl
  · unfold Globals.tokenReads at hev
    split_ifs at hev
    · cases hev
    · rw [List.mem_singleton.1 hev]
      rfl

/-- The review of the decoded outputs is under way: the outputs in front of the counters are done,
and both counters are at the same output. -/
structure UnderWay (sdk : Sdk) (h : Header) (e : Elements) (g : Globals) : Prop where
  session : Session sdk h e g
  rest : Rested h e g.ctx.txInfo
  reqType : g.ctx.reqType = .confirmTransaction
  state : g.ctx.state = .recvData
  done : ∀ i < g.ctx.txInfo.confirmedOutputs, OutputDone sdk e g i
  display_le : g.ctx.txInfo.displayIndex ≤ g.ctx.txInfo.bufferOutputLen
  pos : 0 < g.ctx.txInfo.bufferOutputLen
  sum_eq : g.ctx.txInfo.confirmedOutputs + g.ctx.txInfo.bufferOutputLen =
    e.outputs.length + g.ctx.txInfo.displayIndex

/-- From the counters `d₀` and `c₀` the review skips change outputs only. -/
theorem underWay_of_skipped {d₀ c₀ : ℕ} (hsession : Session sdk h e g ∧ Rested h e g.ctx.txInfo)
    (hreq : g.ctx.reqType = .confirmTransaction) (hstate : g.ctx.state = .recvData) {d c : ℕ}
    (hskipped : Skipped g.ctx.txInfo.changeIndices
      { g.ctx.txInfo with displayIndex := d₀, confirmedOutputs := c₀ } d c)
    (hdone : ∀ i < c₀, OutputDone sdk e g i) (hsome : g.ctx.txInfo.bufferOutputLen ≠ 0)
    (hsum : c₀ + g.ctx.txInfo.bufferOutputLen = e.outputs.length + d₀) (n : ℕ) :
    UnderWay sdk h e ((g.readChanges n).review d c) := by
  have hreviewed : Framed g ((g.readChanges n).review d c) :=
    ⟨⟨d, c, _, .inl rfl, rfl⟩, rfl, .inl rfl, id, _, rfl, fun e he => by
      rw [List.eq_of_mem_replicate he]
      rfl⟩
  have hhistory : ((g.readChanges n).review d c).history = g.history :=
    Globals.history_readChanges n g
  have hsame := hskipped.same
  exact {
    session := hsession.1.framed hreviewed
    rest := hsession.2.recounted hreviewed.txInfo
    reqType := hreq
    state := hstate
    done := by
      intro i hi
      rw [OutputDone, hhistory]
      rcases Nat.lt_or_ge i c₀ with hlt | hge
      · exact hdone i hlt
      · exact .inl (hskipped.change i hge hi)
    display_le := hskipped.display_le
    pos := Nat.pos_of_ne_zero hsome
    sum_eq := by
      change c + g.ctx.txInfo.bufferOutputLen = e.outputs.length + d
      dsimp only at hsame
      omega }

/-- After the last output the transaction is reviewed. -/
theorem UnderWay.faithful_askSend (hu : UnderWay sdk h e g)
    (hall : g.ctx.txInfo.confirmedOutputs = g.ctx.txInfo.outputsLen) : Faithful sdk g.askSend := by
  have hsend : Framed g g.askSend :=
    ⟨.refl _, rfl, .inr ⟨rfl, hu.reqType⟩, fun _ _ => rfl, [.shown .confirmTx], rfl,
      by simp [Event.neutral]⟩
  have hle := hu.session.held.outputs_le
  have hlen := hu.session.held.outputsLen
  have hbuffer := hu.session.held.bufferOutputLen_le
  have hsum := hu.sum_eq
  have hdisplay := hu.display_le
  have hpos := hu.pos
  have hreviewed : Reviewed sdk e g.askSend := {
    done := hu.done
    output := (by rintro ⟨⟩)
    le := by
      change g.ctx.txInfo.confirmedOutputs ≤ _
      omega
    complete := fun _ => by
      change 0 < g.ctx.txInfo.confirmedOutputs ∧ g.ctx.txInfo.confirmedOutputs = _ ∧
        g.ctx.txInfo.confirmedOutputs = g.ctx.txInfo.outputsLen
      omega }
  exact {
    output := (by rintro ⟨⟩)
    send := fun _ => ⟨rfl, rfl⟩
    xpub := (by rintro ⟨⟩)
    token := (by rintro ⟨⟩)
    review := fun _ =>
      ⟨h, e, ⟨hu.session.framed hsend, hu.rest.recounted hsend.txInfo⟩, hreviewed⟩ }

/-- After the last output of a chunk the review waits for the next chunk. -/
theorem UnderWay.faithful_askMore (hu : UnderWay sdk h e g)
    (hd : g.ctx.txInfo.displayIndex = g.ctx.txInfo.bufferOutputLen) : Faithful sdk g.askMore := by
  have hmore : Framed g { g with
      ctx.txInfo.displayIndex := 0, ctx.txInfo.bufferOutputLen := 0, ui.flow := .menuMain } :=
    ⟨⟨0, _, 0, .inr rfl, rfl⟩, rfl, .inl rfl, fun _ => (by rintro ⟨⟩), [], rfl, by simp⟩
  have hsum := hu.sum_eq
  have hstate := hu.state
  have hreviewed : Reviewed sdk e { g with
      ctx.txInfo.displayIndex := 0, ctx.txInfo.bufferOutputLen := 0, ui.flow := .menuMain } := {
    done := hu.done
    output := (by rintro ⟨⟩)
    le := by
      change g.ctx.txInfo.confirmedOutputs ≤ _
      omega
    complete := by
      change g.ctx.state = _ ∨ g.ctx.state = _ → _
      rw [hstate]
      rintro (h | h) <;> cases h }
  have hfaithful : Faithful sdk { g with
      ctx.txInfo.displayIndex := 0, ctx.txInfo.bufferOutputLen := 0, ui.flow := .menuMain } := {
    output := (by rintro ⟨⟩)
    send := (by rintro ⟨⟩)
    xpub := (by rintro ⟨⟩)
    token := (by rintro ⟨⟩)
    review := fun _ =>
      ⟨h, e, ⟨hu.session.framed hmore, hu.rest.recounted hmore.txInfo⟩, hreviewed⟩ }
  exact hfaithful.calm (calm_reply _ _ _)

/-- The next output is shown on a screen of its own. -/
theorem UnderWay.faithful_showOutput (hu : UnderWay sdk h e g)
    (hd : g.ctx.txInfo.displayIndex ≠ g.ctx.txInfo.bufferOutputLen) :
    Faithful sdk (g.showOutput sdk) := by
  have hlt : g.ctx.txInfo.displayIndex < g.ctx.txInfo.bufferOutputLen :=
    lt_of_le_of_ne hu.display_le hd
  have hshown : Framed g (g.showOutput sdk) :=
    ⟨.refl _, rfl, .inl rfl, fun _ _ => rfl, _, rfl, fun _ hev =>
      Event.neutral_of_calm (calm_of_mem_showOutput hev)⟩
  have hrequests : SameRequests g.history (g.showOutput sdk).history :=
    @sameRequests_append _ g.log fun _ hev => calm_of_mem_showOutput hev
  have hsum := hu.sum_eq
  have hstate := hu.state
  have hget := hu.session.held.getElem?_txOutputs (c := g.ctx.txInfo.confirmedOutputs) hlt (by omega)
  have hreviewed : Reviewed sdk e (g.showOutput sdk) := {
    done := by
      intro i hi
      refine (hu.done i hi).imp_right ?_
      rintro ⟨output, screen, ho, hshows, hmem⟩
      exact ⟨output, screen, ho, hshows, hrequests.approved screen hmem⟩
    output := fun _ =>
      ⟨hlt, hsum, displayedOutput sdk g.ctx.txInfo, hget, rfl, showsOutput_showOutput g⟩
    le := by
      change g.ctx.txInfo.confirmedOutputs ≤ _
      omega
    complete := by
      change g.ctx.state = _ ∨ g.ctx.state = _ → _
      rw [hstate]
      rintro (h | h) <;> cases h }
  exact {
    output := fun _ => hstate
    send := (by rintro ⟨⟩)
    xpub := (by rintro ⟨⟩)
    token := (by rintro ⟨⟩)
    review := fun _ =>
      ⟨h, e, ⟨hu.session.framed hshown, hu.rest.recounted hshown.txInfo⟩, hreviewed⟩ }

/-- Where the outputs in front are done, the review goes on faithfully. -/
theorem UnderWay.faithful (hu : UnderWay sdk h e g) (hdisplayed : Displayed sdk g g') :
    Faithful sdk g' := by
  cases hdisplayed with
  | asked hasked =>
    cases hasked with
    | send hall => exact hu.faithful_askSend hall
    | refused _ hnot => exact absurd hu.reqType hnot
    | more _ hd => exact hu.faithful_askMore hd
  | output _ hd => exact hu.faithful_showOutput hd

/-! ### Commands -/

theorem OutputDone.mono {e' : Elements} {i : ℕ} (hdone : OutputDone sdk e g i)
    (hstart : e.outputs <+: e'.outputs)
    (hchange : g'.ctx.txInfo.changeIndices = g.ctx.txInfo.changeIndices)
    (happroved : ∀ screen ∈ g.history.approved, screen ∈ g'.history.approved) :
    OutputDone sdk e' g' i := by
  rw [OutputDone, hchange]
  refine hdone.imp_right ?_
  rintro ⟨output, screen, ho, hshows, hmem⟩
  refine ⟨output, screen, ?_, hshows, happroved screen hmem⟩
  rw [Elements.txOutputs_of_prefix hstart]
  rw [List.getElem?_append_left (List.getElem?_eq_some_iff.1 ho).1]
  exact ho

/-- The decoder adds elements and leaves the review alone. -/
theorem Queueing.decoded (hq : Queueing sdk h e g)
    (hready : (decodeElements sdk g.tokenSymbols g.ctx.txInfo).1 = TxState.ready) : ∃ e',
      (Session sdk h e' (g.decode sdk) ∧ Rested h e' (g.decode sdk).ctx.txInfo) ∧
      (∀ i, OutputDone sdk e g i → OutputDone sdk e' (g.decode sdk) i) ∧
      (g.decode sdk).ctx.txInfo.displayIndex = g.ctx.txInfo.displayIndex ∧
      (g.decode sdk).ctx.txInfo.confirmedOutputs = g.ctx.txInfo.confirmedOutputs ∧
      e.outputs.length + (g.decode sdk).ctx.txInfo.bufferOutputLen = e'.outputs.length := by
  obtain ⟨e', hsession, hrest, -, n, hprogress⟩ := hq.decode hready
  have hcontext := hprogress.context
  have hdecoded := hprogress.decoded
  rw [hq.bufferOutputLen] at hdecoded
  have happroved := (@sameRequests_append _ g.log fun ev hev => by
    rcases mem_decodeEvents hev with rfl | rfl | ⟨info, -, rfl⟩ <;> rfl :
      SameRequests g.history (g.decode sdk).history).approved
  refine ⟨e', ⟨hsession, hrest⟩, fun i hi => hi.mono hprogress.outputs_prefix ?_ happroved,
    hcontext.displayIndex, hcontext.confirmedOutputs, hdecoded.symm⟩
  exact congrArg (List.map ChangeOutputInfo.index) hcontext.changeEntries

/-- A chunk is queued behind the elements `e`, and the outputs confirmed so far are done. -/
structure Resumed (sdk : Sdk) (h : Header) (e : Elements) (g : Globals) : Prop where
  queueing : Queueing sdk h e g
  displayIndex : g.ctx.txInfo.displayIndex = 0
  le : g.ctx.txInfo.confirmedOutputs ≤ e.outputs.length
  done : ∀ i < g.ctx.txInfo.confirmedOutputs, OutputDone sdk e g i

theorem Faithful.queued (hf : Faithful sdk g) (hs : Sound sdk g) {data : Bytes} {chunk : ℕ}
    (hdata : data.length ≤ 255) (hq : Queued data chunk g g') : ∃ h e, Resumed sdk h e g' := by
  by_cases hchunk : chunk = 0
  · subst hchunk
    obtain ⟨⟨h, hqueueing⟩, hconfirmed, hdisplay⟩ := queueing_first hdata hq
    exact ⟨h, {}, hqueueing, hdisplay, hconfirmed.le, fun i hi => by omega⟩
  · obtain ⟨-, hstate, hrecord⟩ := hq.cases_record.resolve_left fun h => hchunk h.1
    have hreq := hs.request (.inl hstate)
    have hnot : g.history.hashFinished = false :=
      Bool.eq_false_iff.2 fun hfin => hs.finished hfin hstate
    obtain ⟨h, e, ⟨hsession, hrest⟩, hr⟩ := hf.review hreq
    obtain ⟨hqueueing, hconfirmed, hdisplay⟩ := hsession.queueing hrest hreq hnot hdata hchunk hq
    refine ⟨h, e, hqueueing, hdisplay, hconfirmed ▸ hr.le, fun i hi => ?_⟩
    refine (hr.done i (hconfirmed ▸ hi)).mono List.prefix_rfl (by rw [hrecord]; rfl) ?_
    cases hq with
    | first h skipped rest changeLen changeInfo hfirst => exact absurd hfirst hchunk
    | next => exact fun _ h => h

/-- The outputs of a chunk come under review. -/
theorem Resumed.underWay (hr : Resumed sdk h e g)
    (hconfirmed : g.ctx.txInfo.confirmedOutputs = g.ctx.txInfo.currentOutput)
    (hready : (decodeElements sdk g.tokenSymbols g.ctx.txInfo).1 = TxState.ready)
    (hsome : (g.decode sdk).ctx.txInfo.bufferOutputLen ≠ 0) {d c : ℕ}
    (hskipped : (g.decode sdk).ctx.txInfo.InBounds →
      Skipped (g.decode sdk).ctx.txInfo.changeIndices (g.decode sdk).ctx.txInfo d c) (n : ℕ) :
    ∃ e', UnderWay sdk h e' (((g.decode sdk).readChanges n).review d c) := by
  obtain ⟨e', hsession, hmono, hdisplay, hconfirmed', hsum⟩ := hr.queueing.decoded hready
  have hcurrent := hr.queueing.session.held.currentOutput
  have hstart := hr.displayIndex
  have hheld := hsession.1.held
  have hle := hheld.outputs_le
  have hlen := hheld.outputsLen
  have hbyte := UInt8.toNat_lt h.outputs
  have hbuffer := hheld.bufferOutputLen_le
  have hbounds : (g.decode sdk).ctx.txInfo.InBounds := by constructor <;> omega
  have hskip : Skipped (g.decode sdk).ctx.txInfo.changeIndices { (g.decode sdk).ctx.txInfo with
      displayIndex := (g.decode sdk).ctx.txInfo.displayIndex
      confirmedOutputs := (g.decode sdk).ctx.txInfo.confirmedOutputs } d c := hskipped hbounds
  refine ⟨e', underWay_of_skipped hsession hr.queueing.reqType hr.queueing.state hskip
    (fun i hi => hmono i (hr.done i (hconfirmed' ▸ hi))) hsome ?_ n⟩
  omega

/-- What a chunk brings is shown, or no screen stands for the context. -/
theorem faithful_of_decoded (hr : Resumed sdk h e g)
    (hsilent : DecodesQueue sdk g.tokenSymbols g.ctx.txInfo →
      decodedOutputs sdk g.tokenSymbols g.ctx.txInfo = 0 → g.ui.flow.standsForContext = false)
    (hbrought : DecodesQueue sdk g.tokenSymbols g.ctx.txInfo →
      decodedOutputs sdk g.tokenSymbols g.ctx.txInfo ≠ 0 →
      g.ctx.txInfo.confirmedOutputs = g.ctx.txInfo.currentOutput) {ends : Bool}
    (hd : Decoded sdk g ends g') (hends : ends = false) : Faithful sdk g' := by
  cases hd with
  | invalid => exact (faithful_cancel _).calm (calm_reply _ _ _)
  | failed => cases hends
  | silent hready hnone =>
    obtain ⟨e', hsession, hmono, -, hconfirmed, hsum⟩ := hr.queueing.decoded hready
    have hle := hr.le
    have hno : ∀ flow : Flow, flow.standsForContext = true → (g.decode sdk).ui.flow ≠ flow := by
      intro flow hstands heq
      have hflow : g.ui.flow = flow := heq
      have hclosed := hsilent hready hnone
      rw [hflow, hstands] at hclosed
      cases hclosed
    have hreviewed : Reviewed sdk e' (g.decode sdk) := {
      done := fun i hi => hmono i (hr.done i (hconfirmed ▸ hi))
      output := fun h => absurd h (hno _ rfl)
      le := by omega
      complete := by
        rw [show (g.decode sdk).ctx.state = _ from hr.queueing.state]
        rintro (h | h) <;> cases h }
    have hdecoded : Faithful sdk (g.decode sdk) := {
      output := fun h => absurd h (hno _ rfl)
      send := fun h => absurd h (hno _ rfl)
      xpub := fun h => absurd h (hno _ rfl)
      token := fun h => absurd h (hno _ rfl)
      review := fun _ => ⟨h, e', hsession, hreviewed⟩ }
    exact hdecoded.calm (calm_reply _ _ _)
  | displayed hready hsome n d c _ hdisplayed hskipped =>
    obtain ⟨e', hu⟩ := hr.underWay (hbrought hready hsome) hready hsome hskipped n
    exact hu.faithful hdisplayed

/-- A first chunk that cannot be read leaves a transaction without outputs. -/
theorem faithful_of_failed (hs : Sound sdk g) {data : Bytes} {sw : ℕ}
    (hfailed : FirstChunkFailed data g sw g') (hclosed : g.ui.flow.standsForContext = false) :
    Faithful sdk g' := by
  have hs' := hs.firstChunkFailed hfailed
  have hfacts : g'.ui = g.ui ∧ g'.ctx.state = .recvData ∧ g'.ctx.txInfo.confirmedOutputs = 0 := by
    cases hfailed <;> exact ⟨rfl, rfl, rfl⟩
  obtain ⟨hui, hstate, hconfirmed⟩ := hfacts
  have hno : ∀ flow : Flow, flow.standsForContext = true → g'.ui.flow ≠ flow := by
    intro flow hstands heq
    rw [← hui, heq, hstands] at hclosed
    cases hclosed
  exact {
    output := fun h => absurd h (hno _ rfl)
    send := fun h => absurd h (hno _ rfl)
    xpub := fun h => absurd h (hno _ rfl)
    token := fun h => absurd h (hno _ rfl)
    review := fun hreq => by
      obtain ⟨h, e, hsession, hrest⟩ := hs'.session hreq
      refine ⟨h, e, ⟨hsession, hrest⟩, ?_⟩
      exact {
        done := fun i hi => by omega
        output := fun h => absurd h (hno _ rfl)
        le := by omega
        complete := by
          rw [hstate]
          rintro (h | h) <;> cases h } }

/-- While chunks are expected, only an output screen stands for the context. -/
theorem Faithful.flow_of_recvData (hf : Faithful sdk g) (hstate : g.ctx.state = .recvData)
    (hstands : g.ui.flow.standsForContext = true) : g.ui.flow = .txOutput := by
  cases hflow : g.ui.flow with
  | txOutput => rfl
  | confirmTx => rw [(hf.send hflow).1] at hstate; cases hstate
  | xpub => rw [(hf.xpub hflow).1] at hstate; cases hstate
  | signTokenData => rw [(hf.token hflow).1] at hstate; cases hstate
  | _ => rw [hflow] at hstands; cases hstands

/-- The output under review is not confirmed yet. -/
theorem Faithful.confirmedOutputs_ne (hf : Faithful sdk g) (hs : Sound sdk g)
    (hflow : g.ui.flow = .txOutput) :
    g.ctx.txInfo.confirmedOutputs ≠ g.ctx.txInfo.currentOutput := by
  obtain ⟨h, e, ⟨hsession, -⟩, hr⟩ := hf.review (hs.request (.inl (hf.output hflow)))
  have hcurrent := hsession.held.currentOutput
  obtain ⟨hd, hsum, -⟩ := hr.output hflow
  omega

/-- A chunk that is decoded, starts no transaction silently and does not overtake the review. -/
theorem Faithful.received (hf : Faithful sdk g) (hs : Sound sdk g) {data : Bytes} {chunk : ℕ}
    (hdata : data.length ≤ 255) (happroved : g.ctx.state ≠ .approved)
    (hguard : ¬(Call.signTx data 0 chunk).Disturbs sdk g) {g₁ : Globals}
    (hq : Queued data chunk g g₁) {ends : Bool} (hd : Decoded sdk g₁ ends g')
    (hends : ends = false) : Faithful sdk g' := by
  obtain ⟨h, e, hr⟩ := hf.queued hs hdata hq
  obtain ⟨-, hui⟩ := hq.log hs.gated
  have hregistry := tokenSymbols_of_queued hq
  refine faithful_of_decoded hr (fun hdecodes hnone => ?_) (fun hdecodes hsome => ?_) hd hends
  · rw [hui, Bool.eq_false_iff]
    intro hstands
    rcases hq.cases_record with ⟨rfl, -⟩ | ⟨hchunk, hstate, hrecord⟩
    · refine hguard (.inl ⟨rfl, rfl, hstands, .inr ⟨happroved, fun t ht => ?_⟩⟩)
      rw [queuedFirst_of_queued hdata hq] at ht
      obtain rfl := Option.some.inj ht
      exact hregistry ▸ ⟨hdecodes, hnone⟩
    · have hflow := hf.flow_of_recvData hstate hstands
      rw [hregistry, hrecord] at hdecodes
      exact hguard (.inr (.inl
        ⟨rfl, hchunk, hstate, hf.confirmedOutputs_ne hs hflow, hdecodes, .inl hflow⟩))
  · rcases hq.cases_record with ⟨-, hconfirmed, hcurrent⟩ | ⟨hchunk, hstate, hrecord⟩
    · rw [hconfirmed, hcurrent]
    · rw [hregistry, hrecord] at hdecodes hsome
      rw [hrecord]
      by_contra hne
      exact hguard (.inr (.inl ⟨rfl, hchunk, hstate, hne, hdecodes, .inr hsome⟩))

theorem Faithful.stageStep (hf : Faithful sdk g) (hs : Sound sdk g) {data : Bytes}
    {stage chunk : ℕ} {ends : Bool} (hdata : data.length ≤ 255)
    (hguard : ¬(Call.signTx data stage chunk).Disturbs sdk g)
    (h : StageStep sdk data stage chunk g ends g') (hends : ends = false) : Faithful sdk g' := by
  have hclosed : stage = 0 → chunk = 0 → SilentFirstChunk sdk g data →
      g.ui.flow.standsForContext = false := fun hstage hchunk hsilent =>
    Bool.eq_false_iff.2 fun hstands => hguard (.inl ⟨hstage, hchunk, hstands, hsilent⟩)
  have houtput : stage = 1 → g.ui.flow ≠ .txOutput := fun hstage hflow =>
    hguard (.inr (.inr ⟨hstage, hflow⟩))
  cases h with
  | cancelled => exact (faithful_cancel _).calm (calm_reply _ _ _)
  | refused hstage =>
    exact hf.calm ((calm_restartReview (houtput hstage) g.ctx.bip32Path).trans (calm_reply _ _ _))
  | misread hstage hstate path =>
    exact hf.calm ((calm_restartReview (houtput hstage) path).trans (calm_reply _ _ _))
  | signing hstage hstate path rest haccepted _ _ h =>
    exact hf.calm ((calm_restartReview (houtput hstage) path).trans (calm_signStep h))
  | wiped hstage hchunk hstate =>
    have hwiped : Faithful sdk g.wipe :=
      faithful_of_closed rfl nofun (hclosed hstage hchunk (.inl hstate))
    exact hwiped.calm (calm_reply _ _ _)
  | failed hstage hchunk hstate happroved g₁ sw hfailed =>
    have hsilent : SilentFirstChunk sdk g data := by
      refine .inr ⟨happroved, fun t ht => ?_⟩
      rw [queuedFirst_of_failed hfailed] at ht
      cases ht
    exact (faithful_of_failed hs hfailed (hclosed hstage hchunk hsilent)).calm (calm_reply _ _ _)
  | received hstage happroved hfirst g₁ _ _ hq hd =>
    subst hstage
    exact hf.received hs hdata happroved hguard hq hd hends

/-- A request that is rejected behind an open screen is a disturbance. -/
theorem faithful_of_requested {flow : Flow} {paths : List Bip32Path} {accepted : Prop}
    {P : Globals → Prop} {ends : Bool} (h : Requested flow paths accepted P g ends g')
    (hguard : g.ui.flow.standsForContext = true → accepted)
    (hflow : flow ≠ .txOutput ∧ flow ≠ .confirmTx)
    (hxpub : ∀ g', P g' → flow = .xpub → XpubHeld g')
    (htoken : ∀ g', P g' → flow = .signTokenData → TokenHeld g') : Faithful sdk g' := by
  cases h with
  | rejected g₁ sw hrejected hidle hui =>
    have hclosed : g₁.ui.flow.standsForContext = false := by
      rw [hui]
      exact Bool.eq_false_iff.2 fun hstands => hrejected (hguard hstands)
    exact (faithful_of_closed hidle.state hidle.reqType hclosed).calm (calm_reply _ _ _)
  | opened _ haccepted hidle hopened hP =>
    exact faithful_of_idle hidle.state hidle.reqType (by rw [hopened.flow]; exact hflow.1)
      (by rw [hopened.flow]; exact hflow.2) (by rw [hopened.flow]; exact hxpub g' hP)
      (by rw [hopened.flow]; exact htoken g' hP)

theorem Faithful.handled (hf : Faithful sdk g) (hs : Sound sdk g) {call : Call} {ends : Bool}
    (hdata : ∀ data stage chunk, call = .signTx data stage chunk → data.length ≤ 255)
    (hguard : ¬call.Disturbs sdk g) (h : Handled sdk g call ends g') (hends : ends = false) :
    Faithful sdk g' := by
  cases h with
  | getVersion => exact hf.calm (calm_reply _ _ _)
  | getAddress data _ _ h =>
    exact faithful_of_requested h (fun hstands => not_not.1 fun hno => hguard ⟨hstands, hno⟩)
      ⟨nofun, nofun⟩ (fun _ _ => nofun) fun _ _ => nofun
  | getXpub data _ _ h =>
    exact faithful_of_requested h (fun hstands => not_not.1 fun hno => hguard ⟨hstands, hno⟩)
      ⟨nofun, nofun⟩ (fun _ hP _ => hP) fun _ _ => nofun
  | signTx data stage chunk _ _ h => exact hf.stageStep hs (hdata data stage chunk rfl) hguard h hends
  | signTokenData data _ _ h =>
    exact faithful_of_requested h (fun hstands => not_not.1 fun hno => hguard ⟨hstands, hno⟩)
      ⟨nofun, nofun⟩ (fun _ _ => nofun) fun _ hP _ => hP.1
  | sendFirst data _ h =>
    have hclosed : g.ui.flow.standsForContext = false :=
      Bool.eq_false_iff.2 fun hstands => hguard ⟨hstands, rfl⟩
    have hwiped : Faithful sdk { g.wipe with tokenSymbols := {} } :=
      faithful_of_closed rfl nofun hclosed
    exact hwiped.calm (calm_registryStep h)
  | sendNext data _ h => exact hf.calm (calm_registryStep h)
  | verifyTokenSignature data =>
    have hclosed : g.ui.flow.standsForContext = false :=
      Bool.eq_false_iff.2 fun hstands => hguard hstands
    have hwiped : Faithful sdk g.wipe := faithful_of_closed rfl nofun hclosed
    unfold Globals.verify
    split
    · exact hwiped.calm (calm_reply _ _ _)
    · exact hwiped.calm ((calm_readSecret _).trans (calm_reply _ _ _))
  | resetTokenSignatures =>
    have hasked : Calm sdk g g.askReset := .of_ctx rfl [] rfl (by simp) (.inr rfl)
    exact hf.calm hasked

theorem Faithful.commandStep (hf : Faithful sdk g) (hs : Sound sdk g) {apdu : Bytes} {ends : Bool}
    (hguard : ∀ call, callOf apdu = some call → ¬call.Disturbs sdk g)
    (h : CommandStep sdk g apdu ends g') : Faithful sdk (g'.resume ends) := by
  have hreceived := hf.calm (calm_receive apdu g)
  refine Faithful.resume ?_
  cases h with
  | malformed => exact fun _ => hreceived.calm (calm_reply _ _ _)
  | rejected => exact fun _ => hreceived.calm (calm_reply _ _ _)
  | handled call hcall _ _ h =>
    have hguard' : ¬call.Disturbs sdk (g.receive apdu) :=
      fun hdisturbs => hguard call hcall (disturbs_receive.1 hdisturbs)
    exact hreceived.handled (hs.receive apdu)
      (fun _ _ _ heq => length_of_callOf (hcall.trans (congrArg some heq))) hguard' h

/-! ### Presses -/

/-- The approval of an output counts exactly this output as done. -/
theorem Faithful.underWay (hf : Faithful sdk g) (hs : Sound sdk g)
    (hflow : g.ui.flow = .txOutput)
    (hguard : g.ctx.txInfo.displayIndex + 1 = g.ctx.txInfo.bufferOutputLen →
      g.ctx.txInfo.confirmedOutputs + 1 ∉ g.ctx.txInfo.changeIndices) {d c : ℕ}
    (hskipped : g.ctx.txInfo.InBounds →
      g.ctx.txInfo.displayIndex ≠ g.ctx.txInfo.bufferOutputLen →
      g.ctx.txInfo.confirmedOutputs ≠ g.ctx.txInfo.outputsLen →
      (g.ctx.txInfo.displayIndex + 1 = g.ctx.txInfo.bufferOutputLen ∨
          g.ctx.txInfo.confirmedOutputs + 1 = g.ctx.txInfo.outputsLen →
        g.ctx.txInfo.confirmedOutputs + 1 ∉ g.ctx.txInfo.changeIndices) →
      Skipped g.ctx.txInfo.changeIndices { g.ctx.txInfo with
        displayIndex := g.ctx.txInfo.displayIndex + 1
        confirmedOutputs := g.ctx.txInfo.confirmedOutputs + 1 } d c) (n : ℕ) :
    ∃ h e, UnderWay sdk h e (((g.press .approve).readChanges n).review d c) := by
  have hstate := hf.output hflow
  have hreq := hs.request (.inl hstate)
  obtain ⟨h, e, hsession, hr⟩ := hf.review hreq
  obtain ⟨hd, hsum, output, ho, -, hshows⟩ := hr.output hflow
  have hheld := hsession.1.held
  have hle := hheld.outputs_le
  have hbuffer := hheld.bufferOutputLen_le
  have hlen := hheld.outputsLen
  have hbyte := UInt8.toNat_lt h.outputs
  have hbounds : g.ctx.txInfo.InBounds := by constructor <;> omega
  have hpress : Calm sdk g (g.press .approve) := calm_approve hflow (by rintro ⟨⟩)
  have hdone : ∀ i < g.ctx.txInfo.confirmedOutputs + 1, OutputDone sdk e (g.press .approve) i := by
    intro i hi
    rcases Nat.lt_succ_iff_lt_or_eq.1 hi with hlt | rfl
    · exact (hr.done i hlt).mono List.prefix_rfl rfl hpress.requests.approved
    · exact .inr ⟨output, g.ui.shown, ho, hshows, List.mem_append_right _ (List.mem_singleton_self _)⟩
  refine ⟨h, e, underWay_of_skipped (hpress.session h e hsession) hreq hstate
    (hskipped hbounds (by omega) (by omega) fun hlast => hguard (by omega)) hdone
    (Nat.ne_of_gt (Nat.zero_lt_of_lt hd)) ?_ n⟩
  change g.ctx.txInfo.confirmedOutputs + 1 + g.ctx.txInfo.bufferOutputLen =
    e.outputs.length + (g.ctx.txInfo.displayIndex + 1)
  omega

/-- The approval of the transaction keeps what was reviewed. -/
theorem Faithful.approveTx (hf : Faithful sdk g) (hflow : g.ui.flow = .confirmTx) :
    Faithful sdk (({ g.press .approve with ctx.state := .approved }.reply none Sw.ok).openFlow
      .processing) := by
  obtain ⟨hstate, -⟩ := hf.send hflow
  have hscreen : g.ui.shown = .confirmTx := by rw [Ui.shown, hflow]
  have happroved : Faithful sdk
      { g.press .approve with ctx.state := .approved, ui.flow := .processing } := by
    refine ⟨(by rintro ⟨⟩), (by rintro ⟨⟩), (by rintro ⟨⟩), (by rintro ⟨⟩), fun hreq => ?_⟩
    obtain ⟨h, e, ⟨hsession, hrest⟩, hr⟩ := hf.review hreq
    refine ⟨h, e, ⟨⟨hsession.held, ?_, hsession.read, hsession.aborted⟩, hrest⟩, ?_⟩
    · exact hsession.digest.of_same rfl rfl rfl rfl
    · exact {
        done := fun i hi =>
          (hr.done i hi).mono List.prefix_rfl rfl fun screen hs => List.mem_append_left _ hs
        output := (by rintro ⟨⟩)
        le := hr.le
        complete := fun _ => hr.complete (.inl hstate) }
  refine happroved.calm (Calm.of_ctx rfl
    (if g.io.state = .waiting then [.sent (responseBody none Sw.ok)] else []) ?_ ?_ (.inl rfl))
  · rw [Globals.log_openFlow _ rfl, Globals.log_reply]
    rfl
  · split_ifs <;> simp [Event.calm, Event.neutral]

theorem Faithful.pressStep (hf : Faithful sdk g) (hs : Sound sdk g) {button : Button}
    (hguard : button = .approve → g.ui.flow = .txOutput →
      g.ctx.txInfo.displayIndex + 1 = g.ctx.txInfo.bufferOutputLen →
      g.ctx.txInfo.confirmedOutputs + 1 ∉ g.ctx.txInfo.changeIndices)
    (h : PressStep sdk g button g') : Faithful sdk g' := by
  cases h with
  | inactive button h =>
    refine hf.calm (calm_press ?_)
    by_contra hne
    rw [not_or, not_not, not_not] at hne
    obtain ⟨rfl, hflow⟩ := hne
    rw [hflow] at h
    cases h
  | approveTx hflow => exact hf.approveTx hflow
  | approveOutput hflow n d c _ hdisplayed hskipped =>
    obtain ⟨h, e, hu⟩ := hf.underWay hs hflow (hguard rfl hflow) hskipped n
    exact hu.faithful hdisplayed
  | approveXpub hflow =>
    have hpress : Calm sdk g (g.press .approve) := calm_approve hflow (by rintro ⟨⟩)
    have hsent : Calm sdk (g.press .approve) { g.press .approve with
        log := .xpubSent g.ctx.pkInfo :: (g.press .approve).log } :=
      .of_ctx rfl [.xpubSent g.ctx.pkInfo] rfl (by simp [Event.calm, Event.neutral])
        (.inl rfl)
    exact hf.calm ((hpress.trans hsent).closed _ _)
  | approveToken hflow secret hsecret =>
    have hpress : Calm sdk g (g.press .approve) := calm_approve hflow (by rintro ⟨⟩)
    have hsigned : Calm sdk ((g.press .approve).readSecret sdk)
        { (g.press .approve).readSecret sdk with
          log := .tokenSigned secret g.ctx.token :: (g.press .approve).log } :=
      .of_ctx rfl [.tokenSigned secret g.ctx.token] (by simp)
        (by simp [Event.calm, Event.neutral]) (.inl rfl)
    exact hf.calm (((hpress.trans (calm_readSecret _)).trans hsigned).closed _ _)
  | approveAddress hflow =>
    have hpress : Calm sdk g (g.press .approve) := calm_approve hflow (by rintro ⟨⟩)
    exact hf.calm (hpress.closed _ _)
  | approveReset hflow =>
    have hpress : Calm sdk g (g.press .approve) := calm_approve hflow (by rintro ⟨⟩)
    have hsecret : Calm sdk (g.press .approve) ((g.press .approve).generateSecret sdk) :=
      .of_ctx rfl [] rfl (by simp) (.inl rfl)
    exact hf.calm ((hpress.trans hsecret).closed _ _)
  | reject hflow hreset => exact (faithful_cancel _).calm (calm_reply _ _ _)
  | rejectReset hflow =>
    have hpress : Calm sdk g (g.press .reject) := calm_press (.inl (by rintro ⟨⟩))
    exact hf.calm (hpress.closed _ _)
  | exitToMenu hflow => exact faithful_cancel _
  | quit hflow => exact faithful_restart _
  | about hflow =>
    have hpress : Calm sdk g (g.press .about) := calm_press (.inl (by rintro ⟨⟩))
    exact hf.calm (hpress.trans (calm_openFlow .menuAbout rfl _))
  | back hflow =>
    have hpress : Calm sdk g (g.press .back) := calm_press (.inl (by rintro ⟨⟩))
    exact hf.calm (hpress.trans (calm_openFlow .menuMain rfl _))

/-! ### Runs -/

theorem Faithful.step {w : World} (hf : Faithful sdk w.globals) (hs : Sound sdk w.globals)
    {i : Input} (hguard : Undisturbed sdk w i) : Faithful sdk (step sdk w i).globals := by
  obtain ⟨hdisturbs, hboundary⟩ := hguard
  have hstep := @globalsStep sdk w hs.ready i
  generalize (HathorLedger.step sdk w i).globals = g' at hstep
  cases hstep with
  | command apdu ends g' h =>
    exact hf.commandStep hs
      (fun call hcall hcalldisturbs => hdisturbs ⟨apdu, call, rfl, hcall, hcalldisturbs⟩) h
  | press button g' h =>
    refine hf.pressStep hs (fun hbutton hflow hlast hchange => ?_) h
    exact hboundary ⟨congrArg Input.press hbutton, hflow, hlast, hchange⟩
  | ioReset => exact faithful_restart _

end HathorLedger
