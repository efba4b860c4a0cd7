import HathorLedger.Library.Log
import HathorLedger.Run.Session

/-!
# Where events come from

Properties of single events, such as the path of a derivation or the number of tokens after the
decoder, hold in all runs if they hold of the events of every step. This file says once for every
step which events it adds to the log, and what was true when it did.

## Main definitions

* `Chunked`: a command has queued a chunk for the decoder.
* `ReviewEvent`: an event of the review of the outputs.
* `Emission`: where an event of a step comes from.

## Main results

* `emits_of_globalsStep`: all events of a step come from one of these places.
-/

namespace HathorLedger

variable (sdk : Sdk)

/-! ### Places -/

/-- The events whose origin is of no interest here. -/
def Event.incidental : Event → Bool
  | .pressed _ _ | .decoded _ | .tokenRead _ | .changesRead _ | .derived _ => false
  | _ => true

/-- The input is a command of the data stage, and its chunk has been queued for the decoder. -/
def Chunked (g : Globals) (i : Input) (g₁ : Globals) : Prop :=
  ∃ apdu data chunk, i = .apdu apdu ∧ callOf apdu = some (.signTx data 0 chunk) ∧
    Queued data chunk (g.receive apdu) g₁

/-- The events of a review of the record `t` that has ended with the counters `d` and `c`: it runs
over the change entries, and where it shows an output with a token it reads a cell of `tokens`. -/
inductive ReviewEvent (t : TxInfo) (d c : ℕ) : Event → Prop
  | changesRead : ReviewEvent t d c (.changesRead t.changeLen)
  | tokenRead (hd : d ≠ t.bufferOutputLen) (hc : c ≠ t.outputsLen)
    (hindex : tokenIndex (displayedOutput sdk { t with
      displayIndex := d, confirmedOutputs := c }).tokenData ≠ 0) :
    ReviewEvent t d c (.tokenRead (tokenIndex (displayedOutput sdk { t with
      displayIndex := d, confirmedOutputs := c }).tokenData - 1))

/-- Where an event of a step comes from, with the log in front of it. -/
inductive Emission (g : Globals) (i : Input) : Event → List Event → Prop
  | incidental {e : Event} (h : e.incidental = true) (rest : List Event) : Emission g i e rest
  | pressed (button : Button) (hi : i = .press button) :
    Emission g i (.pressed button g.ui.shown) g.log
  | address {apdu data : Bytes} {path : Bip32Path} (hi : i = .apdu apdu)
    (hcall : callOf apdu = some (.getAddress data)) (hpath : requestedPath data = some path)
    (rest : List Event) : Emission g i (.derived path) rest
  | xpub {apdu data : Bytes} {path : Bip32Path} (hi : i = .apdu apdu)
    (hcall : callOf apdu = some (.getXpub data)) (hpath : path ∈ requestedPaths data)
    (rest : List Event) : Emission g i (.derived path) rest
  | signing {apdu data : Bytes} {chunk : ℕ} {path : Bip32Path} {cdata : Buffer} (hi : i = .apdu apdu)
    (hcall : callOf apdu = some (.signTx data 1 chunk))
    (haccepted : (Buffer.ofBytes data).readBip32Path g.ctx.bip32Path = (true, path, cdata))
    (rest : List Event) : Emission g i (.derived path) rest
  | decoding {g₁ : Globals} (hq : Chunked g i g₁) {e : Event}
    (he : e ∈ decodeEvents g₁.ctx.txInfo (g₁.decode sdk).ctx.txInfo) (rest : List Event) :
    Emission g i e rest
  | reviewing {g₁ : Globals} (hq : Chunked g i g₁)
    (hready : (decodeElements sdk g₁.tokenSymbols g₁.ctx.txInfo).1 = TxState.ready)
    (hsome : (g₁.decode sdk).ctx.txInfo.bufferOutputLen ≠ 0) {d c : ℕ}
    (hskipped : (g₁.decode sdk).ctx.txInfo.InBounds →
      Skipped (g₁.decode sdk).ctx.txInfo.changeIndices (g₁.decode sdk).ctx.txInfo d c)
    {e : Event} (he : ReviewEvent sdk (g₁.decode sdk).ctx.txInfo d c e) (rest : List Event) :
    Emission g i e rest
  | approving (hi : i = .press .approve) (hflow : g.ui.flow = .txOutput) {d c : ℕ}
    (hskipped : g.ctx.txInfo.InBounds →
      g.ctx.txInfo.displayIndex ≠ g.ctx.txInfo.bufferOutputLen →
      g.ctx.txInfo.confirmedOutputs ≠ g.ctx.txInfo.outputsLen →
      (g.ctx.txInfo.displayIndex + 1 = g.ctx.txInfo.bufferOutputLen ∨
          g.ctx.txInfo.confirmedOutputs + 1 = g.ctx.txInfo.outputsLen →
        g.ctx.txInfo.confirmedOutputs + 1 ∉ g.ctx.txInfo.changeIndices) →
      Skipped g.ctx.txInfo.changeIndices { g.ctx.txInfo with
        displayIndex := g.ctx.txInfo.displayIndex + 1
        confirmedOutputs := g.ctx.txInfo.confirmedOutputs + 1 } d c)
    {e : Event} (he : ReviewEvent sdk g.ctx.txInfo d c e) (rest : List Event) : Emission g i e rest

/-- The log has grown by events of a step that the input `i` has made from the globals `g₀`. -/
def Emits (g₀ : Globals) (i : Input) (g g' : Globals) : Prop := Grown (Emission sdk g₀ i) g.log g'.log

variable {sdk} {g₀ g g' g'' : Globals} {i : Input}

/-! ### The operations -/

section Operations

theorem Emits.trans (h : Emits sdk g₀ i g g') (h' : Emits sdk g₀ i g' g'') : Emits sdk g₀ i g g'' :=
  Grown.trans h h'

theorem emits_of_log {events : List Event} (hlog : g'.log = events ++ g.log)
    (hevents : ∀ e ∈ events, ∀ rest, Emission sdk g₀ i e rest) : Emits sdk g₀ i g g' := by
  unfold Emits
  rw [hlog]
  exact Grown.refl.append hevents

theorem emits_of_incidental (events : List Event) (hlog : g'.log = events ++ g.log)
    (hevents : ∀ e ∈ events, e.incidental = true) : Emits sdk g₀ i g g' :=
  emits_of_log hlog fun e he rest => .incidental (hevents e he) rest

theorem emits_of_log_eq (hlog : g'.log = g.log) : Emits sdk g₀ i g g' :=
  emits_of_incidental [] hlog (by simp)

theorem emits_reply (rdata : Option Bytes) (sw : ℕ) (g : Globals) :
    Emits sdk g₀ i g (g.reply rdata sw) := by
  refine emits_of_incidental _ (g.log_reply rdata sw) fun e he => ?_
  split_ifs at he
  · rw [List.mem_singleton.1 he]
    rfl
  · cases he

theorem emits_openFlow {flow : Flow} (hflow : flow.hasApprove = false) :
    Emits sdk g₀ i g (g.openFlow flow) :=
  emits_of_log_eq (g.log_openFlow hflow)

theorem emits_cancel (g : Globals) : Emits sdk g₀ i g g.cancel :=
  emits_of_incidental [.wiped] rfl (by simp [Event.incidental])

theorem emits_resume (ends : Bool) (g : Globals) : Emits sdk g₀ i g (g.resume ends) := by
  have hrestart : Emits sdk g₀ i g g.restart :=
    emits_of_incidental [.started, .wiped] rfl (by simp [Event.incidental])
  cases ends with
  | true => exact hrestart
  | false =>
    change Emits sdk g₀ i g g.mainLoop
    unfold Globals.mainLoop
    split
    · refine emits_of_incidental
        (if g.io.outputLen = 0 then [] else [.sent (g.io.apduBuffer.take g.io.outputLen)]) ?_ ?_
      · dsimp only
        split_ifs <;> rfl
      · split_ifs <;> simp [Event.incidental]
    · exact emits_of_log_eq rfl
    · exact hrestart

theorem emits_readSecret (g : Globals) : Emits sdk g₀ i g (g.readSecret sdk) :=
  emits_of_log_eq (Globals.log_readSecret sdk g)

end Operations

/-! ### The review -/

section Review

theorem emits_asked (h : Asked g g') : Emits sdk g₀ i g g' := by
  cases h with
  | send => exact emits_of_incidental [.shown .confirmTx] rfl (by simp [Event.incidental])
  | refused => exact (emits_cancel g).trans (emits_reply _ _ _)
  | more => exact emits_reply _ _ { g with
      ctx.txInfo.displayIndex := 0, ctx.txInfo.bufferOutputLen := 0, ui.flow := .menuMain }

theorem emits_displayed {n d c : ℕ}
    (he : ∀ e rest, ReviewEvent sdk g.ctx.txInfo d c e → Emission sdk g₀ i e rest)
    (h : Displayed sdk ((g.readChanges n).review d c) g') : Emits sdk g₀ i g g' := by
  have hreview : Emits sdk g₀ i g ((g.readChanges n).review d c) :=
    emits_of_log rfl fun e hmem rest => by
      rw [List.eq_of_mem_replicate hmem]
      exact he _ rest .changesRead
  refine hreview.trans ?_
  cases h with
  | asked h => exact emits_asked h
  | output hc hd =>
    have hshown : (((g.readChanges n).review d c).showOutput sdk).log =
        (.shown _ :: Globals.tokenReads (displayedOutput sdk
          ((g.readChanges n).review d c).ctx.txInfo)) ++ ((g.readChanges n).review d c).log := rfl
    refine emits_of_log hshown fun e hmem rest => ?_
    rcases List.mem_cons.1 hmem with rfl | hmem
    · exact .incidental rfl rest
    · unfold Globals.tokenReads at hmem
      split_ifs at hmem with hindex
      · cases hmem
      · rw [List.mem_singleton.1 hmem]
        exact he _ rest (.tokenRead hd hc hindex)

end Review

/-! ### Commands -/

section Commands

theorem emits_requested {flow : Flow} {paths : List Bip32Path} {accepted : Prop}
    {P : Globals → Prop} {ends : Bool}
    (hpaths : ∀ path ∈ paths, ∀ rest, Emission sdk g₀ i (.derived path) rest)
    (h : Requested flow paths accepted P g ends g') : Emits sdk g₀ i g g' := by
  have hidle : ∀ {g₁}, Idle paths g g₁ → Emits sdk g₀ i g g₁ := by
    intro g₁ hidle
    obtain ⟨events, hlog, hevents⟩ := hidle.log
    refine emits_of_log hlog fun e he rest => ?_
    have hrequest := hevents e he
    cases e with
    | derived path => exact hpaths path (of_decide_eq_true hrequest) rest
    | wiped | tokenAccepted | tokenShown | xpubDerived => exact .incidental rfl rest
    | _ => cases hrequest
  cases h with
  | rejected g₁ sw h hidle₁ => exact (hidle hidle₁).trans (emits_reply _ _ _)
  | opened _ h hidle₁ => exact hidle hidle₁

theorem emits_signStep {ends : Bool}
    (hpath : ∀ rest, Emission sdk g₀ i (.derived g.ctx.bip32Path) rest)
    (h : SignStep sdk g ends g') : Emits sdk g₀ i g g' := by
  have hderived : ∀ events : List Event, (∀ e ∈ events, e.incidental = true) → ∀ {g₁ : Globals},
      g₁.log = events ++ .derived g.ctx.bip32Path :: g.log → Emits sdk g₀ i g g₁ := by
    intro events hevents g₁ hlog
    unfold Emits
    rw [hlog]
    exact (Grown.refl.cons (hpath _)).append fun e he rest => .incidental (hevents e he) rest
  cases h with
  | empty => exact emits_reply _ _ _
  | refused h =>
    have : Emits sdk g₀ i g { g with log := .derived g.ctx.bip32Path :: g.log } :=
      hderived [] (by simp) rfl
    exact this.trans (emits_reply _ _ _)
  | finished h t =>
    have : Emits sdk g₀ i g { g with
        ctx.txInfo := t, log := .hashFinished :: .derived g.ctx.bip32Path :: g.log } :=
      hderived [.hashFinished] (by simp [Event.incidental]) rfl
    exact this.trans (emits_reply _ _ _)
  | signed h t hfinish privateKey chainCode signature =>
    have : Emits sdk g₀ i g { g with
        ctx.txInfo := t
        log := .signed g.ctx.bip32Path.components t.sighashAll signature ::
          .hashFinished :: .derived g.ctx.bip32Path :: g.log } :=
      hderived [.signed _ _ _, .hashFinished] (by simp [Event.incidental]) rfl
    exact this.trans (emits_reply _ _ _)

theorem emits_decoded {ends : Bool} (hq : Chunked g₀ i g) (h : Decoded sdk g ends g') :
    Emits sdk g₀ i g g' := by
  have hdecode : Emits sdk g₀ i g (g.decode sdk) :=
    emits_of_log rfl fun e he rest => .decoding hq he rest
  cases h with
  | invalid => exact hdecode.trans ((emits_cancel _).trans (emits_reply _ _ _))
  | failed => exact hdecode
  | silent => exact hdecode.trans (emits_reply _ _ _)
  | displayed hready hsome n d c _ hdisplayed hskipped =>
    exact hdecode.trans (emits_displayed
      (fun e rest he => .reviewing hq hready hsome hskipped he rest) hdisplayed)

theorem emits_stageStep {apdu data : Bytes} {stage chunk : ℕ} {ends : Bool} (hi : i = .apdu apdu)
    (hcall : callOf apdu = some (.signTx data stage chunk))
    (h : StageStep sdk data stage chunk (g₀.receive apdu) ends g') :
    Emits sdk g₀ i (g₀.receive apdu) g' := by
  cases h with
  | cancelled => exact (emits_cancel _).trans (emits_reply _ _ _)
  | refused => exact emits_reply _ _ (g₀.receive apdu).restartReview
  | misread hstage hstate path =>
    exact emits_reply _ _ { (g₀.receive apdu).restartReview with ctx.bip32Path := path }
  | signing hstage hstate path rest haccepted _ _ h =>
    subst hstage
    have hpath : ∀ rest, Emission sdk g₀ i (.derived path) rest := fun rest =>
      .signing (g := g₀) hi hcall haccepted rest
    exact emits_signStep (g := { (g₀.receive apdu).restartReview with ctx.bip32Path := path })
      hpath h
  | wiped =>
    have hwipe : Emits sdk g₀ i (g₀.receive apdu) (g₀.receive apdu).wipe :=
      emits_of_incidental [.wiped] rfl (by simp [Event.incidental])
    exact hwipe.trans (emits_reply _ _ _)
  | failed hstage hchunk hstate happroved g₁ sw hfailed =>
    have hset : Emits sdk g₀ i (g₀.receive apdu) g₁ := by
      cases hfailed with
      | changes =>
        exact emits_of_incidental [.txInit, .wiped] rfl (by simp [Event.incidental])
      | header skipped rest =>
        exact emits_of_incidental [.hashed rest, .txInit, .wiped] rfl (by simp [Event.incidental])
    exact hset.trans (emits_reply _ _ _)
  | received hstage happroved hfirst g₁ _ _ hq hd =>
    subst hstage
    have hset : Emits sdk g₀ i (g₀.receive apdu) g₁ := by
      cases hq with
      | first h skipped rest =>
        exact emits_of_incidental [.firstChunkRead, .hashed (h.bytes ++ rest), .txInit, .wiped] rfl
          (by simp [Event.incidental])
      | next => exact emits_of_incidental [.hashed data] rfl (by simp [Event.incidental])
    exact hset.trans (emits_decoded ⟨apdu, data, chunk, hi, hcall, hq⟩ hd)

theorem emits_registryStep {data : Bytes} (h : RegistryStep sdk data g g') :
    Emits sdk g₀ i g g' := by
  cases h with
  | full => exact emits_reply _ _ { g with tokenSymbols := {} }
  | malformed => exact emits_reply _ _ _
  | invalid => exact (emits_readSecret g).trans (emits_reply _ _ _)
  | stored hlen token signature =>
    have hstored : Emits sdk g₀ i g { g.readSecret sdk with
        tokenSymbols := g.tokenSymbols.store token
        log := .tokenAccepted (g.readSecret sdk).secret token signature :: g.log } :=
      emits_of_incidental [.tokenAccepted _ token signature] rfl (by simp [Event.incidental])
    exact hstored.trans (emits_reply _ _ _)

theorem emits_handled {apdu : Bytes} {call : Call} {ends : Bool} (hi : i = .apdu apdu)
    (hcall : callOf apdu = some call) (h : Handled sdk (g₀.receive apdu) call ends g') :
    Emits sdk g₀ i (g₀.receive apdu) g' := by
  have hwipe : ∀ g : Globals, Emits sdk g₀ i g g.wipe := fun g =>
    emits_of_incidental [.wiped] rfl (by simp [Event.incidental])
  cases h with
  | getVersion => exact emits_reply _ _ _
  | getAddress data _ _ h =>
    exact emits_requested (fun path hpath rest =>
      .address hi hcall (Option.mem_toList.1 hpath) rest) h
  | getXpub data _ _ h =>
    exact emits_requested (fun path hpath rest => .xpub hi hcall hpath rest) h
  | signTx data stage chunk _ _ h => exact emits_stageStep hi hcall h
  | signTokenData data _ _ h => exact emits_requested (by simp) h
  | sendFirst data _ h =>
    have herased : Emits sdk g₀ i (g₀.receive apdu) { (g₀.receive apdu).wipe with tokenSymbols := {} } :=
      hwipe (g₀.receive apdu)
    exact herased.trans (emits_registryStep h)
  | sendNext data _ h => exact emits_registryStep h
  | verifyTokenSignature data =>
    refine (hwipe _).trans ?_
    unfold Globals.verify
    split
    · exact emits_reply _ _ _
    · exact (emits_readSecret _).trans (emits_reply _ _ _)
  | resetTokenSignatures => exact emits_of_log_eq rfl

theorem emits_commandStep {apdu : Bytes} {ends : Bool} (hi : i = .apdu apdu)
    (h : CommandStep sdk g₀ apdu ends g') : Emits sdk g₀ i g₀ g' := by
  have hreceive : Emits sdk g₀ i g₀ (g₀.receive apdu) :=
    emits_of_incidental [.received apdu] rfl (by simp [Event.incidental])
  cases h with
  | malformed | rejected => exact hreceive.trans (emits_reply _ _ _)
  | handled call hcall _ _ h => exact hreceive.trans (emits_handled hi hcall h)

end Commands

/-! ### Presses and steps -/

section Presses

theorem emits_pressStep {button : Button} (h : PressStep sdk g₀ button g') :
    Emits sdk g₀ (.press button) g₀ g' := by
  have hpress : ∀ b, Emits sdk g₀ (.press b) g₀ (g₀.press b) := fun b =>
    Grown.refl.cons (.pressed b rfl)
  cases h with
  | inactive button => exact hpress button
  | approveTx =>
    have happroved : Emits sdk g₀ (.press .approve) { g₀.press .approve with ctx.state := .approved }
        ({ g₀.press .approve with ctx.state := .approved }.reply none Sw.ok) := emits_reply _ _ _
    exact (hpress .approve).trans (happroved.trans (emits_openFlow rfl))
  | approveOutput hflow n d c _ hdisplayed hskipped =>
    exact (hpress .approve).trans (emits_displayed (g := g₀.press .approve)
      (fun e rest he => .approving rfl hflow hskipped he rest) hdisplayed)
  | approveXpub =>
    have hsent : Emits sdk g₀ (.press .approve) (g₀.press .approve) { g₀.press .approve with
        log := .xpubSent g₀.ctx.pkInfo :: (g₀.press .approve).log } :=
      emits_of_incidental [.xpubSent _] rfl (by simp [Event.incidental])
    exact (hpress .approve).trans
      (hsent.trans ((emits_reply _ _ _).trans (emits_openFlow rfl)))
  | approveToken hflow secret =>
    have hsigned : Emits sdk g₀ (.press .approve) (g₀.press .approve) {
        (g₀.press .approve).readSecret sdk with
        log := .tokenSigned secret g₀.ctx.token :: (g₀.press .approve).log } :=
      emits_of_incidental [.tokenSigned secret _] rfl (by simp [Event.incidental])
    exact (hpress .approve).trans
      (hsigned.trans ((emits_reply _ _ _).trans (emits_openFlow rfl)))
  | approveAddress =>
    exact (hpress .approve).trans ((emits_reply _ _ _).trans (emits_openFlow rfl))
  | approveReset =>
    have hsecret : Emits sdk g₀ (.press .approve) (g₀.press .approve)
        ((g₀.press .approve).generateSecret sdk) := emits_of_log_eq rfl
    exact (hpress .approve).trans
      (hsecret.trans ((emits_reply _ _ _).trans (emits_openFlow rfl)))
  | reject => exact (hpress .reject).trans ((emits_cancel _).trans (emits_reply _ _ _))
  | rejectReset =>
    exact (hpress .reject).trans ((emits_reply _ _ _).trans (emits_openFlow rfl))
  | exitToMenu => exact (hpress .quit).trans (emits_cancel _)
  | quit => exact (hpress .quit).trans (emits_resume true _)
  | about => exact (hpress .about).trans (emits_openFlow rfl)
  | back => exact (hpress .back).trans (emits_openFlow rfl)

/-- All events of a step come from one of the places. -/
theorem emits_of_globalsStep (h : GlobalsStep sdk g i g') : Emits sdk g i g g' := by
  cases h with
  | command apdu ends g' h => exact (emits_commandStep rfl h).trans (emits_resume ends g')
  | press button g' h => exact emits_pressStep h
  | ioReset => exact emits_resume true g

/-- A property of the events of all steps holds of the events of a run. -/
theorem grown_of_reachable {guard : World → Input → Prop} {P : Event → List Event → Prop}
    (hincidental : ∀ e rest, e.incidental = true → P e rest)
    (hemission : ∀ w i, Reachable Booted (step sdk) guard w → guard w i →
      ∀ e rest, Emission sdk w.globals i e rest → P e rest)
    {w : World} (hw : Reachable Booted (step sdk) guard w) : Grown P [] w.globals.log := by
  refine hw.invariant (I := fun w => Grown P [] w.globals.log) ?_ fun w i hw hi hgrown => ?_
  · rintro _ ⟨secret, -, rfl⟩
    rw [globals_boot]
    have hstarted : ∀ e ∈ [Event.started, .wiped], ∀ rest, P e rest := by
      intro e he rest
      refine hincidental e rest ?_
      rcases List.mem_cons.1 he with rfl | he
      · rfl
      · rw [List.mem_singleton.1 he]
        rfl
    exact Grown.append hstarted .refl
  · have hemits := emits_of_globalsStep (@globalsStep sdk w (sound_of_reachable hw).ready i)
    exact hgrown.trans (hemits.mono (hemission w i hw hi))

end Presses

end HathorLedger
