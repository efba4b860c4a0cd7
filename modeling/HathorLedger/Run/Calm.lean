import HathorLedger.Run.Disturbance

/-!
# Calm steps

Most of what the app does while a screen is open leaves alone what the screen stands for: responses,
the menu, the registry and the secret, and the sign stage, which works on the hash only. Such a step
is calm. It may close the screen, but it opens none that acts on the context.

## Main definitions

* `Event.calm`, `SameRequests`: the events that say nothing about the screens.
* `Calm`: a step that leaves alone what the screens stand for.

## Main results

* `Calm.of_ctx`: a step that keeps the context is calm.
* `calm_registryStep`, `calm_signStep`: the registry and the sign stage are calm.
-/

namespace HathorLedger

variable {sdk : Sdk} {g g' g'' : Globals}

/-! ### Events -/

/-- The events that say nothing about what the screens stand for. -/
def Event.calm : Event → Bool
  | .shown .confirmTx | .xpubDerived _ _ | .tokenShown _ => false
  | e => e.neutral

/-- What the screens stand for is the same. -/
structure SameRequests (k k' : History) : Prop where
  hashed : k'.hashed = k.hashed
  approved : ∀ screen ∈ k.approved, screen ∈ k'.approved
  sendShown : k'.sendShown = k.sendShown
  xpubDerived : k'.xpubDerived = k.xpubDerived
  tokenShown : k'.tokenShown = k.tokenShown

theorem Event.neutral_of_calm {e : Event} (he : e.calm = true) : e.neutral = true := by
  cases e with
  | shown screen => rfl
  | xpubDerived | tokenShown => rfl
  | _ => exact he

theorem sameRequests_record {e : Event} (he : e.calm = true) (k : History) :
    SameRequests k (k.record e) := by
  cases e with
  | pressed button screen =>
    cases button with
    | approve => exact ⟨rfl, fun _ h => List.mem_append_left _ h, rfl, rfl, rfl⟩
    | _ => exact ⟨rfl, fun _ h => h, rfl, rfl, rfl⟩
  | shown screen => cases screen <;> first | exact ⟨rfl, fun _ h => h, rfl, rfl, rfl⟩ | cases he
  | wiped | txInit | hashed | firstChunkRead | hashFinished | signed => cases he
  | xpubDerived | tokenShown => cases he
  | _ => exact ⟨rfl, fun _ h => h, rfl, rfl, rfl⟩

theorem SameRequests.trans {k k' k'' : History} (h : SameRequests k k') (h' : SameRequests k' k'') :
    SameRequests k k'' :=
  ⟨h'.hashed.trans h.hashed, fun screen hs => h'.approved screen (h.approved screen hs),
    h'.sendShown.trans h.sendShown, h'.xpubDerived.trans h.xpubDerived,
    h'.tokenShown.trans h.tokenShown⟩

theorem sameRequests_append {events log : List Event} (h : ∀ e ∈ events, e.calm = true) :
    SameRequests (history log) (history (events ++ log)) := by
  induction events with
  | nil => exact ⟨rfl, fun _ h => h, rfl, rfl, rfl⟩
  | cons e events ih =>
    obtain ⟨he, hrest⟩ := List.forall_mem_cons.1 h
    exact (ih hrest).trans (sameRequests_record he _)

/-! ### Steps -/

/-- A step that leaves alone what the screens stand for. It may close a screen. -/
structure Calm (sdk : Sdk) (g g' : Globals) : Prop where
  state : g'.ctx.state = g.ctx.state
  reqType : g'.ctx.reqType = g.ctx.reqType
  token : g'.ctx.token = g.ctx.token
  pkInfo : g'.ctx.pkInfo = g.ctx.pkInfo
  confirmedOutputs : g'.ctx.txInfo.confirmedOutputs = g.ctx.txInfo.confirmedOutputs
  currentOutput : g'.ctx.txInfo.currentOutput = g.ctx.txInfo.currentOutput
  outputsLen : g'.ctx.txInfo.outputsLen = g.ctx.txInfo.outputsLen
  changeIndices : g'.ctx.txInfo.changeIndices = g.ctx.txInfo.changeIndices
  session : ∀ h e, Session sdk h e g ∧ Rested h e g.ctx.txInfo →
    Session sdk h e g' ∧ Rested h e g'.ctx.txInfo
  requests : SameRequests g.history g'.history
  ui : g'.ui = g.ui ∧ (g.ui.flow = .txOutput →
      g'.ctx.txInfo.displayIndex = g.ctx.txInfo.displayIndex ∧
      g'.ctx.txInfo.bufferOutputLen = g.ctx.txInfo.bufferOutputLen ∧
      g'.ctx.txInfo.outputs = g.ctx.txInfo.outputs) ∨
    g'.ui.flow.standsForContext = false

/-- The context and the screen are the same, or the screen is closed. -/
theorem Calm.of_ctx (hctx : g'.ctx = g.ctx) (events : List Event) (hlog : g'.log = events ++ g.log)
    (hcalm : ∀ e ∈ events, e.calm = true)
    (hui : g'.ui = g.ui ∨ g'.ui.flow.standsForContext = false) :
    Calm sdk g g' where
  state := by rw [hctx]
  reqType := by rw [hctx]
  token := by rw [hctx]
  pkInfo := by rw [hctx]
  confirmedOutputs := by rw [hctx]
  currentOutput := by rw [hctx]
  outputsLen := by rw [hctx]
  changeIndices := by rw [hctx]
  session h e hsession := by
    have hsame : SameHashing g.history g'.history := by
      rw [Globals.history, Globals.history, hlog]
      exact sameHashing_append fun e he => Event.neutral_of_calm (hcalm e he)
    obtain ⟨⟨hheld, hdigest, hread, haborted⟩, hrest⟩ := hsession
    rw [hctx]
    refine ⟨⟨hctx ▸ hheld, hdigest.of_same hsame.hashed hsame.finishes (by rw [hctx])
      (by rw [hctx]), ?_, ?_⟩, hrest⟩
    · rw [hsame.firstChunkRead, hsame.hashed, hctx]
      exact hread
    · rw [hsame.firstChunkRead, hctx]
      exact haborted
  requests := by
    rw [Globals.history, Globals.history, hlog]
    exact sameRequests_append hcalm
  ui := by
    rw [hctx]
    exact hui.imp_left fun h => ⟨h, fun _ => ⟨rfl, rfl, rfl⟩⟩

theorem Calm.trans (h : Calm sdk g g') (h' : Calm sdk g' g'') : Calm sdk g g'' where
  state := h'.state.trans h.state
  reqType := h'.reqType.trans h.reqType
  token := h'.token.trans h.token
  pkInfo := h'.pkInfo.trans h.pkInfo
  confirmedOutputs := h'.confirmedOutputs.trans h.confirmedOutputs
  currentOutput := h'.currentOutput.trans h.currentOutput
  outputsLen := h'.outputsLen.trans h.outputsLen
  changeIndices := h'.changeIndices.trans h.changeIndices
  session _ _ hsession := h'.session _ _ (h.session _ _ hsession)
  requests := h.requests.trans h'.requests
  ui := by
    rcases h'.ui with ⟨hui', hcounters'⟩ | hclosed'
    · rcases h.ui with ⟨hui, hcounters⟩ | hclosed
      · refine .inl ⟨hui'.trans hui, fun hflow => ?_⟩
        obtain ⟨hd, hb, ho⟩ := hcounters hflow
        obtain ⟨hd', hb', ho'⟩ := hcounters' (by rw [hui]; exact hflow)
        exact ⟨hd'.trans hd, hb'.trans hb, ho'.trans ho⟩
      · right
        rw [hui']
        exact hclosed
    · exact .inr hclosed'

theorem calm_receive (apdu : Bytes) (g : Globals) : Calm sdk g (g.receive apdu) :=
  .of_ctx rfl [.received apdu] rfl (by simp [Event.calm, Event.neutral]) (.inl rfl)

theorem calm_reply (rdata : Option Bytes) (sw : ℕ) (g : Globals) : Calm sdk g (g.reply rdata sw) := by
  refine .of_ctx rfl _ (g.log_reply rdata sw) (fun e he => ?_) (.inl rfl)
  split_ifs at he
  · rw [List.mem_singleton.1 he]
    rfl
  · cases he

/-- A flow without an approve step takes the place of a screen. -/
theorem calm_openFlow (flow : Flow) (hflow : flow.hasApprove = false) (g : Globals) :
    Calm sdk g (g.openFlow flow) := by
  refine .of_ctx rfl [] (g.log_openFlow hflow) (by simp) (.inr ?_)
  rw [Globals.ui_openFlow]
  cases flow <;> first | rfl | cases hflow

theorem calm_readSecret (g : Globals) : Calm sdk g (g.readSecret sdk) :=
  .of_ctx (by simp) [] (by simp) (by simp) (.inl (by simp))

theorem calm_press {button : Button} (hpress : button ≠ .approve ∨ g.ui.flow ≠ .confirmTx) :
    Calm sdk g (g.press button) := by
  refine .of_ctx rfl [.pressed button g.ui.shown] rfl (fun e he => ?_) (.inl rfl)
  rw [List.mem_singleton.1 he]
  cases button with
  | approve =>
    have hflow := hpress.resolve_left (not_not.2 rfl)
    have hscreen : g.ui.shown ≠ .confirmTx := by
      unfold Ui.shown
      cases hflow' : g.ui.flow with
      | confirmTx => exact absurd hflow' hflow
      | _ => nofun
    simpa [Event.calm, Event.neutral] using hscreen
  | _ => rfl

/-- Only the approval of a transaction is no calm press. -/
theorem calm_approve {flow : Flow} (hflow : g.ui.flow = flow) (hother : flow ≠ .confirmTx) :
    Calm sdk g (g.press .approve) :=
  calm_press (.inr (hflow ▸ hother))

/-- An answer closes the screen. -/
theorem Calm.closed (h : Calm sdk g g') (rdata : Option Bytes) (sw : ℕ) :
    Calm sdk g ((g'.reply rdata sw).openFlow .menuMain) :=
  (h.trans (calm_reply _ _ _)).trans (calm_openFlow .menuMain rfl _)

theorem calm_mainLoop (hstate : g.io.state ≠ .waiting) : Calm sdk g g.mainLoop := by
  unfold Globals.mainLoop
  split
  · refine .of_ctx rfl (if g.io.outputLen = 0 then []
      else [.sent (g.io.apduBuffer.take g.io.outputLen)]) ?_ ?_
      (.inl rfl)
    · dsimp only
      split_ifs <;> rfl
    · split_ifs <;> simp [Event.calm, Event.neutral]
  · exact .of_ctx rfl [] rfl (by simp) (.inl rfl)
  · contradiction

theorem calm_registryStep {data : Bytes} (h : RegistryStep sdk data g g') : Calm sdk g g' := by
  cases h with
  | full =>
    have herased : Calm sdk g { g with tokenSymbols := {} } :=
      .of_ctx rfl [] rfl (by simp) (.inl rfl)
    exact herased.trans (calm_reply _ _ _)
  | malformed => exact calm_reply _ _ _
  | invalid => exact (calm_readSecret g).trans (calm_reply _ _ _)
  | stored hlen token signature =>
    have hstored : Calm sdk (g.readSecret sdk) { g.readSecret sdk with
        tokenSymbols := g.tokenSymbols.store token
        log := .tokenAccepted (g.readSecret sdk).secret token signature :: g.log } :=
      .of_ctx rfl [.tokenAccepted (g.readSecret sdk).secret token signature] (by simp)
        (by simp [Event.calm, Event.neutral]) (.inl rfl)
    exact ((calm_readSecret g).trans hstored).trans (calm_reply _ _ _)

/-- The sign stage leaves the review alone; it works on the hash only. -/
theorem calm_restartReview (hflow : g.ui.flow ≠ .txOutput) (path : Bip32Path) :
    Calm sdk g { g.restartReview with ctx.bip32Path := path } where
  state := rfl
  reqType := rfl
  token := rfl
  pkInfo := rfl
  confirmedOutputs := rfl
  currentOutput := rfl
  outputsLen := rfl
  changeIndices := rfl
  session h e hsession :=
    ⟨hsession.1.framed ⟨⟨0, _, 0, .inr rfl, rfl⟩, rfl, .inl rfl, id, [], rfl, by simp⟩,
      hsession.2.recounted ⟨0, _, 0, .inr rfl, rfl⟩⟩
  requests := ⟨rfl, fun _ h => h, rfl, rfl, rfl⟩
  ui := .inl ⟨rfl, fun h => absurd h hflow⟩

/-- The digest is taken, and the signature made from it. -/
theorem calm_hashFinished {t : TxInfo} (ht : finishSighashAll sdk g.ctx.txInfo = some t) :
    Calm sdk g { g with ctx.txInfo := t, log := .hashFinished :: g.log } := by
  have hfinish := ht
  obtain ⟨sighashAll, sha256, rfl⟩ := finishSighashAll_eq ht
  exact {
    state := rfl
    reqType := rfl
    token := rfl
    pkInfo := rfl
    confirmedOutputs := rfl
    currentOutput := rfl
    outputsLen := rfl
    changeIndices := rfl
    session := fun h e hsession => hsession.1.finish hsession.2 hfinish
    requests := ⟨rfl, fun _ h => h, rfl, rfl, rfl⟩
    ui := .inl ⟨rfl, fun _ => ⟨rfl, rfl, rfl⟩⟩ }

theorem calm_signed (path : List ℕ) (digest signature : Bytes) (g : Globals) :
    Calm sdk g { g with log := .signed path digest signature :: g.log } where
  state := rfl
  reqType := rfl
  token := rfl
  pkInfo := rfl
  confirmedOutputs := rfl
  currentOutput := rfl
  outputsLen := rfl
  changeIndices := rfl
  session _ _ hsession := ⟨⟨hsession.1.held, hsession.1.digest, hsession.1.read,
    hsession.1.aborted⟩, hsession.2⟩
  requests := ⟨rfl, fun _ h => h, rfl, rfl, rfl⟩
  ui := .inl ⟨rfl, fun _ => ⟨rfl, rfl, rfl⟩⟩

theorem calm_signStep {ends : Bool} (h : SignStep sdk g ends g') : Calm sdk g g' := by
  have hderived : Calm sdk g { g with log := .derived g.ctx.bip32Path :: g.log } :=
    .of_ctx rfl [.derived g.ctx.bip32Path] rfl (by simp [Event.calm, Event.neutral])
      (.inl rfl)
  cases h with
  | empty => exact calm_reply _ _ _
  | refused => exact hderived.trans (calm_reply _ _ _)
  | finished h t hfinish => exact (hderived.trans (calm_hashFinished hfinish)).trans (calm_reply _ _ _)
  | signed h t hfinish privateKey chainCode signature =>
    exact ((hderived.trans (calm_hashFinished hfinish)).trans
      (calm_signed g.ctx.bip32Path.components t.sighashAll signature _)).trans (calm_reply _ _ _)

end HathorLedger
