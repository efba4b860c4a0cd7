import HathorLedger.App
import HathorLedger.Library.Transition
import HathorLedger.Library.WeakestPrecondition

/-!
# The history of a run

The trace of a run says what the app did. Properties of the transaction in the context speak of the
events since the context was last wiped or set up: which bytes were hashed, on which screens the
user pressed approve, and so on. `History` collects these.

Most changes of the screen are no part of it. `World.log` is the trace without such silent events,
and `Globals` is the world with the log in place of the trace. The operations of the app that the
commands share are operations on the globals; the lemmas below say so for `simp`.

## Main definitions

* `Event.silent`, `World.log`: the silent events and the rest of the trace.
* `History`, `history`, `World.history`: what the events since the last wipe amount to.
* `Globals`, `World.globals`: the world with its log.
* `Globals.wipe`, `Globals.openFlow`, `Globals.reply`, `Globals.receive`, `Globals.restart`,
  `Globals.mainLoop`: the operations.
-/

namespace HathorLedger

/-! ### History -/

/-- The screens of the review of a transaction. -/
def Screen.ofReview : Screen → Bool
  | .confirmTx => true
  | .txOutput _ _ _ => true
  | _ => false

/-- The screen that an event shows. -/
def Event.screen : Event → Option Screen
  | .shown screen => some screen
  | _ => none

/-- The screens that were shown, the newest first. -/
def screens (events : List Event) : List Screen := events.filterMap Event.screen

/-- The screens of reviews that were shown, the newest first. -/
def reviewScreens (events : List Event) : List Screen := (screens events).filter Screen.ofReview

/-- The events that no property speaks of: the changes to screens of other flows. -/
def Event.silent : Event → Bool
  | .shown screen => !screen.ofReview
  | _ => false

/-- What has happened since the context was last wiped or set up for a transaction. -/
@[ext]
structure History where
  /-- The bytes fed to the transaction hash. -/
  hashed : Bytes := []
  /-- The first chunk was read without an error. -/
  firstChunkRead : Bool := false
  /-- How often the digest of the transaction was taken. -/
  finishes : ℕ := 0
  /-- The screens on which the user pressed approve, in this order. -/
  approved : List Screen := []
  /-- The bytes hashed when the screen "Send Transaction?" was last opened. -/
  sendShown : Option Bytes := none
  /-- The bytes hashed when approve was last pressed on that screen. -/
  sendApproved : Option Bytes := none
  /-- The path and the key that were last derived for `GET_XPUB`. -/
  xpubDerived : Option (List ℕ × PkInfo) := none
  /-- The token for which the screen of `SIGN_TOKEN_DATA` was last opened. -/
  tokenShown : Option Token := none
  deriving DecidableEq

/-- The digest of the transaction was taken. -/
def History.hashFinished (h : History) : Bool := h.finishes != 0

/-- The history after one more event. -/
def History.record (h : History) : Event → History
  | .wiped => {}
  | .txInit => {}
  | .hashed data => { h with hashed := h.hashed ++ data }
  | .firstChunkRead => { h with firstChunkRead := true }
  | .hashFinished => { h with finishes := h.finishes + 1 }
  | .pressed .approve screen =>
    { h with
      approved := h.approved ++ [screen]
      sendApproved := if screen = .confirmTx then some h.hashed else h.sendApproved }
  | .shown .confirmTx => { h with sendShown := some h.hashed }
  | .xpubDerived path info => { h with xpubDerived := some (path, info) }
  | .tokenShown token => { h with tokenShown := some token }
  | _ => h

/-- The history after a sequence of events, the newest first. -/
def history : List Event → History
  | [] => {}
  | e :: events => (history events).record e

/-- The trace without silent events. -/
def World.log (w : World) : List Event := w.trace.filter fun e => !e.silent

/-- The history at a moment of a run. -/
def World.history (w : World) : History := HathorLedger.history w.trace

/-- The globals of the app, with the log. -/
@[ext]
structure Globals where
  ctx : GlobalCtx
  tokenSymbols : TokenDataCtx
  secret : Bytes
  draws : ℕ
  ui : Ui
  io : Io
  log : List Event

/-- The globals of a world. -/
def World.globals (w : World) : Globals :=
  ⟨w.ctx, w.tokenSymbols, w.secret, w.draws, w.ui, w.io, w.log⟩

/-- The history that the log tells. -/
def Globals.history (g : Globals) : History := HathorLedger.history g.log

@[simp] theorem silent_shown (screen : Screen) :
    (Event.shown screen).silent = !screen.ofReview := rfl

@[simp] theorem silent_of_ne {e : Event} (h : ∀ screen, e ≠ .shown screen) : e.silent = false := by
  cases e with
  | shown screen => exact absurd rfl (h screen)
  | _ => rfl

theorem record_of_silent {e : Event} (he : e.silent = true) (h : History) : h.record e = h := by
  cases e with
  | shown screen => cases screen <;> first | rfl | cases he
  | _ => cases he

theorem history_filter (events : List Event) :
    history (events.filter fun e => !e.silent) = history events := by
  induction events with
  | nil => rfl
  | cons e events ih =>
    cases he : e.silent with
    | true => simp [he, history, ih, record_of_silent he]
    | false => simp [he, history, ih]

theorem ofReview_shown {ui : Ui} (h : ui.flow ≠ .confirmTx) (h' : ui.flow ≠ .txOutput) :
    ui.shown.ofReview = false := by
  unfold Ui.shown
  cases hflow : ui.flow <;> first | rfl | contradiction

/-- Silent events do not count. -/
theorem World.history_eq (w : World) : w.history = w.globals.history :=
  (history_filter w.trace).symm

@[simp] theorem reviewScreens_append (events log : List Event) :
    reviewScreens (events ++ log) = reviewScreens events ++ reviewScreens log := by
  simp [reviewScreens, screens]

/-- Events that show nothing show nothing of a review. -/
theorem reviewScreens_of_forall {events : List Event} (h : ∀ e ∈ events, e.screen = none)
    (log : List Event) : reviewScreens (events ++ log) = reviewScreens log := by
  have hnone : screens events = [] := List.filterMap_eq_nil_iff.2 h
  rw [reviewScreens_append, reviewScreens, hnone, List.filter_nil, List.nil_append]

/-- Silent events are no screens of a review. -/
theorem World.reviewScreens_log (w : World) : reviewScreens w.log = reviewScreens w.trace := by
  unfold World.log
  induction w.trace with
  | nil => rfl
  | cons e events ih =>
    cases e with
    | shown screen => cases hreview : screen.ofReview <;>
        simp [Event.silent, hreview, reviewScreens, screens, Event.screen] at ih ⊢ <;> exact ih
    | _ => exact ih

/-! ### Operations -/

/-- The bytes that `io_send_response` puts into the APDU buffer. -/
def responseBody (rdata : Option Bytes) (sw : ℕ) : Bytes :=
  if (rdata.getD []).length > ioApduBufferSize - 2 then beBytes 2 Sw.wrongResponseLength
  else rdata.getD [] ++ beBytes 2 sw

/-- The state of the exchange after a response: it waits in the buffer, or is sent at once. -/
def Io.respond (body : Bytes) (io : Io) : Io :=
  { io with
    apduBuffer := memmove io.apduBuffer 0 body
    outputLen := if io.state = .waiting then 0 else body.length
    state := .ready }

namespace Globals

/-- Record an event. -/
def emit (e : Event) (g : Globals) : Globals :=
  { g with log := if e.silent then g.log else e :: g.log }

/-- The context is wiped. -/
def wipe (g : Globals) : Globals := { g with ctx := {}, log := .wiped :: g.log }

/-- A flow is opened. -/
def openFlow (flow : Flow) (g : Globals) : Globals :=
  { g with ui.flow := flow }.emit (.shown { g.ui with flow }.shown)

/-- The context is wiped and the main menu is shown. -/
def cancel (g : Globals) : Globals := g.wipe.openFlow .menuMain

/-- `io_send_response`. -/
def reply (rdata : Option Bytes) (sw : ℕ) (g : Globals) : Globals :=
  { g with
    io := g.io.respond (responseBody rdata sw)
    log := if g.io.state = .waiting then .sent (responseBody rdata sw) :: g.log else g.log }

/-- The arrival of a command is recorded. -/
def receive (apdu : Bytes) (g : Globals) : Globals :=
  { g with
    io := { g.io with
      apduBuffer := memmove g.io.apduBuffer 0 apdu
      state := if g.io.asynch then .received else g.io.state }
    log := .received apdu :: g.log }

/-- The app starts anew. -/
def restart (g : Globals) : Globals :=
  { g with
    ctx := {}
    tokenSymbols := {}
    ui.flow := .menuMain
    io := { g.io with outputLen := 0, state := .received, asynch := false }
    log := .started :: .wiped :: g.log }

/-- The next round of the loop of `app_main`: send what waits, and block. -/
def mainLoop (g : Globals) : Globals :=
  match g.io.state with
  | .ready => { g with
      io := { g.io with state := .received, asynch := false }
      log :=
        if g.io.outputLen = 0 then g.log
        else .sent (g.io.apduBuffer.take g.io.outputLen) :: g.log }
  | .received => { g with io := { g.io with state := .waiting, asynch := true } }
  | .waiting => g.restart

section Reply

variable (rdata : Option Bytes) (sw : ℕ) (g : Globals)

@[simp] theorem ctx_reply : (g.reply rdata sw).ctx = g.ctx := rfl

@[simp] theorem tokenSymbols_reply : (g.reply rdata sw).tokenSymbols = g.tokenSymbols := rfl

@[simp] theorem secret_reply : (g.reply rdata sw).secret = g.secret := rfl

@[simp] theorem draws_reply : (g.reply rdata sw).draws = g.draws := rfl

@[simp] theorem ui_reply : (g.reply rdata sw).ui = g.ui := rfl

@[simp] theorem ctx_openFlow (flow : Flow) : (g.openFlow flow).ctx = g.ctx := rfl

@[simp] theorem tokenSymbols_openFlow (flow : Flow) :
    (g.openFlow flow).tokenSymbols = g.tokenSymbols := rfl

@[simp] theorem secret_openFlow (flow : Flow) : (g.openFlow flow).secret = g.secret := rfl

@[simp] theorem io_openFlow (flow : Flow) : (g.openFlow flow).io = g.io := rfl

@[simp] theorem ui_openFlow (flow : Flow) : (g.openFlow flow).ui = { g.ui with flow } := rfl

/-- A flow without an approve step shows no screen of the review. -/
theorem log_openFlow {flow : Flow} (h : flow.hasApprove = false) :
    (g.openFlow flow).log = g.log := by
  have hscreen : ({ g.ui with flow : Ui }).shown.ofReview = false :=
    ofReview_shown (fun hflow => by simp [Flow.hasApprove, show flow = .confirmTx from hflow] at h)
      (fun hflow => by simp [Flow.hasApprove, show flow = .txOutput from hflow] at h)
  simp [openFlow, emit, hscreen]

/-- A reply adds at most itself to the log. -/
theorem log_reply : (g.reply rdata sw).log =
    (if g.io.state = .waiting then [.sent (responseBody rdata sw)] else []) ++ g.log := by
  unfold reply
  split_ifs <;> rfl

end Reply

end Globals

/-! ### The code works with these operations -/

namespace World

variable (w : World)

@[simp] theorem log_mk (ctx : GlobalCtx) (tokenSymbols : TokenDataCtx) (secret : Bytes)
    (draws : ℕ) (ui : Ui) (io : Io) :
    (World.mk ctx tokenSymbols secret draws ui io w.trace).log = w.log := rfl

@[simp] theorem log_emit (e : Event) :
    (w.emit e).log = if e.silent then w.log else e :: w.log := by
  cases he : e.silent <;> simp [log, emit, he]

@[simp] theorem ctx_emit (e : Event) : (w.emit e).ctx = w.ctx := rfl

@[simp] theorem tokenSymbols_emit (e : Event) : (w.emit e).tokenSymbols = w.tokenSymbols := rfl

@[simp] theorem io_emit (e : Event) : (w.emit e).io = w.io := rfl

@[simp] theorem ui_emit (e : Event) : (w.emit e).ui = w.ui := rfl

@[simp] theorem ctx_modifyTx (f : TxInfo → TxInfo) :
    (w.modifyTx f).ctx = { w.ctx with txInfo := f w.ctx.txInfo } := rfl

@[simp] theorem io_modifyTx (f : TxInfo → TxInfo) : (w.modifyTx f).io = w.io := rfl

@[simp] theorem globals_emit (e : Event) : (w.emit e).globals = w.globals.emit e := by
  rw [globals, log_emit]
  rfl

@[simp] theorem globals_modifyTx (f : TxInfo → TxInfo) :
    (w.modifyTx f).globals = { w.globals with ctx.txInfo := f w.ctx.txInfo } := rfl

end World

section Basic

variable (w : World)

@[simp] theorem ctx_explicitBzeroContext : (explicitBzeroContext w).ctx = {} := rfl

@[simp] theorem io_explicitBzeroContext : (explicitBzeroContext w).io = w.io := rfl

@[simp] theorem log_explicitBzeroContext : (explicitBzeroContext w).log = .wiped :: w.log := rfl

@[simp] theorem globals_explicitBzeroContext :
    (explicitBzeroContext w).globals = w.globals.wipe := by
  rw [explicitBzeroContext, World.globals_emit]
  rfl

@[simp] theorem globals_explicitBzeroTokenSymbols :
    (explicitBzeroTokenSymbols w).globals = { w.globals with tokenSymbols := {} } := rfl

@[simp] theorem ctx_uxFlowInit (flow : Flow) : (uxFlowInit flow w).ctx = w.ctx := rfl

@[simp] theorem io_uxFlowInit (flow : Flow) : (uxFlowInit flow w).io = w.io := rfl

@[simp] theorem log_uxFlowInit {flow : Flow} (h : flow ≠ .confirmTx) (h' : flow ≠ .txOutput) :
    (uxFlowInit flow w).log = w.log := by
  have hscreen : ({ w.ui with flow : Ui }).shown.ofReview = false := ofReview_shown h h'
  simp [uxFlowInit, hscreen]

@[simp] theorem globals_uxFlowInit (flow : Flow) :
    (uxFlowInit flow w).globals = w.globals.openFlow flow := by
  rw [uxFlowInit, World.globals_emit]
  rfl

@[simp] theorem uiMenuMain_eq : uiMenuMain w = uxFlowInit .menuMain w := rfl

@[simp] theorem uiMenuAbout_eq : uiMenuAbout w = uxFlowInit .menuAbout w := rfl

@[simp] theorem ioSendSw_eq (sw : ℕ) : ioSendSw sw w = ioSendResponse none sw w := rfl

variable (rdata : Option Bytes) (sw : ℕ)

theorem length_responseBody : 2 ≤ (responseBody rdata sw).length := by
  unfold responseBody
  split_ifs
  · rw [length_beBytes]
  · rw [List.length_append, length_beBytes]
    exact Nat.le_add_left _ _

@[simp] theorem globals_ioSendResponse :
    (ioSendResponse rdata sw w).2.globals = w.globals.reply rdata sw := by
  obtain ⟨ctx, tokenSymbols, secret, draws, ui, ⟨state, outputLen, apduBuffer, asynch⟩, trace⟩ := w
  have hpos : (responseBody rdata sw).length ≠ 0 := by
    have := length_responseBody rdata sw
    omega
  have htake : (memmove apduBuffer 0 (responseBody rdata sw)).take (responseBody rdata sw).length =
      responseBody rdata sw := by
    rw [take_memmove (Nat.zero_le _) (Nat.zero_add _).symm, List.take_zero, List.nil_append]
  cases state with
  | ready => rfl
  | received => rfl
  | waiting =>
    have htransmit : ∀ v : World, v.io.apduBuffer = memmove apduBuffer 0 (responseBody rdata sw) →
        ioTransmit (responseBody rdata sw).length v = v.emit (.sent (responseBody rdata sw)) := by
      intro v hv
      rw [ioTransmit, if_neg hpos, hv, htake]
    have hsend : ioSendResponse rdata sw ⟨ctx, tokenSymbols, secret, draws, ui,
        ⟨.waiting, outputLen, apduBuffer, asynch⟩, trace⟩ =
      (0, { World.emit (.sent (responseBody rdata sw)) ⟨ctx, tokenSymbols, secret, draws, ui,
          ⟨.waiting, (responseBody rdata sw).length, memmove apduBuffer 0 (responseBody rdata sw),
            asynch⟩, trace⟩ with
        io.outputLen := 0, io.state := .ready }) := by
      rw [← htransmit _ rfl]
      rfl
    rw [hsend]
    rfl

/-- The common end of errors and rejections: the order in which they answer and open the menu does
not matter. -/
theorem globals_cancel :
    (uiMenuMain (ioSendSw sw (explicitBzeroContext w)).2).globals =
      w.globals.cancel.reply none sw := by
  rw [uiMenuMain_eq, globals_uxFlowInit, ioSendSw_eq, globals_ioSendResponse,
    globals_explicitBzeroContext]
  rfl

/-- A response is lost when the app has answered already. -/
@[simp] theorem fst_ioSendResponse :
    (ioSendResponse rdata sw w).1 = if w.io.state = .ready then -1 else 0 := by
  unfold ioSendResponse
  cases hstate : w.io.state <;> simp [hstate]

theorem fst_ioSendResponse_nonpos : (ioSendResponse rdata sw w).1 ≤ 0 := by
  rw [fst_ioSendResponse]
  split_ifs <;> decide

theorem fst_ioSendResponse_neg_iff : (ioSendResponse rdata sw w).1 < 0 ↔ w.io.state = .ready := by
  rw [fst_ioSendResponse]
  split_ifs with h <;> simp [h]

theorem globals_ioDeliver (apdu : Bytes) :
    (ioDeliver apdu w).globals = w.globals.receive apdu := by
  rw [ioDeliver, World.globals_emit]
  rfl

theorem globals_ioTransmit (n : ℕ) : (ioTransmit n w).globals =
    { w.globals with
      log := if n = 0 then w.log else .sent (w.io.apduBuffer.take n) :: w.log } := by
  unfold ioTransmit
  split_ifs with hn
  · rfl
  · rw [World.globals_emit]
    rfl

theorem globals_ioRecvCommand {w' : World} (h : ioRecvCommand w = some w') :
    w'.globals = w.globals.mainLoop := by
  unfold ioRecvCommand at h
  unfold Globals.mainLoop
  cases hstate : w.io.state with
  | ready =>
    rw [hstate] at h
    have hstate' : w.globals.io.state = .ready := hstate
    rw [← Option.some.inj h, globals_ioTransmit, hstate']
    rfl
  | received =>
    rw [hstate] at h
    have hstate' : w.globals.io.state = .received := hstate
    rw [← Option.some.inj h, hstate']
    rfl
  | waiting =>
    rw [hstate] at h
    cases h

theorem globals_appMain : (appMain w).globals = w.globals.restart := by
  unfold appMain
  dsimp only
  cases hrecv : ioRecvCommand _ with
  | none => cases hrecv
  | some w' => exact (globals_ioRecvCommand _ hrecv).trans rfl

theorem globals_mainLoop : (mainLoop w).globals = w.globals.mainLoop := by
  unfold mainLoop
  cases hrecv : ioRecvCommand w with
  | none =>
    have hstate : w.globals.io.state = .waiting := by
      change w.io.state = .waiting
      unfold ioRecvCommand at hrecv
      cases hstate : w.io.state with
      | waiting => rfl
      | _ => simp [hstate] at hrecv
    rw [Globals.mainLoop, hstate]
    exact globals_appMain w
  | some w' => exact globals_ioRecvCommand w hrecv

end Basic

end HathorLedger
