import HathorLedger.Run.Deliveries
import HathorLedger.Run.Emissions

/-!
# Serving a command

A host that waits for the answer of every command sees exchanges: it sends a command, the user
presses some buttons, and one response goes out. What was hashed for the transaction and the path
cells of the context are followed from one exchange to the next.

## Main definitions

* `Serves`: an exchange.
* `Live`, `Fed`: a transaction is set up, and what was hashed for it.

## Main results

* `Serves.reachable`, `Serves.not_waiting`: after an exchange the next command may follow.
* `Serves.fed_first`, `Serves.fed_next`: what the chunks of a transaction have done that is set up
  afterwards.
-/

namespace HathorLedger

open EStateM (wp_of_run_ok wp_of_run_error)

variable (sdk : Sdk)

/-- The app serves a command: the user presses buttons, and one answer goes out, the data and the
status word. -/
structure Serves (w : World) (apdu : Bytes) (answer : ℕ × Bytes) (w' : World) : Prop where
  presses : ∃ buttons : List Button,
    w' = run sdk (step sdk w (.apdu apdu)) (buttons.map .press)
  answered : responses w'.trace = (answer.2 ++ beBytes 2 answer.1) :: responses w.trace
  sw_lt : answer.1 < 2 ^ 16

variable {sdk} {g g' : Globals} {w w' : World} {apdu : Bytes} {answer : ℕ × Bytes} {button : Button}

/-! ### Responses to presses -/

/-- A press on a screen that asks for nothing is no answer. -/
theorem pressStep_of_closed (hclosed : g.ui.flow.hasApprove = false) (h : PressStep sdk g button g') :
    responses g'.log = responses g.log ∧ (g.io.state ≠ .waiting → g'.io.state ≠ .waiting) := by
  cases h with
  | inactive => exact ⟨rfl, id⟩
  | approveTx hflow | approveOutput hflow | approveXpub hflow | approveToken hflow
  | approveAddress hflow | approveReset hflow | rejectReset hflow =>
    rw [hflow] at hclosed
    cases hclosed
  | reject hflow => cases (hasApprove_of_hasReject hflow).symm.trans hclosed
  | exitToMenu => exact ⟨rfl, id⟩
  | quit => exact ⟨rfl, fun _ => nofun⟩
  | about | back => exact ⟨rfl, id⟩

/-- The app is ready for the next command, and has sent these responses. -/
def Quiet (sent : List Bytes) (g : Globals) : Prop :=
  g.io.state ≠ .waiting ∧ responses g.log = sent

/-- A command came in when the responses `sent` had gone out: the app waits for the user, or it is
ready again and has started anew or answered. -/
inductive InExchange (sent : List Bytes) (g : Globals) : Prop
  | waiting (hio : g.io.state = .waiting) (h : responses g.log = sent)
  | restarted (h : Quiet sent g)
  | answered (response : Bytes) (h : Quiet (response :: sent) g)

theorem Quiet.pressStep {sent : List Bytes} (hq : Quiet sent g)
    (hclosed : g.ui.flow.hasApprove = false) (h : PressStep sdk g button g') : Quiet sent g' := by
  obtain ⟨hresponses, hio⟩ := pressStep_of_closed hclosed h
  exact ⟨hio hq.1, hresponses.trans hq.2⟩

theorem InExchange.pressStep {sent : List Bytes} (ha : Attended g) (he : InExchange sent g)
    (h : PressStep sdk g button g') : InExchange sent g' := by
  cases he with
  | waiting hio hsent =>
    have houtcome := outcome_of_pressStep (ha.hasApprove_iff.2 hio) h
    generalize hends : false = ends at houtcome
    cases houtcome with
    | answered g₁ hsame _ rdata sw =>
      refine .answered (responseBody rdata sw) ⟨nofun, ?_⟩
      rw [responses_reply, hsame.io_eq, if_pos hio, hsame.responses_eq, hsent]
      rfl
    | asked _ hsame => exact .waiting (hsame.io_eq ▸ hio) (hsame.responses_eq.trans hsent)
    | ended => cases hends
  | restarted hq => exact .restarted (hq.pressStep (ha.closed hq.1) h)
  | answered response hq => exact .answered response (hq.pressStep (ha.closed hq.1) h)

theorem inExchange_commandStep (hl : Listening g) {ends : Bool}
    (h : CommandStep sdk g apdu ends g') : InExchange (responses g.log) (g'.resume ends) := by
  have hio := hl.received apdu
  have houtcome := outcome_of_commandStep hio h
  cases houtcome with
  | answered g₁ hsame _ rdata sw =>
    refine .answered (responseBody rdata sw) ⟨nofun, ?_⟩
    exact (responses_mainLoop_reply rdata sw g₁).trans (congrArg _ hsame.responses_eq)
  | asked _ hsame =>
    rw [Globals.resume, if_neg Bool.false_ne_true, hsame.mainLoop hio]
    exact .waiting rfl hsame.responses_eq
  | ended _ hresponses => exact .restarted ⟨nofun, hresponses⟩

/-! ### Exchanges -/

/-- What holds after the command and is kept by every press holds after the exchange. -/
theorem Serves.induct {P : World → Prop} (hw : Reachable Booted (step sdk) Sequential w)
    (hidle : w.io.state ≠ .waiting) (h : Serves sdk w apdu answer w')
    (hcommand : P (step sdk w (.apdu apdu)))
    (hpress : ∀ v button, Reachable Booted (step sdk) Sequential v → P v →
      P (step sdk v (.press button))) :
    Reachable Booted (step sdk) Sequential w' ∧ P w' := by
  obtain ⟨⟨buttons, rfl⟩, -, -⟩ := h
  have hnext := hw.next (.apdu apdu) fun _ _ => hidle
  generalize step sdk w (.apdu apdu) = v at hnext hcommand
  induction buttons generalizing v with
  | nil => exact ⟨hnext, hcommand⟩
  | cons button buttons ih =>
    exact ih _ (hnext.next _ (sequential_press button)) (hpress v button hnext hcommand)

theorem Serves.reachable (hw : Reachable Booted (step sdk) Sequential w)
    (hidle : w.io.state ≠ .waiting) (h : Serves sdk w apdu answer w') :
    Reachable Booted (step sdk) Sequential w' :=
  (h.induct (P := fun _ => True) hw hidle trivial fun _ _ _ _ => trivial).1

/-- The press of a button as a change of the globals. -/
theorem pressStep_of_reachable (hw : Reachable Booted (step sdk) Sequential w) (button : Button) :
    PressStep sdk w.globals button (step sdk w (.press button)).globals := by
  have hstep := @globalsStep sdk w (sound_of_reachable hw).ready (.press button)
  generalize (step sdk w (.press button)).globals = g' at hstep ⊢
  cases hstep with
  | press _ _ h => exact h

/-- After an exchange the next command may follow. -/
theorem Serves.not_waiting (hw : Reachable Booted (step sdk) Sequential w)
    (hidle : w.io.state ≠ .waiting) (h : Serves sdk w apdu answer w') : w'.io.state ≠ .waiting := by
  have hattended := attended_of_reachable (fun _ _ => id) hw
  obtain ⟨ends, g', hcommand, hglobals⟩ : ∃ ends g', CommandStep sdk w.globals apdu ends g' ∧
      (step sdk w (.apdu apdu)).globals = g'.resume ends :=
    commandStep_runCommand (sound_of_reachable hw).ready
  obtain ⟨-, hexchange⟩ := h.induct (P := fun v => InExchange (responses w.globals.log) v.globals)
    hw hidle (hglobals ▸ inExchange_commandStep hattended.listening hcommand)
    fun _ button hv he => he.pressStep (attended_of_reachable (fun _ _ => id) hv)
      (pressStep_of_reachable hv button)
  have hanswered := h.answered
  rw [← World.responses_log, ← World.responses_log] at hanswered
  cases hexchange with
  | waiting _ hsent => exact absurd (hsent.symm.trans hanswered) (by simp [World.globals])
  | restarted hq => exact hq.1
  | answered _ hq => exact hq.1

/-- The log only grows. -/
theorem log_suffix_step (hw : Reachable Booted (step sdk) Sequential w) (i : Input) :
    w.log <:+ (step sdk w i).log :=
  (emits_of_globalsStep (@globalsStep sdk w (sound_of_reachable hw).ready i)).suffix

theorem Serves.log_suffix (hw : Reachable Booted (step sdk) Sequential w)
    (hidle : w.io.state ≠ .waiting) (h : Serves sdk w apdu answer w') : w.log <:+ w'.log :=
  (h.induct (P := fun v => w.log <:+ v.log) hw hidle (log_suffix_step hw _)
    fun _ _ hv hsuffix => hsuffix.trans (log_suffix_step hv _)).2

/-- An app that is ready again after the command has answered, or started anew. -/
theorem Serves.responses_eq (hw : Reachable Booted (step sdk) Sequential w)
    (hidle : w.io.state ≠ .waiting) (h : Serves sdk w apdu answer w')
    (hready : (step sdk w (.apdu apdu)).io.state ≠ .waiting) :
    responses (step sdk w (.apdu apdu)).trace =
      (answer.2 ++ beBytes 2 answer.1) :: responses w.trace := by
  obtain ⟨-, -, hquiet⟩ := h.induct
    (P := fun v => Quiet (responses (step sdk w (.apdu apdu)).globals.log) v.globals) hw hidle
    ⟨hready, rfl⟩ fun v button hv hq =>
      hq.pressStep ((attended_of_reachable (fun _ _ => id) hv).closed hq.1)
        (pressStep_of_reachable hv button)
  rw [← h.answered, ← World.responses_log, ← World.responses_log]
  exact hquiet.symm

/-! ### Status words -/

theorem Sw.ok_lt : Sw.ok < 2 ^ 16 := by decide

/-- Two responses that are equal have the same data and status word. -/
theorem eq_of_response_eq {a b : Bytes} {x y : ℕ} (hx : x < 2 ^ 16) (hy : y < 2 ^ 16)
    (h : a ++ beBytes 2 x = b ++ beBytes 2 y) : a = b ∧ x = y := by
  obtain ⟨hdata, hsw⟩ := List.append_inj' h (by simp)
  have hvalue := congrArg beValue hsw
  rw [beValue_beBytes, beValue_beBytes] at hvalue
  exact ⟨hdata, by omega⟩

/-- A response with the status word `SW_OK` carries the data. -/
theorem data_of_responseBody {rdata : Option Bytes} {data : Bytes}
    (h : responseBody rdata Sw.ok = data ++ beBytes 2 Sw.ok) : rdata.getD [] = data := by
  have hlen : Sw.wrongResponseLength < 2 ^ 16 := by decide
  unfold responseBody at h
  split_ifs at h
  · obtain ⟨-, hsw⟩ := eq_of_response_eq (a := []) hlen Sw.ok_lt h
    exact absurd hsw (by decide)
  · exact (eq_of_response_eq Sw.ok_lt Sw.ok_lt h).1

/-- An error is no answer with the status word `SW_OK`. -/
theorem error_ne_ok {sw : ℕ} (h : sw ∈ Sw.errors) {data : Bytes} {earlier earlier' : List Bytes} :
    responseBody none sw :: earlier ≠ (data ++ beBytes 2 Sw.ok) :: earlier' := by
  have hlt : sw < 2 ^ 16 := by
    have hall : ∀ sw ∈ Sw.errors, sw < 2 ^ 16 := by decide
    exact hall sw h
  intro heq
  obtain ⟨-, rfl⟩ := eq_of_response_eq (a := []) hlt Sw.ok_lt (List.cons.inj heq).1
  exact absurd h (by decide)

/-! ### What was hashed -/

/-- A transaction is set up, or one of its screens is open. -/
def Globals.Live (g : Globals) : Prop :=
  g.ctx.state ≠ .none ∨ g.ui.flow = .confirmTx ∨ g.ui.flow = .txOutput

/-- A transaction was begun after the log `base` and its first chunk was read; `bytes` were hashed
and the digest was taken `n` times. The path in the context has its five cells. -/
structure Fed (base : List Event) (bytes : Bytes) (n : ℕ) (g : Globals) : Prop where
  began : ∃ events, g.log = events ++ base ∧ .txInit ∈ events
  hashed : g.history.hashed = bytes
  read : g.history.firstChunkRead = true
  finishes : g.history.finishes = n
  cells : g.ctx.bip32Path.path.length = maxBip32Path

/-- After the log `base`, approve was pressed on "Send Transaction?" when `bytes` had been hashed. -/
def ApprovedSince (base : List Event) (bytes : Bytes) (log : List Event) : Prop :=
  ∃ rest, .pressed .approve .confirmTx :: rest <:+ log ∧ base <:+ rest ∧
    (history rest).hashed = bytes

/-- The events that set up a transaction, feed its hash or take its digest. -/
def Event.feeds : Event → Bool
  | .wiped | .txInit | .hashed _ | .firstChunkRead | .hashFinished => true
  | _ => false

variable {base : List Event} {bytes : Bytes} {n : ℕ}

theorem feed_record {e : Event} (he : e.feeds = false) (k : History) :
    (k.record e).hashed = k.hashed ∧ (k.record e).firstChunkRead = k.firstChunkRead ∧
      (k.record e).finishes = k.finishes := by
  cases e with
  | wiped | txInit | hashed | firstChunkRead | hashFinished => cases he
  | pressed button => cases button <;> exact ⟨rfl, rfl, rfl⟩
  | shown screen => cases screen <;> exact ⟨rfl, rfl, rfl⟩
  | _ => exact ⟨rfl, rfl, rfl⟩

/-- Other events change nothing. -/
theorem Fed.append (hf : Fed base bytes n g) (events : List Event) (hlog : g'.log = events ++ g.log)
    (hfeeds : ∀ e ∈ events, e.feeds = false)
    (hcells : g'.ctx.bip32Path.path.length = g.ctx.bip32Path.path.length) : Fed base bytes n g' := by
  have hhistory : (history (events ++ g.log)).hashed = (history g.log).hashed ∧
      (history (events ++ g.log)).firstChunkRead = (history g.log).firstChunkRead ∧
      (history (events ++ g.log)).finishes = (history g.log).finishes := by
    clear hlog
    induction events with
    | nil => exact ⟨rfl, rfl, rfl⟩
    | cons e events ih =>
      obtain ⟨he, hfeeds'⟩ := List.forall_mem_cons.1 hfeeds
      obtain ⟨h₁, h₂, h₃⟩ := ih hfeeds'
      obtain ⟨h₁', h₂', h₃'⟩ := feed_record he (history (events ++ g.log))
      exact ⟨h₁'.trans h₁, h₂'.trans h₂, h₃'.trans h₃⟩
  obtain ⟨earlier, hbase, hinit⟩ := hf.began
  rw [← hlog] at hhistory
  exact ⟨⟨events ++ earlier, by rw [hlog, hbase, List.append_assoc],
    List.mem_append_right _ hinit⟩, hhistory.1.trans hf.hashed, hhistory.2.1.trans hf.read,
    hhistory.2.2.trans hf.finishes, hcells.trans hf.cells⟩

/-- What was approved in a transaction that was begun after `base` was approved after `base`. -/
theorem approvedSince_of_sendApproved {events : List Event} (hinit : .txInit ∈ events)
    (h : (history (events ++ base)).sendApproved = some bytes) :
    ApprovedSince base bytes (events ++ base) := by
  induction events with
  | nil => cases hinit
  | cons e events ih =>
    have hkeep : e ≠ .txInit →
        (history (e :: (events ++ base))).sendApproved = (history (events ++ base)).sendApproved →
        ApprovedSince base bytes (e :: (events ++ base)) := by
      intro hne hsame
      obtain ⟨rest, hsuffix, hrest⟩ :=
        ih ((List.mem_cons.1 hinit).resolve_left hne.symm) (hsame.symm.trans h)
      exact ⟨rest, hsuffix.trans (List.suffix_cons _ _), hrest⟩
    cases e with
    | wiped | txInit => cases h
    | pressed button screen =>
      cases button with
      | approve =>
        by_cases hscreen : screen = .confirmTx
        · subst hscreen
          exact ⟨_, List.suffix_rfl, List.suffix_append _ _, Option.some.inj h⟩
        · exact hkeep nofun (if_neg hscreen)
      | _ => exact hkeep nofun rfl
    | shown screen => cases screen <;> exact hkeep nofun rfl
    | _ => exact hkeep nofun rfl

theorem Fed.reply (hf : Fed base bytes n g) (rdata : Option Bytes) (sw : ℕ) :
    Fed base bytes n (g.reply rdata sw) := by
  refine hf.append _ (g.log_reply rdata sw) (fun e he => ?_) rfl
  split_ifs at he
  · obtain rfl := List.mem_singleton.1 he
    rfl
  · cases he

theorem Fed.press (hf : Fed base bytes n g) (button : Button) : Fed base bytes n (g.press button) :=
  hf.append [.pressed button g.ui.shown] rfl (by simp [Event.feeds]) rfl

theorem Fed.openFlow (hf : Fed base bytes n g) {flow : Flow} (h : flow.hasApprove = false) :
    Fed base bytes n (g.openFlow flow) :=
  hf.append [] (g.log_openFlow h) (by simp) rfl

theorem Fed.mainLoop (hf : Fed base bytes n g) (hio : g.io.state ≠ .waiting) :
    Fed base bytes n g.mainLoop := by
  unfold Globals.mainLoop
  split
  · split_ifs
    · exact hf.append [] rfl (by simp) rfl
    · exact hf.append [.sent _] rfl (by simp [Event.feeds]) rfl
  · exact hf.append [] rfl (by simp) rfl
  · exact absurd ‹_› hio

theorem not_live_cancel (g : Globals) : ¬g.cancel.Live := by
  rintro (h | h | h)
  · exact h rfl
  · cases h
  · cases h

theorem not_live_restart (g : Globals) : ¬g.restart.Live := by
  rintro (h | h | h)
  · exact h rfl
  · cases h
  · cases h

/-- The review goes on with the same transaction, or it is over. -/
theorem fed_displayed {d c m : ℕ} (hf : Fed base bytes n g)
    (h : Displayed sdk ((g.readChanges m).review d c) g') (hlive : g'.Live) : Fed base bytes n g' := by
  have hreview : Fed base bytes n ((g.readChanges m).review d c) := by
    refine hf.append (List.replicate m (.changesRead g.ctx.txInfo.changeLen)) rfl (fun e he => ?_) rfl
    rw [(List.mem_replicate.1 he).2]
    rfl
  generalize (g.readChanges m).review d c = g₁ at h hreview
  cases h with
  | asked hasked =>
    cases hasked with
    | send => exact hreview.append [.shown .confirmTx] rfl (by simp [Event.feeds]) rfl
    | refused => exact absurd hlive (not_live_cancel g₁)
    | more =>
      have hmenu : Fed base bytes n { g₁ with
          ctx.txInfo.displayIndex := 0, ctx.txInfo.bufferOutputLen := 0, ui.flow := .menuMain } :=
        hreview.append [] rfl (by simp) rfl
      exact hmenu.reply none Sw.ok
  | output =>
    refine hreview.append (.shown _ :: Globals.tokenReads _) rfl (fun e he => ?_) rfl
    rcases List.mem_cons.1 he with rfl | he
    · rfl
    · unfold Globals.tokenReads at he
      split_ifs at he
      · cases he
      · obtain rfl := List.mem_singleton.1 he
        rfl

/-- In a menu it is the context that tells whether a transaction is set up. -/
theorem Globals.Live.state_ne (h : g.Live) (hflow : g.ui.flow = .menuMain ∨ g.ui.flow = .menuAbout) :
    g.ctx.state ≠ .none := by
  rcases h with h | h | h
  · exact h
  · rcases hflow with hflow | hflow <;> cases hflow.symm.trans h
  · rcases hflow with hflow | hflow <;> cases hflow.symm.trans h

/-- Presses keep what was hashed, as long as the transaction is set up. -/
theorem fed_pressStep (h : PressStep sdk g button g') (hf : g.Live → Fed base bytes n g)
    (hlive : g'.Live) : Fed base bytes n g' := by
  cases h with
  | inactive => exact (hf hlive).press button
  | approveTx hflow =>
    have hfed := (hf (.inr (.inl hflow))).press .approve
    have hstate : Fed base bytes n { g.press .approve with ctx.state := .approved } :=
      hfed.append [] rfl (by simp) rfl
    exact (hstate.reply none Sw.ok).openFlow rfl
  | approveOutput hflow m d c _ hdisplayed =>
    exact fed_displayed ((hf (.inr (.inr hflow))).press .approve) hdisplayed hlive
  | approveXpub =>
    have hfed := (hf (.inl (hlive.state_ne (.inl rfl)))).press .approve
    have hsent : Fed base bytes n { g.press .approve with
        log := .xpubSent g.ctx.pkInfo :: (g.press .approve).log } :=
      hfed.append [_] rfl (by simp [Event.feeds]) rfl
    exact (hsent.reply _ Sw.ok).openFlow rfl
  | approveToken _ secret =>
    have hstate := hlive.state_ne (.inl rfl)
    change ((g.press .approve).readSecret sdk).ctx.state ≠ .none at hstate
    rw [Globals.ctx_readSecret] at hstate
    have hfed := (hf (.inl hstate)).press .approve
    have hsigned : Fed base bytes n { (g.press .approve).readSecret sdk with
        log := .tokenSigned secret g.ctx.token :: (g.press .approve).log } :=
      hfed.append [_] rfl (by simp [Event.feeds]) (by rw [Globals.ctx_readSecret])
    exact (hsigned.reply _ Sw.ok).openFlow rfl
  | approveAddress =>
    have hfed := (hf (.inl (hlive.state_ne (.inl rfl)))).press .approve
    exact (hfed.reply none Sw.ok).openFlow rfl
  | approveReset =>
    have hfed := (hf (.inl (hlive.state_ne (.inl rfl)))).press .approve
    have hreset : Fed base bytes n ((g.press .approve).generateSecret sdk) :=
      hfed.append [] rfl (by simp) rfl
    exact (hreset.reply none Sw.ok).openFlow rfl
  | reject => exact absurd hlive (not_live_cancel _)
  | rejectReset =>
    have hfed := (hf (.inl (hlive.state_ne (.inl rfl)))).press .reject
    exact (hfed.reply none Sw.deny).openFlow rfl
  | exitToMenu => exact absurd hlive (not_live_cancel _)
  | quit => exact absurd hlive (not_live_restart _)
  | about => exact ((hf (.inl (hlive.state_ne (.inr rfl)))).press .about).openFlow rfl
  | back => exact ((hf (.inl (hlive.state_ne (.inl rfl)))).press .back).openFlow rfl

/-- What was hashed behind the command is still what was hashed after the exchange. -/
theorem Serves.fed (hw : Reachable Booted (step sdk) Sequential w) (hidle : w.io.state ≠ .waiting)
    (h : Serves sdk w apdu answer w')
    (hf : (step sdk w (.apdu apdu)).globals.Live → Fed base bytes n (step sdk w (.apdu apdu)).globals) :
    w'.globals.Live → Fed base bytes n w'.globals :=
  (h.induct (P := fun v => v.globals.Live → Fed base bytes n v.globals) hw hidle hf
    fun _ button hv hf' => fed_pressStep (pressStep_of_reachable hv button) hf').2

/-- A transaction that is set up after the exchange was set up behind the command. -/
theorem Serves.live (hw : Reachable Booted (step sdk) Sequential w) (hidle : w.io.state ≠ .waiting)
    (h : Serves sdk w apdu answer w') (hlive : w'.globals.Live) :
    (step sdk w (.apdu apdu)).globals.Live := by
  by_contra hdead
  -- otherwise anything could be said of what was hashed
  have hfed : ∀ n, Fed [] [] n w'.globals := fun n =>
    h.fed hw hidle (fun hlive₁ => absurd hlive₁ hdead) hlive
  cases (hfed 0).finishes.symm.trans (hfed 1).finishes

/-! ### Chunks -/

/-- The loop changes nothing of the transaction. -/
theorem fed_mainLoop (hf : g.Live → Fed base bytes n g) (hio : g.io.state ≠ .waiting)
    (hlive : g.mainLoop.Live) : Fed base bytes n g.mainLoop := by
  have hsame : g.mainLoop.ctx = g.ctx ∧ g.mainLoop.ui = g.ui := by
    unfold Globals.mainLoop
    split
    · exact ⟨rfl, rfl⟩
    · exact ⟨rfl, rfl⟩
    · exact absurd ‹_› hio
  rw [Globals.Live, hsame.1, hsame.2] at hlive
  exact (hf hlive).mainLoop hio

theorem Fed.decode (hf : Fed base bytes n g) : Fed base bytes n (g.decode sdk) := by
  refine hf.append (decodeEvents g.ctx.txInfo (g.decode sdk).ctx.txInfo) rfl (fun e he => ?_) rfl
  rcases mem_decodeEvents he with rfl | rfl | ⟨_, -, rfl⟩ <;> rfl

theorem io_displayed (h : Displayed sdk g g') : g'.io.state = g.io.state ∨ g'.io.state = .ready := by
  cases h with
  | asked hasked =>
    cases hasked with
    | send => exact .inl rfl
    | refused | more => exact .inr rfl
  | output => exact .inl rfl

/-- What follows the decoder keeps what was hashed. -/
theorem fed_decoded (hf : Fed base bytes n g) (hio : g.io.state = .received) {ends : Bool}
    (h : Decoded sdk g ends g') (hlive : (g'.resume ends).Live) : Fed base bytes n (g'.resume ends) := by
  cases h with
  | invalid => exact absurd hlive (not_live_cancel _)
  | failed => exact absurd hlive (not_live_restart _)
  | silent => exact fed_mainLoop (fun _ => hf.decode.reply none Sw.ok) nofun hlive
  | displayed _ _ m d c _ hdisplayed =>
    refine fed_mainLoop (fed_displayed hf.decode hdisplayed) ?_ hlive
    rcases io_displayed hdisplayed with h | h
    · rw [h]
      change g.io.state ≠ .waiting
      rw [hio]
      nofun
    · rw [h]
      nofun

section Chunks

variable {data : Bytes}

/-- Reading the header leaves the hash alone. -/
theorem wp_readTxData_sha256 {cdata : Buffer} {t : TxInfo} :
    (readTxData cdata).wp (fun _ t' => t'.sha256 = t.sha256) (fun _ t' => t'.sha256 = t.sha256)
      t := by
  simp [readTxData]

/-- What is behind the change information is hashed. -/
theorem sha256_announced (hlen : data.length ≤ 255) {cdata : Buffer} {t : TxInfo}
    (hchanges : (readChangeInfo (.ofBytes data)).run { sha256 := .fed [] } = .ok cdata t) :
    (announced data).sha256 = .fed cdata.rest := by
  have hwf : (Buffer.ofBytes data).Wf := Buffer.wf_ofBytes (by rw [sizeMod]; omega)
  obtain ⟨-, changeLen, changeInfo, rfl⟩ := (wp_of_run_ok hchanges).1 (wp_readChangeInfo hwf)
  have hread := readFirstChunk_of_changes_ok hchanges
  cases hrun : (readTxData cdata).run
      { sha256 := Sha256Ctx.update (.fed []) cdata.rest, changeLen, changeInfo } with
  | ok cdata' t' =>
    rw [announced_of_ok (hread.trans hrun)]
    exact (wp_of_run_ok hrun).1 wp_readTxData_sha256
  | error sw t' =>
    rw [announced_of_error (hread.trans hrun)]
    exact (wp_of_run_error hrun).1 wp_readTxData_sha256

/-- A first chunk with the answer `SW_OK` starts a transaction: its change information was read, and
what is behind it was hashed. -/
theorem Serves.fed_first (hw : Reachable Booted (step sdk) Sequential w)
    (hidle : w.io.state ≠ .waiting) (hne : data ≠ []) (hlen : data.length ≤ 255)
    (hok : answer.1 = Sw.ok) (h : Serves sdk w (dataChunk 0 data) answer w')
    (hlive : w'.globals.Live) :
    ∃ cdata t, (readChangeInfo (.ofBytes data)).run { sha256 := .fed [] } = .ok cdata t ∧
      Fed w.log cdata.rest 0 w'.globals := by
  have hlive₁ := h.live hw hidle hlive
  have hattended := attended_of_reachable (fun _ _ => id) hw
  have hio := hattended.listening.received (dataChunk 0 data)
  obtain ⟨ends, g', hstage, hglobals⟩ := exists_stageStep (sound_of_reachable hw) 0 hne hlen
  rw [hglobals] at hlive₁
  cases hstage with
  | cancelled =>
    rw [hio] at hlive₁
    exact absurd hlive₁ (not_live_cancel _)
  | refused h | misread h | signing h => cases h
  | wiped =>
    have hclosed := hattended.closed hidle
    rcases hlive₁ with h | h | h
    · exact absurd rfl h
    · rw [show w.globals.ui.flow = _ from h] at hclosed
      cases hclosed
    · rw [show w.globals.ui.flow = _ from h] at hclosed
      cases hclosed
  | failed _ _ _ _ g₁ sw hfailed =>
    obtain ⟨herror, -, -⟩ := hfailed.leaves
    have hstepped : (step sdk w (.apdu (dataChunk 0 data))).io.state = .received :=
      congrArg (fun g => g.io.state) hglobals
    have hresponses := h.responses_eq hw hidle (by rw [hstepped]; nofun)
    rw [← World.responses_log, ← World.responses_log] at hresponses
    change responses (step sdk w (.apdu (dataChunk 0 data))).globals.log = _ at hresponses
    rw [hglobals, hok] at hresponses
    exact absurd ((responses_mainLoop_reply none sw g₁).symm.trans hresponses)
      (error_ne_ok herror)
  | received _ _ _ g₁ _ _ hq hd =>
    cases hq with
    | next hchunk => exact absurd rfl hchunk
    | first h' skipped rest changeLen changeInfo _ hdata cdata hchanges hread =>
      have hhash : h'.bytes ++ rest = cdata.rest := by
        have hsha256 := sha256_announced hlen hchanges
        rw [hread] at hsha256
        exact Sha256Ctx.fed.inj hsha256
      refine ⟨cdata, _, hchanges, h.fed hw hidle (fun hlive => ?_) hlive⟩
      rw [hglobals] at hlive ⊢
      refine fed_decoded ?_ ?_ hd hlive
      · exact ⟨⟨[_, _, _, _, _], rfl, .tail _ (.tail _ (.head _))⟩, hhash, rfl, rfl, rfl⟩
      · exact hio

/-- A later chunk goes on with a transaction: it was hashed behind the earlier ones. -/
theorem Serves.fed_next (hw : Reachable Booted (step sdk) Sequential w)
    (hidle : w.io.state ≠ .waiting) {number : UInt8} (hnumber : number ≠ 0) (hne : data ≠ [])
    (hlen : data.length ≤ 255) (h : Serves sdk w (dataChunk number data) answer w')
    (hlive : w'.globals.Live) :
    w.globals.Live ∧ (Fed base bytes n w.globals → Fed base (bytes ++ data) n w'.globals) := by
  have hlive₁ := h.live hw hidle hlive
  have hattended := attended_of_reachable (fun _ _ => id) hw
  have hio := hattended.listening.received (dataChunk number data)
  have hchunk : number.toNat ≠ 0 := fun h => hnumber (UInt8.toNat_inj.1 h)
  obtain ⟨ends, g', hstage, hglobals⟩ := exists_stageStep (sound_of_reachable hw) number hne hlen
  rw [hglobals] at hlive₁
  cases hstage with
  | cancelled =>
    rw [hio] at hlive₁
    exact absurd hlive₁ (not_live_cancel _)
  | refused h | misread h | signing h => cases h
  | wiped _ h | failed _ h => exact absurd h hchunk
  | received _ _ _ g₁ _ _ hq hd =>
    cases hq with
    | first _ _ _ _ _ h => exact absurd h hchunk
    | next _ hstate =>
      refine ⟨.inl (by rw [show w.globals.ctx.state = _ from hstate]; nofun), fun hfed => ?_⟩
      refine h.fed hw hidle (fun hlive => ?_) hlive
      rw [hglobals] at hlive ⊢
      refine fed_decoded ?_ ?_ hd hlive
      · obtain ⟨events, hlog, hinit⟩ := hfed.began
        exact ⟨⟨.hashed data :: .received _ :: events, congrArg (_ :: _ :: ·) hlog,
          .tail _ (.tail _ hinit)⟩, congrArg (· ++ data) hfed.hashed, hfed.read, hfed.finishes,
          hfed.cells⟩
      · exact hio

end Chunks

end HathorLedger
