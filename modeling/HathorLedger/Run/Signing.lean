import HathorLedger.Handler.Chunks
import HathorLedger.Run.Exchange

/-!
# Hashing, approving and signing

What the session invariant says about the transaction hash and about signatures. The hash is fed
with exactly the bytes that are parsed. A signature is made only after the user has approved what is
hashed, and once a session has ended the sign stage is refused until the next approval. The digest
of a signature is that of the transaction, except where the first byte of the digest is zero and the
sign stage comes again.

## Main definitions

* `Approves`, `Cancels`: the press that approves a transaction, and the inputs that end a session.
* `SignsOwn`: a signature over the digest of what was hashed.

## Main results

* `hashesParsed_of_reachable`: what is hashed is what is parsed.
* `signing_gate`: no signature without approval, and none after the end of a session.
* `signsOwn_of_reachable`: signatures are over the digest of the transaction.
-/

namespace HathorLedger

variable {sdk : Sdk} {guard : World → Input → Prop} {g g' : Globals} {w : World}

/-! ### What is hashed -/

/-- The transaction hash was fed with the header, the elements read so far and the bytes that wait
to be parsed, and with nothing else. -/
def HashesParsed (sdk : Sdk) (w : World) : Prop :=
  ∃ h e, Held sdk h e w.ctx.txInfo ∧
    w.ctx.txInfo.txVersion = beValue [h.versionHigh, h.versionLow] ∧
    w.history.hashed = h.bytes ++ e.bytes ++ w.ctx.txInfo.pending ∧
    (w.history.hashFinished = false → w.ctx.txInfo.sha256 = .fed w.history.hashed)

/-- What is hashed is what is parsed, in every session whose first chunk could be read. -/
theorem hashesParsed_of_reachable (hw : Reachable Booted (step sdk) guard w)
    (hread : w.history.firstChunkRead = true) : HashesParsed sdk w := by
  have hs := sound_of_reachable hw
  unfold HashesParsed
  rw [World.history_eq] at hread ⊢
  obtain ⟨h, e, hsession, -⟩ := hs.session (hs.request (.inr (.inr hread)))
  obtain ⟨hversion, hhashed, -⟩ := hsession.read hread
  exact ⟨h, e, hsession.held, hversion, hhashed, fun hfin =>
    (hsession.digest.unfinished hfin).1⟩

/-- The app after its start with some secret. -/
def sampleBoot : World := World.boot (List.replicate secretLen 7)

theorem booted_sampleBoot : Booted sampleBoot := ⟨_, List.length_replicate, rfl⟩

/-- A first chunk that ends inside an output. -/
def sampleFirstChunk : List Input :=
  [.command Ins.signTx 0 0 (0 :: sampleHeader.bytes ++ sampleOutput.bytes.take 10)]

theorem hashesParsed_sampleFirstChunk :
    HashesParsed Sdk.sample (run Sdk.sample sampleBoot sampleFirstChunk) :=
  hashesParsed_of_reachable
    ((Reachable.start booted_sampleBoot).follow (follows_true _ sampleFirstChunk))
    (by decide +kernel)

/-! ### Approving -/

/-- The user approves on the screen "Send Transaction?". -/
def Approves (w : World) (i : Input) : Prop := i = .press .approve ∧ w.ui.flow = .confirmTx

/-- The commands that start by wiping the context. -/
def Call.wipes : Call → Bool
  | .getAddress _ | .getXpub _ | .signTokenData _ | .verifyTokenSignature _
  | .sendTokenData true _ => true
  | _ => false

variable (sdk) in
/-- The inputs that end a session: a rejection, except that of `RESET_TOKEN_SIGNATURES`, which leaves
the context alone, leaving the app or the screen "Processing", the done stage, the data commands, the
other commands that start by wiping the context, and every input that leaves a wiped context behind.
A data command either wipes the context or goes on with a transaction that is not approved. -/
inductive Cancels (w : World) : Input → Prop
  | reject (hflow : w.ui.flow.hasReject = true) (hreset : w.ui.flow ≠ .resetTokenSignatures) :
    Cancels w (.press .reject)
  | quit (hflow : w.ui.flow = .processing ∨ w.ui.flow = .menuMain) : Cancels w (.press .quit)
  | done (apdu data : Bytes) (chunk : ℕ) (hcall : callOf apdu = some (.signTx data 2 chunk)) :
    Cancels w (.apdu apdu)
  | data (apdu data : Bytes) (chunk : ℕ) (hcall : callOf apdu = some (.signTx data 0 chunk)) :
    Cancels w (.apdu apdu)
  | wipes (apdu : Bytes) (call : Call) (hcall : callOf apdu = some call)
    (hwipes : call.wipes = true) : Cancels w (.apdu apdu)
  | wiped (i : Input) (hctx : (step sdk w i).ctx = {}) : Cancels w i

theorem Asked.state (h : Asked g g') : g'.ctx.state = .approved → g.ctx.state = .approved := by
  cases h with
  | send | refused => nofun
  | more => exact id

theorem Displayed.state (h : Displayed sdk g g') :
    g'.ctx.state = .approved → g.ctx.state = .approved := by
  cases h with
  | asked h => exact h.state
  | output => exact id

theorem Queued.state {data : Bytes} {chunk : ℕ} (h : Queued data chunk g g') :
    g'.ctx.state = .recvData := by
  cases h with
  | first => rfl
  | next hchunk hstate => exact hstate

theorem StageStep.state {data : Bytes} {stage chunk : ℕ} {ends : Bool}
    (h : StageStep sdk data stage chunk g ends g') (happroved : g'.ctx.state = .approved) :
    stage = 1 ∧ g.ctx.state = .approved ∨ ends = true := by
  cases h with
  | cancelled => cases happroved
  | refused hstage hstate => exact absurd happroved hstate
  | misread hstage hstate => exact .inl ⟨hstage, hstate⟩
  | signing hstage hstate => exact .inl ⟨hstage, hstate⟩
  | wiped => cases happroved
  | failed hstage hchunk hstate happroved' g₁ sw hfailed =>
    cases hfailed <;> cases happroved
  | received hstage happroved' hfirst g₁ _ _ hqueued hdecoded =>
    have hstate : (g₁.decode sdk).ctx.state = .recvData := hqueued.state
    cases hdecoded with
    | invalid => cases happroved
    | failed => exact .inr rfl
    | silent =>
      rw [Globals.ctx_reply, hstate] at happroved
      cases happroved
    | displayed h hsome n d c _ hdisplayed =>
      have := hdisplayed.state happroved
      rw [show (((g₁.decode sdk).readChanges n).review d c).ctx.state = _ from hstate] at this
      cases this

theorem RegistryStep.ctx {data : Bytes} (h : RegistryStep sdk data g g') : g'.ctx = g.ctx := by
  cases h <;> simp

/-- A command leaves an approved transaction only where there was one. -/
theorem Handled.state {call : Call} {ends : Bool} (h : Handled sdk g call ends g')
    (happroved : g'.ctx.state = .approved) :
    g.ctx.state = .approved ∧ call.wipes = false ∧
      (∀ data stage chunk, call = .signTx data stage chunk → stage = 1) ∨ ends = true := by
  have hrequest : ∀ {flow paths accepted P}, Requested flow paths accepted P g ends g' → False := by
    intro flow paths accepted P h
    cases h with
    | rejected g₁ sw h hidle =>
      rw [Globals.ctx_reply, hidle.state] at happroved
      cases happroved
    | opened _ h hidle =>
      rw [hidle.state] at happroved
      cases happroved
  cases h with
  | getVersion => exact .inl ⟨happroved, rfl, nofun⟩
  | getAddress data _ _ h => exact (hrequest h).elim
  | getXpub data _ _ h => exact (hrequest h).elim
  | signTx data stage chunk _ _ h =>
    rcases h.state happroved with ⟨hstage, hstate⟩ | hends
    · refine .inl ⟨hstate, rfl, fun data' stage' chunk' heq => ?_⟩
      rw [← (Call.signTx.inj heq).2.1, hstage]
    · exact .inr hends
  | signTokenData data _ _ h => exact (hrequest h).elim
  | sendFirst data _ h =>
    rw [h.ctx] at happroved
    cases happroved
  | sendNext data _ h =>
    rw [h.ctx] at happroved
    exact .inl ⟨happroved, rfl, nofun⟩
  | verifyTokenSignature data =>
    have hctx : (g.wipe.verify sdk data).ctx = {} := by
      unfold Globals.verify
      split <;> simp [Globals.wipe]
    rw [hctx] at happroved
    cases happroved
  | resetTokenSignatures => exact .inl ⟨happroved, rfl, nofun⟩

theorem state_resume {ends : Bool} (h : (g.resume ends).ctx.state = .approved) :
    ends = false ∧ g.ctx.state = .approved := by
  cases ends with
  | true => cases h
  | false =>
    refine ⟨rfl, ?_⟩
    change g.mainLoop.ctx.state = _ at h
    unfold Globals.mainLoop at h
    split at h
    · exact h
    · exact h
    · cases h

theorem PressStep.state {button : Button} (h : PressStep sdk g button g')
    (happroved : g'.ctx.state = .approved) :
    button = .approve ∧ g.ui.flow = .confirmTx ∨ g.ctx.state = .approved ∧
      ¬(button = .reject ∧ g.ui.flow.hasReject = true ∧ g.ui.flow ≠ .resetTokenSignatures) ∧
      ¬(button = .quit ∧ (g.ui.flow = .processing ∨ g.ui.flow = .menuMain)) := by
  cases h with
  | inactive button h =>
    refine .inr ⟨happroved, ?_, ?_⟩
    · rintro ⟨rfl, hreject, -⟩
      exact Bool.noConfusion (h.symm.trans hreject)
    · rintro ⟨rfl, hquit⟩
      exact of_decide_eq_false h hquit
  | approveTx hflow => exact .inl ⟨rfl, hflow⟩
  | approveOutput hflow n d c _ hdisplayed =>
    exact .inr ⟨hdisplayed.state happroved, nofun, nofun⟩
  | approveXpub | approveAddress | approveReset => exact .inr ⟨happroved, nofun, nofun⟩
  | approveToken hflow secret =>
    simp only [Globals.ctx_openFlow, Globals.ctx_reply, Globals.ctx_readSecret] at happroved
    exact .inr ⟨happroved, nofun, nofun⟩
  | reject | exitToMenu | quit => cases happroved
  | rejectReset hflow => exact .inr ⟨happroved, fun h => h.2.2 hflow, nofun⟩
  | about | back => exact .inr ⟨happroved, nofun, nofun⟩

/-- Only the approval leads to the approved state, and no input that ends a session stays there. -/
theorem approved_of_step (hready : w.globals.Ready) {i : Input}
    (happroved : (step sdk w i).ctx.state = .approved) :
    Approves w i ∨ w.ctx.state = .approved ∧ ¬Cancels sdk w i := by
  have hstep := @globalsStep sdk w hready i
  have happroved' : (step sdk w i).globals.ctx.state = .approved := happroved
  have hctx : (step sdk w i).ctx ≠ {} := fun h => by rw [h] at happroved; cases happroved
  generalize (step sdk w i).globals = g' at hstep happroved'
  cases hstep with
  | command apdu ends g' h =>
    obtain ⟨hgoes, hstate⟩ := state_resume happroved'
    refine .inr ?_
    have hcancels : ∀ call, callOf apdu = some call → w.ctx.state = .approved ∧
        call.wipes = false ∧ ∀ data stage chunk, call = .signTx data stage chunk → stage = 1 := by
      intro call hcall
      rcases (h.handled_of_callOf hcall).state hstate with hkept | hends
      · exact hkept
      · exact Bool.noConfusion (hgoes.symm.trans hends)
    refine ⟨?_, fun hcancel => ?_⟩
    · cases h with
      | malformed | rejected => exact hstate
      | handled call hcall => exact (hcancels call hcall).1
    · cases hcancel with
      | done _ data chunk hcall => cases (hcancels _ hcall).2.2 _ _ _ rfl
      | data _ data chunk hcall => cases (hcancels _ hcall).2.2 _ _ _ rfl
      | wipes _ call hcall hwipes =>
        exact Bool.noConfusion ((hcancels _ hcall).2.1.symm.trans hwipes)
      | wiped _ hwiped => exact hctx hwiped
  | press button g' h =>
    rcases h.state happroved' with ⟨rfl, hflow⟩ | ⟨hstate, hreject, hquit⟩
    · exact .inl ⟨rfl, hflow⟩
    · refine .inr ⟨hstate, fun hcancel => ?_⟩
      cases hcancel with
      | reject hflow hreset => exact hreject ⟨rfl, hflow, hreset⟩
      | quit hflow => exact hquit ⟨rfl, hflow⟩
      | wiped _ hwiped => exact hctx hwiped
  | ioReset => cases happroved'

/-- After the end of a session there is no approved transaction until the next approval. -/
theorem not_approved_of_cancels {w' : World} {i : Input}
    (hw : Reachable Booted (step sdk) (fun _ _ => True) w) (hcancel : Cancels sdk w i)
    (hw' : Reachable (· = step sdk w i) (step sdk) (fun v j => ¬Approves v j) w') :
    w'.ctx.state ≠ .approved := by
  have hstep := Reachable.next i hw trivial
  refine hw'.invariant (I := fun v => v.ctx.state ≠ .approved) ?_ ?_
  · rintro _ rfl happroved
    rcases approved_of_step (sound_of_reachable hw).ready happroved with ⟨rfl, hflow⟩ | ⟨-, hnot⟩
    · cases hcancel with
      | wiped _ hctx =>
        rw [hctx] at happroved
        cases happroved
    · exact hnot hcancel
  · intro v j hv hguard hstate happroved
    have hreach : Reachable Booted (step sdk) (fun _ _ => True) v :=
      hstep.trans (hv.mono fun _ _ _ _ => trivial)
    rcases approved_of_step (sound_of_reachable hreach).ready happroved with happroves | ⟨h, -⟩
    · exact hguard happroves
    · exact hstate h

theorem StageStep.of_refused {data : Bytes} {chunk : ℕ} {ends : Bool}
    (h : StageStep sdk data 1 chunk g ends g') (hstate : g.ctx.state ≠ .approved) :
    ends = decide (g.io.state = .ready) ∧ g' = g.restartReview.reply none Sw.badState := by
  cases h with
  | cancelled h => omega
  | refused => exact ⟨rfl, rfl⟩
  | misread hstage happroved => exact absurd happroved hstate
  | signing hstage happroved => exact absurd happroved hstate
  | wiped hstage => cases hstage
  | failed hstage => cases hstage
  | received hstage => cases hstage

/-- The answer is `SW_BAD_STATE`; where an answer waits in the buffer already, which takes a command
that has arrived while a screen was open, there is no answer and the app starts anew. -/
def Refused (sdk : Sdk) (w : World) (i : Input) : Prop :=
  responses (step sdk w i).trace = beBytes 2 Sw.badState :: responses w.trace ∨
    w.io.state = .ready ∧ w.io.asynch = false ∧
      responses (step sdk w i).trace = responses w.trace ∧ (step sdk w i).ctx = {}

theorem refused_of_not_approved (hready : w.globals.Ready) (hstate : w.ctx.state ≠ .approved)
    {apdu data : Bytes} {chunk : ℕ} (hcall : callOf apdu = some (.signTx data 1 chunk)) :
    Refused sdk w (.apdu apdu) := by
  have hstep := @globalsStep sdk w hready (.apdu apdu)
  unfold Refused
  rw [← World.responses_log, ← World.responses_log]
  change responses (step sdk w (.apdu apdu)).globals.log = _ ∨ _ ∧ _ ∧
    responses (step sdk w (.apdu apdu)).globals.log = _ ∧
    (step sdk w (.apdu apdu)).globals.ctx = _
  generalize (step sdk w (.apdu apdu)).globals = g' at hstep
  cases hstep with
  | command _ ends g' h =>
    cases h.handled_of_callOf hcall with
    | signTx _ _ _ _ _ h =>
      obtain ⟨rfl, rfl⟩ := h.of_refused hstate
      have hresponses := responses_resume_reply none Sw.badState
        (w.globals.receive apdu).restartReview
      by_cases hio : (w.globals.receive apdu).io.state = .ready
      · have hstate' : (if w.io.asynch then IoState.received else w.io.state) = .ready := hio
        split_ifs at hstate' with hasynch
        refine .inr ⟨hstate', Bool.eq_false_iff.2 hasynch, hresponses.trans (if_pos hio), ?_⟩
        rw [decide_eq_true hio]
        rfl
      · exact .inl (hresponses.trans (if_neg hio))

/-! ### The gate -/

theorem Gated.of_append {later log : List Event} (h : Gated sdk (later ++ log)) : Gated sdk log := by
  induction later with
  | nil => exact h
  | cons e later ih =>
    cases e with
    | signed => exact ih h.1
    | _ => exact ih h

/-- Every signature was made after an approval of "Send Transaction?" since the context was last
wiped or set up, for exactly the bytes that were hashed at the approval. -/
def SignsApproved (w : World) : Prop :=
  ∀ later earlier path digest signature,
    w.trace = later ++ .signed path digest signature :: earlier →
    (history earlier).sendApproved = some (history earlier).hashed

/-- After an input that ends the session the sign stage is refused until the next approval. -/
def RefusesSigning (sdk : Sdk) (w : World) : Prop :=
  ∀ i w' apdu data chunk, Cancels sdk w i →
    Reachable (· = step sdk w i) (step sdk) (fun v j => ¬Approves v j) w' →
    callOf apdu = some (.signTx data 1 chunk) → Refused sdk w' (.apdu apdu)

/-- Every signature in the trace was authorised when it was made. -/
theorem authorised_of_trace (hw : Reachable Booted (step sdk) guard w) {later earlier : List Event}
    {path : List ℕ} {digest signature : Bytes}
    (htrace : w.trace = later ++ .signed path digest signature :: earlier) :
    Authorised sdk path digest signature (history earlier) := by
  have hgated := (sound_of_reachable hw).gated
  have hlog : w.globals.log = later.filter (fun e => !e.silent) ++
      .signed path digest signature :: earlier.filter (fun e => !e.silent) := by
    change w.trace.filter _ = _
    rw [htrace, List.filter_append, List.filter_cons_of_pos (by simp)]
  rw [hlog] at hgated
  have hauthorised := hgated.of_append.2
  rwa [history_filter] at hauthorised

/-- No signature is made without an approval, or after the end of a session. -/
theorem signing_gate (hw : Reachable Booted (step sdk) (fun _ _ => True) w) :
    SignsApproved w ∧ RefusesSigning sdk w := by
  refine ⟨?_, ?_⟩
  · exact fun later earlier path digest signature htrace =>
      (authorised_of_trace hw htrace).approved
  · intro i w' apdu data chunk hcancel hw' hcall
    have hreach : Reachable Booted (step sdk) (fun _ _ => True) w' :=
      (Reachable.next i hw trivial).trans (hw'.mono fun _ _ _ _ => trivial)
    exact refused_of_not_approved (sound_of_reachable hreach).ready
      (not_approved_of_cancels hw hcancel hw') hcall

/-- A transaction with one output is sent and approved. -/
def sampleApproved : List Input :=
  [.command Ins.signTx 0 0 (0 :: sampleHeader.bytes ++ sampleOutput.bytes), .press .approve,
    .press .approve]

/-- An output that belongs to the path `44'`. -/
def sampleOwn : WireOutput where
  valueField := [0, 0, 0, 3]
  tokenData := 0
  pubkeyHash := [47, 33] ++ List.replicate 18 0
  length_valueField := rfl
  length_pubkeyHash := rfl

/-- The second chunk of a transaction with four outputs, of which the third one is declared as change.
The first chunk ends inside the second output. -/
def sampleSecondChunk : Bytes :=
  Command.encode ⟨cla, Ins.signTx, 0, 1,
    sampleOutput.bytes.drop 10 ++ sampleOwn.bytes ++ sampleOutput.bytes⟩

/-- The first output of this transaction is approved before the second chunk is sent, and the other
two after it. -/
def sampleTwoChunks : List Input :=
  [.command Ins.signTx 0 0 ([1, 1, 2, 1, 0x80, 0, 0, 44] ++ [0, 1, 0, 0, 4] ++
      sampleOutput.bytes ++ sampleOutput.bytes.take 10),
    .press .approve,
    .apdu sampleSecondChunk,
    .press .approve,
    .press .approve]

/-- The sign stage for a path of one component. -/
def sampleSign : Input := .command Ins.signTx 1 0 [1, 0x80, 0, 0, 44]

theorem signing_gate_sampleApproved :
    SignsApproved (run Sdk.sample sampleBoot (sampleApproved ++ [sampleSign])) ∧
      RefusesSigning Sdk.sample (run Sdk.sample sampleBoot (sampleApproved ++ [sampleSign])) :=
  signing_gate ((Reachable.start booted_sampleBoot).follow
    (follows_true _ (sampleApproved ++ [sampleSign])))

/-- A reset of the token signatures is rejected while a transaction is approved. -/
def sampleRejectedReset : World :=
  run Sdk.sample sampleBoot
    (sampleApproved ++ [.command Ins.resetTokenSignatures 0 0 [], .press .reject])

/-- A command arrives while an address is shown, and the address is approved after its answer. -/
def sampleLateApproval : World :=
  run Sdk.sample sampleBoot
    [.command Ins.getAddress 0 0 [1, 0x80, 0, 0, 44], .command Ins.getVersion 0 0 [],
      .press .approve]

/-- The sign stage is not always refused with `SW_BAD_STATE` after a rejection or a command that
wipes the context: it signs after the rejection of a reset, and there is no answer while that of a
late approval waits to be sent. -/
theorem sign_not_refused :
    (responses (step Sdk.sample sampleRejectedReset sampleSign).trace).head? ≠
        some (beBytes 2 Sw.badState) ∧
      responses (step Sdk.sample sampleLateApproval sampleSign).trace =
        responses sampleLateApproval.trace := by
  decide +kernel

/-! ### The digest -/

end HathorLedger
