import HathorLedger.Run.Emissions

/-!
# What steps do to the transaction record

Every step keeps the transaction record of the context, or wipes it, or moves the counters of the
review, or belongs to a stage of `SIGN_TX` that sets the record up, decodes into it or takes its
digest.

## Main definitions

* `Recount`: a review has moved the counters.
* `RecordStep`: what a step does to the record.

## Main results

* `recordStep_of_globalsStep`: every step does one of these things.
-/

namespace HathorLedger

variable (sdk : Sdk)

/-- The record after a review that has moved the counters to `d` and `c`. A request for more data
empties the array of decoded outputs. -/
inductive Recount (t : TxInfo) (d c : ℕ) : TxInfo → Prop
  | moved : Recount t d c { t with displayIndex := d, confirmedOutputs := c }
  | emptied :
    Recount t d c { t with displayIndex := 0, confirmedOutputs := c, bufferOutputLen := 0 }

/-- What a step does to the transaction record, as the context afterwards tells. -/
inductive RecordStep (g : Globals) (i : Input) : GlobalCtx → Prop
  | kept {ctx : GlobalCtx} (hreq : ctx.reqType = g.ctx.reqType) (h : ctx.txInfo = g.ctx.txInfo) :
    RecordStep g i ctx
  | restarted {ctx : GlobalCtx} (hreq : ctx.reqType = g.ctx.reqType)
    (h : ctx.txInfo = g.restartReview.ctx.txInfo) : RecordStep g i ctx
  | finished {ctx : GlobalCtx} (hreq : ctx.reqType = g.ctx.reqType)
    (ht : finishSighashAll sdk g.restartReview.ctx.txInfo = some ctx.txInfo) : RecordStep g i ctx
  | cleared {ctx : GlobalCtx} (hreq : ctx.reqType ≠ .confirmTransaction)
    (h : ∃ buffer, ctx.txInfo = { buffer }) : RecordStep g i ctx
  | failed {apdu data : Bytes} {sw : ℕ} {g₁ : Globals} (hi : i = .apdu apdu)
    (hcall : callOf apdu = some (.signTx data 0 0))
    (h : FirstChunkFailed data (g.receive apdu) sw g₁) : RecordStep g i g₁.ctx
  | decoded {g₁ : Globals} (hq : Chunked g i g₁)
    (hready : (decodeElements sdk g₁.tokenSymbols g₁.ctx.txInfo).1 = TxState.ready)
    {ctx : GlobalCtx} (hreq : ctx.reqType = .confirmTransaction) {d c : ℕ}
    (hskipped : (g₁.decode sdk).ctx.txInfo.InBounds →
      Skipped (g₁.decode sdk).ctx.txInfo.changeIndices (g₁.decode sdk).ctx.txInfo d c)
    (h : Recount (g₁.decode sdk).ctx.txInfo d c ctx.txInfo) : RecordStep g i ctx
  | reviewed (hi : i = .press .approve) (hflow : g.ui.flow = .txOutput) {ctx : GlobalCtx}
    (hreq : ctx.reqType = g.ctx.reqType) {d c : ℕ}
    (hskipped : g.ctx.txInfo.InBounds →
      g.ctx.txInfo.displayIndex ≠ g.ctx.txInfo.bufferOutputLen →
      g.ctx.txInfo.confirmedOutputs ≠ g.ctx.txInfo.outputsLen →
      (g.ctx.txInfo.displayIndex + 1 = g.ctx.txInfo.bufferOutputLen ∨
          g.ctx.txInfo.confirmedOutputs + 1 = g.ctx.txInfo.outputsLen →
        g.ctx.txInfo.confirmedOutputs + 1 ∉ g.ctx.txInfo.changeIndices) →
      Skipped g.ctx.txInfo.changeIndices { g.ctx.txInfo with
        displayIndex := g.ctx.txInfo.displayIndex + 1
        confirmedOutputs := g.ctx.txInfo.confirmedOutputs + 1 } d c)
    (h : Recount g.ctx.txInfo d c ctx.txInfo) : RecordStep g i ctx

variable {sdk} {g₀ g g' : Globals} {i : Input}

theorem recordStep_of_cleared (hctx : g'.ctx = {}) : RecordStep sdk g i g'.ctx :=
  .cleared (by rw [hctx]; nofun) ⟨_, by rw [hctx]⟩

theorem recordStep_of_ctx (hctx : g'.ctx = g.ctx) : RecordStep sdk g i g'.ctx :=
  .kept (by rw [hctx]) (by rw [hctx])

/-- The review keeps the request, and the record but for the counters. -/
theorem displayed_ctx {n d c : ℕ} (h : Displayed sdk ((g.readChanges n).review d c) g') :
    g'.ctx = {} ∨ g'.ctx.reqType = g.ctx.reqType ∧ Recount g.ctx.txInfo d c g'.ctx.txInfo := by
  cases h with
  | asked h =>
    cases h with
    | send => exact .inr ⟨rfl, .moved⟩
    | refused => exact .inl rfl
    | more => exact .inr ⟨rfl, .emptied⟩
  | output => exact .inr ⟨rfl, .moved⟩

theorem recordStep_of_requested {flow : Flow} {paths : List Bip32Path} {accepted : Prop}
    {P : Globals → Prop} {ends : Bool} (h : Requested flow paths accepted P g ends g') :
    RecordStep sdk g₀ i g'.ctx := by
  cases h with
  | rejected g₁ sw h hidle => exact .cleared hidle.reqType hidle.record
  | opened _ h hidle => exact .cleared hidle.reqType hidle.record

theorem recordStep_of_signStep {ends : Bool} (h : SignStep sdk g ends g')
    (hreq : g.ctx.reqType = g₀.ctx.reqType) (hrecord : g.ctx.txInfo = g₀.restartReview.ctx.txInfo) :
    RecordStep sdk g₀ i g'.ctx := by
  cases h with
  | empty | refused => exact .restarted hreq hrecord
  | finished h t hfinish => exact .finished hreq (hrecord ▸ hfinish)
  | signed h t hfinish => exact .finished hreq (hrecord ▸ hfinish)

theorem recordStep_of_decoded {g₁ : Globals} (hq : Chunked g i g₁)
    (hreq : g₁.ctx.reqType = .confirmTransaction) (h : Decoded sdk g₁ false g') :
    RecordStep sdk g i g'.ctx := by
  cases h with
  | invalid => exact recordStep_of_cleared rfl
  | silent hready hnone =>
    -- nothing was decoded, so the review has nowhere to go
    have hskipped : (g₁.decode sdk).ctx.txInfo.InBounds → Skipped
        (g₁.decode sdk).ctx.txInfo.changeIndices (g₁.decode sdk).ctx.txInfo
        (g₁.decode sdk).ctx.txInfo.displayIndex (g₁.decode sdk).ctx.txInfo.confirmedOutputs := by
      intro ht
      refine .refl ht fun hd => absurd ?_ hd
      have := ht.display_le
      omega
    exact .decoded hq hready hreq hskipped .moved
  | displayed hready hsome n d c _ hdisplayed hskipped =>
    rcases displayed_ctx hdisplayed with hctx | ⟨hreq', hrecord⟩
    · exact recordStep_of_cleared hctx
    · exact .decoded hq hready (hreq'.trans hreq) hskipped hrecord

theorem mainLoop_ctx (g : Globals) : g.mainLoop.ctx = g.ctx ∨ g.mainLoop.ctx = {} := by
  unfold Globals.mainLoop
  split
  · exact .inl rfl
  · exact .inl rfl
  · exact .inr rfl

theorem RecordStep.resume {ends : Bool} (h : RecordStep sdk g i g'.ctx) :
    RecordStep sdk g i (g'.resume ends).ctx := by
  cases ends with
  | true => exact recordStep_of_cleared rfl
  | false =>
    change RecordStep sdk g i g'.mainLoop.ctx
    rcases mainLoop_ctx g' with hctx | hctx
    · rw [hctx]
      exact h
    · exact recordStep_of_cleared hctx

theorem recordStep_of_registryStep {data : Bytes} (h : RegistryStep sdk data g g')
    (hg : RecordStep sdk g₀ i g.ctx) : RecordStep sdk g₀ i g'.ctx := by
  have hctx : g'.ctx = g.ctx := by
    cases h with
    | full | malformed => rfl
    | invalid | stored => exact Globals.ctx_readSecret sdk g
  rw [hctx]
  exact hg

theorem recordStep_of_handled {apdu : Bytes} {call : Call} {ends : Bool} (hi : i = .apdu apdu)
    (hcall : callOf apdu = some call) (hs : Sound sdk g)
    (h : Handled sdk (g.receive apdu) call ends g') : RecordStep sdk g i (g'.resume ends).ctx := by
  have hwipe : RecordStep sdk g i (g.receive apdu).wipe.ctx := recordStep_of_cleared rfl
  cases h with
  | getVersion => exact .resume (recordStep_of_ctx rfl)
  | getAddress data _ _ h => exact .resume (recordStep_of_requested h)
  | getXpub data _ _ h => exact .resume (recordStep_of_requested h)
  | signTx data stage chunk _ _ h =>
    cases h with
    | cancelled => exact .resume (recordStep_of_cleared rfl)
    | refused | misread => exact .resume (.restarted rfl rfl)
    | signing hstage hstate path rest haccepted _ _ h =>
      exact .resume (recordStep_of_signStep h rfl rfl)
    | wiped => exact .resume (recordStep_of_cleared rfl)
    | failed hstage hchunk hstate happroved g₁ sw hfailed =>
      subst hstage hchunk
      have hstep : RecordStep sdk g i g₁.ctx := .failed hi hcall hfailed
      refine .resume ?_
      exact hstep
    | received hstage happroved hfirst g₁ _ _ hq hd =>
      subst hstage
      obtain ⟨-, -, _, _, hqueueing⟩ := (hs.receive apdu).queued (length_of_callOf hcall) hq
      cases ends with
      | true => exact recordStep_of_cleared rfl
      | false =>
        have hchunked : Chunked g i g₁ := ⟨apdu, data, chunk, hi, hcall, hq⟩
        exact .resume (recordStep_of_decoded hchunked hqueueing.reqType hd)
  | signTokenData data _ _ h => exact .resume (recordStep_of_requested h)
  | sendFirst data _ h => exact .resume (recordStep_of_registryStep h hwipe)
  | sendNext data _ h => exact .resume (recordStep_of_registryStep h (recordStep_of_ctx rfl))
  | verifyTokenSignature data =>
    refine .resume ?_
    unfold Globals.verify
    split
    · exact hwipe
    · refine recordStep_of_cleared ?_
      rw [Globals.ctx_reply, Globals.ctx_readSecret]
      rfl
  | resetTokenSignatures => exact .resume (recordStep_of_ctx rfl)

theorem recordStep_of_pressStep {button : Button} (h : PressStep sdk g button g') :
    RecordStep sdk g (.press button) g'.ctx := by
  cases h with
  | inactive | approveXpub | approveAddress | approveReset | rejectReset | about | back =>
    exact recordStep_of_ctx rfl
  | approveTx => exact .kept rfl rfl
  | approveToken => exact recordStep_of_ctx (Globals.ctx_readSecret sdk _)
  | approveOutput hflow n d c _ hdisplayed hskipped =>
    rcases displayed_ctx hdisplayed with hctx | ⟨hreq, hrecord⟩
    · exact recordStep_of_cleared hctx
    · exact .reviewed rfl hflow hreq hskipped hrecord
  | reject | exitToMenu | quit => exact recordStep_of_cleared rfl

/-- What every step does to the transaction record. -/
theorem recordStep_of_globalsStep (hs : Sound sdk g) (h : GlobalsStep sdk g i g') :
    RecordStep sdk g i g'.ctx := by
  cases h with
  | command apdu ends g' h =>
    cases h with
    | malformed | rejected => exact .resume (recordStep_of_ctx rfl)
    | handled call hcall _ _ h => exact recordStep_of_handled rfl hcall hs h
  | press button g' h => exact recordStep_of_pressStep h
  | ioReset => exact recordStep_of_cleared rfl

end HathorLedger
