import HathorLedger.Handler.FirstChunk
import HathorLedger.Run.Reviewing

/-!
# What SIGN_TX does

The stages of `SIGN_TX` as steps of the globals. The data stage queues the bytes of a chunk, decodes
them, and goes on with the review if there are new outputs.

## Main definitions

* `Queued`, `FirstChunkFailed`: a chunk is queued for the decoder, or the first chunk cannot be
  read.
* `Decoded`: what follows the decoder.
* `SignStep`: the sign stage of an approved transaction.
* `StageStep`: the whole command.

## Main results

* `wp_handlerSignTx`: the handler makes one of these steps.
-/

namespace HathorLedger

variable (sdk : Sdk)

/-! ### Steps -/

namespace Globals

/-- Every command `SIGN_TX` starts with this. -/
def restartReview (g : Globals) : Globals :=
  { g with ctx.txInfo.displayIndex := 0, ctx.txInfo.bufferOutputLen := 0 }

/-- The context of a new transaction, with the transaction record `t`. -/
def newTransaction (t : TxInfo) (g : Globals) : Globals :=
  { g with
    ctx := { state := .recvData, reqType := .confirmTransaction, txInfo := t }
    log := .txInit :: .wiped :: g.log }

end Globals

/-- The bytes of a chunk are hashed and queued for the decoder. -/
inductive Queued (data : Bytes) (chunk : ℕ) (g : Globals) : Globals → Prop
  /-- Only the bytes behind the change information count. -/
  | first (h : Header) (skipped rest : Bytes) (changeLen : ℕ) (changeInfo : List ChangeOutputInfo)
    (hchunk : chunk = 0) (hdata : data = skipped ++ (h.bytes ++ rest)) (cdata : Buffer)
    (hchanges : (readChangeInfo (.ofBytes data)).run { sha256 := .fed [] } =
      .ok cdata { sha256 := .fed [], changeLen, changeInfo })
    (hread : announced data = h.enter { sha256 := .fed (h.bytes ++ rest), changeLen, changeInfo }) :
    Queued data chunk g { g with
      ctx := { state := .recvData, reqType := .confirmTransaction, txInfo :=
        (h.enter { sha256 := .fed (h.bytes ++ rest), changeLen, changeInfo }).queue rest }
      log := .firstChunkRead :: .hashed (h.bytes ++ rest) :: .txInit :: .wiped :: g.log }
  | next (hchunk : chunk ≠ 0) (hstate : g.ctx.state = .recvData) :
    Queued data chunk g { g with
      ctx.txInfo := TxInfo.queue data { g.ctx.txInfo with
        displayIndex := 0, bufferOutputLen := 0, sha256 := g.ctx.txInfo.sha256.update data }
      log := .hashed data :: g.log }

/-- The first chunk cannot be read: its change information is malformed or its header is cut short.
The new transaction stays in the context. -/
inductive FirstChunkFailed (data : Bytes) (g : Globals) : ℕ → Globals → Prop
  | changes (changeLen : ℕ) (changeInfo : List ChangeOutputInfo) (sw : ℕ)
    (hchanges : (readChangeInfo (.ofBytes data)).run { sha256 := .fed [] } =
      .error sw { sha256 := .fed [], changeLen, changeInfo }) :
    FirstChunkFailed data g sw (g.newTransaction { sha256 := .fed [], changeLen, changeInfo })
  | header (skipped rest : Bytes) (changeLen : ℕ) (changeInfo : List ChangeOutputInfo)
    (version : ℕ) (tokens inputs : UInt8) (hdata : data = skipped ++ rest)
    (hshort : rest.length < 5) (cdata : Buffer)
    (hchanges : (readChangeInfo (.ofBytes data)).run { sha256 := .fed [] } =
      .ok cdata { sha256 := .fed [], changeLen, changeInfo })
    (hread : (readFirstChunk data).run { sha256 := .fed [] } = .error Sw.wrongDataLength {
      sha256 := .fed rest
      changeLen, changeInfo
      txVersion := version
      remainingTokens := tokens.toNat
      remainingInputs := inputs.toNat }) :
    FirstChunkFailed data g Sw.wrongDataLength { g with
      ctx := { state := .recvData, reqType := .confirmTransaction, txInfo := {
        sha256 := .fed rest
        changeLen, changeInfo
        txVersion := version
        remainingTokens := tokens.toNat
        remainingInputs := inputs.toNat } }
      log := .hashed rest :: .txInit :: .wiped :: g.log }

/-- The globals after the decoder. -/
def Globals.decode (g : Globals) : Globals :=
  let t := (decodeElements sdk g.tokenSymbols g.ctx.txInfo).2
  { g with ctx.txInfo := t, log := decodeEvents g.ctx.txInfo t ++ g.log }

/-- What follows the decoder, and whether the app ends with it, as it does after a failure that is
neither `TX_STATE_ERR` nor `TX_STATE_READY`. -/
inductive Decoded (g : Globals) : Bool → Globals → Prop
  | invalid (h : (decodeElements sdk g.tokenSymbols g.ctx.txInfo).1 = TxState.err) :
    Decoded g false ((g.decode sdk).cancel.reply none Sw.invalidTx)
  | failed (h : (decodeElements sdk g.tokenSymbols g.ctx.txInfo).1 ≠ TxState.err)
    (h' : (decodeElements sdk g.tokenSymbols g.ctx.txInfo).1 ≠ TxState.ready) :
    Decoded g true (g.decode sdk)
  | silent (h : (decodeElements sdk g.tokenSymbols g.ctx.txInfo).1 = TxState.ready)
    (hnone : (g.decode sdk).ctx.txInfo.bufferOutputLen = 0) :
    Decoded g false ((g.decode sdk).reply none Sw.ok)
  | displayed (h : (decodeElements sdk g.tokenSymbols g.ctx.txInfo).1 = TxState.ready)
    (hsome : (g.decode sdk).ctx.txInfo.bufferOutputLen ≠ 0) (n d c : ℕ) (g' : Globals)
    (hdisplayed : Displayed sdk (((g.decode sdk).readChanges n).review d c) g')
    (hskipped : (g.decode sdk).ctx.txInfo.InBounds →
      Skipped (g.decode sdk).ctx.txInfo.changeIndices (g.decode sdk).ctx.txInfo d c) :
    Decoded g false g'

/-- The sign stage of an approved transaction, with the accepted path in the context. The app ends
where the code takes the result of `io_send_sw` for a failure, that is, after all errors. -/
inductive SignStep (g : Globals) : Bool → Globals → Prop
  | empty (h : g.ctx.bip32Path.length = 0) : SignStep g true (g.reply none Sw.signatureFail)
  | refused (h : g.ctx.bip32Path.length ≠ 0)
    (hsdk : sdk.derivePrivateKey g.ctx.bip32Path.components = none ∨
      finishSighashAll sdk g.ctx.txInfo = none) :
    SignStep g true
      ({ g with log := .derived g.ctx.bip32Path :: g.log }.reply none Sw.internalError)
  | finished (h : g.ctx.bip32Path.length ≠ 0) (t : TxInfo)
    (hfinish : finishSighashAll sdk g.ctx.txInfo = some t) (privateKey : Bytes)
    (hsdk : sdk.ecdsaSign privateKey t.sighashAll = none) :
    SignStep g true ({ g with
      ctx.txInfo := t
      log := .hashFinished :: .derived g.ctx.bip32Path :: g.log }.reply none Sw.internalError)
  | signed (h : g.ctx.bip32Path.length ≠ 0) (t : TxInfo)
    (hfinish : finishSighashAll sdk g.ctx.txInfo = some t)
    (privateKey chainCode signature : Bytes)
    (hderive : sdk.derivePrivateKey g.ctx.bip32Path.components = some (privateKey, chainCode))
    (hsign : sdk.ecdsaSign privateKey t.sighashAll = some signature) :
    SignStep g (decide (g.io.state = .ready)) ({ g with
      ctx.txInfo := t
      log := .signed g.ctx.bip32Path.components t.sighashAll signature ::
        .hashFinished :: .derived g.ctx.bip32Path :: g.log }.reply (some signature) Sw.ok)

/-- What a command `SIGN_TX` does, and whether the app ends with it. -/
inductive StageStep (data : Bytes) (stage chunk : ℕ) (g : Globals) : Bool → Globals → Prop
  | cancelled (h : stage = 0 ∧ (g.ctx.state = .approved ∨ chunk > 0 ∧ g.ctx.state ≠ .recvData) ∨
      2 ≤ stage) : StageStep data stage chunk g (decide (g.io.state = .ready))
        (g.cancel.reply none (if stage = 2 then Sw.ok else Sw.badState))
  | refused (hstage : stage = 1) (hstate : g.ctx.state ≠ .approved) :
    StageStep data stage chunk g (decide (g.io.state = .ready))
      (g.restartReview.reply none Sw.badState)
  | misread (hstage : stage = 1) (hstate : g.ctx.state = .approved) (path : Bip32Path)
    (hread : ((Buffer.ofBytes data).readBip32Path g.ctx.bip32Path).1 = false) :
    StageStep data stage chunk g (decide (g.io.state = .ready))
      ({ g.restartReview with ctx.bip32Path := path }.reply none Sw.wrongDataLength)
  | signing (hstage : stage = 1) (hstate : g.ctx.state = .approved) (path : Bip32Path)
    (rest : Buffer) (haccepted : (Buffer.ofBytes data).readBip32Path g.ctx.bip32Path =
      (true, path, rest))
    (ends : Bool) (g' : Globals)
    (h : SignStep sdk { g.restartReview with ctx.bip32Path := path } ends g') :
    StageStep data stage chunk g ends g'
  | wiped (hstage : stage = 0) (hchunk : chunk = 0) (hstate : g.ctx.state = .recvData) :
    StageStep data stage chunk g false (g.wipe.reply none Sw.badState)
  | failed (hstage : stage = 0) (hchunk : chunk = 0) (hstate : g.ctx.state ≠ .recvData)
    (happroved : g.ctx.state ≠ .approved) (g₁ : Globals) (sw : ℕ)
    (h : FirstChunkFailed data g sw g₁) :
    StageStep data stage chunk g false (g₁.reply none sw)
  | received (hstage : stage = 0) (happroved : g.ctx.state ≠ .approved)
    (hfirst : chunk = 0 → g.ctx.state ≠ .recvData) (g₁ : Globals) (ends : Bool) (g' : Globals)
    (h : Queued data chunk g g₁) (h' : Decoded sdk g₁ ends g') :
    StageStep data stage chunk g ends g'

variable {sdk} {w : World} {data : Bytes} {chunk : ℕ}

/-! ### The sign stage -/

theorem wp_signTxWithKey :
    (signTxWithKey sdk).wp (fun signed w' => SignStep sdk w.globals (!signed) w'.globals)
      (fun _ _ => False) w := by
  have hno : ∀ (sw : ℕ) (v : World), ¬(ioSendResponse none sw v).1 > 0 :=
    fun sw v => not_lt.2 (fst_ioSendResponse_nonpos v none sw)
  simp only [signTxWithKey, EStateM.wp_bind, EStateM.wp_get, EStateM.wp_ite, EStateM.wp_modifyGet,
    EStateM.wp_pure, ioSendSw_eq, globals_ioSendResponse, hno, decide_false, Bool.not_false]
  split_ifs with hempty
  · exact .empty (g := w.globals) hempty
  · have hderived : (w.emit (.derived w.ctx.bip32Path)).globals =
        { w.globals with log := .derived w.ctx.bip32Path :: w.globals.log } :=
      World.globals_emit w _
    refine (EStateM.wp_modify _).2 ?_
    cases hderive : sdk.derivePrivateKey w.ctx.bip32Path.components with
    | none =>
      simp only [EStateM.wp_bind, EStateM.wp_modifyGet, EStateM.wp_pure, ioSendSw_eq,
        globals_ioSendResponse, hderived, hno, decide_false, Bool.not_false]
      exact .refused (g := w.globals) hempty (.inl hderive)
    | some keys =>
      obtain ⟨privateKey, chainCode⟩ := keys
      cases hfinish : finishSighashAll sdk w.ctx.txInfo with
      | none =>
        simp only [EStateM.wp_bind, EStateM.wp_modifyGet, EStateM.wp_pure, ioSendSw_eq,
          globals_ioSendResponse, hderived, hno, decide_false, Bool.not_false]
        exact .refused (g := w.globals) hempty (.inr hfinish)
      | some t =>
        have hfinished : (World.emit .hashFinished
            ((w.emit (.derived w.ctx.bip32Path)).modifyTx fun _ => t)).globals =
            { w.globals with
              ctx.txInfo := t
              log := .hashFinished :: .derived w.ctx.bip32Path :: w.globals.log } := by
          rw [World.globals_emit, World.globals_modifyTx, hderived]
          rfl
        cases hsign : sdk.ecdsaSign privateKey t.sighashAll with
        | none =>
          simp only [hsign, EStateM.wp_bind, EStateM.wp_modify, EStateM.wp_modifyGet,
            EStateM.wp_pure, ioSendSw_eq, globals_ioSendResponse, Function.comp_apply, hfinished,
            hno, decide_false, Bool.not_false]
          exact .finished (g := w.globals) hempty t hfinish privateKey hsign
        | some signature =>
          have hsigned : (World.emit (.signed w.ctx.bip32Path.components t.sighashAll signature)
              (World.emit .hashFinished
                ((w.emit (.derived w.ctx.bip32Path)).modifyTx fun _ => t))).globals =
              { w.globals with
                ctx.txInfo := t
                log := .signed w.ctx.bip32Path.components t.sighashAll signature ::
                  .hashFinished :: .derived w.ctx.bip32Path :: w.globals.log } := by
            rw [World.globals_emit, hfinished]
            rfl
          simp only [hsign, EStateM.wp_bind, EStateM.wp_modify, EStateM.wp_modifyGet,
            EStateM.wp_pure, globals_ioSendResponse, Function.comp_apply, hsigned, ge_iff_le,
            ← not_lt, fst_ioSendResponse_neg_iff, decide_not, Bool.not_not, World.io_emit,
            World.io_modifyTx]
          exact .signed (g := w.globals) hempty t hfinish privateKey chainCode signature hderive
            hsign

/-! ### The data stage -/

theorem wp_receiveChunk_next (hchunk : chunk ≠ 0) (hdata : data.length ≤ 255)
    (hstate : w.ctx.state = .recvData) (hlen : w.ctx.txInfo.bufferLen < 36) :
    (receiveChunk (.ofBytes data) chunk).wp
      (fun _ w' => Queued data chunk w.globals w'.globals) (fun _ _ => False)
      (w.modifyTx fun t => { t with displayIndex := 0, bufferOutputLen := 0 }) := by
  have hwf : (Buffer.ofBytes data).Wf := Buffer.wf_ofBytes (by rw [sizeMod]; omega)
  simp only [receiveChunk, if_neg hchunk, EStateM.wp_bind, EStateM.wp_modify, onTx,
    EStateM.wp_zoom]
  rw [wp_copyToDecodeBuffer hwf]
  · have hqueued := @Queued.next data chunk w.globals hchunk hstate
    convert hqueued using 1
    rw [sighashAllHash, Buffer.rest_ofBytes]
    rfl
  · rw [Buffer.rest_ofBytes, bufferCells]
    simp only [sighashAllHash, World.ctx_emit, World.ctx_modifyTx]
    omega

theorem wp_receiveChunk_first (f : TxInfo → TxInfo) (hdata : data.length ≤ 255)
    (hstate : w.ctx.state ≠ .recvData) :
    (receiveChunk (.ofBytes data) 0).wp (fun _ w' => Queued data 0 w.globals w'.globals)
      (fun sw w' => FirstChunkFailed data w.globals sw w'.globals) (w.modifyTx f) := by
  have hwf : (Buffer.ofBytes data).Wf := Buffer.wf_ofBytes (by rw [sizeMod]; omega)
  have hstate' : (w.modifyTx f).ctx.state ≠ .recvData := hstate
  simp only [receiveChunk, if_true, EStateM.wp_bind, EStateM.wp_get, EStateM.wp_ite,
    if_neg hstate', EStateM.wp_modify, onTx, EStateM.wp_zoom]
  refine EStateM.wp_mono ?_ ?_ (EStateM.wp_and (wp_readChangeInfo hwf) (EStateM.wp_run _ _))
  · rintro cdata t' ⟨⟨⟨n, hn, rfl⟩, changeLen, changeInfo, rfl⟩, hchanges⟩
    have hrest : ((Buffer.ofBytes data).advance n).rest = data.drop n := by
      rw [Buffer.rest_advance, Buffer.rest_ofBytes]
    have hwf' := hwf.advance hn
    have hsplit : data = data.take n ++ ((Buffer.ofBytes data).advance n).rest := by
      rw [hrest, List.take_append_drop]
    rcases Nat.lt_or_ge ((Buffer.ofBytes data).advance n).rest.length 5 with hshort | hlong
    · refine EStateM.wp_mono (fun _ _ => And.left) ?_
        (EStateM.wp_and (wp_readTxData_short hwf' hshort rfl rfl rfl) (EStateM.wp_run _ _))
      rintro _ t' ⟨⟨rfl, version, tokens, inputs, rfl⟩, hheader⟩
      exact FirstChunkFailed.header (data.take n) _ changeLen changeInfo version tokens inputs
        hsplit hshort _ hchanges ((readFirstChunk_of_changes_ok hchanges).trans hheader)
    · obtain ⟨h, rest, hheader⟩ := exists_header hlong
      have hrest₅ : (((Buffer.ofBytes data).advance n).advance 5).rest = rest := by
        rw [Buffer.rest_advance, hheader]
        rfl
      have hfit : rest.length ≤ bufferCells := by
        have := congrArg List.length hsplit
        rw [hheader, List.length_append, List.length_append] at this
        rw [bufferCells]
        omega
      rw [wp_readTxData hwf' hheader, wp_copyToDecodeBuffer (hwf'.advance hlong)
        (by rw [hrest₅]; exact (Nat.zero_add _).trans_le hfit), hrest₅]
      have hread : announced data =
          h.enter { sha256 := .fed (h.bytes ++ rest), changeLen, changeInfo } := by
        have hrun := readFirstChunk_of_changes_ok hchanges
        rw [run_readTxData hwf' hheader, hheader] at hrun
        exact announced_of_ok hrun
      rw [hheader] at hsplit
      have hqueued := @Queued.first data 0 w.globals h _ rest changeLen changeInfo rfl
        hsplit _ hchanges hread
      convert hqueued using 1
      rw [sighashAllHash, hheader]
      rfl
  · rintro sw t' ⟨⟨changeLen, changeInfo, rfl⟩, hchanges⟩
    exact FirstChunkFailed.changes (g := w.globals) changeLen changeInfo sw hchanges

/-- The events of the decoder. It reads the change entries only for an output. -/
theorem decodeEvents_cases {t t' : TxInfo} {e : Event} (he : e ∈ decodeEvents t t') :
    e = .decoded t'.tokensLen ∨ t'.currentOutput ≠ t.currentOutput ∧
      (e = .changesRead t.changeLen ∨ ∃ info ∈ t.changeEntries, e = .derived info.path) := by
  unfold decodeEvents at he
  dsimp only at he
  split_ifs at he with hcurrent
  · exact .inl (List.mem_singleton.1 he)
  · simp only [List.mem_append, List.mem_map, List.mem_filter, List.mem_singleton] at he
    rcases he with (⟨info, ⟨hinfo, -⟩, rfl⟩ | rfl) | rfl
    · exact .inr ⟨hcurrent, .inr ⟨info, hinfo, rfl⟩⟩
    · exact .inr ⟨hcurrent, .inl rfl⟩
    · exact .inl rfl

theorem mem_decodeEvents {t t' : TxInfo} {e : Event} (he : e ∈ decodeEvents t t') :
    e = .decoded t'.tokensLen ∨ e = .changesRead t.changeLen ∨
      ∃ info ∈ t.changeEntries, e = .derived info.path :=
  (decodeEvents_cases he).imp_right And.right

theorem filter_decodeEvents (t t' : TxInfo) :
    (decodeEvents t t').filter (fun e => !e.silent) = decodeEvents t t' := by
  refine List.filter_eq_self.2 fun e he => ?_
  rcases mem_decodeEvents he with rfl | rfl | ⟨info, -, rfl⟩ <;> rfl

theorem wp_decodeChunk :
    (decodeChunk sdk).wp (fun received w' => Decoded sdk w.globals (!received) w'.globals)
      (fun _ _ => False) w := by
  obtain ⟨result, t, hdecode⟩ : ∃ result t,
      decodeElements sdk w.tokenSymbols w.ctx.txInfo = (result, t) := ⟨_, _, rfl⟩
  have hresult : (decodeElements sdk w.globals.tokenSymbols w.globals.ctx.txInfo).1 = result :=
    congrArg Prod.fst hdecode
  have hglobals : (recordDecoded w.ctx.txInfo t { w with ctx.txInfo := t }).globals =
      w.globals.decode sdk := by
    simp [World.globals, World.log, recordDecoded, Globals.decode, hdecode, filter_decodeEvents]
  have hrecord : (w.globals.decode sdk).ctx.txInfo = t := by
    rw [← hglobals]
    rfl
  simp only [decodeChunk, EStateM.wp_bind, EStateM.wp_get, hdecode, EStateM.wp_set,
    EStateM.wp_ite, EStateM.wp_modify, EStateM.wp_modifyGet, EStateM.wp_pure, globals_cancel,
    Bool.not_true, Bool.not_false]
  split_ifs with herr hready hsome
  · rw [hglobals]
    exact .invalid (hresult.trans herr)
  · obtain ⟨n, d, c, hdisplayed, hskipped⟩ := @displayed_uiDisplayTxOutputs sdk
      (recordDecoded w.ctx.txInfo t { w with ctx.txInfo := t })
    rw [hglobals] at hdisplayed
    refine .displayed (hresult.trans hready) (by rwa [hrecord]) n d c _ hdisplayed ?_
    rwa [hrecord]
  · rw [ioSendSw_eq, globals_ioSendResponse, hglobals]
    exact .silent (hresult.trans hready) (by rw [hrecord]; exact not_not.1 hsome)
  · rw [hglobals]
    exact .failed (hresult ▸ herr) (hresult ▸ hready)

/-! ### The command -/

theorem wp_handlerSignTx {stage : ℕ} (hdata : data.length ≤ 255)
    (hlen : w.ctx.state = .recvData → w.ctx.txInfo.bufferLen < 36) :
    (handlerSignTx sdk (.ofBytes data) stage chunk).wp
      (fun ret w' => StageStep sdk data stage chunk w.globals (decide (ret < 0)) w'.globals)
      (fun sw w' => StageStep sdk data stage chunk w.globals false (w'.globals.reply none sw))
      w := by
  obtain ⟨accepted, path, rest, hread⟩ : ∃ accepted path rest,
      (Buffer.ofBytes data).readBip32Path w.ctx.bip32Path = (accepted, path, rest) := ⟨_, _, _, rfl⟩
  have hcancel : ∀ f, (uiMenuMain (explicitBzeroContext (w.modifyTx f))).globals =
      w.globals.cancel := fun f => by
    rw [uiMenuMain_eq, globals_uxFlowInit, globals_explicitBzeroContext]
    rfl
  have hio : ∀ f, (uiMenuMain (explicitBzeroContext (w.modifyTx f))).io = w.io := fun _ => rfl
  simp only [handlerSignTx, EStateM.wp_bind, EStateM.wp_modify, EStateM.wp_get, EStateM.wp_ite,
    EStateM.wp_modifyGet, EStateM.wp_set, EStateM.wp_pure, ioSendSw_eq, globals_ioSendResponse,
    Function.comp_apply, hcancel, hio, fst_ioSendResponse_neg_iff, World.ctx_modifyTx,
    World.io_modifyTx, hread]
  split_ifs with h₂ h₁ happroved haccepted h₀ hstate
  · have := @StageStep.cancelled sdk data stage chunk w.globals (.inr h₂.ge)
    rwa [if_pos h₂] at this
  · exact .refused h₁ happroved
  · exact .misread h₁ (not_not.1 happroved) path (by simpa [World.globals, hread] using haccepted)
  · refine EStateM.wp_mono ?_ (fun _ _ => False.elim) wp_signTxWithKey
    rintro signed w' hsign
    have haccepted : accepted = true := by simpa using haccepted
    cases signed with
    | true => exact .signing h₁ (not_not.1 happroved) path rest (haccepted ▸ hread) _ _ hsign
    | false => exact .signing h₁ (not_not.1 happroved) path rest (haccepted ▸ hread) _ _ hsign
  · have := @StageStep.cancelled sdk data stage chunk w.globals (.inl ⟨h₀, hstate⟩)
    rwa [if_neg h₂] at this
  · simp only [not_or, not_and, not_not] at hstate
    obtain ⟨happroved, hnext⟩ := hstate
    simp only [receiveData, EStateM.wp_bind]
    have hdecode : ∀ {w₁ : World}, (chunk = 0 → w.ctx.state ≠ .recvData) →
        Queued data chunk w.globals w₁.globals → (decodeChunk sdk).wp
          (fun received w' => StageStep sdk data stage chunk w.globals
            (decide ((if received then (0 : ℤ) else -1) < 0)) w'.globals)
          (fun sw w' => StageStep sdk data stage chunk w.globals false (w'.globals.reply none sw))
          w₁ := by
      intro w₁ hfirst hqueued
      refine EStateM.wp_mono ?_ (fun _ _ => False.elim) wp_decodeChunk
      intro received w' hdecoded
      cases received with
      | true => exact .received h₀ happroved hfirst _ _ _ hqueued hdecoded
      | false => exact .received h₀ happroved hfirst _ _ _ hqueued hdecoded
    by_cases hchunk : chunk = 0
    · subst hchunk
      by_cases hrecv : w.ctx.state = .recvData
      · simp only [receiveChunk, if_true, EStateM.wp_bind, EStateM.wp_get, EStateM.wp_ite,
          World.ctx_modifyTx, hrecv, EStateM.wp_modify, EStateM.wp_throw]
        have hwipe : ∀ f, (explicitBzeroContext (w.modifyTx f)).globals = w.globals.wipe :=
          fun f => by rw [globals_explicitBzeroContext]; rfl
        rw [hwipe]
        exact .wiped h₀ rfl hrecv
      · refine EStateM.wp_mono ?_ ?_ (wp_receiveChunk_first _ hdata hrecv)
        · exact fun _ w₁ hqueued => hdecode (fun _ => hrecv) hqueued
        · exact fun sw w' hfailed => .failed h₀ rfl hrecv happroved _ sw hfailed
    · have hrecv := hnext (Nat.pos_of_ne_zero hchunk)
      refine EStateM.wp_mono ?_ (fun _ _ => False.elim)
        (wp_receiveChunk_next hchunk hdata hrecv (hlen hrecv))
      exact fun _ w₁ hqueued => hdecode (fun h => absurd h hchunk) hqueued
  · have := @StageStep.cancelled sdk data stage chunk w.globals (.inr (by omega))
    rwa [if_neg h₂] at this

end HathorLedger
