import HathorLedger.Run.Paths
import HathorLedger.Run.Records

/-!
# The arrays of the decoder

The decoder works with arrays of fixed sizes: the pending bytes, the decoded outputs, the change
entries and the pointers to tokens. Between two commands less than an element is pending, and a chunk
has at most 255 bytes, so the pending bytes fit and make up at most nine outputs. The number of change
entries is stored before it is checked, and the number of tokens is not checked at all.

## Main definitions

* `Decodes`: what the decoder does to the counters.
* `ChunkFits`, `FitsBuffers`: all accesses of a data command, and of a run, stay inside the arrays.
* `Input.announcesTokens`, `OffReview`: a header with too many tokens, and a press on an output
  screen that shows no decoded output.
* `FitsTokens`: all accesses of the array of tokens stay inside it.

## Main results

* `fitsBuffers_of_reachable`, `fitsTokens_of_reachable`: the accesses of runs.
-/

namespace HathorLedger

variable (sdk : Sdk)

/-! ### Contexts without a transaction -/

/-- The record of a context without a transaction: nothing is pending, announced or decoded. -/
structure Vacant (t : TxInfo) : Prop where
  bufferLen : t.bufferLen = 0
  bufferOutputLen : t.bufferOutputLen = 0
  changeLen : t.changeLen = 0
  tokens : t.tokens = []
  remainingTokens : t.remainingTokens = 0

variable {sdk} {w : World} {g g' g₁ : Globals} {i : Input} {h : Header} {e : Elements}

theorem Vacant.recount {t t' : TxInfo} (ht : Vacant t) {d c : ℕ} (h : Recount t d c t') :
    Vacant t' := by
  obtain ⟨hlen, houtputs, hchanges, htokens, hremaining⟩ := ht
  cases h with
  | moved => exact ⟨hlen, houtputs, hchanges, htokens, hremaining⟩
  | emptied => exact ⟨hlen, rfl, hchanges, htokens, hremaining⟩

theorem vacant_of_recordStep (h : RecordStep sdk g i g'.ctx)
    (hg : g.ctx.reqType ≠ .confirmTransaction → Vacant g.ctx.txInfo)
    (hreq' : g'.ctx.reqType ≠ .confirmTransaction) : Vacant g'.ctx.txInfo := by
  generalize g'.ctx = ctx at h hreq'
  cases h with
  | kept hreq h => exact h ▸ hg (hreq ▸ hreq')
  | restarted hreq h =>
    have ht := hg (hreq ▸ hreq')
    rw [h]
    exact ⟨ht.bufferLen, rfl, ht.changeLen, ht.tokens, ht.remainingTokens⟩
  | finished hreq hfinish =>
    have ht := hg (hreq ▸ hreq')
    obtain ⟨sighashAll, sha256, heq⟩ := finishSighashAll_eq hfinish
    rw [heq]
    exact ⟨ht.bufferLen, rfl, ht.changeLen, ht.tokens, ht.remainingTokens⟩
  | cleared hreq h =>
    obtain ⟨buffer, h⟩ := h
    rw [h]
    exact ⟨rfl, rfl, rfl, rfl, rfl⟩
  | failed hi hcall h => cases h <;> exact absurd rfl hreq'
  | decoded hq hready hreq => exact absurd hreq hreq'
  | reviewed hi hflow hreq hskipped h => exact (hg (hreq ▸ hreq')).recount h

/-- Without a transaction the record is vacant. -/
theorem vacant_of_reachable {guard : World → Input → Prop}
    (hw : Reachable Booted (step sdk) guard w) :
    w.ctx.reqType ≠ .confirmTransaction → Vacant w.ctx.txInfo := by
  refine hw.invariant (I := fun w => w.ctx.reqType ≠ .confirmTransaction → Vacant w.ctx.txInfo) ?_
    fun w i hw _ hg => ?_
  · rintro _ ⟨secret, -, rfl⟩ -
    exact ⟨rfl, rfl, rfl, rfl, rfl⟩
  · have hs := sound_of_reachable hw
    have hstep := @globalsStep sdk w hs.ready i
    exact vacant_of_recordStep (recordStep_of_globalsStep hs hstep) hg

/-! ### The decoder -/

/-- What the decoder does to the counters of the record: nothing wraps around, and at most nine
outputs are decoded. -/
structure Decodes (t t' : TxInfo) : Prop where
  bufferLen_le : t'.bufferLen ≤ t.bufferLen
  tokens : t'.tokensLen + t'.remainingTokens = t.tokensLen + t.remainingTokens
  remainingInputs_le : t'.remainingInputs ≤ t.remainingInputs
  currentOutput_ge : t.currentOutput ≤ t'.currentOutput
  currentOutput_le : t'.currentOutput ≤ t'.outputsLen
  outputsLen_lt : t'.outputsLen < 256
  bufferOutputLen_le : t'.bufferOutputLen ≤ 9

theorem Progress.decodes {registry : TokenDataCtx} {e' : Elements} {n : ℕ} {t t' : TxInfo}
    (hh : Held sdk h e t) (houtputs : t.bufferOutputLen = 0)
    (hp : Progress sdk registry h e e' n t t') : Decodes t t' := by
  have hh' := hp.held
  have hroom := hp.room
  have hlen := hh.bufferLen_le
  have hbyte := UInt8.toNat_lt h.outputs
  have hinputs := hh.remainingInputs
  have hinputs' := hh'.remainingInputs
  have hmore := hp.inputs_prefix.length_le
  have houtputs' := hp.outputs_prefix.length_le
  have hle := hh'.outputs_le
  rw [bufferCells] at hlen
  constructor
  · have := hp.bufferLen
    omega
  · rw [TxInfo.tokensLen, TxInfo.tokensLen, hh'.tokensLen, hh.tokensLen]
    have := hh.remainingTokens
    have := hh'.remainingTokens
    omega
  · omega
  · rw [hh.currentOutput, hh'.currentOutput]
    exact houtputs'
  · rw [hh'.currentOutput]
    exact hle
  · rw [hh'.outputsLen]
    exact hbyte
  · omega

theorem Decodes.halted {t t₁ t' : TxInfo} (hd : Decodes t t₁) (h : Halted t₁ t') :
    Decodes t t' := by
  obtain ⟨hlen, htokens, hinputs, hge, hle, hlt, houtputs⟩ := hd
  cases h with
  | unchanged => exact ⟨hlen, htokens, hinputs, hge, hle, hlt, houtputs⟩
  | counted hcounted =>
    exact ⟨hlen, htokens, hinputs, Nat.le_succ_of_le hge, hcounted, hlt, houtputs⟩

/-- In the course of the decoder, after any number of elements. -/
theorem Queueing.decodes (hq : Queueing sdk h e g) (n : ℕ) :
    (decodeElementsLoop sdk g.tokenSymbols n).wp (fun _ t' => Decodes g.ctx.txInfo t')
      (fun _ t' => Decodes g.ctx.txInfo t') g.ctx.txInfo := by
  have hh := hq.session.held
  have hlen := hh.bufferLen_le
  rw [bufferCells] at hlen
  refine EStateM.wp_mono ?_ ?_ (halted_decodeElementsLoop hh (by rw [hq.bufferOutputLen]; omega))
  · rintro _ t' ⟨e', k, hprogress⟩
    exact hprogress.decodes hh hq.bufferOutputLen
  · rintro _ t' ⟨e', k, t₁, hprogress, hhalted⟩
    exact (hprogress.decodes hh hq.bufferOutputLen).halted hhalted

/-! ### Data commands -/

/-- The app when the data stage of a command starts to read its chunk. -/
def beforeChunk (w : World) (apdu : Bytes) : World :=
  (ioDeliver apdu w).modifyTx fun t => { t with displayIndex := 0, bufferOutputLen := 0 }

variable (sdk) in
/-- All accesses of a data command stay inside the arrays of the decoder: the chunk is copied behind
the pending bytes, and whatever the decoder then does, its counters stay inside their bounds. -/
structure ChunkFits (w : World) (apdu data : Bytes) (chunk : ℕ) : Prop where
  /-- A first chunk is copied once its change information and its header were read. -/
  copiedFirst : chunk = 0 → ∀ cdata t cdata' t',
    (readChangeInfo (.ofBytes data)).run (initSignTxCtx w).ctx.txInfo = .ok cdata t →
    (readTxData cdata).run t = .ok cdata' t' → ∃ t'', (copyToDecodeBuffer cdata').run t' = .ok () t''
  /-- A later chunk is always copied. -/
  copiedNext : chunk ≠ 0 →
    ∃ w₁, (receiveChunk (.ofBytes data) chunk).run (beforeChunk w apdu) = .ok () w₁
  decodes : ∀ w₁, (receiveChunk (.ofBytes data) chunk).run (beforeChunk w apdu) = .ok () w₁ →
    w₁.ctx.txInfo.bufferLen ≤ bufferCells ∧
    ∀ n, (decodeElementsLoop sdk w₁.tokenSymbols n).wp (fun _ t' => Decodes w₁.ctx.txInfo t')
      (fun _ t' => Decodes w₁.ctx.txInfo t') w₁.ctx.txInfo

theorem copyToDecodeBuffer_first {data : Bytes} (hdata : data.length ≤ 255) {cdata cdata' : Buffer}
    {t t' : TxInfo} (hchanges : (readChangeInfo (.ofBytes data)).run { sha256 := .fed [] } =
      .ok cdata t) (hheader : (readTxData cdata).run t = .ok cdata' t') :
    ∃ t'', (copyToDecodeBuffer cdata').run t' = .ok () t'' := by
  have hwf : (Buffer.ofBytes data).Wf := Buffer.wf_ofBytes (by rw [sizeMod]; omega)
  obtain ⟨⟨n, hn, rfl⟩, changeLen, changeInfo, rfl⟩ :=
    (EStateM.wp_of_run_ok hchanges).1 (wp_readChangeInfo hwf)
  have hwf' := hwf.advance hn
  rcases Nat.lt_or_ge ((Buffer.ofBytes data).advance n).rest.length 5 with hshort | hlong
  · exact ((EStateM.wp_of_run_ok hheader).1
      (@wp_readTxData_short _ _ (fun _ _ => False) hwf' hshort rfl rfl rfl)).elim
  · obtain ⟨h, rest, hrest⟩ := exists_header hlong
    rw [run_readTxData hwf' hrest] at hheader
    obtain ⟨rfl, rfl⟩ := EStateM.Result.ok.inj hheader
    have hlen : (((Buffer.ofBytes data).advance n).advance 5).rest.length ≤ bufferCells := by
      rw [Buffer.rest_advance, Buffer.rest_advance, Buffer.rest_ofBytes, List.length_drop,
        List.length_drop, bufferCells]
      omega
    obtain ⟨_, t'', hrun, -⟩ := EStateM.exists_run_of_wp
      ((wp_copyToDecodeBuffer (t := h.enter { sha256 := .fed [], changeLen, changeInfo })
        (Q := fun _ _ => True) (E := fun _ _ => False) (hwf'.advance hlong)
        ((Nat.zero_add _).trans_le hlen)).2 trivial)
    exact ⟨t'', hrun⟩

theorem chunkFits (hs : Sound sdk w.globals) {apdu data : Bytes} {chunk : ℕ}
    (hcall : callOf apdu = some (.signTx data 0 chunk))
    (hfirst : chunk = 0 → w.ctx.state ≠ .recvData) (hnext : chunk ≠ 0 → w.ctx.state = .recvData) :
    ChunkFits sdk w apdu data chunk := by
  have hdata := length_of_callOf hcall
  have hglobals := globals_ioDeliver w apdu
  have hqueued : ∀ {w₁ : World}, (receiveChunk (.ofBytes data) chunk).run (beforeChunk w apdu) =
      .ok () w₁ → Queued data chunk (w.globals.receive apdu) w₁.globals := by
    intro w₁ hrun
    rw [← hglobals]
    rcases Nat.eq_zero_or_pos chunk with rfl | hchunk
    · exact (EStateM.wp_of_run_ok hrun).1
        (wp_receiveChunk_first (w := ioDeliver apdu w) _ hdata (hfirst rfl))
    · exact (EStateM.wp_of_run_ok hrun).1 (wp_receiveChunk_next (w := ioDeliver apdu w) hchunk.ne'
        hdata (hnext hchunk.ne') (hs.ready.bufferLen_lt (hnext hchunk.ne')))
  refine ⟨fun _ _ _ _ _ hchanges hheader => copyToDecodeBuffer_first hdata hchanges hheader,
    fun hchunk => ?_, fun w₁ hrun => ?_⟩
  · obtain ⟨_, w₁, hrun, -⟩ := EStateM.exists_run_of_wp (wp_receiveChunk_next
      (w := ioDeliver apdu w) hchunk hdata (hnext hchunk) (hs.ready.bufferLen_lt (hnext hchunk)))
    exact ⟨w₁, hrun⟩
  · obtain ⟨-, -, h, e, hqueueing⟩ := (hs.receive apdu).queued hdata (hqueued hrun)
    exact ⟨hqueueing.session.held.bufferLen_le, hqueueing.decodes⟩

/-! ### Change entries -/

/-- An output is approved while more change entries are announced than fit into the array. -/
def WildPress (w : World) (i : Input) : Prop :=
  i = .press .approve ∧ w.ui.flow = .txOutput ∧ 1 + txMaxTokens < w.ctx.txInfo.changeLen

instance (w : World) (i : Input) : Decidable (WildPress w i) := inferInstanceAs (Decidable (_ ∧ _))

/-- Where outputs were decoded, some are announced. -/
theorem Queueing.outputsLen_ne_zero_of_decoded (hq : Queueing sdk h e g)
    (hready : (decodeElements sdk g.tokenSymbols g.ctx.txInfo).1 = TxState.ready)
    (hsome : (g.decode sdk).ctx.txInfo.bufferOutputLen ≠ 0) : g.ctx.txInfo.outputsLen ≠ 0 := by
  obtain ⟨e', hsession, -, -, n, hprogress⟩ := hq.decode hready
  have hle := hsession.held.outputs_le
  have hbuffer := hsession.held.bufferOutputLen_le
  have hlen := hprogress.context.outputsLen
  change (g.decode sdk).ctx.txInfo.outputsLen = _ at hlen
  omega

theorem changesRead_le_of_emission (hs : Sound sdk w.globals) (hwild : ¬WildPress w i) {ev : Event}
    {rest : List Event} (he : Emission sdk w.globals i ev rest) {n : ℕ}
    (hread : ev = .changesRead n) : n ≤ 1 + txMaxTokens := by
  cases he with
  | incidental h =>
    subst hread
    cases h
  | pressed | address | xpub | signing => cases hread
  | decoding hq he =>
    subst hread
    obtain ⟨h, e, hqueueing⟩ := hq.queueing hs
    rcases decodeEvents_cases he with hdecoded | ⟨hcurrent, hchanges | ⟨info, -, hderived⟩⟩
    · cases hdecoded
    · rw [Event.changesRead.inj hchanges]
      exact (hqueueing.session.changesRead (hqueueing.outputsLen_ne_zero hcurrent)).le
    · cases hderived
  | reviewing hq hready hsome hskipped he =>
    obtain ⟨h, e, hqueueing⟩ := hq.queueing hs
    obtain ⟨e', -, -, -, k, hprogress⟩ := hqueueing.decode hready
    cases he with
    | changesRead =>
      rw [← Event.changesRead.inj hread]
      exact hprogress.context.changeLen.trans_le
        (hqueueing.session.changesRead (hqueueing.outputsLen_ne_zero_of_decoded hready hsome)).le
    | tokenRead => cases hread
  | approving hi hflow hskipped he =>
    cases he with
    | changesRead =>
      rw [← Event.changesRead.inj hread]
      exact not_lt.1 fun hlt => hwild ⟨hi, hflow, hlt⟩
    | tokenRead => cases hread

/-! ### All accesses -/

variable (sdk) in
/-- Between two commands less than an element is pending, every data command that the state admits
stays inside the arrays, and so did all loops over the change entries. -/
structure FitsBuffers (w : World) : Prop where
  bufferLen_le : w.ctx.txInfo.bufferLen ≤ 35
  changesRead_le : ∀ n, .changesRead n ∈ w.trace → n ≤ 1 + txMaxTokens
  chunk : ∀ apdu data chunk, callOf apdu = some (.signTx data 0 chunk) →
    (chunk = 0 → w.ctx.state ≠ .recvData) → (chunk ≠ 0 → w.ctx.state = .recvData) →
    ChunkFits sdk w apdu data chunk

/-- In runs without a wild press all accesses stay inside the arrays. -/
theorem fitsBuffers_of_reachable
    (hw : Reachable Booted (step sdk) (fun w i => ¬WildPress w i) w) : FitsBuffers sdk w := by
  have hs := sound_of_reachable hw
  refine ⟨?_, fun n hread => ?_, fun apdu data chunk hcall hfirst hnext =>
    chunkFits hs hcall hfirst hnext⟩
  · by_cases hreq : w.ctx.reqType = .confirmTransaction
    · obtain ⟨h, e, -, hrest⟩ := hs.session hreq
      exact Nat.le_of_lt_succ hrest.bufferLen_lt
    · rw [(vacant_of_reachable hw hreq).bufferLen]
      exact Nat.zero_le _
  · have hgrown := grown_of_reachable
      (P := fun e _ => ∀ n, e = .changesRead n → n ≤ 1 + txMaxTokens)
      (fun e _ he n hn => by subst hn; cases he)
      (fun w i hw hi e rest he n hn => changesRead_le_of_emission (sound_of_reachable hw) hi he hn)
      hw
    exact hgrown.of_mem (List.mem_filter.2 ⟨hread, rfl⟩) n rfl

theorem fitsBuffers_sampleTwoChunks :
    FitsBuffers Sdk.sample (run Sdk.sample sampleBoot sampleTwoChunks) := by
  have hfollows : Follows (step Sdk.sample) (fun w i => ¬WildPress w i) sampleBoot
      sampleTwoChunks := by decide +kernel
  exact fitsBuffers_of_reachable ((Reachable.start booted_sampleBoot).follow hfollows)

/-- A transaction with one output is under review. -/
def sampleShown : List Input :=
  [.command Ins.signTx 0 0 (0 :: sampleHeader.bytes ++ sampleOutput.bytes)]

/-- While the output is on the screen, a first chunk wipes the context and another one announces 255
change entries. Then the output is approved. -/
def sampleWild : World :=
  run Sdk.sample sampleBoot (sampleShown ++
    [.command Ins.signTx 0 0 [0], .command Ins.signTx 0 0 [1, 255], .press .approve])

/-- The review runs over 255 change entries in an array of eleven. -/
theorem not_fitsBuffers_sampleWild :
    .changesRead 255 ∈ sampleWild.trace ∧ ¬FitsBuffers Sdk.sample sampleWild := by
  have hread : .changesRead 255 ∈ sampleWild.trace := by decide +kernel
  exact ⟨hread, fun h => absurd (h.changesRead_le 255 hread) (by decide)⟩

/-! ### Pointers to tokens -/

/-- A first chunk whose header announces more tokens than there are pointers. -/
def Input.announcesTokens : Input → Bool
  | .apdu bytes =>
    match callOf bytes with
    | some (.signTx data stage chunk) =>
      stage = 0 ∧ chunk = 0 ∧ txMaxTokens < (announced data).remainingTokens
    | _ => false
  | _ => false

/-- An output is approved while the counters of the review are at the end, or are about to leave the
decoded outputs behind for a change output. -/
def OffReview (w : World) (i : Input) : Prop :=
  i = .press .approve ∧ w.ui.flow = .txOutput ∧
    (w.ctx.txInfo.displayIndex = w.ctx.txInfo.bufferOutputLen ∨
      w.ctx.txInfo.confirmedOutputs = w.ctx.txInfo.outputsLen ∨
      (w.ctx.txInfo.displayIndex + 1 = w.ctx.txInfo.bufferOutputLen ∨
          w.ctx.txInfo.confirmedOutputs + 1 = w.ctx.txInfo.outputsLen) ∧
        w.ctx.txInfo.confirmedOutputs + 1 ∈ w.ctx.txInfo.changeIndices)

instance (w : World) (i : Input) : Decidable (OffReview w i) := inferInstanceAs (Decidable (_ ∧ _))

/-- All announced tokens fit into the array, and the counters of the review are inside their
bounds. -/
structure Bounded (t : TxInfo) : Prop where
  tokens_le : t.tokensLen + t.remainingTokens ≤ txMaxTokens
  display_le : t.displayIndex ≤ t.bufferOutputLen
  confirmed_le : t.confirmedOutputs ≤ t.outputsLen

theorem Bounded.recount {t t' : TxInfo} (ht : Bounded t) {d c : ℕ} (hd : d ≤ t.bufferOutputLen)
    (hc : c ≤ t.outputsLen) (h : Recount t d c t') : Bounded t' := by
  cases h with
  | moved => exact ⟨ht.tokens_le, hd, hc⟩
  | emptied => exact ⟨ht.tokens_le, le_rfl, hc⟩

theorem Bounded.restartReview (hg : Bounded g.ctx.txInfo) : Bounded g.restartReview.ctx.txInfo :=
  ⟨hg.tokens_le, le_rfl, hg.confirmed_le⟩

theorem Held.inBounds {t : TxInfo} (hh : Held sdk h e t) (ht : Bounded t) : t.InBounds := by
  have hle := hh.outputs_le
  have hbuffer := hh.bufferOutputLen_le
  have hbyte := UInt8.toNat_lt h.outputs
  have hlen := hh.outputsLen
  exact ⟨ht.display_le, ht.confirmed_le, by omega, by omega⟩

theorem announced_le {apdu data : Bytes} (hcall : callOf apdu = some (.signTx data 0 0))
    (hannounce : (Input.apdu apdu).announcesTokens = false) :
    (announced data).remainingTokens ≤ txMaxTokens := by
  simpa [Input.announcesTokens, hcall] using hannounce

theorem bounded_of_failed {apdu data : Bytes} {sw : ℕ}
    (hcall : callOf apdu = some (.signTx data 0 0))
    (hannounce : (Input.apdu apdu).announcesTokens = false)
    (h : FirstChunkFailed data (g.receive apdu) sw g₁) : Bounded g₁.ctx.txInfo := by
  have hle := announced_le hcall hannounce
  cases h with
  | changes changeLen changeInfo sw hchanges => exact ⟨Nat.zero_le _, le_rfl, le_rfl⟩
  | header skipped rest changeLen changeInfo version tokens inputs hdata hshort cdata hchanges hread =>
    rw [announced_of_error hread] at hle
    exact ⟨(Nat.zero_add _).trans_le hle, le_rfl, le_rfl⟩

theorem Chunked.bounded (hq : Chunked g i g₁) (hg : Bounded g.ctx.txInfo)
    (hannounce : i.announcesTokens = false) : Bounded g₁.ctx.txInfo := by
  obtain ⟨apdu, data, chunk, rfl, hcall, hq⟩ := hq
  cases hq with
  | first h skipped rest changeLen changeInfo hchunk hdata cdata hchanges hread =>
    subst hchunk
    have hle := announced_le hcall hannounce
    rw [hread] at hle
    exact ⟨(Nat.zero_add _).trans_le hle, le_rfl, Nat.zero_le _⟩
  | next => exact ⟨hg.tokens_le, le_rfl, hg.confirmed_le⟩

theorem Queueing.bounded (hq : Queueing sdk h e g) (hg : Bounded g.ctx.txInfo)
    (hready : (decodeElements sdk g.tokenSymbols g.ctx.txInfo).1 = TxState.ready) :
    Bounded (g.decode sdk).ctx.txInfo ∧ (g.decode sdk).ctx.txInfo.InBounds := by
  obtain ⟨e', hsession, -, -, n, hprogress⟩ := hq.decode hready
  have hdecodes := hprogress.decodes hq.session.held hq.bufferOutputLen
  have hcontext := hprogress.context
  have hdisplay := hg.display_le
  rw [hq.bufferOutputLen] at hdisplay
  have hbounded : Bounded (g.decode sdk).ctx.txInfo := by
    refine ⟨hdecodes.tokens.trans_le hg.tokens_le, ?_, ?_⟩
    · have := hcontext.displayIndex
      change (g.decode sdk).ctx.txInfo.displayIndex = _ at this
      omega
    · exact hcontext.confirmedOutputs.trans_le (hg.confirmed_le.trans_eq hcontext.outputsLen.symm)
  exact ⟨hbounded, hsession.held.inBounds hbounded⟩

/-- Where an output is under review, the context holds a transaction. -/
theorem exists_held_of_onReview (hs : Sound sdk w.globals)
    (hvacant : w.ctx.reqType ≠ .confirmTransaction → Vacant w.ctx.txInfo)
    (hg : Bounded w.ctx.txInfo) (hflow : w.ui.flow = .txOutput)
    (hon : ¬OffReview w (.press .approve)) :
    ∃ h e, Held sdk h e w.ctx.txInfo := by
  by_cases hreq : w.ctx.reqType = .confirmTransaction
  · obtain ⟨h, e, hsession, -⟩ := hs.session hreq
    exact ⟨h, e, hsession.held⟩
  · have hdisplay := hg.display_le
    have hnone := (hvacant hreq).bufferOutputLen
    exact absurd ⟨rfl, hflow, .inl (by omega)⟩ hon

/-- A press on an output under review moves the counters inside their bounds. -/
theorem skipped_of_onReview (hs : Sound sdk w.globals)
    (hvacant : w.ctx.reqType ≠ .confirmTransaction → Vacant w.ctx.txInfo)
    (hg : Bounded w.ctx.txInfo) (hflow : w.ui.flow = .txOutput)
    (hon : ¬OffReview w (.press .approve)) {d c : ℕ}
    (hskipped : w.ctx.txInfo.InBounds →
      w.ctx.txInfo.displayIndex ≠ w.ctx.txInfo.bufferOutputLen →
      w.ctx.txInfo.confirmedOutputs ≠ w.ctx.txInfo.outputsLen →
      (w.ctx.txInfo.displayIndex + 1 = w.ctx.txInfo.bufferOutputLen ∨
          w.ctx.txInfo.confirmedOutputs + 1 = w.ctx.txInfo.outputsLen →
        w.ctx.txInfo.confirmedOutputs + 1 ∉ w.ctx.txInfo.changeIndices) →
      Skipped w.ctx.txInfo.changeIndices { w.ctx.txInfo with
        displayIndex := w.ctx.txInfo.displayIndex + 1
        confirmedOutputs := w.ctx.txInfo.confirmedOutputs + 1 } d c) :
    Skipped w.ctx.txInfo.changeIndices { w.ctx.txInfo with
      displayIndex := w.ctx.txInfo.displayIndex + 1
      confirmedOutputs := w.ctx.txInfo.confirmedOutputs + 1 } d c := by
  obtain ⟨h, e, hheld⟩ := exists_held_of_onReview hs hvacant hg hflow hon
  exact hskipped (hheld.inBounds hg) (fun heq => hon ⟨rfl, hflow, .inl heq⟩)
    (fun heq => hon ⟨rfl, hflow, .inr (.inl heq)⟩)
    fun hend hmem => hon ⟨rfl, hflow, .inr (.inr ⟨hend, hmem⟩)⟩

theorem bounded_of_recordStep (hs : Sound sdk w.globals)
    (hvacant : w.ctx.reqType ≠ .confirmTransaction → Vacant w.ctx.txInfo)
    (hg : Bounded w.ctx.txInfo) (hannounce : i.announcesTokens = false) (hon : ¬OffReview w i)
    {ctx : GlobalCtx} (h : RecordStep sdk w.globals i ctx) : Bounded ctx.txInfo := by
  cases h with
  | kept hreq h => exact h ▸ hg
  | restarted hreq h => exact h ▸ Bounded.restartReview (g := w.globals) hg
  | finished hreq hfinish =>
    obtain ⟨sighashAll, sha256, heq⟩ := finishSighashAll_eq hfinish
    rw [heq]
    exact ⟨hg.tokens_le, le_rfl, hg.confirmed_le⟩
  | cleared hreq h =>
    obtain ⟨buffer, h⟩ := h
    rw [h]
    exact ⟨Nat.zero_le _, le_rfl, le_rfl⟩
  | failed hi hcall h =>
    subst hi
    exact bounded_of_failed hcall hannounce h
  | decoded hq hready hreq hskipped h =>
    obtain ⟨_, _, hqueueing⟩ := hq.queueing hs
    obtain ⟨hbounded, hinside⟩ := hqueueing.bounded (hq.bounded hg hannounce) hready
    have hskip := hskipped hinside
    exact hbounded.recount hskip.display_le hskip.confirmed_le h
  | reviewed hi hflow hreq hskipped h =>
    subst hi
    have hskip := skipped_of_onReview hs hvacant hg hflow hon hskipped
    exact hg.recount hskip.display_le hskip.confirmed_le h

/-- Without headers that announce too many tokens, and with approvals on review, the counters stay
inside their bounds. -/
theorem bounded_of_reachable {guard : World → Input → Prop}
    (hguard : ∀ w i, guard w i → i.announcesTokens = false ∧ ¬OffReview w i)
    (hw : Reachable Booted (step sdk) guard w) : Bounded w.ctx.txInfo := by
  refine hw.invariant (I := fun w => Bounded w.ctx.txInfo) ?_ fun w i hw hi hg => ?_
  · rintro _ ⟨secret, -, rfl⟩
    exact ⟨Nat.zero_le _, le_rfl, le_rfl⟩
  · have hs := sound_of_reachable hw
    have hstep := @globalsStep sdk w hs.ready i
    exact bounded_of_recordStep hs (vacant_of_reachable hw) hg (hguard w i hi).1 (hguard w i hi).2
      (recordStep_of_globalsStep hs hstep)

/-- All accesses of the array of tokens stay inside it: those of the decoder, also where it fails,
and those of the screens. -/
structure FitsTokens (w : World) : Prop where
  tokensLen_le : w.ctx.txInfo.tokensLen ≤ txMaxTokens
  decoded_le : ∀ n, .decoded n ∈ w.trace → n ≤ txMaxTokens
  tokenRead_lt : ∀ cell, .tokenRead cell ∈ w.trace → cell < txMaxTokens

/-- What `FitsTokens` says about a single event. -/
def Event.FitsTokens (e : Event) : Prop :=
  (∀ n, e = .decoded n → n ≤ txMaxTokens) ∧ ∀ cell, e = .tokenRead cell → cell < txMaxTokens

theorem fitsTokens_of_incidental {ev : Event} (h : ev.incidental = true) : ev.FitsTokens := by
  constructor
  · rintro n rfl
    cases h
  · rintro cell rfl
    cases h

theorem fitsTokens_of_emission (hs : Sound sdk w.globals)
    (hvacant : w.ctx.reqType ≠ .confirmTransaction → Vacant w.ctx.txInfo)
    (hg : Bounded w.ctx.txInfo) (hannounce : i.announcesTokens = false) (hon : ¬OffReview w i)
    {ev : Event} {rest : List Event} (he : Emission sdk w.globals i ev rest) : ev.FitsTokens := by
  have hread : ∀ {t : TxInfo} {h : Header} {e : Elements} {d c : ℕ}, Held sdk h e t → Bounded t →
      d < t.bufferOutputLen → ReviewEvent sdk t d c ev → ev.FitsTokens := by
    intro t h e d c hheld ht hd he
    cases he with
    | changesRead => exact ⟨nofun, nofun⟩
    | tokenRead hd' hc hindex =>
      refine ⟨nofun, fun cell hcell => ?_⟩
      have hle := hheld.tokenIndex_le hd
      have htokens := ht.tokens_le
      rw [← Event.tokenRead.inj hcell]
      change tokenIndex (t.outputs.getD d (sdk.pastOutputs d)).tokenData ≠ 0 at hindex
      change tokenIndex (t.outputs.getD d (sdk.pastOutputs d)).tokenData - 1 < _
      omega
  cases he with
  | incidental h => exact fitsTokens_of_incidental h
  | pressed | address | xpub | signing => exact ⟨nofun, nofun⟩
  | decoding hq he =>
    obtain ⟨_, _, hqueueing⟩ := hq.queueing hs
    have hbounded := hq.bounded hg hannounce
    obtain ⟨_, _, t₁, hprogress, hhalted⟩ := hqueueing.progress
    have htokens := ((hprogress.decodes hqueueing.session.held hqueueing.bufferOutputLen).halted
      hhalted).tokens
    rcases decodeEvents_cases he with rfl | ⟨-, rfl | ⟨info, -, rfl⟩⟩
    · refine ⟨fun n hn => ?_, nofun⟩
      have hle := hbounded.tokens_le
      rw [← Event.decoded.inj hn]
      omega
    · exact ⟨nofun, nofun⟩
    · exact ⟨nofun, nofun⟩
  | reviewing hq hready hsome hskipped he =>
    obtain ⟨_, _, hqueueing⟩ := hq.queueing hs
    obtain ⟨e', hsession, -⟩ := hqueueing.decode hready
    obtain ⟨hbounded, hinside⟩ := hqueueing.bounded (hq.bounded hg hannounce) hready
    have hd := (hskipped hinside).display_le
    cases he with
    | changesRead => exact ⟨nofun, nofun⟩
    | tokenRead hd' hc hindex =>
      exact hread hsession.held hbounded (lt_of_le_of_ne hd hd') (.tokenRead hd' hc hindex)
  | approving hi hflow hskipped he =>
    subst hi
    obtain ⟨_, _, hheld⟩ := exists_held_of_onReview hs hvacant hg hflow hon
    have hd := (skipped_of_onReview hs hvacant hg hflow hon hskipped).display_le
    cases he with
    | changesRead => exact ⟨nofun, nofun⟩
    | tokenRead hd' hc hindex =>
      exact hread hheld hg (lt_of_le_of_ne hd hd') (.tokenRead hd' hc hindex)

/-- In runs whose headers announce no more tokens than fit, and whose approvals are on review, all
accesses stay inside the array. -/
theorem fitsTokens_of_reachable
    (hw : Reachable Booted (step sdk) (fun w i => i.announcesTokens = false ∧ ¬OffReview w i) w) :
    FitsTokens w := by
  have hgrown := grown_of_reachable (P := fun e _ => e.FitsTokens)
    (fun _ _ he => fitsTokens_of_incidental he)
    (fun v i hv hi e rest he => fitsTokens_of_emission (sound_of_reachable hv)
      (vacant_of_reachable hv) (bounded_of_reachable (fun _ _ h => h) hv) hi.1 hi.2 he) hw
  have htokens := (bounded_of_reachable (fun _ _ h => h) hw).tokens_le
  refine ⟨by omega, fun n hn => ?_, fun cell hcell => ?_⟩
  · exact (hgrown.of_mem (List.mem_filter.2 ⟨hn, rfl⟩)).1 n rfl
  · exact (hgrown.of_mem (List.mem_filter.2 ⟨hcell, rfl⟩)).2 cell rfl

/-- The data of a token with its signature under the secret of the sample runs. -/
def sampleSignedToken : Bytes :=
  sampleTokenData [0x41] [0x42] ++
    signToken Sdk.sample (List.replicate secretLen 7) (sampleToken [0x41] [0x42])

/-- An output of one unit with the first token of the transaction. -/
def sampleTokenOutput : Bytes := [0, 0, 0, 1, 1, 0, 25] ++ sampleOutput.script

/-- A token is sent, and then a transaction with it. The screen of the second output shows the token.
Then the transaction is approved. -/
def sampleTokenShown : List Input :=
  [.command Ins.sendTokenData 0 0 sampleSignedToken,
    .command Ins.signTx 0 0 ([0, 0, 1, 1, 0, 2] ++ List.replicate tokenUidLen 0 ++
      sampleOutput.bytes ++ sampleTokenOutput),
    .press .approve, .press .approve, .press .approve]

theorem fitsTokens_sampleTokenShown :
    .decoded 1 ∈ (run Sdk.sample sampleBoot sampleTokenShown).trace ∧
      .tokenRead 0 ∈ (run Sdk.sample sampleBoot sampleTokenShown).trace ∧
      FitsTokens (run Sdk.sample sampleBoot sampleTokenShown) := by
  have hfollows : Follows (step Sdk.sample)
      (fun w i => i.announcesTokens = false ∧ ¬OffReview w i) sampleBoot sampleTokenShown := by
    decide +kernel
  exact ⟨by decide +kernel, by decide +kernel,
    fitsTokens_of_reachable ((Reachable.start booted_sampleBoot).follow hfollows)⟩

/-- A registered token is announced and sent eleven times. -/
def sampleTokens : World :=
  run Sdk.sample sampleBoot [.command Ins.sendTokenData 0 0 sampleSignedToken,
    .command Ins.signTx 0 0 ([0, 0, 1, 11, 0, 1] ++ List.replicate (7 * tokenUidLen) 0),
    .command Ins.signTx 0 1 (List.replicate (4 * tokenUidLen) 0)]

/-- The decoder stores eleven pointers in an array of ten. -/
theorem not_fitsTokens_sampleTokens :
    .decoded 11 ∈ sampleTokens.trace ∧ ¬FitsTokens sampleTokens := by
  have hdecoded : .decoded 11 ∈ sampleTokens.trace := by decide +kernel
  exact ⟨hdecoded, fun h => absurd (h.decoded_le 11 hdecoded) (by decide)⟩

end HathorLedger
