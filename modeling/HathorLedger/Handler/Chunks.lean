import HathorLedger.Handler.Decoding

/-!
# Transactions in chunks

The data stage hands a transaction to the decoder in chunks. Each chunk is copied behind the bytes
that are still pending and decoded as far as it goes; the first chunk starts with the header. This
file follows the transaction record through all chunks of a transaction.

## Main definitions

* `Header.enter`: the record after the header was read.
* `queueFirst`, `queueNext`, `decodeQueued`: the parts of `receive_data` that work on the record.
* `feedTransaction`: all chunks of a transaction, with the outputs that they bring.

## Main results

* `feedTransaction_accepts_iff`: the chunks are accepted exactly if they make up a transaction.
-/

namespace HathorLedger

variable (sdk : Sdk) (registry : TokenDataCtx)

/-! ### Reading the header -/

/-- The record after `read_tx_data` has read a header. -/
def Header.enter (h : Header) (t : TxInfo) : TxInfo :=
  { t with
    txVersion := beValue [h.versionHigh, h.versionLow]
    remainingTokens := h.tokens.toNat
    remainingInputs := h.inputs.toNat
    outputsLen := h.outputs.toNat }

/-- The record with the bytes of a chunk behind the pending ones. -/
def TxInfo.queue (data : Bytes) (t : TxInfo) : TxInfo :=
  { t with
    buffer := memmove t.buffer t.bufferLen data
    bufferLen := t.bufferLen + data.length }

section Queue

variable {cdata : Buffer} {t : TxInfo}

theorem exists_header {p : Bytes} (h : 5 ≤ p.length) :
    ∃ (header : Header) (rest : Bytes), p = header.bytes ++ rest := by
  match p, h with
  | a :: b :: c :: d :: e :: rest, _ => exact ⟨⟨a, b, c, d, e⟩, rest, rfl⟩

/-- `read_tx_data` on bytes that start with a header. -/
theorem wp_readTxData {h : Header} {rest : Bytes} {Q : Buffer → TxInfo → Prop}
    {E : ℕ → TxInfo → Prop} (hwf : cdata.Wf) (hrest : cdata.rest = h.bytes ++ rest) :
    (readTxData cdata).wp Q E t ↔ Q (cdata.advance 5) (h.enter t) := by
  have hlen : 5 ≤ cdata.rest.length := by simp [hrest, Header.bytes]
  have hversion : cdata.rest.take 2 = [h.versionHigh, h.versionLow] := by
    rw [hrest]
    rfl
  have hwf₂ := hwf.advance (n := 2) (by omega)
  have hrest₂ : (cdata.advance 2).rest = h.tokens :: h.inputs :: h.outputs :: rest := by
    rw [Buffer.rest_advance, hrest]
    rfl
  have hwf₃ := hwf₂.advance (n := 1) (by simp [hrest₂])
  have hrest₃ : ((cdata.advance 2).advance 1).rest = h.inputs :: h.outputs :: rest := by
    rw [Buffer.rest_advance, hrest₂]
    rfl
  have hwf₄ := hwf₃.advance (n := 1) (by simp [hrest₃])
  have hrest₄ : (((cdata.advance 2).advance 1).advance 1).rest = h.outputs :: rest := by
    rw [Buffer.rest_advance, hrest₃]
    rfl
  simp only [readTxData, EStateM.wp_bind]
  rw [hwf.readU16_eq (by omega), hversion]
  simp only [EStateM.wp_modify, EStateM.wp_require, if_true]
  rw [hwf₂.readU8_cons hrest₂]
  simp only [if_true]
  rw [hwf₃.readU8_cons hrest₃]
  simp only [if_true]
  rw [hwf₄.readU8_cons hrest₄]
  simp only [if_true, EStateM.wp_pure]
  rfl

theorem run_readTxData {h : Header} {rest : Bytes} (hwf : cdata.Wf)
    (hrest : cdata.rest = h.bytes ++ rest) :
    (readTxData cdata).run t = .ok (cdata.advance 5) (h.enter t) := by
  obtain ⟨cdata', t', hrun, rfl, rfl⟩ := EStateM.exists_run_of_wp ((wp_readTxData
    (Q := fun c t' => c = cdata.advance 5 ∧ t' = h.enter t) hwf hrest).2 ⟨rfl, rfl⟩)
  exact hrun

/-- A chunk that fits is queued behind the pending bytes. -/
theorem wp_copyToDecodeBuffer {Q : Unit → TxInfo → Prop} {E : ℕ → TxInfo → Prop}
    (hwf : cdata.Wf) (hfit : t.bufferLen + cdata.rest.length ≤ bufferCells) :
    (copyToDecodeBuffer cdata).wp Q E t ↔ Q () (t.queue cdata.rest) := by
  have hcap : sizeSub bufferCells t.bufferLen = bufferCells - t.bufferLen :=
    sizeSub_of_le (by omega)
  simp only [copyToDecodeBuffer, EStateM.wp_bind, EStateM.wp_get, hcap]
  rw [hwf.copy_eq (by omega)]
  simp [hwf.remaining, TxInfo.queue]

theorem pending_queue {data : Bytes} (hlen : t.bufferLen ≤ t.buffer.length) :
    (t.queue data).pending = t.pending ++ data :=
  take_memmove hlen rfl

theorem length_buffer_queue {data : Bytes} (hlen : t.bufferLen + data.length ≤ t.buffer.length) :
    (t.queue data).buffer.length = t.buffer.length :=
  length_memmove hlen

end Queue

/-! ### Feeding chunks -/

/-- The record at the start of the data stage, with a change list that has been read. -/
def TxInfo.withChanges (changes : List ChangeOutputInfo) : TxInfo :=
  { sha256 := .fed []
    changeLen := changes.length
    changeInfo := changes ++ List.replicate (1 + txMaxTokens - changes.length) {} }

/-- What `receive_data` does with the record for a first chunk, behind its change information. -/
def queueFirst (chunk : Bytes) : EStateM ℕ TxInfo Unit := do
  let cdata ← readTxData (Buffer.ofBytes chunk)
  copyToDecodeBuffer cdata

/-- What `handler_sign_tx` and `receive_data` do with the record for a later chunk. -/
def queueNext (chunk : Bytes) : EStateM ℕ TxInfo Unit := do
  modify fun t => { t with displayIndex := 0, bufferOutputLen := 0 }
  copyToDecodeBuffer (Buffer.ofBytes chunk)

/-- Decode what is queued. The result are the outputs that this chunk has brought. -/
def decodeQueued : EStateM ℕ TxInfo (List TxOutput) := do
  let t ← get
  let (result, t) := decodeElements sdk registry t
  set t
  EStateM.require (result = TxState.ready) result
  return t.outputs.take t.bufferOutputLen

/-- The chunks behind the first one. -/
def feedNext : List Bytes → EStateM ℕ TxInfo (List TxOutput)
  | [] => pure []
  | chunk :: chunks => do
    queueNext chunk
    let outputs ← decodeQueued sdk registry
    let more ← feedNext chunks
    return outputs ++ more

/-- All chunks of a transaction. -/
def feedTransaction (first : Bytes) (chunks : List Bytes) : EStateM ℕ TxInfo (List TxOutput) := do
  queueFirst first
  let outputs ← decodeQueued sdk registry
  let more ← feedNext sdk registry chunks
  return outputs ++ more

section Feed

variable {sdk registry} {h : Header} {e : Elements} {p : Bytes} {t : TxInfo}
  {changes : List ChangeOutputInfo}

variable (sdk registry changes h e p t)

/-- The record stands for the elements `e` with the pending bytes `p`, and waits for more. -/
structure Waiting : Prop where
  held : Held sdk h e t
  changeEntries : t.changeEntries = changes
  pending : t.pending = p
  more : attempt sdk registry changes h e p = .more
  pointsTo : PointsTo registry e t

variable {sdk registry changes h e p t}

theorem Waiting.bufferLen_lt (hw : Waiting sdk registry h e p t changes) : t.bufferLen < 36 := by
  rw [← hw.held.length_pending, hw.pending]
  exact length_lt_of_attempt_eq_more hw.more

/-- Decoding drains the pending bytes. -/
theorem wp_decodeQueued (hh : Held sdk h e t) (hpoints : PointsTo registry e t)
    (hchanges : t.changeEntries = changes) (houtputs : t.bufferOutputLen = 0)
    (hlen : t.bufferLen < 320) (hmore : t.pending ≠ [] ∨ e.nextKind h ≠ none) :
    (decodeQueued sdk registry).wp
      (fun outputs t' => ∃ e' r, Waiting sdk registry h e' r t' changes ∧
        (elementParser sdk registry changes h).drain e t.pending = .ok (e', r) ∧
        e'.txOutputs = e.txOutputs ++ outputs)
      (fun _ _ => ∃ err, (elementParser sdk registry changes h).drain e t.pending = .error err) t := by
  subst hchanges
  have hcases := @decodeElements_cases sdk registry h e t hh (by omega) hmore
  cases hd : decodeElements sdk registry t with
  | mk result t' =>
    rw [hd] at hcases
    dsimp only at hcases
    simp only [decodeQueued, EStateM.wp_bind, EStateM.wp_get, hd, EStateM.wp_set,
      EStateM.wp_require, EStateM.wp_pure, decide_eq_true_eq]
    rcases hcases with ⟨rfl, e', n, hdrain, hprogress⟩ | ⟨err, ⟨hready, hdrain⟩, hresult⟩
    · rw [if_pos rfl]
      refine ⟨e', t'.pending, ⟨hprogress.held, hprogress.context.changeEntries, rfl, ?_,
        hprogress.pointsTo hpoints⟩, hdrain, ?_⟩
      · exact (elementParser sdk registry t.changeEntries h).next_of_drain_eq_ok hdrain
      · have hdecoded := hprogress.decoded
        have hstart : e'.outputs.length - t'.bufferOutputLen = e.outputs.length := by omega
        rw [hprogress.held.buffered, hstart]
        exact Elements.txOutputs_of_prefix hprogress.outputs_prefix
    · have hne : result ≠ TxState.ready := by
        rw [hresult]
        split_ifs
        · decide
        · exact hready
      rw [if_neg hne]
      exact ⟨err, hdrain⟩

/-- A chunk that is queued leaves the record standing for the same elements. -/
theorem held_queue {data : Bytes} (hh : Held sdk h e t)
    (hfit : t.bufferLen + data.length ≤ bufferCells) : Held sdk h e (t.queue data) :=
  { hh with
    length_buffer := by
      rw [length_buffer_queue (hh.length_buffer ▸ hfit), hh.length_buffer]
    bufferLen_le := hfit }

/-- The review starts anew with each chunk. -/
theorem held_restart (hh : Held sdk h e t) :
    Held sdk h e { t with displayIndex := 0, bufferOutputLen := 0 } :=
  { hh with
    bufferOutputLen_le := Nat.zero_le _
    buffered := by simp [← Elements.length_txOutputs] }

/-- The later chunks are fed to the parser. -/
theorem wp_feedNext (hw : Waiting sdk registry h e p t changes) {chunks : List Bytes}
    (hchunks : ∀ c ∈ chunks, 1 ≤ c.length ∧ c.length ≤ 255) :
    (feedNext sdk registry chunks).wp
      (fun outputs t' => ∃ e' r, Waiting sdk registry h e' r t' changes ∧
        (elementParser sdk registry changes h).feedAll (e, p) chunks = .ok (e', r) ∧
        e'.txOutputs = e.txOutputs ++ outputs)
      (fun _ _ => ∃ err, (elementParser sdk registry changes h).feedAll (e, p) chunks = .error err)
      t := by
  induction chunks generalizing e p t with
  | nil => exact (EStateM.wp_pure _).2 ⟨e, p, hw, rfl, (List.append_nil _).symm⟩
  | cons c cs ih =>
    obtain ⟨⟨hc, hc'⟩, hcs⟩ := List.forall_mem_cons.1 hchunks
    have hlen := hw.bufferLen_lt
    have hrestart := held_restart hw.held
    have hfit : t.bufferLen + c.length ≤ bufferCells := by
      rw [bufferCells]
      omega
    have hwf : (Buffer.ofBytes c).Wf := Buffer.wf_ofBytes (by rw [sizeMod]; omega)
    simp only [feedNext, queueNext, EStateM.wp_bind, EStateM.wp_modify, EStateM.wp_pure]
    rw [wp_copyToDecodeBuffer hwf (by simpa using hfit), Buffer.rest_ofBytes]
    generalize hq : TxInfo.queue c { t with displayIndex := 0, bufferOutputLen := 0 } = t₁
    have hheld : Held sdk h e t₁ := hq ▸ held_queue hrestart hfit
    have hpending : t₁.pending = p ++ c := by
      rw [← hq, ← hw.pending]
      exact pending_queue hrestart.bufferLen_le_length
    have hpoints : PointsTo registry e t₁ := hq ▸ ⟨hw.pointsTo.lt_len, hw.pointsTo.uids⟩
    have hchanges : t₁.changeEntries = changes := hq ▸ hw.changeEntries
    have hne : t₁.pending ≠ [] := by
      rw [hpending, ← List.length_pos_iff, List.length_append]
      omega
    have hlen₁ : t₁.bufferLen < 320 := by
      have := hheld.bufferLen_le
      rw [bufferCells] at this
      omega
    refine EStateM.wp_mono ?_ ?_
      (wp_decodeQueued hheld hpoints hchanges (by rw [← hq]; rfl) hlen₁ (.inl hne))
    · rintro outputs t₂ ⟨e', r, hw', hdrain, houtputs⟩
      rw [hpending] at hdrain
      have hfed : (elementParser sdk registry changes h).feedAll (e, p) (c :: cs) =
          (elementParser sdk registry changes h).feedAll (e', r) cs := by
        rw [StepParser.feedAll, StepParser.feed, hdrain]
        rfl
      rw [hfed]
      refine EStateM.wp_mono ?_ (fun _ _ => id) (ih hw' hcs)
      rintro more t₃ ⟨e'', r', hw'', hrest, hmore⟩
      exact ⟨e'', r', hw'', hrest, by rw [hmore, houtputs, List.append_assoc]⟩
    · rintro _ _ ⟨err, hdrain⟩
      rw [hpending] at hdrain
      exact ⟨err, by rw [StepParser.feedAll, StepParser.feed, hdrain]; rfl⟩

@[simp] theorem changeEntries_withChanges (changes : List ChangeOutputInfo) :
    (TxInfo.withChanges changes).changeEntries = changes := by
  simp [TxInfo.withChanges, TxInfo.changeEntries]

/-- After the header the record stands for no elements yet. -/
theorem held_enter {t : TxInfo} (hlen : t.buffer.length = bufferCells) (hbuffer : t.bufferLen = 0)
    (htokens : t.tokens = []) (hcurrent : t.currentOutput = 0)
    (hcells : t.outputs.length = outputCells) (houtputs : t.bufferOutputLen = 0) :
    Held sdk h {} (h.enter t) where
  inOrder := Elements.inOrder_empty h
  accepted := fun i o ho => by simp at ho
  length_buffer := hlen
  bufferLen_le := by simp [Header.enter, hbuffer]
  remainingTokens := rfl
  remainingInputs := rfl
  outputsLen := rfl
  currentOutput := hcurrent
  tokensLen := by simp [Header.enter, htokens]
  length_outputs := hcells
  bufferOutputLen_le := houtputs.le
  buffered := by simp [Header.enter, houtputs, Elements.txOutputs]

/-- The parser reads all chunks of a transaction as one string. -/
theorem wp_feedTransaction {first : Bytes} {chunks : List Bytes}
    (houtputs : 1 ≤ h.outputs.toNat) (hfirst : (h.bytes ++ first).length ≤ 255)
    (hchunks : ∀ c ∈ chunks, 1 ≤ c.length ∧ c.length ≤ 255) :
    (feedTransaction sdk registry (h.bytes ++ first) chunks).wp
      (fun outputs t => ∃ e r, Waiting sdk registry h e r t changes ∧
        (elementParser sdk registry changes h).drain {} (first ++ chunks.flatten) = .ok (e, r) ∧
        e.txOutputs = outputs)
      (fun _ _ => ∃ err,
        (elementParser sdk registry changes h).drain {} (first ++ chunks.flatten) = .error err)
      (.withChanges changes) := by
  have hwf : (Buffer.ofBytes (h.bytes ++ first)).Wf := Buffer.wf_ofBytes (by rw [sizeMod]; omega)
  have hrest := Buffer.rest_ofBytes (h.bytes ++ first)
  have hrest₅ : ((Buffer.ofBytes (h.bytes ++ first)).advance 5).rest = first := by
    rw [Buffer.rest_advance, hrest]
    rfl
  have hwf₅ := hwf.advance (n := 5) (by rw [hrest]; simp [Header.bytes])
  have hlen : first.length ≤ 255 := by
    rw [List.length_append] at hfirst
    omega
  have hheld : Held sdk h {} (h.enter (.withChanges changes)) :=
    held_enter (by simp [TxInfo.withChanges]) rfl rfl rfl (by simp [TxInfo.withChanges]) rfl
  have hfit : (h.enter (.withChanges changes)).bufferLen + first.length ≤ bufferCells := by
    simp only [Header.enter, TxInfo.withChanges, bufferCells]
    omega
  simp only [feedTransaction, queueFirst, EStateM.wp_bind, EStateM.wp_pure]
  rw [wp_readTxData hwf hrest, wp_copyToDecodeBuffer hwf₅ (by rw [hrest₅]; exact hfit), hrest₅]
  generalize hq : TxInfo.queue first (h.enter (.withChanges changes)) = t
  have hheld₁ : Held sdk h {} t := hq ▸ held_queue hheld hfit
  have hpending : t.pending = first := by
    rw [← hq, pending_queue hheld.bufferLen_le_length]
    rfl
  have hlen₁ : t.bufferLen < 320 := by
    have := hheld₁.bufferLen_le
    rw [bufferCells] at this
    omega
  have hsome : Elements.nextKind h {} ≠ none := by
    rw [ne_eq, Elements.nextKind_eq_none_iff]
    rintro ⟨-, -, h0⟩
    simp only [List.length_nil] at h0
    omega
  have hpoints : PointsTo registry {} t := by
    subst hq
    constructor <;> simp [TxInfo.queue, Header.enter, TxInfo.withChanges]
  have hchanges : t.changeEntries = changes := by
    subst hq
    exact changeEntries_withChanges changes
  refine EStateM.wp_mono ?_ ?_
    (wp_decodeQueued hheld₁ hpoints hchanges (by rw [← hq]; rfl) hlen₁ (.inr hsome))
  · rintro outputs t₁ ⟨e, r, hw, hdrain, hdecoded⟩
    rw [hpending] at hdrain
    have hfed : (elementParser sdk registry changes h).drain {} (first ++ chunks.flatten) =
        (elementParser sdk registry changes h).feedAll (e, r) chunks := by
      rw [StepParser.feedAll_eq_drain _ hw.more, StepParser.drain_append, hdrain]
      rfl
    rw [hfed]
    refine EStateM.wp_mono ?_ (fun _ _ => id) (wp_feedNext hw hchunks)
    rintro more t₂ ⟨e', r', hw', hrest', hmore⟩
    exact ⟨e', r', hw', hrest', by rw [hmore, hdecoded]; rfl⟩
  · rintro _ _ ⟨err, hdrain⟩
    rw [hpending] at hdrain
    exact ⟨err, by rw [StepParser.drain_append, hdrain]; rfl⟩

end Feed

/-- The decoder accepts exactly the grammar, however the bytes are cut into chunks: the chunks are
accepted, with all announced outputs decoded and nothing left pending, if and only if they make up a
transaction, and then the tokens and the outputs of the record are those of the transaction. -/
theorem feedTransaction_accepts_iff (changes : List ChangeOutputInfo) (h : Header)
    (htokens : h.tokens.toNat ≤ txMaxTokens) (houtputs : 1 ≤ h.outputs.toNat) (first : Bytes)
    (hfirst : (h.bytes ++ first).length ≤ 255) (chunks : List Bytes)
    (hchunks : ∀ c ∈ chunks, 1 ≤ c.length ∧ c.length ≤ 255) (uids : List Bytes)
    (outputs : List TxOutput) :
    (∃ t, (feedTransaction sdk registry (h.bytes ++ first) chunks).run (.withChanges changes) =
        .ok outputs t ∧ t.currentOutput = t.outputsLen ∧ t.bufferLen = 0 ∧
        t.tokensLen ≤ txMaxTokens ∧
        t.tokens.map (fun i => (registry.tokens.getD i {}).uid) = uids) ↔
      ∃ e, IsTransaction sdk registry changes h e (h.bytes ++ first ++ chunks.flatten) ∧
        uids = e.uids.map Subtype.val ∧ outputs = e.txOutputs := by
  have hfeed := @wp_feedTransaction sdk registry h changes first chunks houtputs hfirst hchunks
  rw [List.append_assoc]
  constructor
  · rintro ⟨t, hrun, hcurrent, hbuffer, -, rfl⟩
    rw [EStateM.wp, hrun] at hfeed
    obtain ⟨e, r, hw, hdrain, rfl⟩ := hfeed
    have hr : r = [] := by
      rw [← hw.pending, ← List.length_eq_zero_iff, hw.held.length_pending, hbuffer]
    subst hr
    have hall : e.outputs.length = h.outputs.toNat := by
      rw [← hw.held.currentOutput, hcurrent, hw.held.outputsLen]
    have hne : e.outputs ≠ [] := by
      rw [← List.length_pos_iff]
      omega
    have hnone : e.nextKind h = none := Elements.nextKind_eq_none_iff.2
      ⟨(hw.held.inOrder.uids_of_outputs hne).ge, (hw.held.inOrder.inputs_of_outputs hne).ge, hall.ge⟩
    exact ⟨e, drain_eq_ok_iff_isTransaction.1 ⟨hdrain, hall, hnone⟩, hw.pointsTo.uids, rfl⟩
  · rintro ⟨e, ht, rfl, rfl⟩
    obtain ⟨hdrain, hall, -⟩ := drain_eq_ok_iff_isTransaction.2 ht
    rw [EStateM.wp] at hfeed
    cases hrun : (feedTransaction sdk registry (h.bytes ++ first) chunks).run
        (.withChanges changes) with
    | error err t =>
      rw [hrun] at hfeed
      obtain ⟨err', herr⟩ := hfeed
      rw [hdrain] at herr
      cases herr
    | ok outputs t =>
      rw [hrun] at hfeed
      obtain ⟨e', r, hw, hdrain', rfl⟩ := hfeed
      rw [hdrain, Except.ok.injEq, Prod.mk.injEq] at hdrain'
      obtain ⟨rfl, rfl⟩ := hdrain'
      refine ⟨t, rfl, ?_, ?_, ?_, hw.pointsTo.uids⟩
      · rw [hw.held.currentOutput, hall, hw.held.outputsLen]
      · rw [← hw.held.length_pending, hw.pending]
        rfl
      · rw [TxInfo.tokensLen, hw.held.tokensLen, ht.length_uids]
        exact htokens

/-- An output of 0.05 HTR. -/
def sampleOutput : WireOutput where
  valueField := [0, 0, 0, 5]
  tokenData := 0
  pubkeyHash := List.replicate 20 9
  length_valueField := rfl
  length_pubkeyHash := rfl

/-- The header of a transaction with one output and nothing else. -/
def sampleHeader : Header := ⟨0, 1, 0, 0, 1⟩

/-- A transaction with one output, cut behind the header and inside the output. -/
theorem feedTransaction_accepts_sampleOutput :
    ∃ t, (feedTransaction Sdk.sample {} (sampleHeader.bytes ++ [])
        [sampleOutput.bytes.take 10, sampleOutput.bytes.drop 10]).run (.withChanges []) =
      .ok [sampleOutput.output 0] t ∧ t.currentOutput = t.outputsLen ∧ t.bufferLen = 0 ∧
      t.tokensLen ≤ txMaxTokens ∧
      t.tokens.map (fun i => (({} : TokenDataCtx).tokens.getD i {}).uid) = [] :=
  (feedTransaction_accepts_iff Sdk.sample {} [] sampleHeader (by decide) (by decide) []
    (by decide) [sampleOutput.bytes.take 10, sampleOutput.bytes.drop 10] (by decide) []
    [sampleOutput.output 0]).2
    ⟨{ outputs := [sampleOutput] }, {
      stream_eq := by decide
      length_uids := rfl
      length_inputs := rfl
      length_outputs := rfl
      registered := by simp
      accepted := fun i o ho => by
        obtain ⟨rfl, rfl⟩ : i = 0 ∧ o = sampleOutput := by
          cases i with
          | zero => exact ⟨rfl, (Option.some.inj ho).symm⟩
          | succ i => simp at ho
        exact ⟨by decide, by decide, by simp⟩ }, rfl, rfl⟩

end HathorLedger
