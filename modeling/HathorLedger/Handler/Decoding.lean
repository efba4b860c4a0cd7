import HathorLedger.Library.WeakestPrecondition
import HathorLedger.Transaction.ElementParser

/-!
# The decoder refines the transaction parser

`_decode_elements` keeps its place in the transaction in counters that count down, shifts the
pending bytes to the front of a buffer of fixed size, and reports missing bytes and rejected bytes
by exceptions. `Held` says which header and which elements a transaction record stands for, and the
lemmas below show that the decoder makes the attempts of `elementParser` on the pending bytes.

## Main definitions

* `Held`: the record stands for the elements read so far of a transaction with a given header.
* `Progress`: the record went from some elements to more of them.
* `Halted`: an exception has stopped the decoder.

## Main results

* `wp_decodeElementsStep`: `_decode_elements` makes one attempt.
* `decodeElements_cases`: `decode_elements` drains the pending bytes.
* `decodeElements_progress`: where it stops, also by an exception.
* `decodeElements_of_succeeds`: it ends in one of its states, if the platform does not fail.
-/

namespace HathorLedger

open EStateM (wp)

variable (sdk : Sdk)

/-! ### Records and elements -/

/-- The record stands for the elements `e` of a transaction with header `h`. -/
structure Held (h : Header) (e : Elements) (t : TxInfo) : Prop where
  inOrder : e.InOrder h
  accepted : e.Accepted sdk t.changeEntries
  length_buffer : t.buffer.length = bufferCells
  bufferLen_le : t.bufferLen ≤ bufferCells
  remainingTokens : t.remainingTokens + e.uids.length = h.tokens.toNat
  remainingInputs : t.remainingInputs + e.inputs.length = h.inputs.toNat
  outputsLen : t.outputsLen = h.outputs.toNat
  currentOutput : t.currentOutput = e.outputs.length
  tokensLen : t.tokens.length = e.uids.length
  length_outputs : t.outputs.length = outputCells
  bufferOutputLen_le : t.bufferOutputLen ≤ e.outputs.length
  buffered : t.outputs.take t.bufferOutputLen =
    e.txOutputs.drop (e.outputs.length - t.bufferOutputLen)

/-- The record points to registered tokens with the UIDs of the elements. -/
structure PointsTo (registry : TokenDataCtx) (e : Elements) (t : TxInfo) : Prop where
  lt_len : ∀ i ∈ t.tokens, i < registry.len
  uids : t.tokens.map (fun i => (registry.tokens.getD i {}).uid) = e.uids.map Subtype.val

/-- The fields that the decoder leaves alone have kept their values. -/
structure SameContext (t t' : TxInfo) : Prop where
  sha256 : t'.sha256 = t.sha256
  sighashAll : t'.sighashAll = t.sighashAll
  changeLen : t'.changeLen = t.changeLen
  changeInfo : t'.changeInfo = t.changeInfo
  txVersion : t'.txVersion = t.txVersion
  outputsLen : t'.outputsLen = t.outputsLen
  displayIndex : t'.displayIndex = t.displayIndex
  confirmedOutputs : t'.confirmedOutputs = t.confirmedOutputs

theorem SameContext.rfl {t : TxInfo} : SameContext t t := by constructor <;> simp

theorem SameContext.trans {t t' t'' : TxInfo} (h : SameContext t t') (h' : SameContext t' t'') :
    SameContext t t'' := by
  constructor <;> simp [h'.sha256, h.sha256, h'.sighashAll, h.sighashAll, h'.changeLen,
    h.changeLen, h'.changeInfo, h.changeInfo, h'.txVersion, h.txVersion, h'.outputsLen,
    h.outputsLen, h'.displayIndex, h.displayIndex, h'.confirmedOutputs, h.confirmedOutputs]

theorem SameContext.changeEntries {t t' : TxInfo} (h : SameContext t t') :
    t'.changeEntries = t.changeEntries := by
  rw [TxInfo.changeEntries, TxInfo.changeEntries, h.changeLen, h.changeInfo]

/-- The record has gone from the elements `e` to the elements `e'`, which took `n` pending
bytes. -/
structure Progress (registry : TokenDataCtx) (h : Header) (e e' : Elements) (n : ℕ)
    (t t' : TxInfo) : Prop where
  held : Held sdk h e' t'
  context : SameContext t t'
  bufferLen : t'.bufferLen + n = t.bufferLen
  pending : t'.pending = t.pending.drop n
  decoded : e'.outputs.length + t.bufferOutputLen = e.outputs.length + t'.bufferOutputLen
  room : 32 * t'.bufferOutputLen + t'.bufferLen ≤ 32 * t.bufferOutputLen + t.bufferLen
  uids_prefix : e.uids <+: e'.uids
  inputs_prefix : e.inputs <+: e'.inputs
  outputs_prefix : e.outputs <+: e'.outputs
  pointsTo : PointsTo registry e t → PointsTo registry e' t'

theorem length_pending {t : TxInfo} (h : t.bufferLen ≤ t.buffer.length) :
    t.pending.length = t.bufferLen := by
  rw [TxInfo.pending, List.length_take, min_eq_left h]

@[simp] theorem consume_bufferOutputLen (n : ℕ) (t : TxInfo) :
    (t.consume n).bufferOutputLen = t.bufferOutputLen := rfl

/-- Taking `n` bytes away from the pending ones. -/
theorem consume_eq {t : TxInfo} {n : ℕ} (hlen : t.bufferLen ≤ t.buffer.length)
    (hn : n ≤ t.bufferLen) :
    ∃ buffer, t.consume n = { t with bufferLen := t.bufferLen - n, buffer } ∧
      buffer.length = t.buffer.length ∧ buffer.take (t.bufferLen - n) = t.pending.drop n := by
  refine ⟨_, by rw [TxInfo.consume, sizeSub_of_le hn], length_memmove ?_,
    take_memmove_drop hlen hn⟩
  rw [List.length_take, List.length_drop]
  omega

/-! ### One attempt -/

section Step

variable {sdk} {registry : TokenDataCtx} {h : Header} {e : Elements} {t : TxInfo}

theorem attempt_of_scan_error {changes : List ChangeOutputInfo} {p : Bytes} {k : ElementKind}
    {err : ℕ} (hk : e.nextKind h = some k) (hx : scanElement k p = .error err) :
    attempt sdk registry changes h e p = if err = TxState.ready then .more else .fail err := by
  simp only [attempt, hk, hx]

theorem attempt_of_check_error {changes : List ChangeOutputInfo} {p : Bytes} {x : Element}
    {err : ℕ} (hk : e.nextKind h = some x.kind) (hx : scanElement x.kind p = .ok x)
    (hcheck : checkElement sdk registry changes e x = .error err) :
    attempt sdk registry changes h e p = .fail err := by
  simp only [attempt, hk, hx, hcheck]

variable (sdk registry h e t)

/-- After an emission: the record has gone on by one element. -/
def Emitted (t' : TxInfo) : Prop :=
  ∃ n e', attempt sdk registry t.changeEntries h e t.pending = .emit n e' ∧
    Progress sdk registry h e e' n t t'

/-- After an exception: bytes are missing and the record is unchanged, or the bytes are rejected. -/
def Stopped (err : ℕ) (t' : TxInfo) : Prop :=
  attempt sdk registry t.changeEntries h e t.pending = .more ∧ err = TxState.ready ∧ t' = t ∨
    attempt sdk registry t.changeEntries h e t.pending = .fail err

variable {sdk registry h e t}

theorem Held.bufferLen_le_length (hh : Held sdk h e t) : t.bufferLen ≤ t.buffer.length :=
  hh.length_buffer ▸ hh.bufferLen_le

theorem Held.length_pending (hh : Held sdk h e t) : t.pending.length = t.bufferLen :=
  HathorLedger.length_pending hh.bufferLen_le_length

theorem Held.outputs_le (hh : Held sdk h e t) : e.outputs.length ≤ t.outputsLen := by
  rw [hh.outputsLen]
  exact hh.inOrder.outputs_le

/-- The decoded output at a position of the buffer. -/
theorem Held.getElem?_txOutputs (hh : Held sdk h e t) {d c : ℕ}
    (hd : d < t.bufferOutputLen) (hsum : c + t.bufferOutputLen = e.outputs.length + d) :
    e.txOutputs[c]? = some (t.outputs.getD d (sdk.pastOutputs d)) := by
  have hle := hh.bufferOutputLen_le
  have hindex : e.outputs.length - t.bufferOutputLen + d = c := by omega
  have htake : (t.outputs.take t.bufferOutputLen)[d]? = t.outputs[d]? := by
    rw [List.getElem?_take, if_pos hd]
  rw [hh.buffered, List.getElem?_drop, hindex] at htake
  have hlen : c < e.txOutputs.length := by
    rw [Elements.length_txOutputs]
    omega
  rw [List.getElem?_eq_getElem hlen] at htake ⊢
  rw [List.getD_eq_getElem?_getD, ← htake]
  rfl

/-- The token of a decoded output is one of those that were read. -/
theorem Held.tokenIndex_le (hh : Held sdk h e t) {d : ℕ} (hd : d < t.bufferOutputLen) :
    tokenIndex (t.outputs.getD d (sdk.pastOutputs d)).tokenData ≤ t.tokensLen := by
  have hle := hh.bufferOutputLen_le
  have hdecoded := hh.getElem?_txOutputs (c := e.outputs.length - t.bufferOutputLen + d) hd (by omega)
  rw [Elements.txOutputs, List.getElem?_mapIdx, Option.map_eq_some_iff] at hdecoded
  obtain ⟨o, ho, houtput⟩ := hdecoded
  obtain ⟨-, htoken, -⟩ := checkOutput_eq_ok_iff.1 (hh.accepted _ o ho)
  rw [← houtput, WireOutput.output_tokenData, TxInfo.tokensLen, hh.tokensLen]
  exact htoken

/-- The element `x` has been entered into the record `t₁`, and its bytes are still pending. -/
structure Entered (registry : TokenDataCtx) (h : Header) (e : Elements) (t : TxInfo) (x : Element)
    (t₁ : TxInfo) : Prop where
  context : SameContext t t₁
  buffer : t₁.buffer = t.buffer
  bufferLen : t₁.bufferLen = t.bufferLen
  remainingTokens : t₁.remainingTokens + (e.push x).uids.length = h.tokens.toNat
  remainingInputs : t₁.remainingInputs + (e.push x).inputs.length = h.inputs.toNat
  currentOutput : t₁.currentOutput = (e.push x).outputs.length
  tokensLen : t₁.tokens.length = (e.push x).uids.length
  length_outputs : t₁.outputs.length = t.outputs.length
  decoded : (e.push x).outputs.length + t.bufferOutputLen =
    e.outputs.length + t₁.bufferOutputLen
  buffered : t₁.outputs.take t₁.bufferOutputLen =
    (e.push x).txOutputs.drop ((e.push x).outputs.length - t₁.bufferOutputLen)
  room : 32 * t₁.bufferOutputLen ≤ 32 * t.bufferOutputLen + x.bytes.length
  pointsTo : PointsTo registry e t → PointsTo registry (e.push x) t₁

/-- An element that is in front of the pending bytes and satisfies its conditions is emitted. -/
theorem emitted_of_entered {x : Element} {t₁ : TxInfo} (hh : Held sdk h e t)
    (hk : e.nextKind h = some x.kind) (hscan : scanElement x.kind t.pending = .ok x)
    (hcheck : checkElement sdk registry t.changeEntries e x = .ok ())
    (hx : Entered registry h e t x t₁) :
    Emitted sdk registry h e t (t₁.consume x.bytes.length) := by
  have hn : x.bytes.length ≤ t.bufferLen := by
    rw [← hh.length_pending, (bytes_of_scanElement hscan).2, List.length_append]
    exact Nat.le_add_right _ _
  have hbuffer := hh.bufferLen_le_length
  obtain ⟨buffer, hconsume, hlength, hrest⟩ := @consume_eq t₁ x.bytes.length
    (by rw [hx.buffer, hx.bufferLen]; exact hbuffer) (by rw [hx.bufferLen]; exact hn)
  have hpending : t₁.pending = t.pending := by rw [TxInfo.pending, hx.buffer, hx.bufferLen]; rfl
  have hcontext : SameContext t (t₁.consume x.bytes.length) := by
    rw [hconsume]
    exact hx.context.trans (by constructor <;> rfl)
  have haccepted := hh.accepted.push hh.inOrder hk hcheck
  rw [← hcontext.changeEntries] at haccepted
  rw [hconsume] at hcontext haccepted ⊢
  have hdecoded := hx.decoded
  have hle := hh.bufferOutputLen_le
  have hroom := hx.room
  refine ⟨x.bytes.length, e.push x, attempt_eq_emit_iff.2 ⟨x, hk, hscan, hcheck, rfl, rfl⟩, ?_⟩
  exact {
    held := {
      inOrder := hh.inOrder.push hk
      accepted := haccepted
      length_buffer := by rw [hlength, hx.buffer, hh.length_buffer]
      bufferLen_le := by
        have := hh.bufferLen_le
        simp only [hx.bufferLen]
        omega
      remainingTokens := hx.remainingTokens
      remainingInputs := hx.remainingInputs
      outputsLen := hx.context.outputsLen.trans hh.outputsLen
      currentOutput := hx.currentOutput
      tokensLen := hx.tokensLen
      length_outputs := hx.length_outputs.trans hh.length_outputs
      bufferOutputLen_le := by
        simp only
        omega
      buffered := hx.buffered }
    context := hcontext
    bufferLen := by
      simp only [hx.bufferLen]
      omega
    pending := by
      rw [← hpending, ← hrest]
      rfl
    decoded := hx.decoded
    room := by
      simp only [hx.bufferLen]
      omega
    uids_prefix := e.uids_prefix_push x
    inputs_prefix := e.inputs_prefix_push x
    outputs_prefix := e.outputs_prefix_push x
    pointsTo := fun hp => ⟨(hx.pointsTo hp).lt_len, (hx.pointsTo hp).uids⟩ }

theorem wp_decodeToken (hh : Held sdk h e t) (hk : e.nextKind h = some .uid) :
    (decodeToken registry).wp (fun _ => Emitted sdk registry h e t)
      (Stopped sdk registry h e t) t := by
  have hpending := hh.length_pending
  simp only [decodeToken, EStateM.wp_bind, EStateM.wp_get, EStateM.wp_require, decide_eq_true_eq]
  split_ifs with hlen
  · obtain ⟨u, hu⟩ : ∃ u : TokenUid, t.pending.take tokenUidLen = u.val :=
      ⟨⟨_, List.length_take_of_le (hpending ▸ hlen)⟩, rfl⟩
    have hscan : scanElement .uid t.pending = .ok (.uid u) := by
      rw [← List.take_append_drop tokenUidLen t.pending, hu]
      exact scanElement_bytes (.uid u) _
    have huid : t.buffer.take tokenUidLen = u.val := by
      rw [← hu, TxInfo.pending, List.take_take, min_eq_left hlen]
    rw [huid]
    cases hfind : findTokenRegistryIndex registry u.val with
    | none =>
      exact (EStateM.wp_throw _).2
        (.inr (attempt_of_check_error (x := .uid u) hk hscan (by simp [checkElement, hfind])))
    | some i =>
      have hcheck : checkElement sdk registry t.changeEntries e (.uid u) = .ok () := by
        simp [checkElement, hfind]
      have hlt := Elements.nextKind_eq_uid_iff.1 hk
      have hremaining := hh.remainingTokens
      obtain ⟨hi, hreg⟩ := findTokenRegistryIndex_eq_some hfind
      simp only [EStateM.wp_bind, EStateM.wp_set, EStateM.wp_modify]
      have hemitted := @emitted_of_entered sdk registry h e t (.uid u)
        { t with tokens := t.tokens ++ [i], remainingTokens := t.remainingTokens - 1 } hh hk hscan
        hcheck {
          context := by constructor <;> rfl
          buffer := rfl
          bufferLen := rfl
          remainingTokens := by
            simp only [Elements.push, List.length_append, List.length_singleton]
            omega
          remainingInputs := hh.remainingInputs
          currentOutput := hh.currentOutput
          tokensLen := by simp [Elements.push, hh.tokensLen]
          length_outputs := rfl
          decoded := rfl
          buffered := hh.buffered
          room := Nat.le_add_right _ _
          pointsTo := fun hp => by
            refine ⟨fun j hj => ?_, ?_⟩
            · rcases List.mem_append.1 hj with hj | hj
              · exact hp.lt_len j hj
              · rwa [List.mem_singleton.1 hj]
            · simp only [Elements.push, List.map_append, hp.uids, List.map_cons, List.map_nil,
                hreg] }
      rwa [Element.bytes, u.property] at hemitted
  · have hscan : scanElement .uid t.pending = .error TxState.ready := by
      rw [scanElement, scanUid, dif_pos (by omega)]
      rfl
    exact .inl ⟨by rw [attempt_of_scan_error hk hscan, if_pos rfl], rfl, rfl⟩

theorem readU16Be_pending (hlen : t.bufferLen ≥ txInputLen) :
    readU16Be t.pending 33 = readU16Be t.buffer 33 := by
  rw [txInputLen] at hlen
  rw [readU16Be, readU16Be, TxInfo.pending, List.drop_take, List.take_take, min_eq_left (by omega)]

theorem wp_decodeInput (hh : Held sdk h e t) (hk : e.nextKind h = some .input) :
    decodeInput.wp (fun _ => Emitted sdk registry h e t) (Stopped sdk registry h e t) t := by
  have hpending := hh.length_pending
  simp only [decodeInput, EStateM.wp_bind, EStateM.wp_get, EStateM.wp_require, decide_eq_true_eq]
  split_ifs with hlen hdata
  · have hread := readU16Be_pending hlen
    obtain ⟨i, hi⟩ : ∃ i, scanInput t.pending = .ok i := by
      rw [scanInput, dif_neg (by omega), if_pos (hread.trans hdata)]
      exact ⟨_, rfl⟩
    have hscan : scanElement .input t.pending = .ok (.input i) := by
      rw [scanElement, hi]
      rfl
    obtain ⟨-, hlt⟩ := Elements.nextKind_eq_input_iff.1 hk
    have hremaining := hh.remainingInputs
    simp only [EStateM.wp_set, EStateM.wp_modify]
    have hemitted := @emitted_of_entered sdk registry h e t (.input i)
      { t with remainingInputs := t.remainingInputs - 1 } hh hk hscan rfl {
        context := by constructor <;> rfl
        buffer := rfl
        bufferLen := rfl
        remainingTokens := hh.remainingTokens
        remainingInputs := by
          simp only [Elements.push, List.length_append, List.length_singleton]
          omega
        currentOutput := hh.currentOutput
        tokensLen := hh.tokensLen
        length_outputs := rfl
        decoded := rfl
        buffered := hh.buffered
        room := Nat.le_add_right _ _
        pointsTo := fun hp => ⟨hp.lt_len, hp.uids⟩ }
    rwa [Element.bytes, WireInput.length_bytes] at hemitted
  · have hscan : scanElement .input t.pending = .error TxState.err := by
      rw [scanElement, scanInput, dif_neg (by omega), readU16Be_pending hlen, if_neg hdata]
      rfl
    exact .inr (by rw [attempt_of_scan_error hk hscan]; rfl)
  · have hscan : scanElement .input t.pending = .error TxState.ready := by
      rw [scanElement, scanInput, dif_pos (by omega)]
      rfl
    exact .inl ⟨by rw [attempt_of_scan_error hk hscan, if_pos rfl], rfl, rfl⟩

/-- The cells of an array up to a written one. -/
theorem take_set_append {α : Type*} {cells : List α} {a : α} {n : ℕ} (hn : n < cells.length) :
    (cells.set n a).take (n + 1) = cells.take n ++ [a] := by
  rw [List.take_add_one, List.take_set_of_le le_rfl, List.getElem?_set_self hn]
  rfl

theorem txOutputs_push (e : Elements) (o : WireOutput) :
    (e.push (.output o)).txOutputs = e.txOutputs ++ [o.output e.outputs.length] := by
  simp [Elements.txOutputs, Elements.push, List.mapIdx_append]

theorem wp_decodeOutput (hh : Held sdk h e t) (hk : e.nextKind h = some .output)
    (hroom : 32 * t.bufferOutputLen + t.bufferLen < 320) :
    (decodeOutput sdk).wp (fun _ => Emitted sdk registry h e t) (Stopped sdk registry h e t) t := by
  have hpending := hh.length_pending
  have hle := hh.bufferLen_le_length
  have hlt : t.bufferLen < sizeMod := hh.bufferLen_le.trans_lt (by decide)
  have hparse : parseOutput t.buffer t.bufferLen =
      (scanOutput t.pending).map fun o => (o.output 0, o.bytes.length) := parseOutput_eq hle hlt
  simp only [decodeOutput, EStateM.wp_bind, EStateM.wp_get, EStateM.wp_embed, hparse]
  cases hscan : scanOutput t.pending with
  | error err =>
    have hattempt : attempt sdk registry t.changeEntries h e t.pending =
        if err = TxState.ready then .more else .fail err :=
      attempt_of_scan_error hk (by rw [scanElement, hscan]; rfl)
    by_cases hready : err = TxState.ready
    · exact .inl ⟨by rw [hattempt, if_pos hready], hready, rfl⟩
    · exact .inr (by rw [hattempt, if_neg hready])
  | ok o =>
    have hscan : scanElement .output t.pending = .ok (.output o) := by
      rw [scanElement, hscan]
      rfl
    have hrejected : ∀ err, checkOutput sdk t.changeEntries e.uids.length e.outputs.length o =
        .error err → attempt sdk registry t.changeEntries h e t.pending = .fail err :=
      fun err => attempt_of_check_error (x := .output o) hk hscan
    have hindex : ({ o.output 0 with index := t.currentOutput } : TxOutput) =
        o.output e.outputs.length := by
      rw [hh.currentOutput]
      rfl
    simp only [Except.map, EStateM.wp_require, hindex]
    cases hauthority : isAuthority o.tokenData with
    | true =>
      have hcheck : checkOutput sdk t.changeEntries e.uids.length e.outputs.length o =
          .error TxState.err := by simp [checkOutput, hauthority]
      simpa [WireOutput.output, hauthority] using .inr (hrejected _ hcheck)
    | false =>
    by_cases htoken : tokenIndex o.tokenData ≤ t.tokensLen
    · have hcheck : checkOutput sdk t.changeEntries e.uids.length e.outputs.length o =
          verifyChanges sdk (o.output e.outputs.length) t.changeEntries := by
        have htoken' := htoken
        rw [TxInfo.tokensLen, hh.tokensLen] at htoken'
        simp [checkOutput, hauthority, htoken']
      rw [hcheck] at hrejected
      simp only [WireOutput.output_tokenData, hauthority, htoken, Bool.not_false, decide_true,
        if_true, EStateM.wp_set]
      cases hverify : verifyChanges sdk (o.output e.outputs.length) t.changeEntries with
      | error err => exact .inr (hrejected err hverify)
      | ok valid =>
        have hlong : 32 ≤ o.bytes.length := by
          have := le_valueWidth o.valueField
          rw [o.length_bytes]
          omega
        have hfits : o.bytes.length ≤ t.bufferLen := by
          rw [← hpending, (bytes_of_scanElement hscan).2, List.length_append]
          exact Nat.le_add_right _ _
        have hcell : t.bufferOutputLen < outputCells := by
          rw [outputCells]
          omega
        have hlast : t.currentOutput < 255 := by
          have hlt := (Elements.nextKind_eq_output_iff.1 hk).2.2
          have := UInt8.toNat_lt h.outputs
          rw [hh.currentOutput]
          omega
        simp only [EStateM.wp_modify, consume_bufferOutputLen, hcell, decide_true, if_true]
        exact @emitted_of_entered sdk registry h e t (.output o)
          { t with
            currentOutput := u8 (t.currentOutput + 1)
            outputs := t.outputs.set t.bufferOutputLen (o.output e.outputs.length)
            bufferOutputLen := t.bufferOutputLen + 1 } hh hk hscan (hcheck.trans hverify) {
          context := by constructor <;> rfl
          buffer := rfl
          bufferLen := rfl
          remainingTokens := hh.remainingTokens
          remainingInputs := hh.remainingInputs
          currentOutput := by
            simp only [Elements.push, List.length_append, List.length_singleton]
            rw [u8_of_lt (by omega), hh.currentOutput]
          tokensLen := hh.tokensLen
          length_outputs := List.length_set
          decoded := by
            simp only [Elements.push, List.length_append, List.length_singleton]
            omega
          buffered := by
            have hbuffered := hh.buffered
            have hle := hh.bufferOutputLen_le
            simp only [txOutputs_push]
            rw [take_set_append (by rw [hh.length_outputs]; exact hcell), hbuffered,
              List.drop_append_of_le_length (by simp [Elements.push])]
            simp [Elements.push]
          room := by
            simp only [Element.bytes]
            omega
          pointsTo := fun hp => ⟨hp.lt_len, hp.uids⟩ }
    · have hcheck : checkOutput sdk t.changeEntries e.uids.length e.outputs.length o =
          .error TxState.err := by
        rw [TxInfo.tokensLen, hh.tokensLen] at htoken
        simp [checkOutput, hauthority, htoken]
      simpa [WireOutput.output, hauthority, htoken] using .inr (hrejected _ hcheck)

/-- `_decode_elements` makes one attempt on the pending bytes. -/
theorem wp_decodeElementsStep (hh : Held sdk h e t)
    (hroom : 32 * t.bufferOutputLen + t.bufferLen < 320)
    (hmore : t.pending ≠ [] ∨ e.nextKind h ≠ none) :
    (decodeElementsStep sdk registry).wp
      (fun more t' => Emitted sdk registry h e t t' ∧ more = (t'.bufferLen != 0))
      (Stopped sdk registry h e t) t := by
  have htokens := hh.remainingTokens
  have hinputs := hh.remainingInputs
  have houtputs := hh.outputsLen
  have hcurrent := hh.currentOutput
  simp only [decodeElementsStep, EStateM.wp_bind, EStateM.wp_get, EStateM.wp_ite,
    EStateM.wp_pure, and_true]
  split_ifs with ht hi ho
  · exact wp_decodeToken hh (Elements.nextKind_eq_uid_iff.2 (by omega))
  · exact wp_decodeInput hh (Elements.nextKind_eq_input_iff.2 ⟨by omega, by omega⟩)
  · exact wp_decodeOutput hh (Elements.nextKind_eq_output_iff.2 ⟨by omega, by omega, by omega⟩)
      hroom
  · have hnone : e.nextKind h = none :=
      Elements.nextKind_eq_none_iff.2 ⟨by omega, by omega, by omega⟩
    have hpending := hmore.resolve_right (not_not.2 hnone)
    exact (EStateM.wp_throw _).2 (.inr (by simp [attempt, hnone, hpending]))

end Step

/-! ### The loop -/

section Loop

variable {sdk} {registry : TokenDataCtx} {h : Header} {e : Elements} {t : TxInfo}

theorem verifyChanges_ne_ready {output : TxOutput} {infos : List ChangeOutputInfo} {err : ℕ}
    (hverify : verifyChanges sdk output infos = .error err) : err ≠ TxState.ready := by
  induction infos with
  | nil => cases hverify
  | cons info infos ih =>
    rw [verifyChanges] at hverify
    split_ifs at hverify with hindex
    · cases hhash : pubkeyHashOfPath sdk info.path with
      | none =>
        simp only [verifyChange, hhash, Except.error_bind, Except.error.injEq] at hverify
        rw [← hverify]
        decide
      | some hash =>
        simp only [verifyChange, hhash, Except.ok_bind, Except.require_eq] at hverify
        split_ifs at hverify
        · exact ih hverify
        · rw [← Except.error.inj hverify]
          decide
    · exact ih hverify

theorem checkElement_ne_ready {changes : List ChangeOutputInfo} {x : Element} {err : ℕ}
    (hcheck : checkElement sdk registry changes e x = .error err) : err ≠ TxState.ready := by
  have herr : TxState.err ≠ TxState.ready := by decide
  cases x with
  | uid u =>
    rw [checkElement, Except.require_eq] at hcheck
    split_ifs at hcheck
    rwa [← Except.error.inj hcheck]
  | input i => cases hcheck
  | output o =>
    rw [checkElement, checkOutput, Except.require_eq, Except.require_eq] at hcheck
    split_ifs at hcheck
    · exact verifyChanges_ne_ready hcheck
    all_goals rwa [← Except.error.inj hcheck]

theorem attempt_ne_ready {changes : List ChangeOutputInfo} {p : Bytes} {err : ℕ}
    (hfail : attempt sdk registry changes h e p = .fail err) : err ≠ TxState.ready := by
  unfold attempt at hfail
  split at hfail
  · split_ifs at hfail
    rw [← ParseStep.fail.inj hfail]
    decide
  · split at hfail
    · split_ifs at hfail with hready
      rwa [← ParseStep.fail.inj hfail]
    · split at hfail
      · next hcheck =>
        rw [← ParseStep.fail.inj hfail]
        exact checkElement_ne_ready hcheck
      · cases hfail

/-- With no bytes pending, an attempt asks for more. -/
theorem attempt_nil {changes : List ChangeOutputInfo} :
    attempt sdk registry changes h e [] = .more := by
  cases hk : e.nextKind h with
  | none => simp [attempt, hk]
  | some k =>
    have hscan : scanElement k [] = .error TxState.ready := by cases k <;> rfl
    rw [attempt_of_scan_error hk hscan, if_pos rfl]

theorem Progress.refl (hh : Held sdk h e t) : Progress sdk registry h e e 0 t t where
  held := hh
  context := .rfl
  bufferLen := rfl
  pending := by rw [List.drop_zero]
  decoded := rfl
  room := le_rfl
  uids_prefix := List.prefix_rfl
  inputs_prefix := List.prefix_rfl
  outputs_prefix := List.prefix_rfl
  pointsTo := id

theorem Progress.trans {e' e'' : Elements} {n n' : ℕ} {t' t'' : TxInfo}
    (h₁ : Progress sdk registry h e e' n t t') (h₂ : Progress sdk registry h e' e'' n' t' t'') :
    Progress sdk registry h e e'' (n + n') t t'' where
  held := h₂.held
  context := h₁.context.trans h₂.context
  bufferLen := by
    have := h₁.bufferLen
    have := h₂.bufferLen
    omega
  pending := by rw [h₂.pending, h₁.pending, List.drop_drop]
  decoded := by
    have := h₁.decoded
    have := h₂.decoded
    omega
  room := h₂.room.trans h₁.room
  uids_prefix := h₁.uids_prefix.trans h₂.uids_prefix
  inputs_prefix := h₁.inputs_prefix.trans h₂.inputs_prefix
  outputs_prefix := h₁.outputs_prefix.trans h₂.outputs_prefix
  pointsTo := h₂.pointsTo ∘ h₁.pointsTo

variable (sdk registry h e t)

/-- The pending bytes have been drained, and the record has gone on accordingly. -/
def Drained (t' : TxInfo) : Prop :=
  ∃ e' n, (elementParser sdk registry t.changeEntries h).drain e t.pending = .ok (e', t'.pending) ∧
    Progress sdk registry h e e' n t t'

/-- The pending bytes have been rejected. -/
def Rejected (err : ℕ) : Prop :=
  err ≠ TxState.ready ∧
    (elementParser sdk registry t.changeEntries h).drain e t.pending = .error err

variable {sdk registry h e t}

/-- Draining goes on behind an emission. -/
theorem drained_of_emitted {t' : TxInfo} (hemitted : Emitted sdk registry h e t t') :
    ∃ e' n, 0 < n ∧ Progress sdk registry h e e' n t t' ∧
      (∀ t'', Drained sdk registry h e' t' t'' → Drained sdk registry h e t t'') ∧
      ∀ err, Rejected sdk registry h e' t' err → Rejected sdk registry h e t err := by
  obtain ⟨n, e', hemit, hprogress⟩ := hemitted
  have hdrain := StepParser.drain_of_emit (P := elementParser sdk registry t.changeEntries h) hemit
  rw [← hprogress.pending] at hdrain
  refine ⟨e', n, (elementParser sdk registry t.changeEntries h).emit_pos hemit, hprogress, ?_, ?_⟩
  · rintro t'' ⟨e'', n', hrest, hprogress'⟩
    rw [hprogress.context.changeEntries, ← hdrain] at hrest
    exact ⟨e'', n + n', hrest, hprogress.trans hprogress'⟩
  · rintro err ⟨hready, hrest⟩
    rw [hprogress.context.changeEntries, ← hdrain] at hrest
    exact ⟨hready, hrest⟩

/-- The loop of `decode_elements` drains the pending bytes. The loop ends before its bound, since
each element takes a pending byte. -/
theorem wp_decodeElementsLoop {n : ℕ} (hn : t.bufferLen < n) (hh : Held sdk h e t)
    (hroom : 32 * t.bufferOutputLen + t.bufferLen < 320)
    (hmore : t.pending ≠ [] ∨ e.nextKind h ≠ none) :
    (decodeElementsLoop sdk registry n).wp (fun _ => Drained sdk registry h e t)
      (fun err t' => err = TxState.ready ∧ Drained sdk registry h e t t' ∨
        Rejected sdk registry h e t err) t := by
  induction n generalizing e t with
  | zero => omega
  | succ n ih =>
    simp only [decodeElementsLoop, EStateM.wp_bind, EStateM.wp_ite, EStateM.wp_pure]
    refine EStateM.wp_mono ?_ ?_ (wp_decodeElementsStep hh hroom hmore)
    · rintro more t' ⟨hemitted, rfl⟩
      obtain ⟨e', k, hk, hprogress, hdrained, hrejected⟩ := drained_of_emitted hemitted
      have hlen := hprogress.bufferLen
      have hroom' := hprogress.room
      split_ifs with hmore'
      · have hpending : t'.pending ≠ [] := by
          rw [← List.length_pos_iff, hprogress.held.length_pending]
          exact Nat.pos_of_ne_zero (bne_iff_ne.1 hmore')
        refine EStateM.wp_mono (fun _ => hdrained) ?_
          (ih (by omega) hprogress.held (by omega) (.inl hpending))
        rintro err t'' (⟨hready, h'⟩ | h')
        · exact .inl ⟨hready, hdrained _ h'⟩
        · exact .inr (hrejected _ h')
      · have hpending : t'.pending = [] := by
          rw [← List.length_eq_zero_iff, hprogress.held.length_pending]
          simpa using hmore'
        refine hdrained t' ⟨e', 0, StepParser.drain_of_more ?_, .refl hprogress.held⟩
        rw [hpending]
        exact attempt_nil
    · rintro err t' (⟨hattempt, hready, rfl⟩ | hattempt)
      · exact .inl ⟨hready, e, 0, StepParser.drain_of_more hattempt, .refl hh⟩
      · exact .inr ⟨attempt_ne_ready hattempt, StepParser.drain_of_fail hattempt⟩

/-- `decode_elements` is ready when the pending bytes have been drained, and returns an error when
they are rejected. -/
theorem decodeElements_cases (hh : Held sdk h e t)
    (hroom : 32 * t.bufferOutputLen + t.bufferLen < 320)
    (hmore : t.pending ≠ [] ∨ e.nextKind h ≠ none) :
    ((decodeElements sdk registry t).1 = TxState.ready ∧
        Drained sdk registry h e t (decodeElements sdk registry t).2) ∨
      ∃ err, Rejected sdk registry h e t err ∧
        (decodeElements sdk registry t).1 = if err = Sw.txParsingFail then TxState.err else err := by
  have hloop := @wp_decodeElementsLoop sdk registry h e t _ (Nat.lt_succ_self t.bufferLen) hh hroom
    hmore
  rw [EStateM.wp] at hloop
  unfold decodeElements
  cases hrun : (decodeElementsLoop sdk registry (t.bufferLen + 1)).run t with
  | ok _ t' =>
    rw [hrun] at hloop
    exact .inl ⟨rfl, hloop⟩
  | error err t' =>
    rw [hrun] at hloop
    rcases hloop with ⟨rfl, hdrained⟩ | hrejected
    · exact .inl ⟨rfl, hdrained⟩
    · exact .inr ⟨err, hrejected, rfl⟩

/-- Behind the last element the decoder finds an error. -/
theorem decodeElements_of_nextKind_none (hh : Held sdk h e t) (hnone : e.nextKind h = none) :
    (decodeElements sdk registry t).1 = TxState.err := by
  obtain ⟨huids, hinputs, houtputs⟩ := Elements.nextKind_eq_none_iff.1 hnone
  have hloop : (decodeElementsLoop sdk registry (t.bufferLen + 1)).wp (fun _ _ => False)
      (fun err _ => err = TxState.err) t := by
    have htokens := hh.remainingTokens
    have hinputs' := hh.remainingInputs
    have hlen := hh.outputsLen
    have hcurrent := hh.currentOutput
    simp only [decodeElementsLoop, decodeElementsStep, EStateM.wp_bind, EStateM.wp_get,
      EStateM.wp_ite]
    rw [if_neg (by omega), if_neg (by omega), if_neg (by omega)]
    exact (EStateM.wp_throw _).2 rfl
  rw [EStateM.wp] at hloop
  unfold decodeElements
  cases hrun : (decodeElementsLoop sdk registry (t.bufferLen + 1)).run t with
  | ok _ t' =>
    rw [hrun] at hloop
    exact hloop.elim
  | error err t' =>
    rw [hrun] at hloop
    simp only [show err = TxState.err from hloop]
    decide

end Loop

/-! ### Where the decoder stops -/

section Halt

variable {sdk : Sdk} {registry : TokenDataCtx} {h : Header} {e : Elements} {t : TxInfo}

/-- Where the decoder stops with an exception, no further element was entered; at most an output was
counted. -/
inductive Halted (t : TxInfo) : TxInfo → Prop
  | unchanged : Halted t t
  | counted (hlt : t.currentOutput < t.outputsLen) :
    Halted t { t with currentOutput := t.currentOutput + 1 }

theorem halted_decodeOutput (hh : Held sdk h e t) (hlt : t.currentOutput < t.outputsLen)
    (hroom : 32 * t.bufferOutputLen + t.bufferLen < 320) :
    (decodeOutput sdk).wp (fun _ _ => True) (fun _ => Halted t) t := by
  have hpending := hh.length_pending
  have hparse : parseOutput t.buffer t.bufferLen =
      (scanOutput t.pending).map fun o => (o.output 0, o.bytes.length) :=
    parseOutput_eq hh.bufferLen_le_length (hh.bufferLen_le.trans_lt (by decide))
  have hbyte := UInt8.toNat_lt h.outputs
  have hlen := hh.outputsLen
  simp only [decodeOutput, EStateM.wp_bind, EStateM.wp_get, EStateM.wp_embed, hparse]
  cases hscan : scanOutput t.pending with
  | error err => exact .unchanged
  | ok o =>
    have hcell : t.bufferOutputLen < outputCells := by
      have hwidth := le_valueWidth o.valueField
      have hscan' : scanElement .output t.pending = .ok (.output o) := by
        rw [scanElement, hscan]
        rfl
      have hbytes := congrArg List.length (bytes_of_scanElement hscan').2
      rw [List.length_append, Element.bytes, o.length_bytes, hpending] at hbytes
      rw [outputCells]
      omega
    simp only [Except.map, EStateM.wp_require, EStateM.wp_set, EStateM.wp_modify,
      consume_bufferOutputLen, hcell, decide_true, if_true]
    rw [u8_of_lt (by omega)]
    split_ifs
    · split
      · trivial
      · exact .counted hlt
    · exact .unchanged
    · exact .unchanged

theorem halted_decodeElementsStep (hh : Held sdk h e t)
    (hroom : 32 * t.bufferOutputLen + t.bufferLen < 320) :
    (decodeElementsStep sdk registry).wp (fun _ _ => True) (fun _ => Halted t) t := by
  simp only [decodeElementsStep, EStateM.wp_bind, EStateM.wp_get, EStateM.wp_ite, EStateM.wp_pure]
  split_ifs with ht hi ho
  · simp only [decodeToken, EStateM.wp_bind, EStateM.wp_get, EStateM.wp_require]
    split_ifs
    · cases findTokenRegistryIndex registry (t.buffer.take tokenUidLen) with
      | none => exact (EStateM.wp_throw _).2 .unchanged
      | some i => simp only [EStateM.wp_bind, EStateM.wp_set, EStateM.wp_modify]
    · exact .unchanged
  · simp only [decodeInput, EStateM.wp_bind, EStateM.wp_get, EStateM.wp_require, EStateM.wp_set,
      EStateM.wp_modify]
    split_ifs <;> first | trivial | exact .unchanged
  · exact halted_decodeOutput hh ho hroom
  · exact (EStateM.wp_throw _).2 .unchanged

/-- At the end of the loop, also by an exception. -/
theorem halted_decodeElementsLoop {n : ℕ} (hh : Held sdk h e t)
    (hroom : 32 * t.bufferOutputLen + t.bufferLen < 320) :
    (decodeElementsLoop sdk registry n).wp
      (fun _ t' => ∃ e' k, Progress sdk registry h e e' k t t')
      (fun _ t' => ∃ e' k t₁, Progress sdk registry h e e' k t t₁ ∧ Halted t₁ t') t := by
  induction n generalizing e t with
  | zero => exact (EStateM.wp_pure _).2 ⟨e, 0, .refl hh⟩
  | succ n ih =>
    simp only [decodeElementsLoop, EStateM.wp_bind, EStateM.wp_ite, EStateM.wp_pure]
    by_cases hmore : t.pending ≠ [] ∨ e.nextKind h ≠ none
    · refine EStateM.wp_mono ?_ ?_ (EStateM.wp_and (wp_decodeElementsStep hh hroom hmore)
        (halted_decodeElementsStep hh hroom))
      · rintro more t' ⟨⟨hemitted, rfl⟩, -⟩
        obtain ⟨e', k, -, hprogress, -⟩ := drained_of_emitted hemitted
        have hlen := hprogress.bufferLen
        have hroom' := hprogress.room
        split_ifs
        · refine EStateM.wp_mono ?_ ?_ (ih hprogress.held (by omega))
          · rintro _ t'' ⟨e'', k', hrest⟩
            exact ⟨e'', _, hprogress.trans hrest⟩
          · rintro _ t'' ⟨e'', k', t₁, hrest, hhalted⟩
            exact ⟨e'', _, t₁, hprogress.trans hrest, hhalted⟩
        · exact ⟨e', k, hprogress⟩
      · rintro err t' ⟨-, hhalted⟩
        exact ⟨e, 0, t, .refl hh, hhalted⟩
    · rw [not_or, not_not, not_not] at hmore
      obtain ⟨huids, hinputs, houtputs⟩ := Elements.nextKind_eq_none_iff.1 hmore.2
      have htokens := hh.remainingTokens
      have hinputs' := hh.remainingInputs
      have hlen := hh.outputsLen
      have hcurrent := hh.currentOutput
      simp only [decodeElementsStep, EStateM.wp_bind, EStateM.wp_get, EStateM.wp_ite]
      rw [if_neg (by omega), if_neg (by omega), if_neg (by omega)]
      exact (EStateM.wp_throw _).2 ⟨e, 0, t, .refl hh, .unchanged⟩

/-- Whatever the result, the record has gone on to some elements, and at most an output was counted
in vain. -/
theorem decodeElements_progress (hh : Held sdk h e t)
    (hroom : 32 * t.bufferOutputLen + t.bufferLen < 320) :
    ∃ e' n t₁, Progress sdk registry h e e' n t t₁ ∧ Halted t₁ (decodeElements sdk registry t).2 := by
  have hloop := @halted_decodeElementsLoop sdk registry h e t (t.bufferLen + 1) hh hroom
  rw [EStateM.wp] at hloop
  unfold decodeElements
  cases hrun : (decodeElementsLoop sdk registry (t.bufferLen + 1)).run t with
  | ok _ t' =>
    rw [hrun] at hloop
    obtain ⟨e', n, hprogress⟩ := hloop
    exact ⟨e', n, t', hprogress, .unchanged⟩
  | error err t' =>
    rw [hrun] at hloop
    exact hloop

end Halt

/-! ### Errors -/

section Errors

variable {sdk} {registry : TokenDataCtx} {t : TxInfo}

/-- The exceptions that the decoder reports as `TX_STATE_READY` or `TX_STATE_ERR`. -/
def Reported (err : ℕ) : Prop := err = TxState.ready ∨ err = TxState.err ∨ err = Sw.txParsingFail

theorem throws_parseOutput (input : Bytes) (inlen : ℕ) :
    (parseOutput input inlen).Throws Reported := by
  have hready : Reported TxState.ready := .inl rfl
  have hfail : Reported Sw.txParsingFail := .inr (.inr rfl)
  have hvalue : ∀ buf, (parseOutputValue buf).Throws Reported := fun buf => by
    unfold parseOutputValue
    exact .ite (.bind (Except.throws_require _ hready) fun _ _ => Except.throws_ok _)
      (.bind (Except.throws_require _ hready) fun _ _ => Except.throws_ok _)
  have hscript : ∀ buf n, (validateP2pkhScript buf n).Throws Reported := fun buf n =>
    .bind (Except.throws_require _ hfail) fun _ _ =>
      .bind (Except.throws_require _ hready) fun _ _ => Except.throws_require _ hfail
  exact .bind (hvalue _) fun _ _ => .bind (Except.throws_require _ hready) fun _ _ =>
    .bind (Except.throws_require _ hready) fun _ _ => .bind (hscript _ _) fun _ _ =>
      .bind (Except.throws_require _ hfail) fun _ _ => Except.throws_ok _

theorem throws_verifyChanges (hsdk : sdk.Succeeds) (output : TxOutput)
    (infos : List ChangeOutputInfo) : (verifyChanges sdk output infos).Throws Reported := by
  have herr : Reported TxState.err := .inr (.inl rfl)
  induction infos with
  | nil => exact Except.throws_ok _
  | cons info infos ih =>
    have hverify : (verifyChange sdk info output).Throws Reported := by
      unfold verifyChange pubkeyHashOfPath
      cases hderive : sdk.derivePrivateKey info.path.components with
      | none => exact absurd hderive (hsdk.derivePrivateKey _)
      | some keys =>
        cases hkey : sdk.initPublicKey keys.1 with
        | none => exact absurd hkey (hsdk.initPublicKey _)
        | some publicKey =>
          simp only [Option.bind_eq_bind, Option.bind_some, hkey]
          exact Except.throws_ok _
    rw [verifyChanges]
    exact .ite (.bind hverify fun _ _ => .bind (Except.throws_require _ herr) fun _ _ => ih) ih

/-- If no call of the platform fails, the decoder ends in one of its two states. -/
theorem decodeElements_of_succeeds (hsdk : sdk.Succeeds) :
    (decodeElements sdk registry t).1 = TxState.ready ∨
      (decodeElements sdk registry t).1 = TxState.err := by
  have herr : Reported TxState.err := .inr (.inl rfl)
  have hready : Reported TxState.ready := .inl rfl
  have hembed : ∀ {α : Type} {x : Except ℕ α} {Q : α → TxInfo → Prop} {t : TxInfo},
      x.Throws Reported → (∀ a, Q a t) → (EStateM.embed x).wp Q (fun err _ => Reported err) t := by
    intro α x Q t hx hQ
    rw [EStateM.wp_embed]
    cases x with
    | ok a => exact hQ a
    | error e => exact hx e rfl
  have hrequire : ∀ {Q : Unit → TxInfo → Prop} {c : Bool} {err : ℕ} {t : TxInfo}, Reported err →
      Q () t → (EStateM.require c err).wp Q (fun err _ => Reported err) t := by
    intro Q c err t hreported hQ
    rw [EStateM.wp_require]
    split_ifs
    · exact hQ
    · exact hreported
  have hstep : ∀ t, (decodeElementsStep sdk registry).wp (fun _ _ => True)
      (fun err _ => Reported err) t := by
    intro t
    simp only [decodeElementsStep, EStateM.wp_bind, EStateM.wp_get, EStateM.wp_ite,
      EStateM.wp_pure, EStateM.wp_throw]
    split_ifs
    · simp only [decodeToken, EStateM.wp_bind, EStateM.wp_get]
      refine hrequire hready ?_
      cases findTokenRegistryIndex registry (t.buffer.take tokenUidLen) with
      | none => exact (EStateM.wp_throw _).2 herr
      | some i => simp only [EStateM.wp_bind, EStateM.wp_set, EStateM.wp_modify]
    · simp only [decodeInput, EStateM.wp_bind, EStateM.wp_get]
      refine hrequire hready (hrequire herr ?_)
      simp only [EStateM.wp_set, EStateM.wp_modify]
    · simp only [decodeOutput, EStateM.wp_bind, EStateM.wp_get]
      refine hembed (throws_parseOutput _ _) fun parsed => hrequire herr (hrequire herr ?_)
      refine (EStateM.wp_set _).2 (hembed (throws_verifyChanges hsdk _ _) fun _ => ?_)
      exact (EStateM.wp_modify _).2 (hrequire herr ((EStateM.wp_set _).2 trivial))
    · exact herr
  have hloop : ∀ n t, (decodeElementsLoop sdk registry n).wp (fun _ _ => True)
      (fun err _ => Reported err) t := by
    intro n
    induction n with
    | zero => exact fun t => (EStateM.wp_pure _).2 trivial
    | succ n ih =>
      intro t
      simp only [decodeElementsLoop, EStateM.wp_bind, EStateM.wp_ite, EStateM.wp_pure]
      refine EStateM.wp_mono (fun more t' _ => ?_) (fun _ _ => id) (hstep t)
      split_ifs
      exact ih t'
  have hrun := hloop (t.bufferLen + 1) t
  rw [EStateM.wp] at hrun
  unfold decodeElements
  cases hresult : (decodeElementsLoop sdk registry (t.bufferLen + 1)).run t with
  | ok _ t' => exact .inl rfl
  | error err t' =>
    rw [hresult] at hrun
    dsimp only
    rcases hrun with rfl | rfl | rfl
    · exact .inl rfl
    · exact .inr rfl
    · exact .inr rfl

end Errors

end HathorLedger
