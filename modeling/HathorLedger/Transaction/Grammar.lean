import HathorLedger.Transaction.Deserialize

/-!
# The serialisation of a transaction

The byte strings that `doc/TRANSACTION.md` describes: a header of five bytes, the UIDs of the
tokens, the inputs without data, and the outputs with a P2PKH script. Each element is a record that
carries its lengths, so that an ill-formed element cannot be built, and `bytes` is its
serialisation.

## Main definitions

* `TokenUid`, `WireInput`, `WireOutput`: the elements; `WireOutput.output` is the decoded output.
* `Header`, `Elements`: the announced counts, and what follows them.
* `scanOutput`: the parser of an output, as a function of the pending bytes.

## Main results

* `parseOutput_eq`: `parse_output` computes `scanOutput`.
* `scanOutput_bytes`, `bytes_of_scanOutput`: `scanOutput` accepts exactly the serialised outputs.
-/

namespace HathorLedger

/-! ### Elements -/

/-- The UID of a token. -/
abbrev TokenUid := { uid : Bytes // uid.length = tokenUidLen }

/-- An input without data: the hash of a transaction and the index of one of its outputs. -/
@[ext]
structure WireInput where
  txId : Bytes
  index : UInt8
  length_txId : txId.length = 32

/-- The serialised input, with the length of its data behind it. -/
def WireInput.bytes (i : WireInput) : Bytes := i.txId ++ [i.index, 0, 0]

@[simp] theorem WireInput.length_bytes (i : WireInput) : i.bytes.length = txInputLen := by
  simp [WireInput.bytes, i.length_txId, txInputLen]

/-- The width of the value at the front of an output: the first bit of the output tells it. -/
def valueWidth (p : Bytes) : ℕ := if byteAt p 0 ≥ 0x80 then 8 else 4

/-- The value of a value field; fields of eight bytes hold the negated value. -/
def valueOf (field : Bytes) : ℕ :=
  if byteAt field 0 ≥ 0x80 then (2 ^ 64 - beValue field) % 2 ^ 64 else beValue field

/-- An output: the field of its value, its token data and the hash in its script. -/
@[ext]
structure WireOutput where
  valueField : Bytes
  tokenData : UInt8
  pubkeyHash : Bytes
  length_valueField : valueField.length = valueWidth valueField
  length_pubkeyHash : pubkeyHash.length = pubkeyHashLen

namespace WireOutput

/-- The P2PKH script of the output. -/
def script (o : WireOutput) : Bytes := p2pkh.take 3 ++ o.pubkeyHash ++ p2pkh.drop 3

/-- The serialised output. -/
def bytes (o : WireOutput) : Bytes := o.valueField ++ o.tokenData :: 0 :: 25 :: o.script

/-- The decoded output, at a position of the transaction. -/
def output (o : WireOutput) (index : ℕ) : TxOutput where
  index := index
  value := valueOf o.valueField
  tokenData := o.tokenData
  pubkeyHash := o.pubkeyHash

@[simp] theorem output_index (o : WireOutput) (index : ℕ) : (o.output index).index = index := rfl

@[simp] theorem output_tokenData (o : WireOutput) (index : ℕ) :
    (o.output index).tokenData = o.tokenData := rfl

@[simp] theorem length_script (o : WireOutput) : o.script.length = 25 := by
  simp [script, p2pkh, o.length_pubkeyHash, pubkeyHashLen]

theorem length_bytes (o : WireOutput) :
    o.bytes.length = valueWidth o.valueField + 28 := by
  simp [bytes, o.length_valueField]

end WireOutput

theorem valueWidth_pos (p : Bytes) : 0 < valueWidth p := by
  unfold valueWidth
  split <;> decide

theorem valueWidth_le (p : Bytes) : valueWidth p ≤ 8 := by
  unfold valueWidth
  split <;> decide

theorem le_valueWidth (p : Bytes) : 4 ≤ valueWidth p := by
  unfold valueWidth
  split <;> decide

/-- The width depends on the first byte only. -/
theorem valueWidth_take {p : Bytes} {n : ℕ} (h : 0 < n) : valueWidth (p.take n) = valueWidth p := by
  cases n with
  | zero => omega
  | succ n => cases p <;> simp [valueWidth, byteAt]

theorem valueWidth_append {p : Bytes} (h : p ≠ []) (q : Bytes) :
    valueWidth (p ++ q) = valueWidth p := by
  cases p with
  | nil => exact absurd rfl h
  | cons b p => simp [valueWidth, byteAt]

/-! ### Transactions -/

/-- The header: the version and the announced numbers of tokens, inputs and outputs. -/
structure Header where
  versionHigh : UInt8
  versionLow : UInt8
  tokens : UInt8
  inputs : UInt8
  outputs : UInt8
  deriving DecidableEq

/-- The serialised header. -/
def Header.bytes (h : Header) : Bytes :=
  [h.versionHigh, h.versionLow, h.tokens, h.inputs, h.outputs]

/-- Elements of a transaction, each kind in its order. -/
@[ext]
structure Elements where
  uids : List TokenUid := []
  inputs : List WireInput := []
  outputs : List WireOutput := []

namespace Elements

/-- The serialised elements: the UIDs, the inputs and the outputs. -/
def bytes (e : Elements) : Bytes :=
  (e.uids.map Subtype.val).flatten ++ (e.inputs.map WireInput.bytes).flatten ++
    (e.outputs.map WireOutput.bytes).flatten

/-- The decoded outputs, each with its position as index. -/
def txOutputs (e : Elements) : List TxOutput := e.outputs.mapIdx fun i o => o.output i

@[simp] theorem length_txOutputs (e : Elements) : e.txOutputs.length = e.outputs.length := by
  simp [txOutputs]

/-- The outputs are numbered in order. -/
theorem index_of_txOutputs {e : Elements} {i : ℕ} {output : TxOutput}
    (h : e.txOutputs[i]? = some output) : output.index = i := by
  rw [txOutputs, List.getElem?_mapIdx, Option.map_eq_some_iff] at h
  obtain ⟨o, -, rfl⟩ := h
  rfl

/-- More outputs do not change the decoded ones. -/
theorem txOutputs_of_prefix {e e' : Elements} (h : e.outputs <+: e'.outputs) :
    e'.txOutputs = e.txOutputs ++ e'.txOutputs.drop e.outputs.length := by
  obtain ⟨more, hmore⟩ := h
  simp [txOutputs, ← hmore, List.mapIdx_append]

end Elements

/-! ### Scanning an output -/

/-- Whether the bytes that follow a position look like the P2PKH script. -/
def isScriptAt (p : Bytes) (offset : ℕ) : Bool :=
  p2pkh.take 3 = (p.drop offset).take 3 ∧
    p2pkh.drop 3 = (p.drop (offset + pubkeyHashLen + 3)).take 2

/-- The parser of an output on the pending bytes. It throws `TxState.ready` when bytes are missing
and `Sw.txParsingFail` when the script is not a P2PKH script. -/
def scanOutput (p : Bytes) : Except ℕ WireOutput :=
  if p.length < valueWidth p + 3 then .error TxState.ready
  else if beValue ((p.drop (valueWidth p + 1)).take 2) ≠ 25 then .error Sw.txParsingFail
  else if h : p.length < valueWidth p + 28 then .error TxState.ready
  else if isScriptAt p (valueWidth p + 3) then
    .ok {
      valueField := p.take (valueWidth p)
      tokenData := p.getD (valueWidth p) 0
      pubkeyHash := (p.drop (valueWidth p + 6)).take pubkeyHashLen
      length_valueField := by
        rw [valueWidth_take (valueWidth_pos p), List.length_take]
        omega
      length_pubkeyHash := by
        rw [List.length_take, List.length_drop, pubkeyHashLen]
        omega }
  else .error Sw.txParsingFail

/-! ### `parse_output` -/

theorem parseOutputValue_eq {b : Buffer} (h : b.Wf) (h0 : b.offset = 0) :
    parseOutputValue b =
      if b.rest.length < valueWidth b.rest then .error TxState.ready
      else .ok (valueOf (b.rest.take (valueWidth b.rest)), b.advance (valueWidth b.rest)) := by
  rw [parseOutputValue]
  by_cases hr : b.rest = []
  · have hlen : b.rest.length = 0 := by rw [hr]; rfl
    have hshort : b.rest.length < valueWidth b.rest := hlen ▸ valueWidth_pos b.rest
    rw [if_pos hshort, Buffer.readU64, Buffer.readU32, h.readUint_short (by omega),
      h.readUint_short (by omega)]
    split <;> rfl
  · rw [h.byteAt_ptr h0 hr]
    by_cases hb : byteAt b.rest 0 ≥ 0x80
    · have hw : valueWidth b.rest = 8 := if_pos hb
      have hv : valueOf (b.rest.take 8) = (2 ^ 64 - beValue (b.rest.take 8)) % 2 ^ 64 :=
        if_pos (by rwa [byteAt_take (by decide)])
      rw [if_pos hb, hw, hv]
      by_cases hlen : b.rest.length < 8
      · rw [if_pos hlen, Buffer.readU64, h.readUint_short hlen]
        rfl
      · rw [if_neg hlen, h.readU64_eq (by omega)]
        rfl
    · have hw : valueWidth b.rest = 4 := if_neg hb
      have hv : valueOf (b.rest.take 4) = beValue (b.rest.take 4) :=
        if_neg (by rwa [byteAt_take (by decide)])
      rw [if_neg hb, hw, hv]
      by_cases hlen : b.rest.length < 4
      · rw [if_pos hlen, Buffer.readU32, h.readUint_short hlen]
        rfl
      · rw [if_neg hlen, h.readU32_eq (by omega)]
        rfl

theorem validateP2pkhScript_eq {b : Buffer} (h : b.Wf) (scriptLen : ℕ) :
    validateP2pkhScript b scriptLen =
      if scriptLen ≠ 25 then .error Sw.txParsingFail
      else if b.rest.length < 25 then .error TxState.ready
      else if isScriptAt b.rest 0 then .ok () else .error Sw.txParsingFail := by
  rw [validateP2pkhScript, h.remaining]
  by_cases h25 : scriptLen = 25
  · by_cases hlen : b.rest.length < 25
    · simp [h25, hlen, not_le.2 hlen]
    · have hfront : (b.ptr.drop b.offset).take 3 = b.rest.take 3 := h.take_drop_ptr (by omega)
      have hback : (b.ptr.drop (b.offset + pubkeyHashLen + 3)).take 2 =
          (b.rest.drop (pubkeyHashLen + 3)).take 2 := by
        have hadv := (h.advance (n := 23) (by omega)).take_drop_ptr (n := 2)
          (by rw [Buffer.rest_advance, List.length_drop]; omega)
        rwa [Buffer.rest_advance] at hadv
      rw [hfront, hback]
      simp only [h25, ne_eq, not_true_eq_false, if_false, hlen, isScriptAt, List.drop_zero,
        Nat.zero_add, not_lt.1 hlen, decide_true, Except.require_true, Except.ok_bind]
      exact Except.require_eq _ _
  · simp [h25]

/-- `parse_output` computes `scanOutput`. -/
theorem parseOutput_eq {input : Bytes} {inlen : ℕ} (hle : inlen ≤ input.length)
    (hlt : inlen < sizeMod) :
    parseOutput input inlen =
      (scanOutput (input.take inlen)).map fun o => (o.output 0, o.bytes.length) := by
  rw [parseOutput]
  generalize hb : ({ ptr := input, size := inlen, offset := 0 } : Buffer) = b
  have hwf : b.Wf := by subst hb; exact ⟨hle, Nat.zero_le _, hlt⟩
  have h0 : b.offset = 0 := by subst hb; rfl
  have hrest : b.rest = input.take inlen := by subst hb; simp [Buffer.rest]
  rw [← hrest, parseOutputValue_eq hwf h0]
  clear hb hrest hle hlt
  generalize hp : b.rest = p at *
  have hw := valueWidth_pos p
  by_cases hvalue : p.length < valueWidth p
  · rw [if_pos hvalue, scanOutput, if_pos (by omega)]
    rfl
  have hwf₁ : (b.advance (valueWidth p)).Wf := hwf.advance (by rw [hp]; omega)
  have hrest₁ : (b.advance (valueWidth p)).rest = p.drop (valueWidth p) := by
    rw [Buffer.rest_advance, hp]
  rw [if_neg hvalue, Except.ok_bind]
  dsimp only
  by_cases hdata : p.length < valueWidth p + 1
  · rw [hwf₁.readU8_nil (by rw [hrest₁, List.drop_eq_nil_of_le (by omega)]), scanOutput,
      if_pos (by omega)]
    rfl
  rw [hwf₁.readU8_eq (by rw [hrest₁, List.length_drop]; omega), hrest₁, byteAt_drop]
  have hwf₂ := hwf₁.advance (n := 1) (by rw [hrest₁, List.length_drop]; omega)
  have hrest₂ : ((b.advance (valueWidth p)).advance 1).rest = p.drop (valueWidth p + 1) := by
    rw [Buffer.rest_advance, hrest₁, List.drop_drop]
  simp only [Except.require_true, Except.ok_bind, Nat.add_zero]
  by_cases hlength : p.length < valueWidth p + 3
  · rw [Buffer.readU16, hwf₂.readUint_short (by rw [hrest₂, List.length_drop]; omega), scanOutput,
      if_pos hlength]
    rfl
  rw [hwf₂.readU16_eq (by rw [hrest₂, List.length_drop]; omega), hrest₂]
  have hwf₃ := hwf₂.advance (n := 2) (by rw [hrest₂, List.length_drop]; omega)
  have hrest₃ : (((b.advance (valueWidth p)).advance 1).advance 2).rest =
      p.drop (valueWidth p + 3) := by
    rw [Buffer.rest_advance, hrest₂, List.drop_drop]
  simp only [Except.require_true, Except.ok_bind]
  rw [validateP2pkhScript_eq hwf₃, hrest₃, scanOutput, if_neg hlength]
  by_cases h25 : beValue ((p.drop (valueWidth p + 1)).take 2) = 25
  · by_cases hscript : p.length < valueWidth p + 28
    · rw [if_neg (not_not.2 h25), if_pos (by rw [List.length_drop]; omega),
        if_neg (not_not.2 h25), dif_pos hscript]
      rfl
    · have hat : isScriptAt (p.drop (valueWidth p + 3)) 0 = isScriptAt p (valueWidth p + 3) := by
        simp [isScriptAt, List.drop_drop, Nat.add_assoc]
      rw [if_neg (not_not.2 h25), if_neg (by rw [List.length_drop]; omega),
        if_neg (not_not.2 h25), dif_neg hscript, hat]
      by_cases hs : isScriptAt p (valueWidth p + 3)
      · rw [if_pos hs, if_pos hs, h25]
        simp only [Except.ok_bind]
        rw [hwf₃.seekCur_eq (by rw [hrest₃, List.length_drop]; omega)]
        simp only [Except.require_true, Except.ok_bind]
        have hwf₄ := hwf₃.advance (n := 3) (by rw [hrest₃, List.length_drop]; omega)
        have hhash := hwf₄.take_drop_ptr (n := pubkeyHashLen)
          (by rw [Buffer.rest_advance, hrest₃, List.length_drop, List.length_drop, pubkeyHashLen];
              omega)
        rw [Buffer.rest_advance, hrest₃, List.drop_drop] at hhash
        simp only [Buffer.advance, h0, Nat.zero_add, Nat.add_assoc, Nat.reduceAdd] at hhash ⊢
        simp only [Except.map, WireOutput.output, WireOutput.length_bytes, hhash, byteAt,
          UInt8.ofNat_toNat, valueWidth_take hw, pure, Except.pure]
      · rw [if_neg hs, if_neg hs]
        rfl
  · rw [if_pos h25, if_pos h25]
    rfl

/-! ### What `scanOutput` accepts -/

theorem eq_of_beValue_eq {a : Bytes} (hlen : a.length = 2) (h : beValue a = 25) : a = [0, 25] := by
  match a, hlen with
  | [x, y], _ =>
    have hx := UInt8.toNat_lt x
    have hy := UInt8.toNat_lt y
    simp only [beValue, List.foldl_cons, List.foldl_nil, Nat.mul_zero, Nat.zero_add] at h
    have hx0 : x = 0 := UInt8.toNat_inj.1 (by simp; omega)
    have hy0 : y = 25 := UInt8.toNat_inj.1 (by simp; omega)
    rw [hx0, hy0]

/-- The parts behind the value field that a scan looks at make up an output. -/
theorem take_eq_of_isScriptAt {r : Bytes} (hlen : 28 ≤ r.length)
    (h25 : beValue ((r.drop 1).take 2) = 25) (hs : isScriptAt r 3) :
    r.take 28 = r.getD 0 0 :: 0 :: 25 ::
      (p2pkh.take 3 ++ (r.drop 6).take pubkeyHashLen ++ p2pkh.drop 3) := by
  have htwo : (r.drop 1).take 2 = [0, 25] :=
    eq_of_beValue_eq (by rw [List.length_take, List.length_drop]; omega) h25
  have hone : r.take 1 = [r.getD 0 0] := by
    cases r with
    | nil => simp at hlen
    | cons b r => simp
  simp only [isScriptAt, decide_eq_true_eq] at hs
  obtain ⟨hfront, hback⟩ := hs
  have hsplit : r.take (1 + 2 + 3 + 20 + 2) = r.take 1 ++ (r.drop 1).take 2 ++ (r.drop 3).take 3 ++
      (r.drop 6).take 20 ++ (r.drop 26).take 2 := by
    rw [List.take_add, List.take_add, List.take_add, List.take_add]
  have hback : p2pkh.drop 3 = (r.drop 26).take 2 := hback
  rw [hsplit, hone, htwo, ← hfront, ← hback]
  simp [pubkeyHashLen]

/-- What a scan accepts is the serialisation of the output it returns. -/
theorem bytes_of_scanOutput {p : Bytes} {o : WireOutput} (h : scanOutput p = .ok o) :
    p = o.bytes ++ p.drop o.bytes.length := by
  unfold scanOutput at h
  split_ifs at h with hshort h25 hscript hs
  have hw := valueWidth_pos p
  obtain rfl := Except.ok.inj h
  rw [WireOutput.length_bytes]
  simp only [valueWidth_take hw]
  conv_lhs => rw [← List.take_append_drop (valueWidth p + 28) p, List.take_add]
  rw [take_eq_of_isScriptAt (r := p.drop (valueWidth p)) (by rw [List.length_drop]; omega)
    (by rw [List.drop_drop]; exact not_not.1 h25)
    (by simpa [isScriptAt, List.drop_drop, Nat.add_assoc] using hs)]
  simp [WireOutput.bytes, WireOutput.script, List.getD_eq_getElem?_getD]

theorem scanOutput_bytes (o : WireOutput) (q : Bytes) : scanOutput (o.bytes ++ q) = .ok o := by
  have hfield := o.length_valueField
  have hne : o.valueField ≠ [] := by
    rw [← List.length_pos_iff, hfield]
    exact valueWidth_pos _
  have hw : valueWidth (o.bytes ++ q) = o.valueField.length := by
    rw [WireOutput.bytes, List.append_assoc, valueWidth_append hne, hfield]
  have hlen : (o.bytes ++ q).length = o.valueField.length + 28 + q.length := by
    rw [List.length_append, o.length_bytes, hfield]
  have hhash := o.length_pubkeyHash
  have hdrop : ∀ n, (o.bytes ++ q).drop (valueWidth (o.bytes ++ q) + n) =
      (o.tokenData :: 0 :: 25 :: (o.script ++ q)).drop n := by
    intro n
    rw [hw]
    simp [WireOutput.bytes]
  have h25 : beValue (((o.bytes ++ q).drop (valueWidth (o.bytes ++ q) + 1)).take 2) = 25 := by
    rw [hdrop]
    rfl
  have hs : isScriptAt (o.bytes ++ q) (valueWidth (o.bytes ++ q) + 3) := by
    simp only [isScriptAt, Nat.add_assoc, hdrop, decide_eq_true_eq]
    simp [WireOutput.script, p2pkh, pubkeyHashLen, hhash]
  unfold scanOutput
  rw [if_neg (by omega), if_neg (not_not.2 h25), dif_neg (by omega), if_pos hs, Except.ok.injEq]
  ext1
  · simp only [hw]
    simp [WireOutput.bytes]
  · simp only [hw]
    simp [WireOutput.bytes, List.getD_eq_getElem?_getD]
  · simp only [hdrop]
    simp [WireOutput.script, p2pkh, hhash]

/-- A rejection stands whatever bytes follow. -/
theorem scanOutput_append_of_fail {p : Bytes} (q : Bytes)
    (h : scanOutput p = .error Sw.txParsingFail) :
    scanOutput (p ++ q) = .error Sw.txParsingFail := by
  have hready : TxState.ready ≠ Sw.txParsingFail := by decide
  have hne : p ≠ [] := by
    rintro rfl
    exact hready (Except.error.inj h)
  have hw := valueWidth_append hne q
  have htake : ∀ i n, i + n ≤ p.length → ((p ++ q).drop i).take n = (p.drop i).take n := by
    intro i n hin
    rw [List.drop_append_of_le_length (by omega),
      List.take_append_of_le_length (by rw [List.length_drop]; omega)]
  unfold scanOutput at h ⊢
  simp only [hw, List.length_append]
  split_ifs at h with hshort h25 hlong hs
  · exact absurd (Except.error.inj h) hready
  · rw [if_neg (by omega), htake _ _ (by omega), if_pos h25]
  · exact absurd (Except.error.inj h) hready
  · have hnot : ¬isScriptAt (p ++ q) (valueWidth p + 3) := by
      simp only [isScriptAt] at hs ⊢
      rwa [htake _ _ (by omega), htake _ _ (by rw [pubkeyHashLen]; omega)]
    rw [if_neg (by omega), htake _ _ (by omega), if_neg h25, dif_neg (by omega), if_neg hnot]

/-- A scan that accepts nothing asks for more bytes or rejects the script. -/
theorem scanOutput_eq_error {p : Bytes} {e : ℕ} (h : scanOutput p = .error e) :
    e = TxState.ready ∨ e = Sw.txParsingFail := by
  unfold scanOutput at h
  split_ifs at h <;> simp_all

end HathorLedger
