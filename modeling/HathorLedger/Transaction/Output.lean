import HathorLedger.Transaction.Grammar

/-!
# Outputs

What `parse_output` decides about a byte string: it accepts exactly the strings that start with an
output, asks for more bytes only while fewer than the longest output are there, and does not change
its decision when more bytes follow.

## Main definitions

* `IsValueField`, `StartsWithOutput`: the byte strings of values and of outputs.
* `serializedValue`: the value field of an amount.

## Main results

* `parseOutput_decides`: the decisions of `parse_output`; amounts from 1 to `2 ^ 63` are read back.
-/

namespace HathorLedger

/-- The two forms of a value field: four bytes with the first bit clear hold the value, and eight
bytes with the first bit set hold the negated value. -/
def IsValueField (field : Bytes) (value : ℕ) : Prop :=
  field.length = 4 ∧ byteAt field 0 < 0x80 ∧ value = beValue field ∨
    field.length = 8 ∧ 0x80 ≤ byteAt field 0 ∧ value = 2 ^ 64 - beValue field

/-- The byte string starts with an output of `k` bytes: a value, the token data, the length of the
script, and a P2PKH script. -/
def StartsWithOutput (b : Bytes) (output : TxOutput) (k : ℕ) : Prop :=
  ∃ (field pubkeyHash rest : Bytes) (value : ℕ) (tokenData : UInt8),
    b = field ++ tokenData :: 0 :: 25 :: (p2pkh.take 3 ++ pubkeyHash ++ p2pkh.drop 3) ++ rest ∧
      IsValueField field value ∧ pubkeyHash.length = pubkeyHashLen ∧
      output = { value, tokenData, pubkeyHash } ∧ k = field.length + 28

/-- The value field that the description of the transaction format gives for an amount. -/
def serializedValue (value : ℕ) : Bytes :=
  if value < 2 ^ 31 then beBytes 4 value else beBytes 8 (2 ^ 64 - value)

/-! ### Value fields -/

theorem isValueField_iff {field : Bytes} {value : ℕ} :
    IsValueField field value ↔
      field.length = valueWidth field ∧ value = valueOf field := by
  unfold IsValueField valueWidth valueOf
  by_cases hbit : byteAt field 0 ≥ 0x80
  · rw [if_pos hbit, if_pos hbit]
    have hmod : field.length = 8 → (2 ^ 64 - beValue field) % 2 ^ 64 = 2 ^ 64 - beValue field := by
      intro hlen
      have hfirst := beValue_eq_byteAt hlen
      exact Nat.mod_eq_of_lt (by omega)
    constructor
    · rintro (⟨-, hclear, -⟩ | ⟨hlen, -, rfl⟩)
      · exact absurd hbit (not_le.2 hclear)
      · exact ⟨hlen, (hmod hlen).symm⟩
    · rintro ⟨hlen, rfl⟩
      exact .inr ⟨hlen, hbit, hmod hlen⟩
  · rw [if_neg hbit, if_neg hbit]
    constructor
    · rintro (⟨hlen, -, rfl⟩ | ⟨-, hset, -⟩)
      · exact ⟨hlen, rfl⟩
      · exact absurd hset hbit
    · rintro ⟨hlen, rfl⟩
      exact .inl ⟨hlen, not_le.1 hbit, rfl⟩

/-- The documented value field is one. -/
theorem isValueField_serializedValue {value : ℕ} (hpos : 1 ≤ value) (hle : value ≤ 2 ^ 63) :
    IsValueField (serializedValue value) value := by
  unfold serializedValue
  split_ifs with hsmall
  · have hvalue : beValue (beBytes 4 value) = value := by
      rw [beValue_beBytes, Nat.mod_eq_of_lt (by omega)]
    have hfirst := beValue_eq_byteAt (length_beBytes 4 value)
    exact .inl ⟨length_beBytes 4 value, by omega, hvalue.symm⟩
  · have hvalue : beValue (beBytes 8 (2 ^ 64 - value)) = 2 ^ 64 - value := by
      rw [beValue_beBytes, Nat.mod_eq_of_lt (by omega)]
    have hfirst := beValue_eq_byteAt (length_beBytes 8 (2 ^ 64 - value))
    have htail := beValue_lt (beBytes 8 (2 ^ 64 - value)).tail
    rw [List.length_tail, length_beBytes] at htail
    exact .inr ⟨length_beBytes 8 _, by omega, by omega⟩

theorem startsWithOutput_iff {b : Bytes} {output : TxOutput} {k : ℕ} :
    StartsWithOutput b output k ↔
      ∃ (o : WireOutput) (rest : Bytes), b = o.bytes ++ rest ∧ output = o.output 0 ∧
        k = o.bytes.length := by
  constructor
  · rintro ⟨field, pubkeyHash, rest, value, tokenData, hb, hfield, hhash, houtput, hk⟩
    obtain ⟨hwidth, rfl⟩ := isValueField_iff.1 hfield
    refine ⟨⟨field, tokenData, pubkeyHash, hwidth, hhash⟩, rest, hb, houtput, ?_⟩
    rw [hk, WireOutput.length_bytes, hwidth]
  · rintro ⟨o, rest, hb, houtput, hk⟩
    refine ⟨o.valueField, o.pubkeyHash, rest, valueOf o.valueField, o.tokenData, hb,
      isValueField_iff.2 ⟨o.length_valueField, rfl⟩, o.length_pubkeyHash, houtput, ?_⟩
    rw [hk, WireOutput.length_bytes, o.length_valueField]

/-! ### The decisions -/

/-- What `parse_output` decides about a byte string in front of other cells: it accepts the string
exactly if it starts with an output, asks for more only if the string is shorter than the longest
output, and keeps its decision when more bytes follow. -/
structure DecidesOutput (b : Bytes) : Prop where
  accepts_iff : ∀ (cells : Bytes) (output : TxOutput) (k : ℕ),
    parseOutput (b ++ cells) b.length = .ok (output, k) ↔ StartsWithOutput b output k
  size : ∀ (output : TxOutput) (k : ℕ), StartsWithOutput b output k → k = 32 ∨ k = 36
  asks : ∀ cells : Bytes, parseOutput (b ++ cells) b.length = .error TxState.ready → b.length < 36
  stable : ∀ more cells cells' : Bytes, (b ++ more).length < sizeMod →
    parseOutput (b ++ cells) b.length ≠ .error TxState.ready →
    parseOutput (b ++ more ++ cells') (b ++ more).length = parseOutput (b ++ cells) b.length

theorem parseOutput_append {b : Bytes} (h : b.length < sizeMod) (cells : Bytes) :
    parseOutput (b ++ cells) b.length =
      (scanOutput b).map fun o => (o.output 0, o.bytes.length) := by
  rw [parseOutput_eq (by simp) h, List.take_left]

/-- A scan that needs more bytes has seen fewer than the longest output has. -/
theorem length_lt_of_scanOutput {p : Bytes} (h : scanOutput p = .error TxState.ready) :
    p.length < 36 := by
  have hwidth := valueWidth_le p
  have hne : ¬Sw.txParsingFail = TxState.ready := by decide
  unfold scanOutput at h
  split_ifs at h with hshort h25 hscript hs
  · omega
  · exact absurd (Except.error.inj h) hne
  · omega
  · exact absurd (Except.error.inj h) hne

/-- A scan keeps its decision when more bytes follow. -/
theorem scanOutput_append {p : Bytes} (h : scanOutput p ≠ .error TxState.ready) (q : Bytes) :
    scanOutput (p ++ q) = scanOutput p := by
  cases hp : scanOutput p with
  | ok o =>
    rw [bytes_of_scanOutput hp, List.append_assoc]
    exact scanOutput_bytes o _
  | error e =>
    rcases scanOutput_eq_error hp with rfl | rfl
    · exact absurd hp h
    · exact scanOutput_append_of_fail q hp

theorem parseOutput_eq_ok_iff {b : Bytes} (h : b.length < sizeMod) (cells : Bytes)
    (output : TxOutput) (k : ℕ) :
    parseOutput (b ++ cells) b.length = .ok (output, k) ↔ StartsWithOutput b output k := by
  rw [parseOutput_append h, Except.map_eq_ok_iff, startsWithOutput_iff]
  constructor
  · rintro ⟨o, ho, heq⟩
    obtain ⟨rfl, rfl⟩ := Prod.mk.inj heq
    exact ⟨o, _, bytes_of_scanOutput ho, rfl, rfl⟩
  · rintro ⟨o, rest, rfl, rfl, rfl⟩
    exact ⟨o, scanOutput_bytes o rest, rfl⟩

/-- `parse_output` decides each byte string once and for all. -/
theorem decidesOutput {b : Bytes} (hb : b.length ≤ bufferCells) : DecidesOutput b := by
  have hlt : b.length < sizeMod := hb.trans_lt (by decide)
  refine ⟨parseOutput_eq_ok_iff hlt, ?_, fun cells h => ?_, fun more cells cells' hmore h => ?_⟩
  · rintro output k ⟨field, _, _, _, _, _, hfield, _, _, rfl⟩
    rcases hfield with ⟨hlen, -⟩ | ⟨hlen, -⟩
    · exact .inl (by rw [hlen])
    · exact .inr (by rw [hlen])
  · rw [parseOutput_append hlt, Except.map_eq_error_iff] at h
    exact length_lt_of_scanOutput h
  · rw [parseOutput_append hlt] at h ⊢
    rw [parseOutput_append hmore, scanOutput_append]
    intro hready
    rw [hready] at h
    exact h rfl

/-- The decisions of `parse_output`, and the amounts that it reads back from their documented
serialisation. -/
theorem parseOutput_decides :
    (∀ b : Bytes, b.length ≤ bufferCells → DecidesOutput b) ∧
    ∀ (value : ℕ) (tokenData : UInt8) (pubkeyHash rest cells b : Bytes),
      1 ≤ value → value ≤ 2 ^ 63 → pubkeyHash.length = pubkeyHashLen →
      b = serializedValue value ++
        tokenData :: 0 :: 25 :: (p2pkh.take 3 ++ pubkeyHash ++ p2pkh.drop 3) ++ rest →
      b.length < sizeMod →
      parseOutput (b ++ cells) b.length =
        .ok ({ value, tokenData, pubkeyHash }, (serializedValue value).length + 28) := by
  refine ⟨fun b hb => decidesOutput hb, ?_⟩
  intro value tokenData pubkeyHash rest cells b hpos hle hhash hb hlt
  rw [parseOutput_eq_ok_iff hlt]
  exact ⟨_, pubkeyHash, rest, value, tokenData, hb, isValueField_serializedValue hpos hle, hhash,
    rfl, rfl⟩

/-- An output of five units is read up to its end, and the three bytes behind it are left. -/
theorem parseOutput_decides_sample :
    DecidesOutput (serializedValue 5 ++
        0 :: 0 :: 25 :: (p2pkh.take 3 ++ List.replicate 20 9 ++ p2pkh.drop 3) ++ [1, 2, 3]) ∧
      parseOutput (serializedValue 5 ++
          0 :: 0 :: 25 :: (p2pkh.take 3 ++ List.replicate 20 9 ++ p2pkh.drop 3) ++ [1, 2, 3] ++ []) 35 =
        .ok ({ value := 5, tokenData := 0, pubkeyHash := List.replicate 20 9 }, 32) :=
  ⟨parseOutput_decides.1 _ (by decide),
    parseOutput_decides.2 5 0 (List.replicate 20 9) [1, 2, 3] [] _ (by decide) (by decide) rfl rfl
      (by decide)⟩

end HathorLedger
