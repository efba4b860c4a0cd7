import HathorLedger.Client.Path
import HathorLedger.Handler.Cuts

/-!
# Transactions in the client

The data that the client of the test suite sends: transactions and change information, with the
functions of `app_client/transaction.py` that serialise them. The integers of Python have no bounds,
so a serialisation fails where a number does not fit.

## Main definitions

* `TxInput`, `TxOutput`, `Transaction`, `ChangeInfo` and their serialisations.
* `Transaction.Spells`, `ChangeInfo.Spells`: the fields of a transaction, and of a change entry, in
  the terms of the wire format.

## Main results

* `serializesValue_iff`: which values the client sends in the form the device reads.
* `Transaction.Spells.serialize`, `ChangeInfo.Spells.serialize`, `ChangeInfo.Spells.oldProtoBytes`:
  what the client sends.
-/

namespace HathorLedger.Client

/-! ### Serialisations -/

/-- `TxInput`. The path is used for the signature only. -/
structure TxInput where
  txId : Bytes
  index : ℤ
  bip32Path : Option (List Char)
  length_txId : txId.length = 32

/-- `TxInput.serialize`. -/
def TxInput.serialize (i : TxInput) : Option Bytes := do
  return i.txId ++ (← toBytes i.index 1) ++ [0, 0]

/-- `TxOutput`, with the authority bit in `token_data`. -/
structure TxOutput where
  value : ℤ
  script : Bytes
  tokenData : ℤ

/-- `TxOutput.serialize_value`: bit 31 decides on the width. -/
def TxOutput.serializeValue (o : TxOutput) : Option Bytes :=
  if o.value / 2 ^ 31 % 2 ≠ 0 then toBytesSigned (-o.value) 8 else toBytes o.value 4

/-- `TxOutput.serialize`. -/
def TxOutput.serialize (o : TxOutput) : Option Bytes := do
  return (← o.serializeValue) ++ (← toBytes o.tokenData 1) ++ (← toBytes o.script.length 2) ++ o.script

/-- `Transaction`. -/
structure Transaction where
  txVersion : ℤ
  tokens : List Bytes
  inputs : List TxInput
  outputs : List TxOutput

/-- `Transaction.serialize`. -/
def Transaction.serialize (t : Transaction) : Option Bytes := do
  let cdata :=
    (← toBytes t.txVersion 2) ++ (← toBytes t.tokens.length 1) ++ (← toBytes t.inputs.length 1) ++
      (← toBytes t.outputs.length 1)
  let inputs ← t.inputs.mapM TxInput.serialize
  let outputs ← t.outputs.mapM TxOutput.serialize
  return cdata ++ t.tokens.flatten ++ inputs.flatten ++ outputs.flatten

/-- `ChangeInfo`. -/
structure ChangeInfo where
  outputIndex : ℤ
  path : List Char

/-- `ChangeInfo.serialize`. -/
def ChangeInfo.serialize (c : ChangeInfo) : Option Bytes := do
  let bip32Path ← bip32PathFromString c.path
  return (← toBytes c.outputIndex 1) ++ (← toBytes bip32Path.length 1) ++ bip32Path.flatten

/-- `ChangeInfo.old_proto_bytes`. -/
def ChangeInfo.oldProtoBytes (c : ChangeInfo) : Option Bytes := do
  let bip32Path ← bip32PathFromString c.path
  return (← toBytes (0x80 ||| bip32Path.length : ℕ) 1) ++ (← toBytes c.outputIndex 1) ++
    bip32Path.flatten

/-! ### Values -/

/-- The width of a value field is in its first bit. -/
theorem valueWidth_eq_four_iff {field : Bytes} (h : field.length = 4) :
    valueWidth field = 4 ↔ beValue field < 2 ^ 31 := by
  have hvalue := beValue_eq_byteAt h
  have hrest := beValue_lt field.tail
  rw [List.length_tail, h] at hrest
  rw [valueWidth]
  split_ifs with hbit
  · exact iff_of_false (by decide) (by norm_num at hrest ⊢; omega)
  · exact iff_of_true rfl (by norm_num at hrest ⊢; omega)

theorem valueWidth_eq_eight_iff {field : Bytes} (h : field.length = 8) :
    valueWidth field = 8 ↔ 2 ^ 63 ≤ beValue field := by
  have hvalue := beValue_eq_byteAt h
  have hrest := beValue_lt field.tail
  rw [List.length_tail, h] at hrest
  rw [valueWidth]
  split_ifs with hbit
  · exact iff_of_true rfl (by norm_num at hrest ⊢; omega)
  · exact iff_of_false (by decide) (by norm_num at hrest ⊢; omega)

/-- What the device reads in a field of eight bytes. -/
theorem valueOf_of_length_eq_eight {field : Bytes} (h : field.length = 8)
    (hwidth : valueWidth field = 8) : valueOf field = 2 ^ 64 - beValue field := by
  have hge := (valueWidth_eq_eight_iff h).1 hwidth
  rw [valueWidth] at hwidth
  rw [valueOf]
  split_ifs at hwidth ⊢ with hbit
  · omega
  · omega

theorem valueOf_of_length_eq_four {field : Bytes} (hwidth : valueWidth field = 4) :
    valueOf field = beValue field := by
  rw [valueWidth] at hwidth
  rw [valueOf]
  split_ifs at hwidth ⊢ with hbit
  · omega
  · rfl

/-- The values that the client sends in the form the device reads. Of the values from `2 ^ 32` on
these are only the ones whose bit 31 is set. -/
def Sendable (value : ℤ) : Prop :=
  0 ≤ value ∧ (value < 2 ^ 31 ∨ value / 2 ^ 31 % 2 ≠ 0 ∧ value ≤ 2 ^ 63)

/-- A value with bit 31 set takes eight bytes. -/
theorem toBytesSigned_neg_iff {value : ℤ} (hbit : value / 2 ^ 31 % 2 ≠ 0) :
    (∃ field, toBytesSigned (-value) 8 = some field ∧ field.length = valueWidth field ∧
      (valueOf field : ℤ) = value) ↔ 0 ≤ value ∧ value ≤ 2 ^ 63 := by
  rw [toBytesSigned]
  have hvalue : ∀ n : ℤ, (beValue (beBytes 8 (n % 256 ^ 8).toNat) : ℤ) = n % 2 ^ 64 := by
    intro n
    rw [beValue_beBytes]
    norm_num
    omega
  constructor
  · rintro ⟨field, hfield, hwidth, hval⟩
    split_ifs at hfield with hrange
    cases hfield
    rw [length_beBytes] at hwidth
    have hge := (valueWidth_eq_eight_iff (length_beBytes _ _)).1 hwidth.symm
    have := hvalue (-value)
    norm_num at hrange
    omega
  · rintro ⟨hpos, hle⟩
    have hrange : -(256 ^ 8 / 2) ≤ -value ∧ -value < 256 ^ 8 / 2 := by
      norm_num
      omega
    rw [if_pos hrange]
    refine ⟨_, rfl, ?_⟩
    have hfield := hvalue (-value)
    generalize hgen : beBytes 8 (-value % 256 ^ 8).toNat = field at hfield
    have hlen : field.length = 8 := hgen ▸ length_beBytes _ _
    have hlt := beValue_lt field
    rw [hlen] at hlt
    have hwidth : valueWidth field = 8 := by
      rw [valueWidth_eq_eight_iff hlen]
      omega
    rw [hwidth, valueOf_of_length_eq_eight hlen hwidth]
    refine ⟨hlen, ?_⟩
    omega

/-- A value whose bit 31 is clear takes four bytes. -/
theorem toBytes_four_iff {value : ℤ} (hbit : value / 2 ^ 31 % 2 = 0) :
    (∃ field, toBytes value 4 = some field ∧ field.length = valueWidth field ∧
      (valueOf field : ℤ) = value) ↔ 0 ≤ value ∧ value < 2 ^ 31 := by
  simp only [toBytes_eq_some_iff]
  constructor
  · rintro ⟨field, ⟨hlen, rfl⟩, -, -⟩
    have hlt := beValue_lt field
    rw [hlen] at hlt
    norm_num at hlt
    omega
  · rintro ⟨hpos, hlt⟩
    obtain ⟨n, rfl⟩ := Int.eq_ofNat_of_zero_le hpos
    have hn : beValue (beBytes 4 n) = n := by
      rw [beValue_beBytes]
      exact Nat.mod_eq_of_lt (by norm_num; omega)
    have hwidth : valueWidth (beBytes 4 n) = 4 := by
      rw [valueWidth_eq_four_iff (length_beBytes _ _), hn]
      omega
    refine ⟨beBytes 4 n, ⟨length_beBytes _ _, by rw [hn]⟩, ?_, ?_⟩
    · rw [length_beBytes, hwidth]
    · rw [valueOf_of_length_eq_four hwidth, hn]

theorem Sendable.exists_field {o : TxOutput} (h : Sendable o.value) :
    ∃ field, o.serializeValue = some field ∧ field.length = valueWidth field ∧
      (valueOf field : ℤ) = o.value := by
  obtain ⟨hpos, hvalue⟩ := h
  rw [TxOutput.serializeValue]
  by_cases hbit : o.value / 2 ^ 31 % 2 ≠ 0
  · rw [if_pos hbit]
    exact (toBytesSigned_neg_iff hbit).2 ⟨hpos, by omega⟩
  · rw [if_neg hbit]
    exact (toBytes_four_iff (not_not.1 hbit)).2 ⟨hpos, by omega⟩

/-- For every integer, the client sends a value field that the device reads as this value exactly if
it is less than `2 ^ 31`, or its bit 31 is set and it is at most `2 ^ 63`. -/
theorem serializesValue_iff (o : TxOutput) :
    (∃ field, o.serializeValue = some field ∧ field.length = valueWidth field ∧
      (valueOf field : ℤ) = o.value) ↔ Sendable o.value := by
  refine ⟨fun h => ?_, Sendable.exists_field⟩
  rw [TxOutput.serializeValue] at h
  rw [Sendable]
  by_cases hbit : o.value / 2 ^ 31 % 2 ≠ 0
  · rw [if_pos hbit, toBytesSigned_neg_iff hbit] at h
    omega
  · rw [if_neg hbit, toBytes_four_iff (not_not.1 hbit)] at h
    omega

/-! ### The wire format -/

theorem toBytes_one (b : UInt8) : toBytes (b.toNat : ℤ) 1 = some [b] :=
  toBytes_eq_some_iff.2 ⟨rfl, by simp [beValue]⟩

/-- The input of the client is the one on the wire. -/
structure TxInput.Spells (i : TxInput) (x : WireInput) : Prop where
  txId : i.txId = x.txId
  index : i.index = x.index.toNat

theorem TxInput.Spells.serialize {i : TxInput} {x : WireInput} (h : i.Spells x) :
    i.serialize = some x.bytes := by
  rw [TxInput.serialize, h.index, toBytes_one, h.txId]
  simp [WireInput.bytes]

/-- The output of the client is the one on the wire. -/
structure TxOutput.Spells (o : TxOutput) (x : WireOutput) : Prop where
  value : o.serializeValue = some x.valueField
  tokenData : o.tokenData = x.tokenData.toNat
  script : o.script = x.script

theorem TxOutput.Spells.serialize {o : TxOutput} {x : WireOutput} (h : o.Spells x) :
    o.serialize = some x.bytes := by
  have hlen : toBytes (x.script.length : ℤ) 2 = some [0, 25] := by
    rw [x.length_script, toBytes_natCast (by decide)]
    rfl
  rw [TxOutput.serialize, h.value, h.tokenData, toBytes_one, h.script, hlen]
  simp [WireOutput.bytes]

/-- The transaction of the client consists of the header and the elements. -/
structure Transaction.Spells (t : Transaction) (h : Header) (e : Elements) : Prop where
  txVersion : t.txVersion = beValue [h.versionHigh, h.versionLow]
  tokens : t.tokens = e.uids.map Subtype.val
  inputs : List.Forall₂ TxInput.Spells t.inputs e.inputs
  outputs : List.Forall₂ TxOutput.Spells t.outputs e.outputs

/-- Serialising lists of which each element is serialised. -/
theorem mapM_eq_some_of_forall₂ {α β γ : Type} {f : α → Option γ} {g : β → γ} {as : List α}
    {bs : List β} (h : List.Forall₂ (fun a b => f a = some (g b)) as bs) :
    as.mapM f = some (bs.map g) := by
  induction h with
  | nil => rfl
  | cons hab _ ih =>
    rw [List.mapM_cons, hab, ih]
    rfl

/-- The client sends the header and the elements. -/
theorem Transaction.Spells.serialize {t : Transaction} {h : Header} {e : Elements}
    (hs : t.Spells h e) (huids : e.uids.length = h.tokens.toNat)
    (hinputs : e.inputs.length = h.inputs.toNat) (houtputs : e.outputs.length = h.outputs.toNat) :
    t.serialize = some (h.bytes ++ e.bytes) := by
  have hversion : toBytes t.txVersion 2 = some [h.versionHigh, h.versionLow] :=
    toBytes_eq_some_iff.2 ⟨rfl, hs.txVersion⟩
  rw [Transaction.serialize, hversion, hs.tokens, List.length_map, huids, toBytes_one,
    hs.inputs.length_eq, hinputs, toBytes_one, hs.outputs.length_eq, houtputs, toBytes_one,
    mapM_eq_some_of_forall₂ (hs.inputs.imp fun _ _ hx => hx.serialize),
    mapM_eq_some_of_forall₂ (hs.outputs.imp fun _ _ hx => hx.serialize)]
  simp [Header.bytes, Elements.bytes]

/-- The change entry of the client is the one on the wire. -/
structure ChangeInfo.Spells (c : ChangeInfo) (entry : ChangeEntry) : Prop where
  outputIndex : c.outputIndex = entry.index.toNat
  path : bip32PathFromString c.path = some (entry.path.components.map (beBytes 4))

theorem ChangeInfo.Spells.serialize {c : ChangeInfo} {entry : ChangeEntry} (h : c.Spells entry) :
    c.serialize = some entry.bytes := by
  have hlen : toBytes (entry.path.components.length : ℤ) 1 =
      some [UInt8.ofNat entry.path.components.length] := by
    rw [← entry.path.toNat_length, toBytes_one, entry.path.toNat_length]
  rw [ChangeInfo.serialize, h.path, h.outputIndex, toBytes_one]
  simp [hlen, ChangeEntry.bytes, WirePath.bytes, List.flatMap_def]

/-- In the old protocol the number of components stands in the low bits of the first byte. -/
theorem ChangeInfo.Spells.oldProtoBytes {c : ChangeInfo} {entry : ChangeEntry}
    (h : c.Spells entry) :
    c.oldProtoBytes = some ((0x80 ||| UInt8.ofNat entry.path.components.length) :: entry.index ::
      entry.path.components.flatMap (beBytes 4)) := by
  have hlen : (0x80 ||| entry.path.components.length : ℕ) =
      (0x80 ||| UInt8.ofNat entry.path.components.length).toNat := by
    rw [UInt8.toNat_or, entry.path.toNat_length]
    rfl
  rw [ChangeInfo.oldProtoBytes, h.path, h.outputIndex, toBytes_one]
  simp only [Option.pure_def, Option.bind_eq_bind, Option.bind_some, List.length_map]
  rw [hlen, toBytes_one]
  simp [List.flatMap_def]

end HathorLedger.Client
