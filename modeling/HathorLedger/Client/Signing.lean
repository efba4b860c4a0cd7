import HathorLedger.Client.Commands
import HathorLedger.Run.SignStage

/-!
# Signing with the client

The client sends a transaction in chunks and asks for a signature for each input. Whatever the user
does in between, the signatures it returns are those of the transaction it was given, and the user
has approved exactly this transaction.

## Main definitions

* `SignedInput`: a signature belongs to an input.

## Main results

* `behind_of_readChangeInfo`: the device skips exactly the change information of the client.
* `signTx_sound`: what a successful call means.
-/

namespace HathorLedger.Client

open EStateM (wp_of_run_ok)
open Dialogue (Runs runs_bind_ok_iff runs_pure_iff runs_ofOption_ok_iff runs_each_cons_iff
  runs_each_nil_iff)

/-! ### Change information -/

/-- The form of an entry: the index, the number of components and their bytes. -/
def IsEntry (entry : Bytes) : Prop :=
  ∃ i n tail, entry = i :: n :: tail ∧ tail.length = 4 * n.toNat

/-- As many entries in front of other bytes can be told apart from them. -/
theorem eq_of_entries_append {xs ys : List Bytes} (hxs : ∀ x ∈ xs, IsEntry x)
    (hys : ∀ y ∈ ys, IsEntry y) (hlen : xs.length = ys.length) {a b : Bytes}
    (h : xs.flatten ++ a = ys.flatten ++ b) : xs.flatten = ys.flatten ∧ a = b := by
  induction xs generalizing ys with
  | nil =>
    obtain rfl := List.length_eq_zero_iff.1 hlen.symm
    exact ⟨rfl, h⟩
  | cons x xs ih =>
    cases ys with
    | nil => cases hlen
    | cons y ys =>
      obtain ⟨⟨i, n, tail, rfl, htail⟩, hxs'⟩ := List.forall_mem_cons.1 hxs
      obtain ⟨⟨i', n', tail', rfl, htail'⟩, hys'⟩ := List.forall_mem_cons.1 hys
      simp only [List.flatten_cons, List.cons_append, List.append_assoc, List.cons.injEq] at h
      obtain ⟨rfl, rfl, h⟩ := h
      obtain ⟨rfl, hmore⟩ := List.append_inj h (htail.trans htail'.symm)
      obtain ⟨hflatten, hrest⟩ := ih hxs' hys' (Nat.succ.inj hlen) hmore
      exact ⟨by rw [List.flatten_cons, List.flatten_cons, hflatten], hrest⟩

theorem isEntry_bytes (entry : ChangeEntry) : IsEntry entry.bytes :=
  ⟨_, _, _, rfl, by rw [length_flatMap_beBytes, entry.path.toNat_length]⟩

/-- What the client sends of a path takes four bytes for each component. -/
theorem length_flatten_of_path {path : List Char} {parts : List Bytes}
    (h : bip32PathFromString path = some parts) : parts.flatten.length = 4 * parts.length := by
  obtain ⟨components, -, rfl⟩ := exists_components h
  rw [List.length_map, ← length_flatMap_beBytes, List.flatMap_def]

theorem isEntry_of_serialize {c : ChangeInfo} {entry : Bytes} (h : c.serialize = some entry) :
    IsEntry entry := by
  simp only [ChangeInfo.serialize, Option.bind_eq_bind, Option.bind_eq_some_iff,
    Option.pure_def, Option.some.injEq, toBytes_one_eq_some_iff] at h
  obtain ⟨parts, hparts, index, hindex, _, ⟨hn, rfl⟩, rfl⟩ := h
  obtain ⟨i, rfl⟩ := List.length_eq_one_iff.1 (toBytes_eq_some_iff.1 hindex).1
  refine ⟨i, UInt8.ofNat parts.length, parts.flatten, rfl, ?_⟩
  rw [length_flatten_of_path hparts, UInt8.toNat_ofNat_of_lt' (by rwa [UInt8.size])]

/-- The paths that the old protocol can send: the number of components takes four bits. -/
def FitsOldProtocol (changeList : List ChangeInfo) : Prop :=
  ∀ c ∈ changeList.head?, ∀ parts, bip32PathFromString c.path = some parts → parts.length < 16

theorem drop_take_append_drop {a b : Bytes} {n : ℕ} (h : a.length ≤ n) :
    ((a ++ b).take n).drop a.length ++ (a ++ b).drop n = b := by
  rw [← List.drop_append_of_le_length, List.take_append_drop, List.drop_left]
  rw [List.length_take, List.length_append]
  omega

/-- If the device accepts the change information in a first chunk, it skips exactly the change
information of the client. -/
theorem behind_of_readChangeInfo {changeList : List ChangeInfo} {useOldProtocol : Bool}
    {info bytes : Bytes}
    (hinfo : CommandBuilder.changeData changeList useOldProtocol = some info)
    (hold : useOldProtocol = true → FitsOldProtocol changeList) {cdata : Buffer} {t : TxInfo}
    (h : (readChangeInfo (.ofBytes ((info ++ bytes).take maxApduLen))).run
      { sha256 := .fed [] } = .ok cdata t) :
    cdata.rest ++ (info ++ bytes).drop maxApduLen = bytes := by
  have hle : ((info ++ bytes).take maxApduLen).length ≤ 255 := List.length_take_le _ _
  have hwf : (Buffer.ofBytes ((info ++ bytes).take maxApduLen)).Wf :=
    Buffer.wf_ofBytes (by rw [sizeMod]; omega)
  have hrest := Buffer.rest_ofBytes ((info ++ bytes).take maxApduLen)
  cases useOldProtocol with
  | false =>
    simp only [CommandBuilder.changeData, Bool.false_eq_true, if_false, Option.bind_eq_bind,
      Option.bind_eq_some_iff, Option.pure_def, Option.some.injEq, toBytes_one_eq_some_iff] at hinfo
    obtain ⟨_, ⟨hcount, rfl⟩, changes, hchanges, rfl⟩ := hinfo
    have hforall := forall₂_of_mapM hchanges
    have hentry : ∀ x ∈ changes, IsEntry x := by
      intro x hx
      obtain ⟨i, hi, rfl⟩ := List.getElem_of_mem hx
      exact isEntry_of_serialize (hforall.get (by rwa [hforall.length_eq]) hi)
    obtain ⟨entries, hlen, hsplit⟩ := (wp_of_run_ok h).1
      (entries_of_readChangeInfo hwf changeCells_initial hrest)
    have hjoin := List.take_append_drop maxApduLen
      ([1] ++ [UInt8.ofNat changeList.length] ++ changes.flatten ++ bytes)
    rw [← hrest, hsplit, changeInfoBytes, List.append_assoc] at hjoin
    generalize List.drop _ _ = later at hjoin ⊢
    simp only [List.cons_append, List.nil_append, List.cons.injEq, true_and,
      List.flatMap_def] at hjoin
    obtain ⟨hbyte, hjoin⟩ := hjoin
    have hcounts : entries.length = changeList.length := by
      have hnat := congrArg UInt8.toNat hbyte
      have hmax : txMaxTokens + 1 < 256 := by decide
      rwa [UInt8.toNat_ofNat_of_lt' (by rw [UInt8.size]; omega),
        UInt8.toNat_ofNat_of_lt' (by rwa [UInt8.size])] at hnat
    refine (eq_of_entries_append ?_ hentry ?_ hjoin).2
    · rintro _ hx
      obtain ⟨entry, -, rfl⟩ := List.mem_map.1 hx
      exact isEntry_bytes entry
    · rw [List.length_map, hcounts, hforall.length_eq]
  | true =>
    cases changeList with
    | nil =>
      obtain rfl := Option.some.inj hinfo
      have hread := ((wp_of_run_ok h).1
        (ChangeCoding.none.wp_readChangeInfo hwf changeCells_initial hrest)).1
      rw [hread]
      exact List.take_append_drop 254 bytes
    | cons c changeList =>
      simp only [CommandBuilder.changeData, if_true, ChangeInfo.oldProtoBytes, Option.bind_eq_bind,
        Option.bind_eq_some_iff, Option.pure_def, Option.some.injEq,
        toBytes_one_eq_some_iff] at hinfo
      obtain ⟨parts, hparts, _, ⟨hn, rfl⟩, index, hindex, rfl⟩ := hinfo
      obtain ⟨i, rfl⟩ := List.length_eq_one_iff.1 (toBytes_eq_some_iff.1 hindex).1
      have hsmall := hold rfl c rfl parts hparts
      have hcount : (UInt8.ofNat parts.length).toNat = parts.length :=
        UInt8.toNat_ofNat_of_lt' (by rw [UInt8.size]; omega)
      have hfirst : UInt8.ofNat (0x80 ||| parts.length) = 0x80 ||| UInt8.ofNat parts.length := by
        rw [← UInt8.toNat_inj, UInt8.toNat_or, hcount]
        exact UInt8.toNat_ofNat_of_lt' hn
      have hstart : (Buffer.ofBytes (([UInt8.ofNat (0x80 ||| parts.length)] ++ [i] ++
          parts.flatten ++ bytes).take maxApduLen)).rest =
          (0x80 ||| UInt8.ofNat parts.length) :: i :: (parts.flatten ++ bytes).take 253 := by
        rw [hrest, hfirst]
        rfl
      have hread := ((wp_of_run_ok h).1 (wp_readChangeInfo_old hwf
        (by rw [UInt8.lt_iff_toNat_lt, hcount]; exact hsmall) hstart _)).2
      have hlen := length_flatten_of_path hparts
      rw [hread, hcount, ← hlen]
      exact drop_take_append_drop (by omega)

/-! ### Exchanges -/

variable {sdk : Sdk} {base : List Event} {bytes : Bytes} {w w' : World}

theorem dataChunk_of_serialize {number : ℕ} {data apdu : Bytes}
    (h : CommandBuilder.serialize cla Ins.signTx 0 number data = some apdu) :
    number < 256 ∧ apdu = dataChunk (UInt8.ofNat number) data := by
  obtain ⟨⟨-, -, -, hnumber, -⟩, rfl⟩ :=
    (@serialize_eq_some_iff cla Ins.signTx 0 number data apdu).1 h
  refine ⟨hnumber, ?_⟩
  rw [dataChunk, UInt8.toNat_ofNat_of_lt' (by rwa [UInt8.size])]

/-- Later chunks go on with a transaction and are hashed behind the earlier ones. -/
theorem fed_laterChunks {later : List (Bool × Bytes)} {k : ℕ} {responses : List Bytes} (hk : k ≠ 0)
    (hlater : ∀ c ∈ later.map Prod.snd, 1 ≤ c.length ∧ c.length ≤ maxApduLen)
    (hw : Reachable Booted (step sdk) Sequential w) (hidle : w.io.state ≠ .waiting)
    (h : Runs (Serves sdk) (Dialogue.each (exchange Ins.signTx) (later.mapIdx fun i c =>
      CommandBuilder.serialize cla Ins.signTx 0 (i + k : ℕ) c.2)) w (.ok responses) w') :
    Reachable Booted (step sdk) Sequential w' ∧ w'.io.state ≠ .waiting ∧ w.log <:+ w'.log ∧
      (w'.globals.Live → w.globals.Live ∧ ∀ base bytes, Fed base bytes 0 w.globals →
        Fed base (bytes ++ (later.map Prod.snd).flatten) 0 w'.globals) := by
  induction later generalizing w k responses with
  | nil =>
    obtain ⟨-, rfl⟩ := runs_each_nil_iff.1 h
    refine ⟨hw, hidle, List.suffix_rfl, fun hlive => ⟨hlive, fun base bytes hfed => ?_⟩⟩
    rwa [List.map_nil, List.flatten_nil, List.append_nil]
  | cons c later ih =>
    obtain ⟨hc, hlater'⟩ := List.forall_mem_cons.1 hlater
    rw [List.mapIdx_cons] at h
    obtain ⟨response, responses, w₁, -, hfirst, hrest⟩ := runs_each_cons_iff.1 h
    obtain ⟨apdu, hapdu, hserves⟩ := runs_exchange_ok_iff.1 hfirst
    obtain ⟨hnumber, rfl⟩ := dataChunk_of_serialize hapdu
    rw [Nat.zero_add] at hserves hnumber
    have hne : UInt8.ofNat k ≠ 0 := by
      rw [Ne, ← UInt8.toNat_inj, UInt8.toNat_ofNat_of_lt' (by rwa [UInt8.size])]
      exact hk
    have hw₁ := hserves.reachable hw hidle
    have hidle₁ := hserves.not_waiting hw hidle
    obtain ⟨hw', hidle', hlog, hrest'⟩ := ih (k := k + 1) (Nat.succ_ne_zero k) hlater' hw₁ hidle₁
      (by simpa only [Nat.add_assoc, Nat.add_comm 1] using hrest)
    refine ⟨hw', hidle', (hserves.log_suffix hw hidle).trans hlog, fun hlive => ?_⟩
    obtain ⟨hlive₁, hfed₁⟩ := hrest' hlive
    have hnext : ∀ base bytes, w.globals.Live ∧
        (Fed base bytes 0 w.globals → Fed base (bytes ++ c.2) 0 w₁.globals) := fun base bytes =>
      hserves.fed_next hw hidle hne (List.ne_nil_of_length_pos hc.1) hc.2 hlive₁
    refine ⟨(hnext [] []).1, fun base bytes hfed => ?_⟩
    rw [List.map_cons, List.flatten_cons, ← List.append_assoc]
    exact hfed₁ _ _ ((hnext base bytes).2 hfed)

theorem ne_nil_of_serialize {t : Transaction} (h : t.serialize = some bytes) : bytes ≠ [] := by
  simp only [Transaction.serialize, Option.bind_eq_bind, Option.bind_eq_some_iff,
    Option.pure_def, Option.some.injEq] at h
  obtain ⟨version, hversion, _, -, _, -, _, -, _, -, _, -, rfl⟩ := h
  have hlen := (toBytes_eq_some_iff.1 hversion).1
  have hne : version ≠ [] := List.ne_nil_of_length_pos (by omega)
  simp [hne]

/-- After all chunks, what was hashed is the transaction. -/
theorem fed_chunks {t : Transaction} {changeList : List ChangeInfo} {useOldProtocol : Bool}
    {responses : List Bytes} (hold : useOldProtocol = true → FitsOldProtocol changeList)
    (hw : Reachable Booted (step sdk) Sequential w) (hidle : w.io.state ≠ .waiting)
    (h : Runs (Serves sdk) (Dialogue.each (exchange Ins.signTx)
      (CommandBuilder.signTxSendData t changeList useOldProtocol)) w (.ok responses) w') :
    ∃ bytes, t.serialize = some bytes ∧ Reachable Booted (step sdk) Sequential w' ∧
      w'.io.state ≠ .waiting ∧ w.log <:+ w'.log ∧
      (w'.globals.Live → Fed w.log bytes 0 w'.globals) := by
  rw [CommandBuilder.signTxSendData] at h
  cases hdata : CommandBuilder.signTxData t changeList useOldProtocol with
  | none =>
    rw [hdata] at h
    obtain ⟨_, _, _, -, hfirst, -⟩ := runs_each_cons_iff.1 h
    obtain ⟨_, hnone, -⟩ := runs_exchange_ok_iff.1 hfirst
    cases hnone
  | some cdata =>
    rw [hdata] at h
    simp only [CommandBuilder.signTxData, Option.bind_eq_bind, Option.bind_eq_some_iff,
      Option.pure_def, Option.some.injEq] at hdata
    obtain ⟨info, hinfo, bytes, hbytes, rfl⟩ := hdata
    obtain ⟨later, hchunks, hflatten, hlater, -⟩ :=
      exists_chunkify (by decide : 0 < maxApduLen) (info ++ bytes)
    obtain ⟨⟨last, chunk⟩, chunks, hlist, hchunk, hmap⟩ := List.map_eq_cons_iff.1 hchunks
    obtain rfl : chunk = (info ++ bytes).take maxApduLen := hchunk
    dsimp only at h
    rw [hlist, List.mapIdx_cons] at h
    obtain ⟨response, responses, w₁, -, hfirst, hrest⟩ := runs_each_cons_iff.1 h
    obtain ⟨apdu, hapdu, hserves⟩ := runs_exchange_ok_iff.1 hfirst
    obtain ⟨-, rfl⟩ := dataChunk_of_serialize hapdu
    have hne : (info ++ bytes).take maxApduLen ≠ [] := by
      have hne := ne_nil_of_serialize hbytes
      rw [Ne, List.take_eq_nil_iff]
      simp [maxApduLen, hne]
    have hle : ((info ++ bytes).take maxApduLen).length ≤ 255 := List.length_take_le _ _
    have hw₁ := hserves.reachable hw hidle
    have hidle₁ := hserves.not_waiting hw hidle
    obtain ⟨hw', hidle', hlog, hlater'⟩ :=
      fed_laterChunks one_ne_zero (hmap ▸ hlater) hw₁ hidle₁ hrest
    refine ⟨bytes, hbytes, hw', hidle', (hserves.log_suffix hw hidle).trans hlog, fun hlive => ?_⟩
    obtain ⟨hlive₁, hfed⟩ := hlater' hlive
    obtain ⟨cdata, t', hread, hfirst⟩ := hserves.fed_first hw hidle hne hle rfl hlive₁
    rw [← behind_of_readChangeInfo hinfo hold hread, ← hflatten, ← hmap]
    exact hfed _ _ hfirst

/-! ### Signatures -/

/-- The signature is that of the bytes with the key of the path of the input. -/
def SignedInput (sdk : Sdk) (bytes : Bytes) (input : TxInput) (signature : Bytes) : Prop :=
  ∃ path components privateKey chainCode, input.bip32Path = some path ∧
    bip32PathFromString path = some (components.map (beBytes 4)) ∧
    sdk.derivePrivateKey components = some (privateKey, chainCode) ∧
    sdk.ecdsaSign privateKey (sha256d sdk bytes) = some signature

/-- The sign stages return the signatures of what was hashed, if the digest does not change between
them. -/
theorem signed_inputs {inputs : List TxInput} {signatures : List Bytes} {n : ℕ}
    (hw : Reachable Booted (step sdk) Sequential w) (hidle : w.io.state ≠ .waiting)
    (hf : w.globals.Live → Fed base bytes n w.globals)
    (h : Runs (Serves sdk) (Dialogue.each (exchange Ins.signTx)
      (inputs.map CommandBuilder.signTxSignature)) w (.ok signatures) w') :
    Reachable Booted (step sdk) Sequential w' ∧ w'.io.state ≠ .waiting ∧ w.log <:+ w'.log ∧
      (inputs ≠ [] → ApprovedSince base bytes w.log) ∧
      (n + inputs.length ≤ 1 ∨ byteAt (sha256d sdk bytes) 0 ≠ 0 →
        List.Forall₂ (SignedInput sdk bytes) inputs signatures) := by
  induction inputs generalizing w n signatures with
  | nil =>
    obtain ⟨rfl, rfl⟩ := runs_each_nil_iff.1 h
    exact ⟨hw, hidle, List.suffix_rfl, fun hne => absurd rfl hne, fun _ => .nil⟩
  | cons input inputs ih =>
    rw [List.map_cons] at h
    obtain ⟨signature, signatures, w₁, rfl, hfirst, hrest⟩ := runs_each_cons_iff.1 h
    obtain ⟨apdu, hapdu, hserves⟩ := runs_exchange_ok_iff.1 hfirst
    simp only [CommandBuilder.signTxSignature, Option.bind_eq_bind, Option.bind_eq_some_iff] at hapdu
    obtain ⟨path, hpath, data, hdata, hapdu⟩ := hapdu
    obtain ⟨components, hlt, hparts, rfl⟩ := exists_of_pathData hdata
    obtain ⟨⟨-, -, -, -, hlen⟩, rfl⟩ :=
      (@serialize_eq_some_iff cla Ins.signTx 1 0 _ apdu).1 hapdu
    rw [List.length_cons, length_flatMap_beBytes] at hlen
    obtain ⟨happroved, hsigned, hf₁⟩ := hserves.signed hw hidle hf hlt (by omega)
    obtain ⟨hw', hidle', hlog, -, hsignatures⟩ :=
      ih (hserves.reachable hw hidle) (hserves.not_waiting hw hidle) hf₁ hrest
    refine ⟨hw', hidle', (hserves.log_suffix hw hidle).trans hlog, fun _ => happroved,
      fun hdigest => ?_⟩
    rw [List.length_cons] at hdigest
    obtain ⟨privateKey, chainCode, hderive, hsign⟩ :=
      hsigned (hdigest.imp_left fun hle => by omega)
    exact .cons ⟨path, components, privateKey, chainCode, hpath, hparts, hderive, hsign⟩
      (hsignatures (hdigest.imp_left fun hle => by omega))

/-- **Signatures are of approved transactions.** Whatever the user does: if the client returns
signatures for the inputs of a transaction, the user has meanwhile pressed approve on "Send
Transaction?" when exactly the serialisation of this transaction had been hashed. Every signature is
that of the digest of the serialisation with the key of the path of its input, if there is one input
or the digest does not start with a zero byte. -/
theorem signTx_sound {t : Transaction} {changeList : List ChangeInfo} {useOldProtocol : Bool}
    {signatures : List Bytes} (hold : useOldProtocol = true → FitsOldProtocol changeList)
    (hw : Reachable Booted (step sdk) Sequential w) (hidle : w.io.state ≠ .waiting)
    (h : Runs (Serves sdk) (signTx t changeList useOldProtocol) w (.ok signatures) w') :
    ∃ bytes, t.serialize = some bytes ∧
      (t.inputs ≠ [] → ApprovedSince w.log bytes w'.log) ∧
      (t.inputs.length ≤ 1 ∨ byteAt (sha256d sdk bytes) 0 ≠ 0 →
        List.Forall₂ (SignedInput sdk bytes) t.inputs signatures) := by
  obtain ⟨_, w₁, hchunks, h⟩ := runs_bind_ok_iff.1 h
  obtain ⟨signatures', w₂, hsign, h⟩ := runs_bind_ok_iff.1 h
  obtain ⟨_, w₃, hend, h⟩ := runs_bind_ok_iff.1 h
  obtain ⟨hsignatures, rfl⟩ := runs_pure_iff.1 h
  obtain rfl := Except.ok.inj hsignatures
  obtain ⟨bytes, hbytes, hw₁, hidle₁, hlog₁, hf⟩ := fed_chunks hold hw hidle hchunks
  obtain ⟨hw₂, hidle₂, hlog₂, happroved, hsigned⟩ := signed_inputs hw₁ hidle₁ hf hsign
  obtain ⟨_, -, hserves⟩ := runs_exchange_ok_iff.1 hend
  refine ⟨bytes, hbytes, fun hne => ?_, fun hdigest => hsigned ?_⟩
  · obtain ⟨rest, hsuffix, hrest⟩ := happroved hne
    exact ⟨rest, hsuffix.trans (hlog₂.trans (hserves.log_suffix hw₂ hidle₂)), hrest⟩
  · exact hdigest.imp_left fun hle => by omega

/-! ### An example -/

/-- An input with the path "44'". -/
def sampleInput : TxInput where
  txId := List.replicate 32 5
  index := 0
  bip32Path := some ['4', '4', quote]
  length_txId := rfl

/-- A transaction with one input and one output. -/
def sampleTransaction : Transaction where
  txVersion := 1
  tokens := []
  inputs := [sampleInput]
  outputs := [⟨5, sampleOutput.script, 0⟩]

/-- The serialisation of the transaction. -/
def sampleBytes : Bytes :=
  Header.bytes ⟨0, 1, 0, 1, 1⟩ ++ (List.replicate 32 5 ++ [0, 0, 0]) ++ sampleOutput.bytes

/-- The user approves the output and the transaction. -/
def sampleReviewed : World :=
  run Sdk.sample (step Sdk.sample sampleBoot (.apdu (dataChunk 0 ([1, 0] ++ sampleBytes))))
    ([.approve, .approve].map .press)

/-- The signature for the input. -/
def sampleSignature : Bytes :=
  [44] ++ sha256d Sdk.sample sampleBytes

/-- The app after the sign stage. -/
def sampleSigned : World := step Sdk.sample sampleReviewed (.apdu (signCommand [0x8000002C]))

theorem runs_sampleTransaction :
    Runs (Serves Sdk.sample) (signTx sampleTransaction [] false) sampleBoot (.ok [sampleSignature])
      (step Sdk.sample sampleSigned (.apdu endCommand)) := by
  have hchunks : CommandBuilder.signTxSendData sampleTransaction [] false =
      [some (dataChunk 0 ([1, 0] ++ sampleBytes))] := by
    decide +kernel
  have hsign : CommandBuilder.signTxSignatures sampleTransaction =
      [some (signCommand [0x8000002C])] := by
    decide +kernel
  have hend : CommandBuilder.signTxEnd = some endCommand := by decide +kernel
  refine runs_bind_ok_iff.2 ⟨[[]], sampleReviewed, ?_, ?_⟩
  · rw [hchunks]
    refine runs_each_cons_iff.2 ⟨_, _, sampleReviewed, rfl, ?_, runs_each_nil_iff.2 ⟨rfl, rfl⟩⟩
    exact runs_exchange_ok_iff.2 ⟨_, rfl, ⟨[.approve, .approve], rfl⟩, by decide +kernel, Sw.ok_lt⟩
  refine runs_bind_ok_iff.2 ⟨[sampleSignature], sampleSigned, ?_, ?_⟩
  · rw [hsign]
    refine runs_each_cons_iff.2 ⟨_, _, sampleSigned, rfl, ?_, runs_each_nil_iff.2 ⟨rfl, rfl⟩⟩
    exact runs_exchange_ok_iff.2 ⟨_, rfl, ⟨[], rfl⟩, by decide +kernel, Sw.ok_lt⟩
  refine runs_bind_ok_iff.2 ⟨[], _, ?_, runs_pure_iff.2 ⟨rfl, rfl⟩⟩
  exact runs_exchange_ok_iff.2 ⟨_, hend, ⟨[], rfl⟩, by decide +kernel, Sw.ok_lt⟩

theorem signTx_sound_sample :
    ∃ bytes, sampleTransaction.serialize = some bytes ∧
      ApprovedSince sampleBoot.log bytes (step Sdk.sample sampleSigned (.apdu endCommand)).log ∧
      List.Forall₂ (SignedInput Sdk.sample bytes) sampleTransaction.inputs [sampleSignature] := by
  obtain ⟨bytes, hbytes, happroved, hsigned⟩ := signTx_sound (by rintro ⟨⟩)
    (.start booted_sampleBoot) (by decide +kernel) runs_sampleTransaction
  exact ⟨bytes, hbytes, happroved (List.cons_ne_nil _ _), hsigned (.inl le_rfl)⟩

end HathorLedger.Client
