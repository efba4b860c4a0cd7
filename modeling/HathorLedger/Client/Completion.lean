import HathorLedger.Client.Signing
import HathorLedger.Run.Completeness

/-!
# When the client gets its signatures

The client signs an honest transaction, and the user approves every screen. It gets the signatures
exactly if none of its chunks ends at or behind the end of an output that is reviewed and before the
end of the next output, if that is a change output. This is a question of lengths only.

## Main definitions

* `Approving`: the user approves every screen.
* `Signable`: the device has a key for an input.
* `HonestCall`: the client is asked to sign an honest transaction.
* `KeepsTogether`: the condition on the lengths.

## Main results

* `exists_cut`: the chunks of the client are a cut of the transaction.
* `signTx_returns_iff`: when the client gets its signatures.
-/

namespace HathorLedger.Client

open Dialogue (Runs runs_bind_ok_iff runs_pure_iff runs_each_cons_iff runs_each_nil_iff)

/-! ### A user who approves -/

/-- The app serves a command, and the user approves every screen. -/
structure Approving (sdk : Sdk) (w : World) (apdu : Bytes) (answer : ℕ × Bytes) (w' : World) :
    Prop where
  approves : ApprovesAll sdk (step sdk w (.apdu apdu)) w'
  answered : responses w'.trace = (answer.2 ++ beBytes 2 answer.1) :: responses w.trace
  sw_lt : answer.1 < 2 ^ 16

variable {sdk : Sdk} {w w' : World}

theorem exists_presses (h : ApprovesAll sdk w w') :
    ∃ buttons : List Button, w' = run sdk w (buttons.map .press) := by
  induction h with
  | done => exact ⟨[], rfl⟩
  | press _ _ ih =>
    obtain ⟨buttons, rfl⟩ := ih
    exact ⟨.approve :: buttons, rfl⟩

theorem Approving.serves {apdu : Bytes} {answer : ℕ × Bytes} (h : Approving sdk w apdu answer w') :
    Serves sdk w apdu answer w' :=
  ⟨exists_presses h.approves, h.answered, h.sw_lt⟩

/-- The user approves every screen, and every command is answered with `SW_OK`. -/
theorem runs_of_honestRun {commands : List Bytes} {ws : List World}
    (hrun : HonestRun sdk w commands ws)
    (hanswered : List.IsChain (fun u v => responses v.trace = beBytes 2 Sw.ok :: responses u.trace)
      (w :: ws)) :
    Runs (Approving sdk) (Dialogue.each (exchange Ins.signTx) (commands.map some)) w
      (.ok (commands.map fun _ => [])) ((w :: ws).getLast (List.cons_ne_nil _ _)) := by
  induction hrun with
  | nil => exact runs_each_nil_iff.2 ⟨rfl, rfl⟩
  | @cons w v command commands ws h _ ih =>
    obtain ⟨hfirst, hrest⟩ := List.isChain_cons_cons.1 hanswered
    refine runs_each_cons_iff.2 ⟨[], _, v, rfl, ?_, ?_⟩
    · exact runs_exchange_ok_iff.2 ⟨command, rfl, h, hfirst, by decide⟩
    · rw [List.getLast_cons (List.cons_ne_nil _ _)]
      exact ih hrest

theorem honestRun_of_runs {commands : List Bytes} {responses : List Bytes}
    (h : Runs (Approving sdk) (Dialogue.each (exchange Ins.signTx) (commands.map some)) w
      (.ok responses) w') :
    ∃ ws, HonestRun sdk w commands ws ∧ List.IsChain AnsweredOk (w :: ws) := by
  induction commands generalizing w responses with
  | nil => exact ⟨[], .nil, .singleton _⟩
  | cons command commands ih =>
    obtain ⟨response, responses, v, -, hfirst, hrest⟩ := runs_each_cons_iff.1 h
    obtain ⟨_, hcommand, hserves⟩ := runs_exchange_ok_iff.1 hfirst
    obtain rfl := Option.some.inj hcommand
    obtain ⟨ws, hrun, hanswered⟩ := ih hrest
    exact ⟨v :: ws, .cons hserves.approves hrun, .cons_cons ⟨_, hserves.answered⟩ hanswered⟩

/-! ### The chunks of the client -/

section Chunks

variable {changes : List ChangeEntry} {info : Bytes} {h : Header} {e : Elements}

theorem length_flatten_le {l : List Bytes} {n : ℕ} (hl : ∀ x ∈ l, x.length ≤ n) :
    l.flatten.length ≤ n * l.length := by
  induction l with
  | nil => simp
  | cons x l ih =>
    obtain ⟨hx, hl'⟩ := List.forall_mem_cons.1 hl
    rw [List.flatten_cons, List.length_append, List.length_cons, Nat.mul_succ, Nat.add_comm]
    exact Nat.add_le_add (ih hl') hx

/-- Change information leaves room for a header in the first chunk. -/
theorem length_info_le (hinfo : ChangeCoding changes info) : info.length ≤ 244 := by
  cases hinfo with
  | none => decide
  | old entry =>
    have hle := entry.path.length_bytes_le
    rw [WirePath.bytes, List.length_cons] at hle
    rw [List.length_cons, List.length_cons]
    omega
  | version1 _ hlen =>
    have hle : (changes.map ChangeEntry.bytes).flatten.length ≤
        22 * (changes.map ChangeEntry.bytes).length := by
      refine length_flatten_le fun x hx => ?_
      obtain ⟨entry, -, rfl⟩ := List.mem_map.1 hx
      exact Nat.succ_le_succ (entry.path.length_bytes_le)
    rw [List.length_map] at hle
    rw [txMaxTokens] at hlen
    rw [changeInfoBytes, List.length_cons, List.length_cons, List.flatMap_def]
    omega

/-- A transaction fits into as many chunks as can be numbered. -/
theorem length_elements_le (huids : e.uids.length ≤ txMaxTokens) (hinputs : e.inputs.length < 256)
    (houtputs : e.outputs.length < 256) : e.bytes.length ≤ 20000 := by
  have huid : ((e.uids.map Subtype.val).flatten).length ≤ 32 * (e.uids.map Subtype.val).length := by
    refine length_flatten_le fun x hx => ?_
    obtain ⟨u, -, rfl⟩ := List.mem_map.1 hx
    exact u.property.le
  have hinput : ((e.inputs.map WireInput.bytes).flatten).length ≤
      35 * (e.inputs.map WireInput.bytes).length := by
    refine length_flatten_le fun x hx => ?_
    obtain ⟨i, -, rfl⟩ := List.mem_map.1 hx
    exact i.length_bytes.le
  have houtput : ((e.outputs.map WireOutput.bytes).flatten).length ≤
      36 * (e.outputs.map WireOutput.bytes).length := by
    refine length_flatten_le fun x hx => ?_
    obtain ⟨o, -, rfl⟩ := List.mem_map.1 hx
    have hlen := o.length_bytes
    have hwidth : valueWidth o.valueField ≤ 8 := by
      unfold valueWidth
      split <;> decide
    omega
  rw [List.length_map] at huid hinput houtput
  rw [txMaxTokens] at huids
  rw [Elements.bytes, List.length_append, List.length_append]
  omega

theorem serialize_dataChunk {number : ℕ} {data : Bytes} (hnumber : number < 256)
    (hlen : data.length ≤ 255) :
    CommandBuilder.serialize cla Ins.signTx 0 number data =
      some (dataChunk (UInt8.ofNat number) data) := by
  refine (@serialize_eq_some_iff cla Ins.signTx 0 number data _).2
    ⟨⟨by decide, by decide, by decide, hnumber, by omega⟩, ?_⟩
  rw [dataChunk, UInt8.toNat_ofNat_of_lt' (by rwa [UInt8.size])]

/-- What the client sends is a cut of the transaction into pieces of 255 bytes. -/
theorem exists_cut {t : Transaction} {changeList : List ChangeInfo} {useOldProtocol : Bool}
    (hinfo : ChangeCoding changes info)
    (hdata : CommandBuilder.signTxData t changeList useOldProtocol =
      some (info ++ (h.bytes ++ e.bytes))) (hlen : e.bytes.length ≤ 20000) :
    ∃ c : Cut info h e,
      CommandBuilder.signTxSendData t changeList useOldProtocol = c.commands.map some ∧
      ∀ k, info ++ (h.bytes ++ (c.pieces.take (k + 1)).flatten) =
        (info ++ (h.bytes ++ e.bytes)).take (maxApduLen * (k + 1)) := by
  have hinfoLen := length_info_le hinfo
  have hheader : h.bytes.length = 5 := rfl
  obtain ⟨later, hchunks, hflatten, hlater, hcount⟩ :=
    exists_chunkify (by decide : 0 < maxApduLen) (info ++ (h.bytes ++ e.bytes))
  have htake : (info ++ (h.bytes ++ e.bytes)).take maxApduLen =
      info ++ (h.bytes ++ e.bytes.take (maxApduLen - info.length - 5)) := by
    rw [List.take_append, List.take_of_length_le (by rw [maxApduLen]; omega), List.take_append,
      List.take_of_length_le (by rw [maxApduLen]; omega), hheader]
  have hdrop : (info ++ (h.bytes ++ e.bytes)).drop maxApduLen =
      e.bytes.drop (maxApduLen - info.length - 5) := by
    rw [List.drop_append, List.drop_of_length_le (by rw [maxApduLen]; omega), List.drop_append,
      List.drop_of_length_le (by rw [maxApduLen]; omega), hheader]
    rfl
  have hnumbers : later.length < 255 := by
    simp only [List.length_append, maxApduLen] at hcount
    omega
  have hsnd : (later.mapIdx fun i x => (UInt8.ofNat (i + 1), x)).map Prod.snd = later := by
    exact List.ext_getElem (by simp) fun i _ _ => by simp
  refine ⟨⟨e.bytes.take (maxApduLen - info.length - 5), later.mapIdx fun i x => (UInt8.ofNat (i + 1), x),
    ?_, ?_, ?_⟩, ?_, ?_⟩
  · rw [hsnd, hflatten, hdrop, List.take_append_drop]
  · have hle : ((info ++ (h.bytes ++ e.bytes)).take maxApduLen).length ≤ 255 :=
      List.length_take_le _ _
    rwa [htake] at hle
  · intro c hc
    obtain ⟨i, hi, rfl⟩ := List.mem_mapIdx.1 hc
    refine ⟨?_, hlater _ (List.getElem_mem hi)⟩
    rw [Ne, ← UInt8.toNat_inj, UInt8.toNat_ofNat_of_lt' (by rw [UInt8.size]; omega)]
    exact Nat.succ_ne_zero i
  · obtain ⟨⟨last, chunk⟩, chunks, hlist, hchunk, rfl⟩ := List.map_eq_cons_iff.1 hchunks
    obtain rfl : chunk = _ := hchunk.trans htake
    rw [CommandBuilder.signTxSendData, hdata]
    dsimp only
    rw [hlist, List.mapIdx_cons, Cut.commands, List.map_cons]
    refine congrArg₂ List.cons ?_ ?_
    · have hle : ((info ++ (h.bytes ++ e.bytes)).take maxApduLen).length ≤ 255 :=
        List.length_take_le _ _
      rw [htake] at hle
      exact @serialize_dataChunk 0 _ (by decide) hle
    · refine List.ext_getElem (by simp) fun i hi _ => ?_
      rw [List.length_mapIdx] at hi
      rw [List.length_map] at hnumbers
      have hle := (hlater _ (List.mem_map_of_mem (List.getElem_mem hi))).2
      simp only [List.getElem_mapIdx, List.getElem_map]
      exact serialize_dataChunk (by omega) hle
  · intro k
    have hpieces := flatten_take_chunkify (by decide : 0 < maxApduLen)
      (info ++ (h.bytes ++ e.bytes)) (k + 1)
    rw [hchunks, List.take_succ_cons, List.flatten_cons, htake] at hpieces
    rw [← hpieces, Cut.pieces, List.take_succ_cons, List.flatten_cons]
    simp only [hsnd, List.append_assoc]

theorem outputEnd_le (e : Elements) (i : ℕ) : e.outputEnd i ≤ e.bytes.length :=
  Elements.StartOf.length_bytes_le
    ⟨List.prefix_rfl, List.prefix_rfl, List.take_prefix (i + 1) e.outputs⟩

theorem outputEnd_pos {i : ℕ} (hi : i < e.outputs.length) : 0 < e.outputEnd i := by
  obtain ⟨o, outputs, ho⟩ := List.exists_cons_of_length_pos (Nat.zero_lt_of_lt hi)
  have hlen := o.length_bytes
  rw [Elements.outputEnd, Elements.bytes, ho, List.take_succ_cons, List.map_cons, List.flatten_cons]
  simp only [List.length_append]
  omega

/-- Whether a cut into pieces of 255 bytes keeps the outputs together is a question of lengths. -/
theorem keepsTogether_iff {c : Cut info h e} {indices : List ℕ}
    (hpieces : ∀ k, info ++ (h.bytes ++ (c.pieces.take (k + 1)).flatten) =
      (info ++ (h.bytes ++ e.bytes)).take (maxApduLen * (k + 1)))
    (hindices : ∀ i ∈ indices, i < e.outputs.length) :
    c.KeepsTogether indices ↔ ∀ i ∉ indices, i + 1 ∈ indices → ∀ k,
      ¬(info.length + 5 + e.outputEnd i ≤ maxApduLen * k ∧
        maxApduLen * k < info.length + 5 + e.outputEnd (i + 1)) := by
  have hheader : h.bytes.length = 5 := rfl
  have hlen : ∀ k, info.length + 5 + (c.pieces.take (k + 1)).flatten.length =
      min (maxApduLen * (k + 1)) (info.length + 5 + e.bytes.length) := by
    intro k
    have hlengths := congrArg List.length (hpieces k)
    simp only [List.length_append, List.length_take, hheader] at hlengths
    omega
  constructor
  · rintro hkeeps i hi hnext k ⟨hle, hlt⟩
    obtain ⟨k, rfl⟩ : ∃ k', k = k' + 1 := ⟨k - 1, by rw [maxApduLen] at hle; omega⟩
    have hend := outputEnd_le e (i + 1)
    have hpiece := hlen k
    exact hkeeps i hi hnext _ (List.take_prefix (k + 1) c.pieces) ⟨by omega, by omega⟩
  · rintro hkeeps i hi hnext sent hsent ⟨hle, hlt⟩
    have hpos := outputEnd_pos (Nat.lt_of_succ_lt (hindices _ hnext))
    have hend := outputEnd_le e (i + 1)
    rw [List.prefix_iff_eq_take] at hsent
    cases hcount : sent.length with
    | zero =>
      rw [List.length_eq_zero_iff.1 hcount, List.flatten_nil, List.length_nil] at hle
      omega
    | succ k =>
      have hpiece := hlen k
      rw [← hcount, ← hsent, hcount] at hpiece
      exact hkeeps i hi hnext (k + 1) ⟨by omega, by omega⟩

/-- The change information that the client sends for entries of the wire format. -/
theorem changeCoding_of_spells {changeList : List ChangeInfo} {useOldProtocol : Bool}
    (hchanges : List.Forall₂ ChangeInfo.Spells changeList changes)
    (hold : useOldProtocol = true → changeList.length ≤ 1)
    (hle : changes.length ≤ txMaxTokens + 1)
    (hinfo : CommandBuilder.changeData changeList useOldProtocol = some info) :
    ChangeCoding changes info := by
  cases useOldProtocol with
  | false =>
    have hcount : toBytes (changes.length : ℤ) 1 = some [UInt8.ofNat changes.length] := by
      have hmax : txMaxTokens + 1 < 256 := by decide
      exact toBytes_one_eq_some_iff.2 ⟨by omega, rfl⟩
    have hentries := mapM_eq_some_of_forall₂ (hchanges.imp fun _ _ h => h.serialize)
    simp only [CommandBuilder.changeData, Bool.false_eq_true, if_false, hchanges.length_eq, hcount,
      hentries, Option.bind_eq_bind, Option.bind_some, Option.pure_def, Option.some.injEq,
      ← List.flatMap_def] at hinfo
    subst hinfo
    exact .version1 changes hle
  | true =>
    cases hchanges with
    | nil =>
      obtain rfl := Option.some.inj hinfo
      exact .none
    | cons hc hrest =>
      have hlen := hold rfl
      rw [List.length_cons] at hlen
      obtain rfl := List.length_eq_zero_iff.1 (Nat.le_zero.1 (Nat.le_of_succ_le_succ hlen))
      cases hrest
      obtain rfl := Option.some.inj (hc.oldProtoBytes.symm.trans hinfo)
      exact .old _

theorem fitsOldProtocol_of_spells {changeList : List ChangeInfo}
    (hchanges : List.Forall₂ ChangeInfo.Spells changeList changes) : FitsOldProtocol changeList := by
  cases hchanges with
  | nil => exact fun c hc => by cases hc
  | @cons c entry _ _ hc _ =>
    rintro _ ⟨⟩ parts hparts
    obtain rfl := Option.some.inj (hc.path.symm.trans hparts)
    rw [List.length_map]
    exact entry.path.length_le.trans_lt (by decide)

end Chunks

/-! ### Signatures -/

/-- The path of the input can be sent to the device, which has a key for it. -/
def Signable (sdk : Sdk) (input : TxInput) : Prop :=
  ∃ path, ∃ p : WirePath, input.bip32Path = some path ∧
    bip32PathFromString path = some (p.components.map (beBytes 4)) ∧ p.components ≠ [] ∧
    sdk.derivePrivateKey p.components ≠ none

/-- For an approved transaction the client gets the signatures of all inputs. -/
theorem exists_signatures (hsdk : sdk.Signs) {inputs : List TxInput}
    (hinputs : ∀ input ∈ inputs, Signable sdk input)
    (hw : Reachable Booted (step sdk) Sequential w) (hidle : w.io.state ≠ .waiting)
    (hr : ReadyToSign w.globals) :
    ∃ signatures w', Runs (Approving sdk) (Dialogue.each (exchange Ins.signTx)
        (inputs.map CommandBuilder.signTxSignature)) w (.ok signatures) w' ∧
      Reachable Booted (step sdk) Sequential w' ∧ w'.io.state ≠ .waiting := by
  induction inputs generalizing w with
  | nil => exact ⟨[], w, runs_each_nil_iff.2 ⟨rfl, rfl⟩, hw, hidle⟩
  | cons input inputs ih =>
    obtain ⟨⟨path, p, hpath, hparts, hne, hderive⟩, hinputs'⟩ := List.forall_mem_cons.1 hinputs
    obtain ⟨signature, hresponses, hr₁, hui, hio₁⟩ := exists_signed hsdk hw hr hne hderive
    have hclosed : (step sdk w (.apdu (signCommand p.components))).ui.flow.hasApprove = false := by
      rw [hui]
      exact (attended_of_reachable (fun _ _ => id) hw).closed hidle
    obtain ⟨signatures, w', hrest, hw', hidle'⟩ :=
      ih hinputs' (hw.next _ fun _ _ => hidle) (by rw [hio₁]; nofun) hr₁
    have hcommand : CommandBuilder.signTxSignature input = some (signCommand p.components) := by
      have hlen := p.length_bytes_le
      simp only [CommandBuilder.signTxSignature, hpath, Option.bind_eq_bind, Option.bind_some,
        pathData_eq_some hparts]
      refine (@serialize_eq_some_iff cla Ins.signTx 1 0 p.bytes (signCommand p.components)).2
        ⟨⟨by decide, by decide, by decide, by decide, ?_⟩, rfl⟩
      omega
    refine ⟨signature :: signatures, w', ?_, hw', hidle'⟩
    rw [List.map_cons, hcommand]
    refine runs_each_cons_iff.2 ⟨signature, signatures, _, rfl, ?_, hrest⟩
    exact runs_exchange_ok_iff.2 ⟨_, rfl, .done hclosed, hresponses, Sw.ok_lt⟩

/-- The client ends signing, whatever the app does at the time. -/
theorem exists_ended (hw : Reachable Booted (step sdk) Sequential w) :
    ∃ w', Runs (Approving sdk) (exchange Ins.signTx CommandBuilder.signTxEnd) w (.ok []) w' := by
  obtain ⟨hresponses, hmenu⟩ := responses_endCommand hw
  have hcommand : CommandBuilder.signTxEnd = some endCommand := by
    refine (@serialize_eq_some_iff cla Ins.signTx 2 0 [] endCommand).2
      ⟨⟨by decide, by decide, by decide, by decide, ?_⟩, rfl⟩
    decide
  refine ⟨_, runs_exchange_ok_iff.2 ⟨endCommand, hcommand, .done ?_, hresponses, Sw.ok_lt⟩⟩
  rw [hmenu]
  rfl

/-- After the review the app is ready to sign. -/
theorem readyToSign_of_fed {base : List Event} {bytes : Bytes}
    (hw : Reachable Booted (step sdk) Sequential w) (hstate : w.ctx.state = .approved)
    (hf : w.globals.Live → Fed base bytes 0 w.globals) : ReadyToSign w.globals := by
  have hfed := hf (.inl (by rw [show w.globals.ctx.state = _ from hstate]; nofun))
  have hs := @sound_of_reachable sdk _ _ hw
  obtain ⟨h, e, hsession, -⟩ := hs.session (hs.request (.inr (.inr hfed.read)))
  obtain ⟨hsha256, -⟩ := hsession.digest.unfinished (by rw [hashFinished_eq_false_iff, hfed.finishes])
  exact ⟨hstate, ⟨_, hsha256⟩, hfed.cells⟩

/-- The client is asked to sign an honest transaction: the elements and the change entries are those
of the wire format, and the old protocol is used for at most one entry. -/
structure HonestCall (sdk : Sdk) (registry : TokenDataCtx) (t : Transaction)
    (changeList : List ChangeInfo) (useOldProtocol : Bool) (changes : List ChangeEntry)
    (info : Bytes) (h : Header) (e : Elements) : Prop where
  honest : HonestTransaction sdk registry changes h e
  spells : t.Spells h e
  changes : List.Forall₂ ChangeInfo.Spells changeList changes
  old : useOldProtocol = true → changeList.length ≤ 1
  info : CommandBuilder.changeData changeList useOldProtocol = some info
  signable : ∀ input ∈ t.inputs, Signable sdk input

/-- No multiple of 255 bytes, counted from the front of the change information, lies at or behind the
end of an output that is no change and before the end of the next output, if that is one. -/
def KeepsTogether (info : Bytes) (e : Elements) (changes : List ChangeEntry) : Prop :=
  ∀ i ∉ changes.map (fun c => c.index.toNat), i + 1 ∈ changes.map (fun c => c.index.toNat) →
    ∀ k, ¬(info.length + 5 + e.outputEnd i ≤ maxApduLen * k ∧
      maxApduLen * k < info.length + 5 + e.outputEnd (i + 1))

section Calls

variable {changes : List ChangeEntry} {info : Bytes} {h : Header} {e : Elements} {t : Transaction}
  {changeList : List ChangeInfo} {useOldProtocol : Bool}

/-- The client sends a cut of the transaction. -/
theorem HonestCall.exists_cut
    (hc : HonestCall sdk w.tokenSymbols t changeList useOldProtocol changes info h e) :
    ChangeCoding changes info ∧ ∃ c : Cut info h e,
      CommandBuilder.signTxSendData t changeList useOldProtocol = c.commands.map some ∧
      (c.KeepsTogether (changes.map fun c => c.index.toNat) ↔ KeepsTogether info e changes) := by
  have ht := hc.honest
  have hcoding := changeCoding_of_spells hc.changes hc.old ht.changes_le hc.info
  have hdata : CommandBuilder.signTxData t changeList useOldProtocol =
      some (info ++ (h.bytes ++ e.bytes)) := by
    rw [CommandBuilder.signTxData, hc.info,
      hc.spells.serialize ht.length_uids ht.length_inputs ht.length_outputs]
    rfl
  obtain ⟨c, hcommands, hpieces⟩ := Client.exists_cut hcoding hdata (length_elements_le ht.uids_le
    (ht.length_inputs ▸ h.inputs.toNat_lt) (ht.length_outputs ▸ h.outputs.toNat_lt))
  exact ⟨hcoding, c, hcommands, keepsTogether_iff hpieces fun i hi => ht.lt_of_mem hi⟩

/-- If the outputs are kept together, the client gets its signatures. -/
theorem HonestCall.returns (hsdk : sdk.Signs) (hw : Reachable Booted (step sdk) Sequential w)
    (hidle : w.io.state ≠ .waiting) (hrecv : w.ctx.state ≠ .recvData)
    (happroved : w.ctx.state ≠ .approved)
    (hc : HonestCall sdk w.tokenSymbols t changeList useOldProtocol changes info h e)
    (hkeeps : KeepsTogether info e changes) :
    ∃ signatures w', Runs (Approving sdk) (signTx t changeList useOldProtocol) w
      (.ok signatures) w' := by
  obtain ⟨hcoding, c, hcommands, hiff⟩ := hc.exists_cut
  obtain ⟨earlier, last, hrun, hcompleted⟩ :=
    c.exists_completed hw hidle hrecv happroved hc.honest hcoding (hiff.2 hkeeps)
  have hchunks := runs_of_honestRun hrun hcompleted.answered
  have hlast : (w :: (earlier ++ [last])).getLast (List.cons_ne_nil _ _) = last := by simp
  rw [hlast, ← hcommands] at hchunks
  obtain ⟨bytes, -, hw₁, hidle₁, -, hf⟩ := fed_chunks
    (fun _ => fitsOldProtocol_of_spells hc.changes) hw hidle
    (hchunks.mono fun _ _ _ _ h => h.serves)
  obtain ⟨signatures, w₂, hsign, hw₂, -⟩ := exists_signatures hsdk hc.signable hw₁ hidle₁
    (readyToSign_of_fed hw₁ hcompleted.approved hf)
  obtain ⟨w₃, hend⟩ := exists_ended hw₂
  exact ⟨signatures, w₃, runs_bind_ok_iff.2 ⟨_, _, hchunks, runs_bind_ok_iff.2 ⟨_, _, hsign,
    runs_bind_ok_iff.2 ⟨_, _, hend, runs_pure_iff.2 ⟨rfl, rfl⟩⟩⟩⟩⟩

/-- **When the client gets its signatures.** For every app that is ready for a new transaction and
every honest transaction, with a user who approves every screen: the client gets the signatures
exactly if the outputs are kept together. -/
theorem signTx_returns_iff (hsdk : sdk.Signs) (hw : Reachable Booted (step sdk) Sequential w)
    (hidle : w.io.state ≠ .waiting) (hrecv : w.ctx.state ≠ .recvData)
    (happroved : w.ctx.state ≠ .approved)
    (hc : HonestCall sdk w.tokenSymbols t changeList useOldProtocol changes info h e) :
    (∃ signatures w', Runs (Approving sdk) (signTx t changeList useOldProtocol) w
      (.ok signatures) w') ↔ KeepsTogether info e changes := by
  refine ⟨?_, hc.returns hsdk hw hidle hrecv happroved⟩
  rintro ⟨signatures, w', hruns⟩
  obtain ⟨hcoding, c, hcommands, hiff⟩ := hc.exists_cut
  obtain ⟨_, w₁, hchunks, -⟩ := runs_bind_ok_iff.1 hruns
  rw [hcommands] at hchunks
  obtain ⟨ws, hrun, hanswered⟩ := honestRun_of_runs hchunks
  exact hiff.1
    (c.keepsTogether_of_answered hw hidle hrecv happroved hc.honest hcoding hrun hanswered)

end Calls

/-- The sample platform with signatures that fit into a response. -/
def sampleSdk : Sdk :=
  { Sdk.sample with ecdsaSign := fun key digest => some (key.take 32 ++ digest.take 32) }

theorem signs_sampleSdk : sampleSdk.Signs := fun privateKey digest => by
  refine ⟨_, rfl, ?_⟩
  rw [List.length_append, List.length_take, List.length_take, ioApduBufferSize]
  omega

theorem length_sampleTxId : (List.replicate 32 (5 : UInt8)).length = 32 := List.length_replicate

/-- The input of the sample transaction, as it is sent. -/
def sampleWireInput : WireInput := ⟨List.replicate 32 5, 0, length_sampleTxId⟩

/-- The transaction has an output to review and its change. -/
def sampleElements : Elements := ⟨[], [sampleWireInput], [sampleOutput, sampleOwn]⟩

theorem honest_sampleElements :
    HonestTransaction sampleSdk sampleBoot.tokenSymbols [sampleSecond] ⟨0, 1, 0, 1, 2⟩
      sampleElements where
  length_uids := rfl
  length_inputs := rfl
  length_outputs := rfl
  outputs_pos := by decide
  uids_le := by decide
  registered _ h := by cases h
  no_authority := by decide
  token_le := by decide
  changes_le := by decide
  distinct := by decide
  belongs := by
    rintro c hc
    obtain rfl := List.mem_singleton.1 hc
    exact ⟨sampleOwn, rfl, _, _, _, rfl, rfl, by decide +kernel⟩

/-- The client is asked to sign the transaction. -/
theorem honestCall_sample :
    HonestCall sampleSdk sampleBoot.tokenSymbols
      ⟨1, [], [sampleInput], [⟨5, sampleOutput.script, 0⟩, ⟨3, sampleOwn.script, 0⟩]⟩
      [⟨1, ['4', '4', quote]⟩] false [sampleSecond] (changeInfoBytes [sampleSecond])
      ⟨0, 1, 0, 1, 2⟩ sampleElements where
  honest := honest_sampleElements
  spells := {
    txVersion := by decide
    tokens := rfl
    inputs := .cons ⟨rfl, by decide⟩ .nil
    outputs := .cons ⟨by decide, by decide, rfl⟩ (.cons ⟨by decide, by decide, rfl⟩ .nil) }
  changes := .cons ⟨by decide, by decide +kernel⟩ .nil
  old := by rintro ⟨⟩
  info := by decide +kernel
  signable input hinput := by
    obtain rfl := List.mem_singleton.1 hinput
    exact ⟨_, sampleSecond.path, rfl, by decide +kernel, by decide, by decide⟩

theorem signTx_returns_sample :
    ∃ signatures w', Runs (Approving sampleSdk)
      (signTx ⟨1, [], [sampleInput], [⟨5, sampleOutput.script, 0⟩, ⟨3, sampleOwn.script, 0⟩]⟩
        [⟨1, ['4', '4', quote]⟩] false) sampleBoot (.ok signatures) w' := by
  refine (signTx_returns_iff signs_sampleSdk (.start booted_sampleBoot) (by decide) (by decide)
    (by decide) honestCall_sample).2 fun i hi hnext k hk => ?_
  obtain rfl : i = 0 := by simpa [sampleSecond] using hnext
  have hlen : (changeInfoBytes [sampleSecond]).length + 5 + sampleElements.outputEnd (0 + 1) < 255 := by
    decide +kernel
  have hpos : 0 < (changeInfoBytes [sampleSecond]).length := by decide
  rw [maxApduLen] at hk
  omega

end HathorLedger.Client
