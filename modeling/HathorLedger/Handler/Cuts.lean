import HathorLedger.Handler.ChangeCodec
import HathorLedger.Handler.Chunks

/-!
# Honest transactions and their cuts

What an honest host sends to have a transaction signed: change entries whose outputs belong to the
declared paths, a header, and the elements that the header announces. The host may cut the elements
anywhere; only the change information and the header have to be in the first chunk.

Whatever the cut, the decoder follows: after some chunks it holds exactly the elements that are
complete in them, and waits for the rest.

## Main definitions

* `ChangeCoding`: the encodings of a list of change entries.
* `PaysTo`, `HonestTransaction`: what makes a transaction honest.
* `Elements.outputEnd`: where an output ends.
* `Cut`, `Cut.KeepsTogether`: a cut, and that it parts no change output from a reviewed one in front.

## Main results

* `HonestTransaction.isTransaction`: an honest transaction is a transaction of the grammar.
* `exists_drain_of_prefix`: the elements that are complete in a prefix of the serialisation.
* `decodeElements_of_drain`: decoding the next chunk.
-/

namespace HathorLedger

open EStateM (wp_mono exists_run_of_wp)

/-! ### Change information -/

/-- The encodings of a list of change entries: no entries, one entry in the old protocol, and
version 1. -/
inductive ChangeCoding : List ChangeEntry → Bytes → Prop
  | none : ChangeCoding [] [0]
  | old (entry : ChangeEntry) : ChangeCoding [entry]
    ((0x80 ||| UInt8.ofNat entry.path.components.length) :: entry.index ::
      entry.path.components.flatMap (beBytes 4))
  | version1 (entries : List ChangeEntry) (h : entries.length ≤ txMaxTokens + 1) :
    ChangeCoding entries (changeInfoBytes entries)

/-- The record holds the entries and no others. -/
structure Declares (entries : List ChangeEntry) (t : TxInfo) : Prop where
  changeLen : t.changeLen = entries.length
  stored : List.Forall₂ ChangeEntry.StoredIn entries t.changeEntries

section Reading

variable {cdata : Buffer} {t : TxInfo} {entry : ChangeEntry} {more : Bytes}

theorem readEntry_eq (entry : ChangeEntry) (more : Bytes) (ht : t.ChangeCells) :
    readEntry (UInt8.ofNat entry.path.components.length) entry.index
        (entry.path.components.flatMap (beBytes 4) ++ more) t =
      some { t with
        changeLen := 1
        changeInfo := t.changeInfo.set 0 (entry.store (t.changeInfo.getD 0 {})) } := by
  have hle := entry.path.length_le
  have hout := ht.pathCells.getD 0
  rw [readEntry]
  simp only [entry.path.toNat_length, entry.path.written_append]
  have hlen : 4 * entry.path.components.length ≤
      (entry.path.components.flatMap (beBytes 4) ++ more).length := by
    rw [List.length_append, length_flatMap_beBytes]
    omega
  rw [if_pos ⟨⟨hle, hlen⟩, entry.path.inRange_store hout⟩]
  rfl

theorem declares_store (entry : ChangeEntry) (ht : t.ChangeCells) :
    Declares [entry] { t with
      changeLen := 1
      changeInfo := t.changeInfo.set 0 (entry.store (t.changeInfo.getD 0 {})) } := by
  have hlen : [entry].length ≤ txMaxTokens + 1 := by
    rw [List.length_singleton, txMaxTokens]
    omega
  exact ⟨rfl, ht.storedIn hlen⟩

/-- Every encoding is read, and the cursor stands behind it. -/
theorem ChangeCoding.wp_readChangeInfo {entries : List ChangeEntry} {info : Bytes}
    (hinfo : ChangeCoding entries info) (h : cdata.Wf) (ht : t.ChangeCells)
    (hr : cdata.rest = info ++ more) :
    (readChangeInfo cdata).wp (fun cdata' t' => cdata'.rest = more ∧ Declares entries t')
      (fun _ _ => False) t := by
  cases hinfo with
  | none =>
    obtain ⟨b, hversion, hr', -⟩ := h.exists_readU8 hr
    rw [readChangeInfo, hversion]
    simp only [EStateM.wp_bind, EStateM.wp_require, EStateM.wp_ite, EStateM.wp_modify,
      EStateM.wp_pure, if_true]
    exact ⟨hr', rfl, by simp [TxInfo.changeEntries]⟩
  | old entry =>
    have hle := entry.path.length_le
    have hsmall : UInt8.ofNat entry.path.components.length < 16 := by
      rw [UInt8.lt_iff_toNat_lt, entry.path.toNat_length]
      exact hle.trans_lt (by decide)
    have hentry := readEntry_eq entry more ht
    refine wp_mono ?_ ?_ (wp_readChangeInfo_old h hsmall hr t)
    · rintro b t' ⟨hread, hrest⟩
      obtain rfl := Option.some.inj (hentry.symm.trans hread)
      refine ⟨?_, declares_store entry ht⟩
      rw [hrest, entry.path.toNat_length]
      exact List.drop_left' (length_flatMap_beBytes _)
    · rintro sw t' ⟨hnone, -⟩
      cases hentry.symm.trans hnone
  | version1 _ hlen =>
    refine wp_mono ?_ (fun _ _ => id) (readChangeInfo_entries h ht hlen hr)
    rintro cdata' t' ⟨hrest, rfl⟩
    exact ⟨hrest, rfl, ht.storedIn hlen⟩

end Reading

/-! ### Honest transactions -/

/-- The hash in the script of the output is that of the key of the path. -/
def PaysTo (sdk : Sdk) (path : List ℕ) (o : WireOutput) : Prop :=
  ∃ privateKey chainCode publicKey, sdk.derivePrivateKey path = some (privateKey, chainCode) ∧
    sdk.initPublicKey privateKey = some publicKey ∧
    o.pubkeyHash = (hash160 sdk ((compressPublicKey publicKey).take 33)).take pubkeyHashLen

/-- A transaction with at least one output, of registered tokens and without authorities, whose
header announces its elements. The change entries name different outputs, each of which belongs to
its declared path. -/
structure HonestTransaction (sdk : Sdk) (registry : TokenDataCtx) (changes : List ChangeEntry)
    (h : Header) (e : Elements) : Prop where
  length_uids : e.uids.length = h.tokens.toNat
  length_inputs : e.inputs.length = h.inputs.toNat
  length_outputs : e.outputs.length = h.outputs.toNat
  outputs_pos : 0 < e.outputs.length
  uids_le : e.uids.length ≤ txMaxTokens
  registered : ∀ u ∈ e.uids, ∃ i < registry.len, (registry.tokens.getD i {}).uid = u.val
  no_authority : ∀ o ∈ e.outputs, isAuthority o.tokenData = false
  token_le : ∀ o ∈ e.outputs, tokenIndex o.tokenData ≤ e.uids.length
  changes_le : changes.length ≤ txMaxTokens + 1
  distinct : (changes.map fun c => c.index.toNat).Nodup
  belongs : ∀ c ∈ changes, ∃ o, e.outputs[c.index.toNat]? = some o ∧ PaysTo sdk c.path.components o

section Honest

variable {sdk : Sdk} {registry : TokenDataCtx} {changes : List ChangeEntry} {h : Header}
  {e : Elements} {t : TxInfo}

theorem verifyChange_of_paysTo {info : ChangeOutputInfo} {o : WireOutput} (index : ℕ)
    (hpays : PaysTo sdk info.path.components o) :
    verifyChange sdk info (o.output index) = .ok true := by
  obtain ⟨privateKey, chainCode, publicKey, hderive, hinit, hhash⟩ := hpays
  have hkey : pubkeyHashOfPath sdk info.path =
      some (hash160 sdk ((compressPublicKey publicKey).take 33)) := by
    simp [pubkeyHashOfPath, hderive, hinit]
  rw [verifyChange, hkey]
  simp [WireOutput.output, hhash]

/-- The declared entries have the indices of those that were sent. -/
theorem Declares.changeIndices (hd : Declares changes t) :
    t.changeIndices = changes.map fun c => c.index.toNat := by
  obtain ⟨-, hstored⟩ := hd
  rw [TxInfo.changeIndices]
  generalize t.changeEntries = infos at hstored
  induction hstored with
  | nil => rfl
  | cons hstored _ ih => rw [List.map_cons, List.map_cons, hstored.index_eq, ih]

/-- Every declared entry was sent. -/
theorem Declares.exists_of_mem (hd : Declares changes t) {info : ChangeOutputInfo}
    (hinfo : info ∈ t.changeEntries) : ∃ c ∈ changes, c.StoredIn info := by
  obtain ⟨-, hall⟩ := hd
  generalize t.changeEntries = infos at hall hinfo
  induction hall with
  | nil => cases hinfo
  | cons hstored _ ih =>
    rcases List.mem_cons.1 hinfo with rfl | hmem
    · exact ⟨_, List.mem_cons_self, hstored⟩
    · obtain ⟨c, hc, hstored'⟩ := ih hmem
      exact ⟨c, List.mem_cons_of_mem _ hc, hstored'⟩

theorem HonestTransaction.verifies (ht : HonestTransaction sdk registry changes h e)
    (hd : Declares changes t) {i : ℕ} {o : WireOutput} (ho : e.outputs[i]? = some o) :
    ∀ info ∈ t.changeEntries, info.index = i → verifyChange sdk info (o.output i) = .ok true := by
  intro info hinfo hindex
  obtain ⟨c, hc, hstored⟩ := hd.exists_of_mem hinfo
  obtain ⟨o', ho', hpays⟩ := ht.belongs c hc
  rw [← hstored.index_eq, hindex, ho, Option.some.injEq] at ho'
  subst ho'
  rw [← hstored.path.components_eq] at hpays
  exact verifyChange_of_paysTo i hpays

/-- An honest transaction belongs to the grammar. -/
theorem HonestTransaction.isTransaction (ht : HonestTransaction sdk registry changes h e)
    (hd : Declares changes t) :
    IsTransaction sdk registry t.changeEntries h e (h.bytes ++ e.bytes) where
  stream_eq := rfl
  length_uids := ht.length_uids
  length_inputs := ht.length_inputs
  length_outputs := ht.length_outputs
  registered := ht.registered
  accepted _ o ho :=
    have hmem := List.mem_of_getElem? ho
    ⟨ht.no_authority o hmem, ht.token_le o hmem, ht.verifies hd ho⟩

/-- The declared indices belong to outputs. -/
theorem HonestTransaction.lt_of_mem (ht : HonestTransaction sdk registry changes h e) {i : ℕ}
    (hi : i ∈ changes.map fun c => c.index.toNat) : i < e.outputs.length := by
  obtain ⟨c, hc, rfl⟩ := List.mem_map.1 hi
  obtain ⟨o, ho, -⟩ := ht.belongs c hc
  exact (List.getElem?_eq_some_iff.1 ho).1

end Honest

/-! ### Elements in a prefix of the serialisation -/

/-- The elements `e` are the first ones of `e'`, in each kind. -/
structure Elements.StartOf (e e' : Elements) : Prop where
  uids : e.uids <+: e'.uids
  inputs : e.inputs <+: e'.inputs
  outputs : e.outputs <+: e'.outputs

/-- Where output `i` ends in the serialisation. -/
def Elements.outputEnd (e : Elements) (i : ℕ) : ℕ :=
  ({ e with outputs := e.outputs.take (i + 1) } : Elements).bytes.length

section Prefix

variable {sdk : Sdk} {registry : TokenDataCtx} {infos : List ChangeOutputInfo} {h : Header}
  {e e' e'' : Elements} {p q r : Bytes}

theorem Elements.StartOf.refl (e : Elements) : e.StartOf e :=
  ⟨List.prefix_rfl, List.prefix_rfl, List.prefix_rfl⟩

theorem Elements.StartOf.trans (h : e.StartOf e') (h' : e'.StartOf e'') : e.StartOf e'' :=
  ⟨h.uids.trans h'.uids, h.inputs.trans h'.inputs, h.outputs.trans h'.outputs⟩

theorem Elements.startOf_push (e : Elements) (x : Element) : e.StartOf (e.push x) :=
  ⟨e.uids_prefix_push x, e.inputs_prefix_push x, e.outputs_prefix_push x⟩

/-- A longer list of strings has a longer concatenation. -/
theorem length_flatten_map_le {α : Type} (f : α → Bytes) {l l' : List α} (h : l <+: l') :
    (l.map f).flatten.length ≤ (l'.map f).flatten.length := by
  obtain ⟨more, rfl⟩ := h
  rw [List.map_append, List.flatten_append, List.length_append]
  exact Nat.le_add_right _ _

theorem Elements.StartOf.length_bytes_le (h : e.StartOf e') : e.bytes.length ≤ e'.bytes.length := by
  have huids := length_flatten_map_le Subtype.val h.uids
  have hinputs := length_flatten_map_le WireInput.bytes h.inputs
  have houtputs := length_flatten_map_le WireOutput.bytes h.outputs
  simp only [Elements.bytes, List.length_append]
  omega

theorem startOf_of_emits (hemits : (elementParser sdk registry infos h).Emits e p e') :
    e.StartOf e' := by
  induction hemits with
  | nil e => exact .refl e
  | cons hnext hlater ih =>
    obtain ⟨x, -, -, -, -, rfl⟩ := attempt_eq_emit_iff.1 hnext
    exact (Elements.startOf_push _ x).trans ih

/-- The parser takes any prefix of a transaction, and the rest leads it to the end. -/
theorem exists_drain_of_prefix (ht : IsTransaction sdk registry infos h e (h.bytes ++ (q ++ p))) :
    ∃ e' r, (elementParser sdk registry infos h).drain {} q = .ok (e', r) ∧
      (elementParser sdk registry infos h).drain e' (r ++ p) = .ok (e, []) := by
  exact StepParser.exists_drain_of_append _ (drain_eq_ok_iff_isTransaction.2 ht).1

/-- While bytes of an element are missing, its end has not been reached. -/
theorem length_lt_of_next_eq_more {x : Element} (horder : e.InOrder h)
    (hk : e.nextKind h = some x.kind) (hcheck : checkElement sdk registry infos e x = .ok ())
    (hmore : attempt sdk registry infos h e r = .more) (hstart : x.bytes ++ p = r ++ q) :
    e.bytes.length + r.length < (e.push x).bytes.length := by
  rw [horder.bytes_push hk, List.length_append]
  by_contra hge
  have hle : x.bytes.length ≤ r.length := by omega
  obtain ⟨rest, rfl⟩ : x.bytes <+: r := by
    refine List.prefix_of_prefix_length_le ⟨p, rfl⟩ ?_ hle
    rw [hstart]
    exact List.prefix_append r q
  have hemit : attempt sdk registry infos h e (x.bytes ++ rest) = .emit x.bytes.length (e.push x) :=
    attempt_eq_emit_iff.2 ⟨x, hk, scanElement_bytes x rest, hcheck, rfl, rfl⟩
  cases hemit.symm.trans hmore

/-- The outputs that the parser has found in a prefix of a transaction are those that end in it. -/
theorem lt_outputs_iff (ht : IsTransaction sdk registry infos h e (h.bytes ++ (q ++ p)))
    (hdrain : (elementParser sdk registry infos h).drain {} q = .ok (e', r))
    (hrest : (elementParser sdk registry infos h).drain e' (r ++ p) = .ok (e, [])) {i : ℕ}
    (hi : i < e.outputs.length) : i < e'.outputs.length ↔ e.outputEnd i ≤ q.length := by
  obtain ⟨a, hq, hemits, hmore⟩ := StepParser.drain_eq_ok_iff.1 hdrain
  obtain ⟨b, hp, hemits', -⟩ := StepParser.drain_eq_ok_iff.1 hrest
  obtain ⟨hbytes, horder, -⟩ := elements_of_emits (Elements.inOrder_empty h) hemits
  have hstart := startOf_of_emits hemits'
  have hlen : q.length = e'.bytes.length + r.length := by
    rw [hq, hbytes, List.length_append]
    rfl
  constructor
  · intro hlt
    have hne : e'.outputs ≠ [] := List.ne_nil_of_length_pos (Nat.zero_lt_of_lt hlt)
    have huids : e'.uids = e.uids := hstart.uids.eq_of_length
      ((horder.uids_of_outputs hne).trans ht.length_uids.symm)
    have hinputs : e'.inputs = e.inputs := hstart.inputs.eq_of_length
      ((horder.inputs_of_outputs hne).trans ht.length_inputs.symm)
    have houtputs : e.outputs.take (i + 1) <+: e'.outputs := by
      rw [List.prefix_iff_eq_take.1 hstart.outputs]
      exact List.take_prefix_take_left hlt
    have hle : Elements.StartOf { e with outputs := e.outputs.take (i + 1) } e' :=
      ⟨huids ▸ List.prefix_rfl, hinputs ▸ List.prefix_rfl, houtputs⟩
    have := hle.length_bytes_le
    rw [Elements.outputEnd]
    omega
  · intro hend
    by_contra hge
    cases hemits' with
    | nil => exact hge hi
    | @cons _ s' _ first later hnext hlater =>
      obtain ⟨x, hk, hscan, hcheck, hx, rfl⟩ := attempt_eq_emit_iff.1 hnext
      have hfirst : first = x.bytes := by
        rw [(bytes_of_scanElement hscan).2, ← hx, List.drop_length, List.append_nil]
      have hlt := length_lt_of_next_eq_more (p := later) horder hk hcheck hmore
        (by rw [← hfirst, hp, List.append_nil])
      have hstart' := startOf_of_emits hlater
      have hcount : (e'.push x).outputs.length ≤ i + 1 := by
        cases x <;> simp only [Elements.push, List.length_append, List.length_singleton] <;> omega
      have hle : (e'.push x).StartOf { e with outputs := e.outputs.take (i + 1) } :=
        ⟨hstart'.uids, hstart'.inputs, List.prefix_take_iff.2 ⟨hstart'.outputs, hcount⟩⟩
      have := hle.length_bytes_le
      rw [Elements.outputEnd] at hend
      omega

/-- The decoder follows the parser. -/
theorem decodeElements_of_drain {t : TxInfo} (hh : Held sdk h e t) (hpoints : PointsTo registry e t)
    (houtputs : t.bufferOutputLen = 0) (hlen : t.bufferLen < 320)
    (hmore : t.pending ≠ [] ∨ e.nextKind h ≠ none)
    (hdrain : (elementParser sdk registry t.changeEntries h).drain e t.pending = .ok (e', r)) :
    (decodeElements sdk registry t).1 = TxState.ready ∧
      Waiting sdk registry h e' r (decodeElements sdk registry t).2 t.changeEntries ∧
      SameContext t (decodeElements sdk registry t).2 ∧
      e.outputs.length + (decodeElements sdk registry t).2.bufferOutputLen = e'.outputs.length := by
  rcases @decodeElements_cases sdk registry h e t hh (by omega) hmore with
    ⟨hready, e₁, n, hdrained, hprogress⟩ | ⟨err, ⟨-, herror⟩, -⟩
  · rw [hdrain, Except.ok.injEq, Prod.mk.injEq] at hdrained
    obtain ⟨rfl, rfl⟩ := hdrained
    have hdecoded := hprogress.decoded
    exact ⟨hready, ⟨hprogress.held, hprogress.context.changeEntries, rfl,
      (elementParser sdk registry t.changeEntries h).next_of_drain_eq_ok hdrain,
      hprogress.pointsTo hpoints⟩, hprogress.context, by omega⟩
  · cases hdrain.symm.trans herror

end Prefix

/-! ### Cuts -/

/-- A cut of the elements into chunks. The change information and the header stand in the first
chunk, in front of its elements; the later chunks have the numbers of a running count, which is
never zero. -/
structure Cut (info : Bytes) (h : Header) (e : Elements) where
  first : Bytes
  later : List (UInt8 × Bytes)
  join : first ++ (later.map Prod.snd).flatten = e.bytes
  first_le : (info ++ (h.bytes ++ first)).length ≤ 255
  later_le : ∀ c ∈ later, c.1 ≠ 0 ∧ 1 ≤ c.2.length ∧ c.2.length ≤ 255

namespace Cut

variable {info : Bytes} {h : Header} {e : Elements} (c : Cut info h e)

/-- What the chunks hold of the elements. -/
def pieces : List Bytes := c.first :: c.later.map Prod.snd

/-- No chunk ends behind an output that is under review and before the end of the next output, if
that one is declared as change. -/
def KeepsTogether (changes : List ℕ) : Prop :=
  ∀ i ∉ changes, i + 1 ∈ changes → ∀ sent, sent <+: c.pieces →
    ¬(e.outputEnd i ≤ sent.flatten.length ∧ sent.flatten.length < e.outputEnd (i + 1))

theorem flatten_pieces : c.pieces.flatten = e.bytes := by
  rw [pieces, List.flatten_cons, c.join]

end Cut

end HathorLedger
