import HathorLedger.Library.StepParser
import Mathlib.Data.List.Basic
import HathorLedger.Transaction.Grammar
import HathorLedger.Token.TokenData
import HathorLedger.Handler.SignTx

/-!
# The transaction parser

What `_decode_elements` is for, stated without its buffer and its counters: a parser that is given
the announced counts and reads one element after the other. An attempt scans the pending bytes for
an element of the kind that comes next and checks it against the registry and the change list.

## Main definitions

* `Element`, `ElementKind`, `scanElement`: one element of any kind and its parser.
* `Elements.push`, `Elements.nextKind`: the elements read so far and the kind that comes next.
* `checkElement`: the conditions on an element.
* `elementParser`: the parser, an instance of `StepParser`.
* `IsTransaction`: the grammar.

## Main results

* `drain_eq_ok_iff_isTransaction`: the parser accepts exactly the grammar.
-/

namespace HathorLedger

/-! ### Elements of any kind -/

/-- The kinds of elements. -/
inductive ElementKind
  | uid
  | input
  | output
  deriving DecidableEq

/-- An element of some kind. -/
inductive Element
  | uid (u : TokenUid)
  | input (i : WireInput)
  | output (o : WireOutput)

namespace Element

def kind : Element → ElementKind
  | uid _ => .uid
  | input _ => .input
  | output _ => .output

def bytes : Element → Bytes
  | uid u => u.val
  | input i => i.bytes
  | output o => o.bytes

theorem length_bytes_pos (x : Element) : 0 < x.bytes.length := by
  cases x with
  | uid u => simp [bytes, u.property, tokenUidLen]
  | input i => simp [bytes, txInputLen]
  | output o => simp [bytes, WireOutput.length_bytes]

end Element

def scanUid (p : Bytes) : Except ℕ TokenUid :=
  if h : p.length < tokenUidLen then .error TxState.ready
  else .ok ⟨p.take tokenUidLen, List.length_take_of_le (not_lt.1 h)⟩

def scanInput (p : Bytes) : Except ℕ WireInput :=
  if h : p.length < txInputLen then .error TxState.ready
  else if readU16Be p 33 = 0 then
    .ok {
      txId := p.take 32
      index := p.getD 32 0
      length_txId := List.length_take_of_le (Nat.le_trans (by decide) (Nat.le_of_not_lt h)) }
  else .error TxState.err

/-- The parser of an element of a given kind. It throws `TxState.ready` when bytes are missing. -/
def scanElement (k : ElementKind) (p : Bytes) : Except ℕ Element :=
  match k with
  | .uid => (scanUid p).map .uid
  | .input => (scanInput p).map .input
  | .output => (scanOutput p).map .output

theorem scanUid_bytes (u : TokenUid) (q : Bytes) : scanUid (u.val ++ q) = .ok u := by
  rw [scanUid, dif_neg (by simp [u.property]), Except.ok.injEq]
  exact Subtype.ext (List.take_left' u.property)

theorem eq_of_readU16Be_eq {p : Bytes} (hlen : txInputLen ≤ p.length) (h : readU16Be p 33 = 0) :
    (p.drop 33).take 2 = [0, 0] := by
  have htwo : ((p.drop 33).take 2).length = 2 := by
    rw [txInputLen] at hlen
    rw [List.length_take, List.length_drop]
    omega
  obtain ⟨x, y, hbytes⟩ := List.length_eq_two.1 htwo
  rw [readU16Be, hbytes] at h
  simp only [beValue, List.foldl_cons, List.foldl_nil, Nat.mul_zero, Nat.zero_add] at h
  have hx : x = 0 := UInt8.toNat_inj.1 (by simp; omega)
  have hy : y = 0 := UInt8.toNat_inj.1 (by simp; omega)
  rw [hbytes, hx, hy]

theorem bytes_of_scanInput {p : Bytes} {i : WireInput} (h : scanInput p = .ok i) :
    p = i.bytes ++ p.drop txInputLen := by
  unfold scanInput at h
  split_ifs at h with hshort hlen
  obtain rfl := Except.ok.inj h
  have hzero := eq_of_readU16Be_eq (not_lt.1 hshort) hlen
  have hsplit : p.take (32 + 1 + 2) = p.take 32 ++ (p.drop 32).take 1 ++ (p.drop 33).take 2 := by
    rw [List.take_add, List.take_add]
  have hone : (p.drop 32).take 1 = [p.getD 32 0] := by
    rw [txInputLen] at hshort
    have hlt : 32 < p.length := by omega
    simp [List.take_one_drop_eq_of_lt_length hlt, List.getD_eq_getElem?_getD, hlt]
  conv_lhs => rw [← List.take_append_drop (32 + 1 + 2) p]
  rw [hsplit, hone, hzero]
  simp [WireInput.bytes, txInputLen]

theorem scanInput_bytes (i : WireInput) (q : Bytes) : scanInput (i.bytes ++ q) = .ok i := by
  have hlen : txInputLen ≤ (i.bytes ++ q).length := by simp
  have hdrop : ∀ n, (i.bytes ++ q).drop (32 + n) = (i.index :: 0 :: 0 :: q).drop n := by
    intro n
    simp [WireInput.bytes, ← i.length_txId]
  have hzero : readU16Be (i.bytes ++ q) 33 = 0 := by
    rw [readU16Be, hdrop 1]
    rfl
  rw [scanInput, dif_neg (not_lt.2 hlen), if_pos hzero, Except.ok.injEq]
  ext1
  · simp [WireInput.bytes, ← i.length_txId]
  · simp [WireInput.bytes, List.getD_eq_getElem?_getD, i.length_txId]

theorem scanElement_bytes (x : Element) (q : Bytes) :
    scanElement x.kind (x.bytes ++ q) = .ok x := by
  cases x with
  | uid u => simp [Element.kind, Element.bytes, scanElement, scanUid_bytes, Except.map]
  | input i => simp [Element.kind, Element.bytes, scanElement, scanInput_bytes, Except.map]
  | output o => simp [Element.kind, Element.bytes, scanElement, scanOutput_bytes, Except.map]

theorem bytes_of_scanElement {k : ElementKind} {p : Bytes} {x : Element}
    (h : scanElement k p = .ok x) : x.kind = k ∧ p = x.bytes ++ p.drop x.bytes.length := by
  cases k with
  | uid =>
    obtain ⟨u, hu, rfl⟩ := Except.map_eq_ok_iff.1 h
    unfold scanUid at hu
    split_ifs at hu with hshort
    obtain rfl := Except.ok.inj hu
    exact ⟨rfl, by simp [Element.bytes, not_lt.1 hshort]⟩
  | input =>
    obtain ⟨i, hi, rfl⟩ := Except.map_eq_ok_iff.1 h
    exact ⟨rfl, by simpa [Element.bytes] using bytes_of_scanInput hi⟩
  | output =>
    obtain ⟨o, ho, rfl⟩ := Except.map_eq_ok_iff.1 h
    exact ⟨rfl, bytes_of_scanOutput ho⟩

/-- A rejection stands whatever bytes follow. -/
theorem scanElement_append_of_error {k : ElementKind} {p : Bytes} {e : ℕ} (q : Bytes)
    (h : scanElement k p = .error e) (he : e ≠ TxState.ready) :
    scanElement k (p ++ q) = .error e := by
  cases k with
  | uid =>
    have h := Except.map_eq_error_iff.1 h
    unfold scanUid at h
    split_ifs at h with hshort
    exact absurd (Except.error.inj h).symm he
  | input =>
    have h := Except.map_eq_error_iff.1 h
    unfold scanInput at h
    split_ifs at h with hshort hlen
    · exact absurd (Except.error.inj h).symm he
    · have hread : readU16Be (p ++ q) 33 = readU16Be p 33 := by
        rw [txInputLen] at hshort
        rw [readU16Be, readU16Be, List.drop_append_of_le_length (by omega),
          List.take_append_of_le_length (by rw [List.length_drop]; omega)]
      rw [scanElement, scanInput, dif_neg (by rw [List.length_append]; omega), hread, if_neg hlen, h]
      rfl
  | output =>
    have h := Except.map_eq_error_iff.1 h
    obtain rfl | rfl := scanOutput_eq_error h
    · exact absurd rfl he
    · rw [scanElement, scanOutput_append_of_fail q h]
      rfl

/-! ### The elements read so far -/

namespace Elements

/-- One more element behind those of its kind. -/
def push (e : Elements) : Element → Elements
  | .uid u => { e with uids := e.uids ++ [u] }
  | .input i => { e with inputs := e.inputs ++ [i] }
  | .output o => { e with outputs := e.outputs ++ [o] }

theorem uids_prefix_push (e : Elements) (x : Element) : e.uids <+: (e.push x).uids := by
  cases x <;> simp [push]

theorem inputs_prefix_push (e : Elements) (x : Element) : e.inputs <+: (e.push x).inputs := by
  cases x <;> simp [push]

theorem outputs_prefix_push (e : Elements) (x : Element) : e.outputs <+: (e.push x).outputs := by
  cases x <;> simp [push]

/-- The kind of the element that comes next: the UIDs, then the inputs, then the outputs. -/
def nextKind (h : Header) (e : Elements) : Option ElementKind :=
  if e.uids.length < h.tokens.toNat then some .uid
  else if e.inputs.length < h.inputs.toNat then some .input
  else if e.outputs.length < h.outputs.toNat then some .output
  else none

/-- No kind has more elements than announced, and a kind has elements only when the kinds in front
of it are complete. -/
structure InOrder (h : Header) (e : Elements) : Prop where
  uids_le : e.uids.length ≤ h.tokens.toNat
  inputs_le : e.inputs.length ≤ h.inputs.toNat
  outputs_le : e.outputs.length ≤ h.outputs.toNat
  uids_of_inputs : e.inputs ≠ [] → e.uids.length = h.tokens.toNat
  uids_of_outputs : e.outputs ≠ [] → e.uids.length = h.tokens.toNat
  inputs_of_outputs : e.outputs ≠ [] → e.inputs.length = h.inputs.toNat

theorem nextKind_eq_uid_iff {h : Header} {e : Elements} :
    e.nextKind h = some .uid ↔ e.uids.length < h.tokens.toNat := by
  unfold nextKind
  split_ifs <;> simp_all

theorem nextKind_eq_input_iff {h : Header} {e : Elements} :
    e.nextKind h = some .input ↔
      h.tokens.toNat ≤ e.uids.length ∧ e.inputs.length < h.inputs.toNat := by
  unfold nextKind
  split_ifs <;> simp_all

theorem nextKind_eq_output_iff {h : Header} {e : Elements} :
    e.nextKind h = some .output ↔ h.tokens.toNat ≤ e.uids.length ∧
      h.inputs.toNat ≤ e.inputs.length ∧ e.outputs.length < h.outputs.toNat := by
  unfold nextKind
  split_ifs <;> simp_all

theorem nextKind_eq_none_iff {h : Header} {e : Elements} :
    e.nextKind h = none ↔ h.tokens.toNat ≤ e.uids.length ∧
      h.inputs.toNat ≤ e.inputs.length ∧ h.outputs.toNat ≤ e.outputs.length := by
  unfold nextKind
  split_ifs <;> simp_all

theorem inOrder_empty (h : Header) : InOrder h {} := by
  constructor <;> simp

namespace InOrder

variable {h : Header} {e : Elements}

theorem inputs_eq_nil (he : e.InOrder h) (hlt : e.uids.length < h.tokens.toNat) :
    e.inputs = [] := by
  by_contra hne
  exact absurd (he.uids_of_inputs hne) (by omega)

theorem outputs_eq_nil_of_uids (he : e.InOrder h) (hlt : e.uids.length < h.tokens.toNat) :
    e.outputs = [] := by
  by_contra hne
  exact absurd (he.uids_of_outputs hne) (by omega)

theorem outputs_eq_nil_of_inputs (he : e.InOrder h) (hlt : e.inputs.length < h.inputs.toNat) :
    e.outputs = [] := by
  by_contra hne
  exact absurd (he.inputs_of_outputs hne) (by omega)

theorem push {x : Element} (he : e.InOrder h) (hx : e.nextKind h = some x.kind) :
    (e.push x).InOrder h := by
  have huids := he.uids_le
  have hinputs := he.inputs_le
  cases x with
  | uid u =>
    have hlt := nextKind_eq_uid_iff.1 hx
    have hi := he.inputs_eq_nil hlt
    have ho := he.outputs_eq_nil_of_uids hlt
    exact ⟨by simpa [Elements.push, Nat.succ_le_iff] using hlt, hinputs, he.outputs_le,
      absurd hi, absurd ho, absurd ho⟩
  | input i =>
    obtain ⟨hge, hlt⟩ := nextKind_eq_input_iff.1 hx
    exact ⟨huids, by simpa [Elements.push, Nat.succ_le_iff] using hlt, he.outputs_le,
      fun _ => le_antisymm huids hge, he.uids_of_outputs,
      absurd (he.outputs_eq_nil_of_inputs hlt)⟩
  | output o =>
    obtain ⟨hu, hi, hlt⟩ := nextKind_eq_output_iff.1 hx
    exact ⟨huids, hinputs, by simpa [Elements.push, Nat.succ_le_iff] using hlt,
      he.uids_of_inputs, fun _ => le_antisymm huids hu, fun _ => le_antisymm hinputs hi⟩

/-- The serialisation grows at its end. -/
theorem bytes_push {x : Element} (he : e.InOrder h) (hx : e.nextKind h = some x.kind) :
    (e.push x).bytes = e.bytes ++ x.bytes := by
  cases x with
  | uid u =>
    have hlt := nextKind_eq_uid_iff.1 hx
    simp [Elements.push, Elements.bytes, Element.bytes, he.inputs_eq_nil hlt,
      he.outputs_eq_nil_of_uids hlt]
  | input i =>
    have hlt := (nextKind_eq_input_iff.1 hx).2
    simp [Elements.push, Elements.bytes, Element.bytes, he.outputs_eq_nil_of_inputs hlt]
  | output o => simp [Elements.push, Elements.bytes, Element.bytes]

/-- The element that came last. -/
theorem exists_eq_push (he : e.InOrder h) (hne : e ≠ {}) :
    ∃ (e' : Elements) (x : Element),
      e = e'.push x ∧ e'.InOrder h ∧ e'.nextKind h = some x.kind := by
  obtain ⟨uids, inputs, outputs⟩ := e
  obtain ⟨huids, hinputs, houtputs, huids_inputs, huids_outputs, hinputs_outputs⟩ := he
  rcases List.eq_nil_or_concat' outputs with rfl | ⟨os, o, rfl⟩
  · rcases List.eq_nil_or_concat' inputs with rfl | ⟨is, i, rfl⟩
    · rcases List.eq_nil_or_concat' uids with rfl | ⟨us, u, rfl⟩
      · exact absurd rfl hne
      · simp only [List.length_append, List.length_singleton] at huids
        refine ⟨⟨us, [], []⟩, .uid u, rfl, ?_, nextKind_eq_uid_iff.2 huids⟩
        constructor <;> simp
        omega
    · simp only [List.length_append, List.length_singleton] at hinputs
      have hu := huids_inputs (by simp)
      refine ⟨⟨uids, is, []⟩, .input i, rfl, ?_, nextKind_eq_input_iff.2 ⟨hu.ge, hinputs⟩⟩
      exact ⟨huids, by simp only; omega, by simp, fun _ => hu, by simp, by simp⟩
  · simp only [List.length_append, List.length_singleton] at houtputs
    have hu := huids_outputs (by simp)
    have hi := hinputs_outputs (by simp)
    refine ⟨⟨uids, inputs, os⟩, .output o, rfl, ?_,
      nextKind_eq_output_iff.2 ⟨hu.ge, hi.ge, houtputs⟩⟩
    exact ⟨huids, hinputs, by simp only; omega, huids_inputs, fun _ => hu, fun _ => hi⟩

end InOrder

/-- The number of elements. -/
def count (e : Elements) : ℕ := e.uids.length + e.inputs.length + e.outputs.length

theorem count_push (e : Elements) (x : Element) : (e.push x).count = e.count + 1 := by
  cases x <;> simp only [count, push, List.length_append, List.length_singleton] <;> omega

end Elements

/-! ### The parser -/

section Parser

variable (sdk : Sdk) (registry : TokenDataCtx) (changes : List ChangeOutputInfo) (h : Header)

/-- The conditions on an output at a position, behind a number of tokens. -/
def checkOutput (tokens index : ℕ) (o : WireOutput) : Except ℕ Unit := do
  Except.require (!isAuthority o.tokenData) TxState.err
  Except.require (tokenIndex o.tokenData ≤ tokens) TxState.err
  verifyChanges sdk (o.output index) changes

/-- The conditions on an element behind the elements read so far. -/
def checkElement (e : Elements) : Element → Except ℕ Unit
  | .uid u => Except.require (findTokenRegistryIndex registry u.val).isSome TxState.err
  | .input _ => .ok ()
  | .output o => checkOutput sdk changes e.uids.length e.outputs.length o

/-- One attempt: scan the pending bytes for an element of the next kind and check it. When all
elements are there, any further byte is rejected. -/
def attempt (e : Elements) (p : Bytes) : ParseStep ℕ Elements :=
  match e.nextKind h with
  | none => if p = [] then .more else .fail TxState.err
  | some k =>
    match scanElement k p with
    | .error err => if err = TxState.ready then .more else .fail err
    | .ok x =>
      match checkElement sdk registry changes e x with
      | .error err => .fail err
      | .ok _ => .emit x.bytes.length (e.push x)

variable {sdk registry changes h}

theorem attempt_eq_emit_iff {e e' : Elements} {p : Bytes} {n : ℕ} :
    attempt sdk registry changes h e p = .emit n e' ↔ ∃ x, e.nextKind h = some x.kind ∧
      scanElement x.kind p = .ok x ∧ checkElement sdk registry changes e x = .ok () ∧
      n = x.bytes.length ∧ e' = e.push x := by
  unfold attempt
  constructor
  · intro hemit
    split at hemit
    · split_ifs at hemit
    · next k hk =>
      split at hemit
      · split_ifs at hemit
      · next x hx =>
        split at hemit
        · cases hemit
        · next hcheck =>
          cases hemit
          have hkind := (bytes_of_scanElement hx).1
          exact ⟨x, by rw [hk, hkind], by rw [hkind, hx], hcheck, rfl, rfl⟩
  · rintro ⟨x, hk, hx, hcheck, rfl, rfl⟩
    simp only [hk, hx, hcheck]

theorem attempt_append_of_fail {e : Elements} {p : Bytes} {err : ℕ} (q : Bytes)
    (hfail : attempt sdk registry changes h e p = .fail err) :
    attempt sdk registry changes h e (p ++ q) = .fail err := by
  unfold attempt at hfail ⊢
  cases hk : e.nextKind h with
  | none =>
    simp only [hk] at hfail
    split_ifs at hfail with hp
    simp [hp, hfail]
  | some k =>
    simp only [hk] at hfail
    cases hx : scanElement k p with
    | error err' =>
      simp only [hx] at hfail
      split_ifs at hfail with hready
      simp only [scanElement_append_of_error q hx hready, if_neg hready, hfail]
    | ok x =>
      simp only [hx] at hfail
      obtain ⟨hkind, hp⟩ := bytes_of_scanElement hx
      have hscan : scanElement k (p ++ q) = .ok x := by
        rw [hp, ← hkind, List.append_assoc, scanElement_bytes]
      simp only [hscan, hfail]

variable (sdk registry changes h)

/-- The parser of the elements behind a header. -/
def elementParser : StepParser ℕ Elements UInt8 where
  next := attempt sdk registry changes h
  emit_pos hemit := by
    obtain ⟨x, -, -, -, rfl, -⟩ := attempt_eq_emit_iff.1 hemit
    exact x.length_bytes_pos
  emit_le hemit := by
    obtain ⟨x, -, hx, -, rfl, -⟩ := attempt_eq_emit_iff.1 hemit
    rw [(bytes_of_scanElement hx).2, List.length_append]
    exact Nat.le_add_right _ _
  emit_take hemit := by
    obtain ⟨x, hk, hx, hcheck, rfl, rfl⟩ := attempt_eq_emit_iff.1 hemit
    refine attempt_eq_emit_iff.2 ⟨x, hk, ?_, hcheck, rfl, rfl⟩
    rw [(bytes_of_scanElement hx).2, List.take_left]
    simpa using scanElement_bytes x []
  emit_append q hemit := by
    obtain ⟨x, hk, hx, hcheck, rfl, rfl⟩ := attempt_eq_emit_iff.1 hemit
    refine attempt_eq_emit_iff.2 ⟨x, hk, ?_, hcheck, rfl, rfl⟩
    rw [(bytes_of_scanElement hx).2, List.append_assoc]
    exact scanElement_bytes x _
  fail_append q hfail := attempt_append_of_fail q hfail

end Parser

/-! ### The grammar -/

theorem findTokenRegistryIndex_eq_some {registry : TokenDataCtx} {uid : Bytes} {i : ℕ}
    (h : findTokenRegistryIndex registry uid = some i) :
    i < registry.len ∧ (registry.tokens.getD i {}).uid = uid := by
  have hmem := List.mem_of_find?_eq_some h
  have huid := List.find?_some h
  exact ⟨List.mem_range.1 hmem, (beq_iff_eq.1 huid).symm⟩

theorem findTokenRegistryIndex_isSome_iff {registry : TokenDataCtx} {uid : Bytes} :
    (findTokenRegistryIndex registry uid).isSome ↔
      ∃ i < registry.len, (registry.tokens.getD i {}).uid = uid := by
  rw [findTokenRegistryIndex, List.find?_isSome]
  simp only [List.mem_range, beq_iff_eq, @eq_comm _ uid]

section Grammar

variable {sdk : Sdk} {registry : TokenDataCtx} {changes : List ChangeOutputInfo} {h : Header}

theorem verifyChanges_eq_ok_iff {output : TxOutput} {infos : List ChangeOutputInfo} :
    verifyChanges sdk output infos = .ok () ↔
      ∀ info ∈ infos, info.index = output.index → verifyChange sdk info output = .ok true := by
  induction infos with
  | nil => simp [verifyChanges]
  | cons info infos ih =>
    rw [List.forall_mem_cons, ← ih, verifyChanges]
    by_cases hindex : output.index = info.index
    · rw [if_pos hindex]
      cases hvalid : verifyChange sdk info output with
      | error e => simp [hindex]
      | ok valid => cases valid <;> simp [hindex]
    · simp [hindex, Ne.symm hindex]

/-- An output is accepted if it is no authority, its token is among the announced ones and it
belongs to every declared path with its position. -/
theorem checkOutput_eq_ok_iff {tokens index : ℕ} {o : WireOutput} :
    checkOutput sdk changes tokens index o = .ok () ↔
      isAuthority o.tokenData = false ∧ tokenIndex o.tokenData ≤ tokens ∧
        ∀ info ∈ changes, info.index = index → verifyChange sdk info (o.output index) = .ok true := by
  have hverify := @verifyChanges_eq_ok_iff sdk (o.output index) changes
  rw [WireOutput.output_index] at hverify
  rw [← hverify, checkOutput]
  cases isAuthority o.tokenData with
  | true => simp
  | false => by_cases hle : tokenIndex o.tokenData ≤ tokens <;> simp [hle]

variable (sdk changes)

/-- The conditions on all outputs. -/
def Elements.Accepted (e : Elements) : Prop :=
  ∀ i o, e.outputs[i]? = some o → checkOutput sdk changes e.uids.length i o = .ok ()

variable (registry)

/-- The conditions on all elements. -/
structure Elements.Checked (e : Elements) : Prop where
  registered : ∀ u ∈ e.uids, (findTokenRegistryIndex registry u.val).isSome
  outputs : e.Accepted sdk changes

variable {sdk registry changes}

theorem Elements.Accepted.push {e : Elements} {x : Element} (he : e.Accepted sdk changes)
    (horder : e.InOrder h) (hk : e.nextKind h = some x.kind)
    (hx : checkElement sdk registry changes e x = .ok ()) : (e.push x).Accepted sdk changes := by
  cases x with
  | uid u =>
    have houtputs := horder.outputs_eq_nil_of_uids (Elements.nextKind_eq_uid_iff.1 hk)
    intro i o ho
    simp [Elements.push, houtputs] at ho
  | input i => exact he
  | output o =>
    intro i o' ho
    rw [Elements.push, List.getElem?_append] at ho
    split_ifs at ho with hi
    · exact he i o' ho
    · have hi' : i = e.outputs.length := by
        have := (List.getElem?_eq_some_iff.1 ho).1
        simp only [List.length_singleton] at this
        omega
      subst hi'
      rw [Nat.sub_self, List.getElem?_cons_zero, Option.some.injEq] at ho
      rw [← ho]
      exact hx

theorem Elements.Checked.push {e : Elements} {x : Element} (he : e.Checked sdk registry changes)
    (horder : e.InOrder h) (hk : e.nextKind h = some x.kind)
    (hx : checkElement sdk registry changes e x = .ok ()) :
    (e.push x).Checked sdk registry changes := by
  refine ⟨fun v hv => ?_, he.outputs.push horder hk hx⟩
  cases x with
  | uid u =>
    rcases List.mem_append.1 hv with hv | hv
    · exact he.registered v hv
    · rw [List.mem_singleton.1 hv]
      simpa [checkElement, Except.require_eq, Option.isSome_iff_ne_none] using hx
  | input i => exact he.registered v hv
  | output o => exact he.registered v hv

theorem Elements.Checked.of_push {e : Elements} {x : Element}
    (he : (e.push x).Checked sdk registry changes) (horder : e.InOrder h)
    (hk : e.nextKind h = some x.kind) :
    e.Checked sdk registry changes ∧ checkElement sdk registry changes e x = .ok () := by
  cases x with
  | uid u =>
    have houtputs := horder.outputs_eq_nil_of_uids (Elements.nextKind_eq_uid_iff.1 hk)
    refine ⟨⟨fun v hv => he.registered v (List.mem_append_left _ hv),
      fun i o ho => by simp [houtputs] at ho⟩, ?_⟩
    have hu : u ∈ (e.push (.uid u)).uids := by simp [Elements.push]
    rw [checkElement, he.registered u hu, Except.require_true]
  | input i => exact ⟨⟨he.registered, he.outputs⟩, rfl⟩
  | output o =>
    refine ⟨⟨he.registered, fun i o' ho => he.outputs i o' ?_⟩, ?_⟩
    · rw [Elements.push, List.getElem?_append_left (List.getElem?_eq_some_iff.1 ho).1]
      exact ho
    · exact he.outputs e.outputs.length o (by simp [Elements.push])

/-- Elements in order that satisfy the conditions are read one after the other. -/
theorem emits_of_checked {e : Elements} (horder : e.InOrder h)
    (hchecked : e.Checked sdk registry changes) :
    (elementParser sdk registry changes h).Emits {} e.bytes e := by
  induction hn : e.count generalizing e with
  | zero =>
    by_cases hne : e = {}
    · rw [hne]
      exact .nil _
    · obtain ⟨e', x, rfl, -, -⟩ := horder.exists_eq_push hne
      rw [Elements.count_push] at hn
      exact absurd hn (Nat.succ_ne_zero _)
  | succ n ih =>
    have hne : e ≠ {} := by
      rintro rfl
      exact absurd hn (Nat.succ_ne_zero n).symm
    obtain ⟨e', x, rfl, horder', hk⟩ := horder.exists_eq_push hne
    rw [Elements.count_push, Nat.add_right_cancel_iff] at hn
    obtain ⟨hchecked', hx⟩ := hchecked.of_push horder' hk
    rw [horder'.bytes_push hk]
    refine (ih horder' hchecked' hn).append (.single (attempt_eq_emit_iff.2 ⟨x, hk, ?_, hx, rfl, rfl⟩))
    simpa using scanElement_bytes x []

/-- Emissions put the bytes they read behind the serialisation, keep the elements in order and
check each of them. -/
theorem elements_of_emits {e e' : Elements} {p : Bytes} (horder : e.InOrder h)
    (hemits : (elementParser sdk registry changes h).Emits e p e') :
    e'.bytes = e.bytes ++ p ∧ e'.InOrder h ∧
      (e.Checked sdk registry changes → e'.Checked sdk registry changes) := by
  let I : Elements → Bytes → Prop := fun e' used => e'.bytes = e.bytes ++ used ∧ e'.InOrder h ∧
    (e.Checked sdk registry changes → e'.Checked sdk registry changes)
  have hstart : I e [] := ⟨(List.append_nil _).symm, horder, id⟩
  refine hemits.invariant I hstart ?_
  rintro e₁ e₂ used p hnext ⟨hbytes, horder₁, hchecked₁⟩
  obtain ⟨x, hk, hx, hcheck, hlen, rfl⟩ := attempt_eq_emit_iff.1 hnext
  have hp : p = x.bytes := by
    rw [(bytes_of_scanElement hx).2, ← hlen, List.drop_length, List.append_nil]
  refine ⟨?_, horder₁.push hk, fun h₀ => (hchecked₁ h₀).push horder₁ hk hcheck⟩
  rw [horder₁.bytes_push hk, hbytes, hp, List.append_assoc]

/-- Draining moves bytes from the pending ones to the serialised elements. -/
theorem bytes_of_drain {e e' : Elements} {p r : Bytes} (horder : e.InOrder h)
    (hdrain : (elementParser sdk registry changes h).drain e p = .ok (e', r)) :
    e'.bytes ++ r = e.bytes ++ p := by
  obtain ⟨a, rfl, hemits, -⟩ := StepParser.drain_eq_ok_iff.1 hdrain
  rw [(elements_of_emits horder hemits).1, List.append_assoc]

theorem checked_empty : Elements.Checked sdk registry changes {} :=
  ⟨by simp, fun i o ho => by simp at ho⟩

/-- An attempt asks for more only while an element may still be incomplete. -/
theorem length_lt_of_attempt_eq_more {e : Elements} {p : Bytes}
    (hmore : attempt sdk registry changes h e p = .more) : p.length < 36 := by
  unfold attempt at hmore
  split at hmore
  · split_ifs at hmore with hp
    simp [hp]
  · next k _ =>
    split at hmore
    · next err hscan =>
      split_ifs at hmore with hready
      subst hready
      cases k with
      | uid =>
        have hscan := Except.map_eq_error_iff.1 hscan
        unfold scanUid at hscan
        split_ifs at hscan with hlen
        rw [tokenUidLen] at hlen
        omega
      | input =>
        have hscan := Except.map_eq_error_iff.1 hscan
        unfold scanInput at hscan
        split_ifs at hscan with hlen
        · rw [txInputLen] at hlen
          omega
        · exact absurd (Except.error.inj hscan) (by decide)
      | output =>
        have hscan := Except.map_eq_error_iff.1 hscan
        have hw := valueWidth_le p
        unfold scanOutput at hscan
        split_ifs at hscan
        · omega
        · exact absurd (Except.error.inj hscan) (by decide)
        · omega
        · exact absurd (Except.error.inj hscan) (by decide)
    · split at hmore <;> cases hmore

/-- The grammar of a transaction with a given header: the announced numbers of registered UIDs, of
inputs and of accepted outputs, and nothing behind them. -/
structure IsTransaction (sdk : Sdk) (registry : TokenDataCtx) (changes : List ChangeOutputInfo)
    (h : Header) (e : Elements) (stream : Bytes) : Prop where
  stream_eq : stream = h.bytes ++ e.bytes
  length_uids : e.uids.length = h.tokens.toNat
  length_inputs : e.inputs.length = h.inputs.toNat
  length_outputs : e.outputs.length = h.outputs.toNat
  registered : ∀ u ∈ e.uids, ∃ i < registry.len, (registry.tokens.getD i {}).uid = u.val
  accepted : ∀ i o, e.outputs[i]? = some o → isAuthority o.tokenData = false ∧
    tokenIndex o.tokenData ≤ e.uids.length ∧
    ∀ info ∈ changes, info.index = i → verifyChange sdk info (o.output i) = .ok true

/-- The parser reads all of a byte string and finds the announced elements in it exactly if the
string is a transaction. -/
theorem drain_eq_ok_iff_isTransaction {e : Elements} {p : Bytes} :
    ((elementParser sdk registry changes h).drain {} p = .ok (e, []) ∧
        e.outputs.length = h.outputs.toNat ∧ e.nextKind h = none) ↔
      IsTransaction sdk registry changes h e (h.bytes ++ p) := by
  constructor
  · rintro ⟨hdrain, houtputs, hnone⟩
    obtain ⟨a, hp, hemits, -⟩ := StepParser.drain_eq_ok_iff.1 hdrain
    obtain ⟨hbytes, horder, hchecked⟩ := elements_of_emits (Elements.inOrder_empty h) hemits
    have hchecked := hchecked checked_empty
    obtain ⟨hu, hi, -⟩ := Elements.nextKind_eq_none_iff.1 hnone
    exact {
      stream_eq := by
        rw [hp, hbytes, List.append_nil]
        rfl
      length_uids := le_antisymm horder.uids_le hu
      length_inputs := le_antisymm horder.inputs_le hi
      length_outputs := houtputs
      registered := fun u hu => findTokenRegistryIndex_isSome_iff.1 (hchecked.registered u hu)
      accepted := fun i o ho => checkOutput_eq_ok_iff.1 (hchecked.outputs i o ho) }
  · intro ht
    have hp : p = e.bytes := List.append_cancel_left ht.stream_eq
    have horder : e.InOrder h := ⟨ht.length_uids.le, ht.length_inputs.le, ht.length_outputs.le,
      fun _ => ht.length_uids, fun _ => ht.length_uids, fun _ => ht.length_inputs⟩
    have hchecked : e.Checked sdk registry changes :=
      ⟨fun u hu => findTokenRegistryIndex_isSome_iff.2 (ht.registered u hu),
        fun i o ho => checkOutput_eq_ok_iff.2 (ht.accepted i o ho)⟩
    have hnone : e.nextKind h = none := Elements.nextKind_eq_none_iff.2
      ⟨ht.length_uids.ge, ht.length_inputs.ge, ht.length_outputs.ge⟩
    refine ⟨StepParser.drain_eq_ok_iff.2 ⟨p, by simp, ?_, ?_⟩, ht.length_outputs, hnone⟩
    · rw [hp]
      exact emits_of_checked horder hchecked
    · simp [elementParser, attempt, hnone]

end Grammar

end HathorLedger
