import HathorLedger.Run.OutputScreens
import HathorLedger.Run.Registry
import HathorLedger.Token.Payload

/-!
# The symbols of the output screens

The context keeps pointers into the registry, one for each token UID of the transaction, while
`SEND_TOKEN_DATA` goes on storing tokens. Between two chunks the cells behind the pointers stay as
they are, unless the registry is full: then the next `SEND_TOKEN_DATA` erases it and leaves the
transaction alone.

## Main definitions

* `Certified`: an entry holds the UID and the symbol of an accepted token.
* `uidAt`, `Linked`: the pointers lead to entries with the UIDs of the hashed bytes.
* `Overfills`, `Input.sendsNul`: the registry is erased, and a symbol with a NUL is sent.
* `ShowsDelivered`: the symbol on an output screen was delivered with the UID of the token.

## Main results

* `showsDelivered_of_reachable`: the symbols of the output screens are those that were delivered.
-/

namespace HathorLedger

variable (sdk : Sdk)

/-! ### The entries of the registry -/

/-- The entry holds the UID and the symbol of a token that was accepted with a valid signature. -/
def Certified (events : List Event) (entry : TokenSymbol) : Prop :=
  ∃ secret token signature, .tokenAccepted secret token signature ∈ events ∧
    verifyTokenSignature sdk secret token signature = true ∧
    entry.uid = token.uid ∧ cstr entry.symbol = token.symbolBytes

/-- `SEND_TOKEN_DATA` with a NUL in the symbol, which ends the symbol in the registry. -/
def Input.sendsNul : Input → Bool
  | .apdu bytes =>
    match callOf bytes with
    | some (.sendTokenData _ data) =>
      match signedToken data with
      | some (token, _) => token.symbolBytes.contains 0
      | none => false
    | _ => false
  | _ => false

/-- `SEND_TOKEN_DATA` for one more token. -/
def Input.sendsNext : Input → Bool
  | .apdu bytes =>
    match callOf bytes with
    | some (.sendTokenData first _) => !first
    | _ => false
  | _ => false

/-- The registry is full, and the next token erases it behind the pointers of a transaction. -/
def Overfills (w : World) (i : Input) : Prop :=
  i.sendsNext = true ∧ txMaxTokens ≤ w.tokenSymbols.len ∧ w.ctx.txInfo.tokens ≠ []

instance (w : World) (i : Input) : Decidable (Overfills w i) := inferInstanceAs (Decidable (_ ∧ _))

variable {sdk} {g g' g₁ : Globals} {w : World} {i : Input} {h : Header} {e : Elements}

theorem Certified.mono {events events' : List Event} (hsub : ∀ e ∈ events, e ∈ events')
    {entry : TokenSymbol} (h : Certified sdk events entry) : Certified sdk events' entry := by
  obtain ⟨secret, token, signature, hmem, hrest⟩ := h
  exact ⟨secret, token, signature, hsub _ hmem, hrest⟩

theorem mem_log_of_emits (h : Emits sdk g i g g') : ∀ e ∈ g.log, e ∈ g'.log := by
  unfold Emits at h
  generalize g'.log = log' at h
  induction h with
  | refl => exact fun _ he => he
  | cons _ _ ih => exact fun e he => List.mem_cons_of_mem _ (ih e he)

theorem not_mem_symbolBytes {apdu data signature : Bytes} {first : Bool} {token : Token}
    (hcall : callOf apdu = some (.sendTokenData first data))
    (hdata : signedToken data = some (token, signature))
    (hnul : (Input.apdu apdu).sendsNul = false) : ∀ d ∈ token.symbolBytes, d ≠ 0 := by
  simp only [Input.sendsNul, hcall, hdata] at hnul
  rintro d hd rfl
  rw [List.contains_iff_mem.2 hd] at hnul
  cases hnul

/-- A token without a NUL in its symbol is certified by its own entry. -/
theorem certified_of_accepts {secret signature : Bytes} {token : Token} {registry : TokenDataCtx}
    (haccepts : Accepts secret token signature g)
    (hvalid : verifyTokenSignature sdk secret token signature = true)
    (hnul : ∀ d ∈ token.symbolBytes, d ≠ 0) : Certified sdk g.log (registry.newEntry token) := by
  obtain ⟨sent, rest, hlog, -⟩ := haccepts
  refine ⟨secret, token, signature, ?_, hvalid, rfl, ?_⟩
  · rw [hlog]
    exact List.mem_append_right _ List.mem_cons_self
  · rw [TokenDataCtx.newEntry, memmove_zero, List.append_assoc]
    exact cstr_append hnul _

/-- Every step keeps the entries of the registry certified. -/
theorem certified_of_tokenStep (hemits : Emits sdk g i g g')
    (hholds : g.tokenSymbols.Holds (Certified sdk g.log)) (hnul : i.sendsNul = false)
    (h : TokenStep sdk g i g') : g'.tokenSymbols.Holds (Certified sdk g'.log) := by
  have hkept : g.tokenSymbols.Holds (Certified sdk g'.log) :=
    hholds.mono fun _ _ hentry => hentry.mono (mem_log_of_emits hemits)
  cases h with
  | steady h =>
    rw [h.tokenSymbols]
    exact hkept
  | erased hregistry | overfilled _ _ _ hregistry =>
    rw [hregistry]
    exact TokenDataCtx.holds_empty
  | stored hi hcall hregistry hlen hdata haccepted hvalid hstored haccepts =>
    subst hi
    rw [hstored]
    refine TokenDataCtx.Holds.store ?_ hlen
      (certified_of_accepts haccepts hvalid (not_mem_symbolBytes hcall hdata hnul))
    rcases hregistry with ⟨rfl, -⟩ | ⟨rfl, -⟩
    · exact hkept
    · exact TokenDataCtx.holds_empty
  | reset _ _ hregistry | decoded _ _ hregistry =>
    rw [hregistry]
    exact hkept

/-! ### The pointers into the registry -/

/-- The token UID at a position of a serialised transaction, behind the header. -/
def uidAt (bytes : Bytes) (j : ℕ) : Bytes := (bytes.drop (5 + tokenUidLen * j)).take tokenUidLen

/-- The pointers lead to entries with the UIDs in the hashed bytes. -/
structure Pointing (g : Globals) : Prop where
  lt_len : ∀ k ∈ g.ctx.txInfo.tokens, k < g.tokenSymbols.len
  uids : g.ctx.txInfo.tokens.map (fun k => (g.tokenSymbols.tokens.getD k {}).uid) =
    (List.range g.ctx.txInfo.tokens.length).map (uidAt g.history.hashed)

/-- A first chunk was read, and the pointers lead to entries with the UIDs in the hashed bytes. -/
def Linked (g : Globals) : Prop := g.history.firstChunkRead = true → Pointing g

/-- All UIDs have the same length, so that each one stands at a multiple of it. -/
theorem take_drop_uids {uids : List TokenUid} {j : ℕ} (hj : j < uids.length) (rest : Bytes) :
    (((uids.map Subtype.val).flatten ++ rest).drop (tokenUidLen * j)).take tokenUidLen =
      uids[j].val := by
  induction uids generalizing j with
  | nil => cases hj
  | cons u uids ih =>
    have hu := u.property
    cases j with
    | zero => simp [List.take_append_of_le_length hu.ge, List.take_of_length_le hu.le]
    | succ j =>
      have hskip : tokenUidLen * (j + 1) = u.val.length + tokenUidLen * j := by
        rw [hu, Nat.mul_succ, Nat.add_comm]
      rw [List.map_cons, List.flatten_cons, List.append_assoc, hskip, List.drop_length_add_append,
        List.getElem_cons_succ]
      exact ih (Nat.lt_of_succ_lt_succ hj)

/-- The UIDs of the elements stand behind the header. -/
theorem Elements.map_uidAt (h : Header) (e : Elements) (rest : Bytes) :
    (List.range e.uids.length).map (uidAt (h.bytes ++ e.bytes ++ rest)) =
      e.uids.map Subtype.val := by
  refine List.ext_getElem (by simp) fun j hj hj' => ?_
  have hbehind : h.bytes ++ e.bytes ++ rest = h.bytes ++ ((e.uids.map Subtype.val).flatten ++
      ((e.inputs.map WireInput.bytes).flatten ++ (e.outputs.map WireOutput.bytes).flatten ++
        rest)) := by
    simp only [Elements.bytes, List.append_assoc]
  rw [List.getElem_map, List.getElem_map, List.getElem_range, uidAt, hbehind,
    show 5 = h.bytes.length from rfl, List.drop_length_add_append]
  exact take_drop_uids _ _

theorem Session.pointing_iff (hs : Session sdk h e g) (hread : g.history.firstChunkRead = true) :
    Pointing g ↔ PointsTo g.tokenSymbols e g.ctx.txInfo := by
  obtain ⟨-, hhashed, -⟩ := hs.read hread
  have huids : (List.range g.ctx.txInfo.tokens.length).map (uidAt g.history.hashed) =
      e.uids.map Subtype.val := by
    rw [hhashed, hs.held.tokensLen, e.map_uidAt]
  exact ⟨fun hp => ⟨hp.lt_len, hp.uids.trans huids⟩,
    fun hp => ⟨hp.lt_len, hp.uids.trans huids.symm⟩⟩

/-- No pointers lead anywhere. -/
theorem linked_of_nil (htokens : g.ctx.txInfo.tokens = []) : Linked g := fun _ =>
  ⟨by simp [htokens], by simp [htokens]⟩

/-- The pointers stay as they are, and so do the entries behind them. -/
theorem Linked.of_kept (hl : Linked g) (hp : PointersKept g g')
    (hlen : g.tokenSymbols.len ≤ g'.tokenSymbols.len)
    (hentries : ∀ k < g.tokenSymbols.len,
      g'.tokenSymbols.tokens.getD k {} = g.tokenSymbols.tokens.getD k {}) : Linked g' := by
  rcases hp with hnone | ⟨htokens, hhashed, hfirst⟩
  · exact linked_of_nil hnone
  · intro hread
    obtain ⟨hlt, huids⟩ := hl (hfirst ▸ hread)
    refine ⟨?_, ?_⟩
    · rw [htokens]
      exact fun k hk => (hlt k hk).trans_le hlen
    · rw [htokens, hhashed, ← huids]
      exact List.map_congr_left fun k hk => by rw [hentries k (hlt k hk)]

theorem Linked.of_same (hl : Linked g) (hp : PointersKept g g')
    (hregistry : g'.tokenSymbols = g.tokenSymbols) : Linked g' :=
  hl.of_kept hp (by rw [hregistry]) fun k _ => by rw [hregistry]

theorem Pointing.uid (hp : Pointing g) {j : ℕ} (hj : j < g.ctx.txInfo.tokens.length) :
    (g.tokenSymbols.tokens.getD g.ctx.txInfo.tokens[j] {}).uid = uidAt g.history.hashed j := by
  have hcell := List.getElem_of_eq hp.uids (i := j) (by simpa using hj)
  rwa [List.getElem_map, List.getElem_map, List.getElem_range] at hcell

/-- The decoder links the UIDs of a chunk. -/
theorem Linked.decode (hl : Linked g) (hs : Sound sdk g) (hq : Chunked g i g₁)
    (hregistry : g₁.tokenSymbols = g.tokenSymbols)
    (hready : (decodeElements sdk g₁.tokenSymbols g₁.ctx.txInfo).1 = TxState.ready) :
    Linked (g₁.decode sdk) := by
  intro hread
  obtain ⟨apdu, data, chunk, rfl, hcall, hq⟩ := hq
  have hdata := length_of_callOf hcall
  -- the elements in front of the chunk, and the pointers to their tokens
  obtain ⟨h, e, hqueueing, hpoints⟩ : ∃ h e, Queueing sdk h e g₁ ∧
      (g₁.history.firstChunkRead = true → PointsTo g₁.tokenSymbols e g₁.ctx.txInfo) := by
    by_cases hchunk : chunk = 0
    · subst hchunk
      obtain ⟨⟨h, hqueueing⟩, -⟩ := @queueing_first sdk _ _ _ hdata hq
      have hnone := List.length_eq_zero_iff.1 hqueueing.session.held.tokensLen
      exact ⟨h, {}, hqueueing, fun _ => ⟨by simp [hnone], by simp [hnone]⟩⟩
    · have hr := hs.receive apdu
      have hstate : (g.receive apdu).ctx.state = .recvData := by
        cases hq with
        | first _ _ _ _ _ hfirst => exact absurd hfirst hchunk
        | next _ hstate => exact hstate
      have hreq := hr.request (.inl hstate)
      obtain ⟨h, e, hsession, hrest⟩ := hr.session hreq
      have hnot : (g.receive apdu).history.hashFinished = false :=
        Bool.eq_false_iff.2 fun hfin => hr.finished hfin hstate
      refine ⟨h, e, (hsession.queueing hrest hreq hnot hdata hchunk hq).1, fun hfirst => ?_⟩
      have hlinked : Linked (g.receive apdu) :=
        hl.of_same (@steady_receive sdk apdu g).pointers rfl
      cases hq with
      | first _ _ _ _ _ hzero => exact absurd hzero hchunk
      | next _ _ =>
        have hpoints := (hsession.pointing_iff hfirst).1 (hlinked hfirst)
        exact ⟨hpoints.lt_len, hpoints.uids⟩
  obtain ⟨e', hsession, -, -, n, hprogress⟩ := hqueueing.decode hready
  have hsame : SameBytes g₁.history (g₁.decode sdk).history :=
    sameBytes_append fun e he => by
      rcases mem_decodeEvents he with rfl | rfl | ⟨info, -, rfl⟩ <;> rfl
  exact (hsession.pointing_iff hread).2
    (hprogress.pointsTo (hpoints (hsame.firstChunkRead.symm.trans hread)))

theorem linked_of_tokenStep (hl : Linked w.globals) (hs : Sound sdk w.globals)
    (hguard : ¬Overfills w i) (h : TokenStep sdk w.globals i g') : Linked g' := by
  cases h with
  | steady h => exact hl.of_same h.pointers h.tokenSymbols
  | erased _ _ htokens => exact linked_of_nil htokens
  | overfilled hi hcall hfull hregistry hsecret hpointers =>
    -- the registry is erased behind no pointers
    refine linked_of_nil (hpointers.elim id fun ⟨htokens, _⟩ => htokens.trans ?_)
    by_contra hne
    subst hi
    exact hguard ⟨by simp [Input.sendsNext, hcall], hfull, hne⟩
  | stored hi hcall hregistry hlen hdata haccepted hvalid hstored =>
    rcases hregistry with ⟨rfl, hpointers⟩ | ⟨-, hnone⟩
    · refine hl.of_kept hpointers ?_ fun k hk => ?_
      · rw [hstored]
        exact Nat.le_succ _
      · rw [hstored]
        exact TokenDataCtx.getD_store hk
    · exact linked_of_nil hnone
  | reset _ _ hregistry hpointers => exact hl.of_same hpointers hregistry
  | decoded hq hready hregistry hsecret hregistry₁ hpointers =>
    exact (hl.decode hs hq hregistry₁ hready).of_same hpointers (hregistry.trans hregistry₁.symm)

/-! ### The screens -/

variable (sdk) in
/-- Where an output with a token is on the screen, its symbol was delivered, with a valid signature,
together with the UID of the token in the bytes hashed since the last first chunk. -/
def ShowsDelivered (w : World) : Prop :=
  w.ui.flow = .txOutput → ∀ t, 0 < t → tokenIndex (displayedOutput sdk w.ctx.txInfo).tokenData = t →
    ∃ secret token signature, .tokenAccepted secret token signature ∈ w.trace ∧
      verifyTokenSignature sdk secret token signature = true ∧
      token.uid = uidAt w.history.hashed (t - 1) ∧
      w.ui.amount = amountText token.symbolBytes (displayedOutput sdk w.ctx.txInfo).value

/-- The runs in which no registry is erased behind the pointers of a transaction, no symbol contains
a NUL, the tokens of a transaction fit into the array of pointers, and commands come one after the
other, without a boundary press. -/
def Binding (w : World) (i : Input) : Prop :=
  Sequential w i ∧ ¬BoundaryPress w i ∧ ¬Overfills w i ∧ i.sendsNul = false ∧
    i.announcesTokens = false

instance (w : World) (i : Input) : Decidable (Binding w i) := inferInstanceAs (Decidable (_ ∧ _))

theorem certified_of_reachable (hw : Reachable Booted (step sdk) Binding w) :
    w.tokenSymbols.Holds (Certified sdk w.globals.log) := by
  refine hw.invariant (I := fun w => w.tokenSymbols.Holds (Certified sdk w.globals.log)) ?_ ?_
  · rintro _ ⟨secret, -, rfl⟩
    exact TokenDataCtx.holds_empty
  · intro w i hw hi hholds
    have hstep := @globalsStep sdk w (sound_of_reachable hw).ready i
    exact certified_of_tokenStep (emits_of_globalsStep hstep) hholds hi.2.2.2.1
      (tokenStep_of_globalsStep hstep)

theorem linked_of_reachable (hw : Reachable Booted (step sdk) Binding w) : Linked w.globals := by
  refine hw.invariant (I := fun w => Linked w.globals) ?_ ?_
  · rintro _ ⟨secret, -, rfl⟩
    exact linked_of_nil rfl
  · intro w i hw hi hl
    have hs := sound_of_reachable hw
    exact linked_of_tokenStep hl hs hi.2.2.1 (tokenStep_of_globalsStep (globalsStep hs.ready i))

theorem outputSymbol_eq {registry : TokenDataCtx} {tx : TxInfo} {output : TxOutput} {t : ℕ}
    (htoken : tokenIndex output.tokenData = t) (hpos : 0 < t) (hindex : t - 1 < tx.tokens.length) :
    outputSymbol registry tx output = cstr (registry.tokens.getD tx.tokens[t - 1] {}).symbol := by
  rw [outputSymbol, if_neg (by omega), htoken, List.getD_eq_getElem _ _ hindex]

/-- In such runs the symbols on the output screens were delivered with the UIDs of their tokens. -/
theorem showsDelivered_of_reachable (hw : Reachable Booted (step sdk) Binding w) :
    ShowsDelivered sdk w := by
  intro hflow t hpos htoken
  change tokenIndex (displayedOutput sdk w.globals.ctx.txInfo).tokenData = t at htoken
  have hsequential := hw.mono fun _ _ _ h => (⟨h.1, h.2.1⟩ : _ ∧ _)
  have hs := sound_of_reachable hw
  have hf := faithful_of_sequential hsequential
  have hamount := (rendered_of_sequential hsequential hflow).amount
  obtain ⟨h, e, ⟨hsession, -⟩, hr⟩ := hf.review (hs.request (.inl (hf.output hflow)))
  obtain ⟨hd, -⟩ := hr.output hflow
  have hread : w.globals.history.firstChunkRead = true := by
    by_contra hno
    obtain ⟨hnone, -⟩ := hsession.aborted (Bool.eq_false_iff.2 hno)
    have hheld := hsession.held
    have hbuffer := hheld.bufferOutputLen_le
    have houtputs := hheld.inOrder.outputs_le
    rw [hnone] at houtputs
    change e.outputs.length ≤ 0 at houtputs
    omega
  -- the pointer of the token leads to the entry of a token that was delivered with its UID
  have hindex : t - 1 < w.globals.ctx.txInfo.tokens.length := by
    have hle : tokenIndex (displayedOutput sdk w.globals.ctx.txInfo).tokenData ≤
      w.globals.ctx.txInfo.tokens.length := hsession.held.tokenIndex_le hd
    omega
  have hpointing := linked_of_reachable hw hread
  obtain ⟨secret, token, signature, hmem, hvalid, huid, hsymbol⟩ :=
    (certified_of_reachable hw).entry _ (hpointing.lt_len _ (List.getElem_mem hindex))
  refine ⟨secret, token, signature, (List.mem_filter.1 hmem).1, hvalid, ?_, ?_⟩
  · rw [← huid, w.history_eq]
    exact hpointing.uid hindex
  · rw [outputSymbol_eq htoken hpos hindex] at hamount
    exact hamount.trans (congrArg (amountText · _) hsymbol)

/-- A token is sent, and then a transaction with it. -/
def sampleBound : List Input :=
  sampleSent ++ [.command Ins.signTx 0 0
    ([0, 0, 1, 1, 0, 1] ++ List.replicate tokenUidLen 0 ++ sampleTokenOutput)]

theorem showsDelivered_sampleBound :
    ShowsDelivered Sdk.sample (run Sdk.sample sampleBoot sampleBound) := by
  have hfollows : Follows (step Sdk.sample) Binding sampleBoot sampleBound := by decide +kernel
  exact showsDelivered_of_reachable ((Reachable.start booted_sampleBoot).follow hfollows)

/-- A token with another UID and another symbol. -/
def sampleOther : Token := { sampleToken [0x43] [0x44] with uid := List.replicate tokenUidLen 1 }

/-- The registry is filled. Between the token and the output of a transaction it is erased, and
another token takes the cell. -/
def sampleErased : List Input :=
  .command Ins.sendTokenData 0 0 sampleSignedToken ::
    List.replicate 9 (.command Ins.sendTokenData 1 0 sampleSignedToken) ++
  [.command Ins.signTx 0 0 ([0, 0, 1, 1, 0, 1] ++ List.replicate tokenUidLen 0),
    .command Ins.sendTokenData 1 0 sampleSignedToken,
    .command Ins.sendTokenData 1 0
      (sampleOther.bytes ++ signToken Sdk.sample (List.replicate secretLen 7) sampleOther),
    .command Ins.signTx 0 1 sampleTokenOutput]

/-- The token that `SEND_TOKEN_DATA` has stored. -/
def Event.storedToken : Event → Option Token
  | .tokenAccepted _ token _ => some token
  | _ => none

/-- The symbol of the other token is on the screen. -/
theorem not_showsDelivered_sampleErased :
    Follows (step Sdk.sample)
        (fun w i => Sequential w i ∧ ¬BoundaryPress w i ∧ i.sendsNul = false ∧
          i.announcesTokens = false) sampleBoot sampleErased ∧
      (run Sdk.sample sampleBoot sampleErased).ui.flow = .txOutput ∧
      (run Sdk.sample sampleBoot sampleErased).ui.amount = amountText sampleOther.symbolBytes 1 ∧
      ¬ShowsDelivered Sdk.sample (run Sdk.sample sampleBoot sampleErased) := by
  have hflow : (run Sdk.sample sampleBoot sampleErased).ui.flow = .txOutput := by decide +kernel
  have hamount : (run Sdk.sample sampleBoot sampleErased).ui.amount =
      amountText sampleOther.symbolBytes 1 := by decide +kernel
  have hnone : ∀ token ∈ (run Sdk.sample sampleBoot sampleErased).trace.filterMap Event.storedToken,
      ¬(token.uid = uidAt (run Sdk.sample sampleBoot sampleErased).history.hashed 0 ∧
        (run Sdk.sample sampleBoot sampleErased).ui.amount = amountText token.symbolBytes 1) := by
    decide +kernel
  refine ⟨by decide +kernel, hflow, hamount, fun h => ?_⟩
  obtain ⟨secret, token, signature, hmem, -, huid, htext⟩ :=
    h hflow 1 (by decide) (by decide +kernel)
  have hvalue : (displayedOutput Sdk.sample
      (run Sdk.sample sampleBoot sampleErased).ctx.txInfo).value = 1 := by decide +kernel
  rw [hvalue] at htext
  exact hnone token (List.mem_filterMap.2 ⟨_, hmem, rfl⟩) ⟨huid, htext⟩

end HathorLedger
