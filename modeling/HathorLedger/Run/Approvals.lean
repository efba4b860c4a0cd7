import HathorLedger.Handler.Cuts
import HathorLedger.Run.OutputScreens

/-!
# The review of an honest transaction

A user who approves every screen is led through the outputs of a chunk, one screen after the other.
The counters of the review say which output is next; over change outputs they move on by themselves.
When the decoded outputs are used up, the host is told to send more, and when the transaction is,
the user is asked to send it.

## Main definitions

* `ApprovesAll`: the user approves one screen after the other until none asks any more.
* `Job`, `Job.Honest`: an honest transaction, and the log at the moment when it is sent.
* `Job.ScreenOf`: the screen that an output should have.
* `Job.Review`: the review has come to an output.
* `Job.Open`, `Job.Asking`, `Job.Resting`: the states between two inputs.

## Main results

* `Job.Review.displayed`: what a step of the review leads to.
* `Job.next_of_open`: the approval of an output.
-/

namespace HathorLedger

variable (sdk : Sdk)

/-- The user approves one screen after the other, until no screen asks any more. -/
inductive ApprovesAll : World → World → Prop
  | done {w : World} (h : w.ui.flow.hasApprove = false) : ApprovesAll w w
  | press {w w' : World} (h : w.ui.flow.hasApprove = true)
    (h' : ApprovesAll (step sdk w (.press .approve)) w') : ApprovesAll w w'

/-- An honest transaction with the registry and the change entries that the app has, and the log of
the app at the moment when the transaction is sent. -/
structure Job where
  registry : TokenDataCtx
  infos : List ChangeOutputInfo
  header : Header
  elements : Elements
  log : List Event

namespace Job

variable (j : Job)

/-- The declared indices. -/
def changes : List ℕ := j.infos.map ChangeOutputInfo.index

/-- The outputs in front of `n` that the user has to review. -/
def reviewed (n : ℕ) : List ℕ := (List.range n).filter (· ∉ j.changes)

/-- The counter on the screen of output `i`. -/
def counter (i : ℕ) : Bytes :=
  decimalText (Nat.count (· ∉ j.changes) i + 1) ++
    47 :: decimalText (Nat.count (· ∉ j.changes) j.elements.outputs.length)

/-- The symbol of the token of an output: `HTR`, or the symbol of a registered token with the UID
that the output refers to. -/
def SymbolOf (o : WireOutput) (symbol : Bytes) : Prop :=
  tokenIndex o.tokenData = 0 ∧ symbol = [0x48, 0x54, 0x52] ∨
    ∃ k < j.registry.len, ∃ u, 0 < tokenIndex o.tokenData ∧
      j.elements.uids[tokenIndex o.tokenData - 1]? = some u ∧
      (j.registry.tokens.getD k {}).uid = u.val ∧ symbol = cstr (j.registry.tokens.getD k {}).symbol

/-- The screen shows output `i`: its counter, its address, and its value with the symbol of its
token. -/
def ScreenOf (i : ℕ) (screen : Screen) : Prop :=
  ∃ o symbol address, j.elements.outputs[i]? = some o ∧ j.SymbolOf o symbol ∧
    addressFromPubkeyHash sdk o.pubkeyHash pubkeyHashLen addressLen = some address ∧
    screen = .txOutput (j.counter i) (cstr (b58Address address))
      (cstr (amountText symbol (valueOf o.valueField)))

/-- The conditions on an honest transaction. -/
structure Honest : Prop where
  isTransaction : IsTransaction sdk j.registry j.infos j.header j.elements
    (j.header.bytes ++ j.elements.bytes)
  infos_le : j.infos.length ≤ 1 + txMaxTokens
  nodup : j.changes.Nodup
  lt_of_mem : ∀ i ∈ j.changes, i < j.elements.outputs.length
  outputs_pos : 0 < j.elements.outputs.length

/-- The elements `e` have been decoded, with the bytes `r` left over, and the user has seen the
screens of the outputs in front of `n`. -/
structure Review (e : Elements) (r : Bytes) (n : ℕ) (g : Globals) : Prop where
  waiting : Waiting sdk j.registry j.header e r g.ctx.txInfo j.infos
  start : e.StartOf j.elements
  changeLen : g.ctx.txInfo.changeLen = j.infos.length
  tokenSymbols : g.tokenSymbols = j.registry
  reqType : g.ctx.reqType = .confirmTransaction
  state : g.ctx.state = .recvData
  screens : ∃ shown, reviewScreens g.log = shown.reverse ++ reviewScreens j.log ∧
    List.Forall₂ (j.ScreenOf sdk) (j.reviewed n) shown

end Job

variable {sdk} {j : Job} {e : Elements} {r : Bytes} {n : ℕ} {g g' : Globals} {w w' : World}

/-! ### Screens -/

theorem Job.reviewed_succ_of_mem {c : ℕ} (hc : c ∈ j.changes) : j.reviewed (c + 1) = j.reviewed c := by
  simp [Job.reviewed, List.range_succ, hc]

theorem Job.reviewed_succ_of_not_mem {c : ℕ} (hc : c ∉ j.changes) :
    j.reviewed (c + 1) = j.reviewed c ++ [c] := by
  simp [Job.reviewed, List.range_succ, hc]

/-- Change outputs have no screens. -/
theorem Job.reviewed_of_changes {c₀ c : ℕ} (hle : c₀ ≤ c)
    (hchange : ∀ i, c₀ ≤ i → i < c → i ∈ j.changes) : j.reviewed c = j.reviewed c₀ := by
  induction c, hle using Nat.le_induction with
  | base => rfl
  | succ c hle ih =>
    rw [reviewed_succ_of_mem (hchange c hle (Nat.lt_succ_self c))]
    exact ih fun i hi hlt => hchange i hi (Nat.lt_succ_of_lt hlt)

/-- The screens of outputs do not ask to send the transaction. -/
theorem Job.count_confirmTx_of_screenOf {indices : List ℕ} {shown : List Screen}
    (h : List.Forall₂ (j.ScreenOf sdk) indices shown) : shown.count .confirmTx = 0 := by
  induction h with
  | nil => rfl
  | cons hscreen _ ih =>
    obtain ⟨o, symbol, address, -, -, -, rfl⟩ := hscreen
    rw [List.count_cons_of_ne (by nofun), ih]

namespace Job.Review

/-- The review does not depend on the exchange and on what happens beside the screens. -/
theorem of_same (hr : j.Review sdk e r n g) (hctx : g'.ctx = g.ctx)
    (htokens : g'.tokenSymbols = g.tokenSymbols)
    (hscreens : reviewScreens g'.log = reviewScreens g.log) : j.Review sdk e r n g' := by
  obtain ⟨hwaiting, hstart, hchangeLen, htokens', hreq, hstate, hshown⟩ := hr
  rw [← hctx] at hwaiting hchangeLen hreq hstate
  rw [← hscreens] at hshown
  exact ⟨hwaiting, hstart, hchangeLen, htokens.trans htokens', hreq, hstate, hshown⟩

/-- Over change outputs the review goes on without screens. -/
theorem skip (hr : j.Review sdk e r n g) {c : ℕ} (hle : n ≤ c)
    (hchange : ∀ i, n ≤ i → i < c → i ∈ j.changes) : j.Review sdk e r c g := by
  obtain ⟨shown, hlog, hall⟩ := hr.screens
  rw [← reviewed_of_changes hle hchange] at hall
  exact { hr with screens := ⟨shown, hlog, hall⟩ }

theorem changeIndices (hr : j.Review sdk e r n g) : g.ctx.txInfo.changeIndices = j.changes := by
  rw [TxInfo.changeIndices, hr.waiting.changeEntries]
  rfl

theorem outputsLen (hr : j.Review sdk e r n g) (hj : j.Honest sdk) :
    g.ctx.txInfo.outputsLen = j.elements.outputs.length := by
  rw [hr.waiting.held.outputsLen, hj.isTransaction.length_outputs]

theorem outputs_le (hr : j.Review sdk e r n g) :
    e.outputs.length ≤ j.elements.outputs.length :=
  hr.start.outputs.length_le

theorem outputs_lt (hj : j.Honest sdk) : j.elements.outputs.length < 256 := by
  rw [hj.isTransaction.length_outputs]
  exact UInt8.toNat_lt _

/-- Other counters of the review. -/
theorem recounted (hr : j.Review sdk e r n g) (hctx : g'.ctx = { g.ctx with txInfo := g'.ctx.txInfo })
    (ht : Recounted g.ctx.txInfo g'.ctx.txInfo) (htokens : g'.tokenSymbols = g.tokenSymbols)
    (hscreens : reviewScreens g'.log = reviewScreens g.log) : j.Review sdk e r n g' := by
  obtain ⟨hwaiting, hstart, hchangeLen, htokens', hreq, hstate, hshown⟩ := hr
  have hheld := hwaiting.held.recounted ht
  rw [← hscreens] at hshown
  obtain ⟨d, c, b, -, hrecord⟩ := ht
  refine ⟨⟨hheld, ?_, ?_, hwaiting.more, ?_⟩, hstart, ?_, htokens.trans htokens', ?_, ?_, hshown⟩
  · rw [hrecord]
    exact hwaiting.changeEntries
  · rw [hrecord]
    exact hwaiting.pending
  · rw [hrecord]
    exact ⟨hwaiting.pointsTo.lt_len, hwaiting.pointsTo.uids⟩
  · rw [hrecord]
    exact hchangeLen
  · rw [hctx]
    exact hreq
  · rw [hctx]
    exact hstate

/-- The output under review is that of the transaction. -/
theorem exists_output (hr : j.Review sdk e r n g) {d c : ℕ} (hlt : d < g.ctx.txInfo.bufferOutputLen)
    (hoffset : c + g.ctx.txInfo.bufferOutputLen = e.outputs.length + d) :
    ∃ o, j.elements.outputs[c]? = some o ∧
      g.ctx.txInfo.outputs.getD d (sdk.pastOutputs d) = o.output c := by
  have hget := hr.waiting.held.getElem?_txOutputs hlt hoffset
  rw [Elements.txOutputs, List.getElem?_mapIdx, Option.map_eq_some_iff] at hget
  obtain ⟨o, ho, houtput⟩ := hget
  obtain ⟨more, hmore⟩ := hr.start.outputs
  refine ⟨o, ?_, houtput.symm⟩
  rw [← hmore, List.getElem?_append_left (List.getElem?_eq_some_iff.1 ho).1, ho]

/-- The token of an output that was decoded is registered under its UID. -/
theorem symbolOf_outputSymbol (hr : j.Review sdk e r n g) (hj : j.Honest sdk) {c : ℕ} {o : WireOutput}
    (hc : c < e.outputs.length) (ho : j.elements.outputs[c]? = some o) :
    j.SymbolOf o (outputSymbol j.registry g.ctx.txInfo (o.output c)) := by
  obtain ⟨hlt, huids⟩ := hr.waiting.pointsTo
  have hle := (hj.isTransaction.accepted c o ho).2.1
  have hne : e.outputs ≠ [] := List.ne_nil_of_length_pos (Nat.zero_lt_of_lt hc)
  have hall : e.uids = j.elements.uids := hr.start.uids.eq_of_length
    ((hr.waiting.held.inOrder.uids_of_outputs hne).trans hj.isTransaction.length_uids.symm)
  have hlen := hr.waiting.held.tokensLen
  rw [hall] at huids hlen
  unfold outputSymbol
  rw [WireOutput.output_tokenData]
  split_ifs with hzero
  · exact .inl ⟨hzero, rfl⟩
  · have hindex : tokenIndex o.tokenData - 1 < g.ctx.txInfo.tokens.length := by omega
    have huid := congrArg (fun l : List Bytes => l[tokenIndex o.tokenData - 1]?) huids
    simp only [List.getElem?_map, List.getElem?_eq_getElem hindex, Option.map_some] at huid
    obtain ⟨u, hu, hval⟩ := Option.map_eq_some_iff.1 huid.symm
    have hget : g.ctx.txInfo.tokens.getD (tokenIndex o.tokenData - 1) 0 =
        g.ctx.txInfo.tokens[tokenIndex o.tokenData - 1] := by
      rw [List.getD_eq_getElem?_getD, List.getElem?_eq_getElem hindex, Option.getD_some]
    rw [hget]
    exact .inr ⟨_, hlt _ (List.getElem_mem hindex), u, by omega, hu, hval.symm, rfl⟩

/-- The counter is that of the transaction. -/
theorem cstr_outputIndexText (hr : j.Review sdk e r n g) (hj : j.Honest sdk) {c : ℕ} {o : WireOutput}
    (ho : j.elements.outputs[c]? = some o) :
    cstr (outputIndexText g.ctx.txInfo (o.output c)) = j.counter c := by
  have hindices := hr.changeIndices
  have houtputs := hr.outputsLen hj
  have hlen : g.ctx.txInfo.changeIndices.length = g.ctx.txInfo.changeLen := by
    rw [hindices, hr.changeLen, changes, List.length_map]
  have hc := (List.getElem?_eq_some_iff.1 ho).1
  have hdistinct : DistinctChanges g.ctx.txInfo := by
    rw [DistinctChanges, hindices, houtputs]
    exact ⟨hj.nodup, hj.lt_of_mem⟩
  rw [(outputIndexText_eq_iff hlen (hr.changeLen ▸ hj.infos_le)
    (houtputs ▸ outputs_lt hj) (by rw [houtputs]; exact hc)).2 hdistinct, counterText]
  unfold outputsBefore
  rw [hindices, houtputs]
  rfl

/-- The screen of the output under review. -/
theorem screenOf_showOutput (hr : j.Review sdk e r n g) (hj : j.Honest sdk)
    (hlt : g.ctx.txInfo.displayIndex < g.ctx.txInfo.bufferOutputLen) {c : ℕ}
    (hoffset : c + g.ctx.txInfo.bufferOutputLen = e.outputs.length + g.ctx.txInfo.displayIndex) :
    j.ScreenOf sdk c (g.showOutput sdk).ui.shown := by
  obtain ⟨o, ho, houtput⟩ := hr.exists_output hlt hoffset
  have hdisplayed : displayedOutput sdk g.ctx.txInfo = o.output c := houtput
  have hshown : (g.showOutput sdk).ui.shown = .txOutput
      (cstr (outputIndexText g.ctx.txInfo (displayedOutput sdk g.ctx.txInfo)))
      (cstr (g.showOutput sdk).ui.address)
      (cstr (amountText (outputSymbol g.tokenSymbols g.ctx.txInfo
        (displayedOutput sdk g.ctx.txInfo)) (displayedOutput sdk g.ctx.txInfo).value)) := rfl
  refine ⟨o, _, _, ho, hr.symbolOf_outputSymbol hj (by omega) ho, addressFromPubkeyHash_eq sdk _, ?_⟩
  rw [hshown, hdisplayed, hr.cstr_outputIndexText hj ho, hr.tokenSymbols]
  simp only [Globals.showOutput, Globals.outputUi, hdisplayed]
  rfl

end Job.Review

/-! ### One step -/

variable (sdk j) in
/-- What a step of the review of the outputs from `start` on leads to: the screen of the next
output, the question whether to send the transaction, or a request for more data. -/
inductive Job.Continued (e : Elements) (r : Bytes) (start : ℕ) (g : Globals) : Globals → Prop
  | output (c : ℕ) (hle : start ≤ c) (hchange : c ∉ j.changes) (g' : Globals)
    (hreview : j.Review sdk e r (c + 1) g') (hflow : g'.ui.flow = .txOutput)
    (hconfirmed : g'.ctx.txInfo.confirmedOutputs = c)
    (hlt : g'.ctx.txInfo.displayIndex < g'.ctx.txInfo.bufferOutputLen)
    (hoffset : c + g'.ctx.txInfo.bufferOutputLen =
      e.outputs.length + g'.ctx.txInfo.displayIndex)
    (hunanswered : Unanswered g g') : Continued e r start g g'
  | send (hall : e.outputs.length = j.elements.outputs.length) (g' : Globals)
    (hflow : g'.ui.flow = .confirmTx)
    (hscreens : ∃ shown, reviewScreens g'.log = .confirmTx :: (shown.reverse ++ reviewScreens j.log) ∧
      List.Forall₂ (j.ScreenOf sdk) (j.reviewed j.elements.outputs.length) shown)
    (hunanswered : Unanswered g g') : Continued e r start g g'
  | more (hlt : e.outputs.length < j.elements.outputs.length)
    (hchange : ∀ i, start ≤ i → i < e.outputs.length → i ∈ j.changes) (g₁ : Globals)
    (hreview : j.Review sdk e r e.outputs.length g₁)
    (hconfirmed : g₁.ctx.txInfo.confirmedOutputs = e.outputs.length)
    (hflow : g₁.ui.flow = .menuMain) (hunanswered : Unanswered g g₁) :
    Continued e r start g (g₁.reply none Sw.ok)

theorem reviewScreens_readChanges (n : ℕ) (g : Globals) :
    reviewScreens (g.readChanges n).log = reviewScreens g.log := by
  refine reviewScreens_of_forall (fun ev hev => ?_) g.log
  rw [List.eq_of_mem_replicate hev]
  rfl

theorem reviewScreens_showOutput (g : Globals) : reviewScreens (g.showOutput sdk).log =
    (g.showOutput sdk).ui.shown :: reviewScreens g.log := by
  have hreads := @reviewScreens_of_forall (Globals.tokenReads (displayedOutput sdk g.ctx.txInfo))
    (fun ev hev => by
      unfold Globals.tokenReads at hev
      split_ifs at hev
      · cases hev
      · rw [List.mem_singleton.1 hev]
        rfl) g.log
  rw [← hreads]
  rfl

/-- What a step of the review leads to, from the counters `d₀` and `start` on. -/
theorem Job.Review.displayed {start d₀ : ℕ} (hr : j.Review sdk e r start g) (hj : j.Honest sdk)
    (hoffset : start + g.ctx.txInfo.bufferOutputLen = e.outputs.length + d₀) {d c : ℕ}
    (hskipped : Skipped g.ctx.txInfo.changeIndices
      { g.ctx.txInfo with displayIndex := d₀, confirmedOutputs := start } d c)
    (h : Displayed sdk ((g.readChanges n).review d c) g') : j.Continued sdk e r start g g' := by
  obtain ⟨hsame, hle, hdisplay, hconfirmed, hchange, hstop⟩ := hskipped
  rw [hr.changeIndices] at hchange hstop
  simp only at hsame hle hdisplay hconfirmed hchange hstop
  have hunanswered := unanswered_review g n d c
  have hskip := hr.skip hle hchange
  have hlen := hr.outputsLen hj
  have hlog : reviewScreens ((g.readChanges n).review d c).log = reviewScreens g.log :=
    reviewScreens_readChanges n g
  have hmoved : j.Review sdk e r c ((g.readChanges n).review d c) :=
    hskip.recounted rfl ⟨d, c, _, .inl rfl, rfl⟩ rfl hlog
  have houtputs := hr.outputs_le
  cases h with
  | asked h =>
    cases h with
    | send hdone hreq =>
      have hdone' : c = j.elements.outputs.length := hdone.trans hlen
      obtain ⟨shown, hshown, hall⟩ := hmoved.screens
      refine .send (by omega) _ rfl ⟨shown, ?_, hdone' ▸ hall⟩
        (hunanswered.trans (unanswered_of_log rfl [.shown .confirmTx] rfl (by simp [Event.quiet])))
      exact congrArg (Screen.confirmTx :: ·) hshown
    | refused hdone hreq => exact absurd hmoved.reqType hreq
    | more hdone hd =>
      have hd' : d = g.ctx.txInfo.bufferOutputLen := hd
      have hdone' : c ≠ g.ctx.txInfo.outputsLen := hdone
      have hc : c = e.outputs.length := by omega
      subst hc
      refine .more (by omega) hchange _ (hmoved.recounted rfl ⟨0, e.outputs.length, 0, .inr rfl, rfl⟩
        rfl rfl) rfl rfl (hunanswered.trans ?_)
      exact unanswered_of_log rfl [] rfl (by simp)
  | output hdone hd =>
    have hd' : d ≠ g.ctx.txInfo.bufferOutputLen := hd
    have hdone' : c ≠ g.ctx.txInfo.outputsLen := hdone
    have hc : c ∉ j.changes := hstop hd' hdone'
    have hlt : d < g.ctx.txInfo.bufferOutputLen := lt_of_le_of_ne hdisplay hd'
    have hoffset' : c + g.ctx.txInfo.bufferOutputLen = e.outputs.length + d := by omega
    have hscreen := hmoved.screenOf_showOutput hj hlt hoffset'
    obtain ⟨shown, hshown, hall⟩ := hmoved.screens
    refine .output c hle hc _ { hmoved with screens := ?_ } rfl rfl hlt hoffset'
      (hunanswered.trans (unanswered_showOutput _))
    refine ⟨shown ++ [(((g.readChanges n).review d c).showOutput sdk).ui.shown], ?_, ?_⟩
    · rw [reviewScreens_showOutput, hshown, List.reverse_append]
      rfl
    · rw [reviewed_succ_of_not_mem hc]
      exact List.rel_append hall (.cons hscreen .nil)

/-! ### Between two inputs -/

namespace Job

variable (sdk j)

/-- The screen of output `c` is open, and the responses so far are `old`. -/
structure Open (e : Elements) (r : Bytes) (old : List Bytes) (c : ℕ) (g : Globals) : Prop where
  review : j.Review sdk e r (c + 1) g
  flow : g.ui.flow = .txOutput
  confirmedOutputs : g.ctx.txInfo.confirmedOutputs = c
  displayIndex_lt : g.ctx.txInfo.displayIndex < g.ctx.txInfo.bufferOutputLen
  offset : c + g.ctx.txInfo.bufferOutputLen = e.outputs.length + g.ctx.txInfo.displayIndex
  not_change : c ∉ j.changes
  waiting : g.io.state = .waiting
  responses : responses g.log = old

/-- The user has reviewed all outputs and is asked to send the transaction. -/
structure Asking (old : List Bytes) (g : Globals) : Prop where
  flow : g.ui.flow = .confirmTx
  screens : ∃ shown, reviewScreens g.log = .confirmTx :: (shown.reverse ++ reviewScreens j.log) ∧
    List.Forall₂ (j.ScreenOf sdk) (j.reviewed j.elements.outputs.length) shown
  waiting : g.io.state = .waiting
  responses : HathorLedger.responses g.log = old

/-- The outputs of the elements `e` are done, and the app waits for the next chunk. -/
structure Resting (e : Elements) (r : Bytes) (g : Globals) : Prop where
  review : j.Review sdk e r e.outputs.length g
  confirmedOutputs : g.ctx.txInfo.confirmedOutputs = e.outputs.length
  not_waiting : g.io.state ≠ .waiting

/-- What the app waits for after a step of the review of the outputs from `start` on. -/
inductive Next (e : Elements) (r : Bytes) (start : ℕ) (old : List Bytes) (g : Globals) : Prop
  | output (c : ℕ) (hle : start ≤ c) (h : j.Open sdk e r old c g)
  | send (hall : e.outputs.length = j.elements.outputs.length) (h : j.Asking sdk old g)
  | more (hlt : e.outputs.length < j.elements.outputs.length)
    (hchange : ∀ i, start ≤ i → i < e.outputs.length → i ∈ j.changes) (h : j.Resting sdk e r g)
    (hresponses : responses g.log = beBytes 2 Sw.ok :: old)

/-- The chunk is answered, and either the app waits for the next one, or the user has approved the
transaction. -/
structure Ended (e : Elements) (r : Bytes) (old : List Bytes) (w : World) : Prop where
  responses : responses w.trace = beBytes 2 Sw.ok :: old
  resting : e.outputs.length < j.elements.outputs.length → j.Resting sdk e r w.globals
  approved : e.outputs.length = j.elements.outputs.length → w.ctx.state = .approved ∧
    ∃ shown, reviewScreens w.trace = .confirmTx :: (shown.reverse ++ reviewScreens j.log) ∧
      List.Forall₂ (j.ScreenOf sdk) (j.reviewed j.elements.outputs.length) shown

end Job

section Steps

variable {old : List Bytes} {start : ℕ}

/-- The review goes on at a press of the user. -/
theorem Job.Continued.next (h : j.Continued sdk e r start g g') (hio : g.io.state = .waiting) :
    j.Next sdk e r start (responses g.log) g' := by
  cases h with
  | output c hle hchange _ hreview hflow hconfirmed hlt hoffset hunanswered =>
    exact .output c hle ⟨hreview, hflow, hconfirmed, hlt, hoffset, hchange,
      hunanswered.io_eq ▸ hio, hunanswered.responses_eq⟩
  | send hall _ hflow hscreens hunanswered =>
    exact .send hall ⟨hflow, hscreens, hunanswered.io_eq ▸ hio, hunanswered.responses_eq⟩
  | more hlt hchange g₁ hreview hconfirmed hflow hunanswered =>
    have hio₁ : g₁.io.state = .waiting := hunanswered.io_eq ▸ hio
    refine .more hlt hchange ⟨hreview.of_same rfl rfl ?_, hconfirmed, nofun⟩ ?_
    · rw [Globals.reply, if_pos hio₁]
      rfl
    · rw [responses_reply, if_pos hio₁, hunanswered.responses_eq]
      rfl

/-- The review goes on behind a command. -/
theorem Job.Continued.next_mainLoop (h : j.Continued sdk e r start g g')
    (hio : g.io.state = .received) : j.Next sdk e r start (responses g.log) g'.mainLoop := by
  cases h with
  | output c hle hchange _ hreview hflow hconfirmed hlt hoffset hunanswered =>
    rw [hunanswered.mainLoop hio]
    exact .output c hle ⟨hreview.of_same rfl rfl rfl, hflow, hconfirmed, hlt, hoffset, hchange,
      rfl, hunanswered.responses_eq⟩
  | send hall _ hflow hscreens hunanswered =>
    rw [hunanswered.mainLoop hio]
    exact .send hall ⟨hflow, hscreens, rfl, hunanswered.responses_eq⟩
  | more hlt hchange g₁ hreview hconfirmed hflow hunanswered =>
    refine .more hlt hchange ⟨hreview.of_same rfl rfl ?_, hconfirmed, nofun⟩ ?_
    · rw [log_mainLoop_reply]
      rfl
    · rw [responses_mainLoop_reply, hunanswered.responses_eq]
      rfl

/-- The counters are inside their bounds while an output is under review. -/
theorem Job.Open.inBounds {c : ℕ} (ho : j.Open sdk e r old c g) (hj : j.Honest sdk) :
    g.ctx.txInfo.InBounds ∧ c < g.ctx.txInfo.outputsLen := by
  have hle := ho.review.waiting.held.bufferOutputLen_le
  have houtputs := ho.review.outputs_le
  have hlen := ho.review.outputsLen hj
  have hbyte := Review.outputs_lt hj
  have hlt := ho.displayIndex_lt
  have hoffset := ho.offset
  have hc := ho.confirmedOutputs
  exact ⟨⟨by omega, by omega, by omega, by omega⟩, by omega⟩

/-- The approval of an output. The next output may only be declared as change if it was decoded. -/
theorem Job.next_of_open {c : ℕ} (hj : j.Honest sdk) (hs : Sound sdk w.globals)
    (ho : j.Open sdk e r old c w.globals)
    (hkeep : c + 1 = e.outputs.length → c + 1 ∉ j.changes) :
    j.Next sdk e r (c + 1) old (step sdk w (.press .approve)).globals := by
  have hstep := @globalsStep sdk w hs.ready (.press .approve)
  generalize (step sdk w (.press .approve)).globals = g' at hstep
  obtain ⟨hbounds, hlt⟩ := ho.inBounds hj
  have hflow := ho.flow
  have hc := ho.confirmedOutputs
  have hdisplay := ho.displayIndex_lt
  have hoffset := ho.offset
  cases hstep with
  | press _ _ h =>
    cases h with
    | inactive _ hreacts =>
      rw [hflow] at hreacts
      cases hreacts
    | approveTx hother | approveXpub hother | approveToken hother | approveAddress hother
      | approveReset hother => cases hflow.symm.trans hother
    | approveOutput _ n d c' _ hdisplayed hskipped =>
      have hskipped' := hskipped hbounds (by omega) (by omega) (by
        rw [ho.review.changeIndices, hc]
        rintro (hlast | hlast)
        · exact hkeep (by omega)
        · intro hmem
          have := hj.lt_of_mem _ hmem
          rw [ho.review.outputsLen hj] at hlast
          omega)
      rw [hc] at hskipped'
      have hpress : j.Review sdk e r (c + 1) (w.globals.press .approve) :=
        ho.review.of_same rfl rfl rfl
      have hoffset' : c + 1 + (w.globals.press .approve).ctx.txInfo.bufferOutputLen =
          e.outputs.length + (w.globals.ctx.txInfo.displayIndex + 1) := by
        change c + 1 + w.globals.ctx.txInfo.bufferOutputLen = _
        omega
      have hcontinued := hpress.displayed hj hoffset' hskipped' hdisplayed
      have hnext := hcontinued.next ho.waiting
      rw [(unanswered_press .approve w.globals).responses_eq, ho.responses] at hnext
      exact hnext

/-- The approval of the transaction is its answer. -/
theorem approved_of_confirmTx (hs : Sound sdk w.globals) (hflow : w.ui.flow = .confirmTx)
    (hio : w.io.state = .waiting) : (step sdk w (.press .approve)).ui.flow.hasApprove = false ∧
      (step sdk w (.press .approve)).ctx.state = .approved ∧
      responses (step sdk w (.press .approve)).trace = beBytes 2 Sw.ok :: responses w.trace ∧
      reviewScreens (step sdk w (.press .approve)).trace = reviewScreens w.trace := by
  have hstep := @globalsStep sdk w hs.ready (.press .approve)
  simp only [← World.responses_log, ← World.reviewScreens_log]
  change (step sdk w (.press .approve)).globals.ui.flow.hasApprove = false ∧
    (step sdk w (.press .approve)).globals.ctx.state = .approved ∧
    responses (step sdk w (.press .approve)).globals.log =
      beBytes 2 Sw.ok :: responses w.globals.log ∧
    reviewScreens (step sdk w (.press .approve)).globals.log = reviewScreens w.globals.log
  generalize (step sdk w (.press .approve)).globals = g' at hstep
  have hflow' : w.globals.ui.flow = .confirmTx := hflow
  cases hstep with
  | press _ _ h =>
    cases h with
    | inactive _ hreacts =>
      rw [hflow'] at hreacts
      cases hreacts
    | approveOutput hother | approveXpub hother | approveToken hother | approveAddress hother
      | approveReset hother => cases hflow'.symm.trans hother
    | approveTx =>
      have hlog : ((({ w.globals.press .approve with ctx.state := .approved } : Globals).reply none
          Sw.ok).openFlow .processing).log =
            .sent (beBytes 2 Sw.ok) :: .pressed .approve w.ui.shown :: w.globals.log := by
        change (if w.globals.io.state = .waiting then _ else _) = _
        rw [if_pos (show w.globals.io.state = .waiting from hio)]
        rfl
      rw [hlog]
      exact ⟨rfl, rfl, rfl, rfl⟩

/-- A user who approves every screen comes to the end of the review of a chunk, unless the outputs
in it end with a reviewed one and the next one is declared as change. -/
theorem Job.exists_approvesAll (hj : j.Honest sdk)
    (hkeep : e.outputs.length ∈ j.changes → e.outputs.length - 1 ∈ j.changes)
    (hw : Reachable Booted (step sdk) Sequential w) (h : j.Next sdk e r start old w.globals) :
    ∃ w', ApprovesAll sdk w w' ∧ Reachable Booted (step sdk) Sequential w' ∧
      j.Ended sdk e r old w' := by
  induction hn : e.outputs.length - start using Nat.strong_induction_on generalizing start w with
  | _ n ih =>
    have hs := sound_of_reachable hw
    have hnextw := hw.next (.press .approve) (sequential_press .approve)
    cases h with
    | output c hle ho =>
      have hlt : c < e.outputs.length := by
        have := ho.displayIndex_lt
        have := ho.offset
        omega
      have hopen : w.ui.flow.hasApprove = true := by
        rw [show w.ui.flow = _ from ho.flow]
        rfl
      have hnext := next_of_open hj hs ho fun hlast hmem => by
        have := hkeep (hlast ▸ hmem)
        rw [← hlast, Nat.add_sub_cancel] at this
        exact ho.not_change this
      obtain ⟨w', hall, hrest⟩ := ih _ (by omega) hnextw hnext rfl
      exact ⟨w', .press hopen hall, hrest⟩
    | send hall ha =>
      obtain ⟨hclosed, hstate, hresponses, hscreens⟩ := approved_of_confirmTx hs ha.flow ha.waiting
      rw [← World.responses_log w, show responses w.log = old from ha.responses] at hresponses
      have hopen : w.ui.flow.hasApprove = true := by
        rw [show w.ui.flow = _ from ha.flow]
        rfl
      refine ⟨_, .press hopen (.done hclosed), hnextw, hresponses, fun hlt => absurd hall hlt.ne,
        fun _ => ⟨hstate, ?_⟩⟩
      rw [hscreens, ← World.reviewScreens_log]
      exact ha.screens
    | more hlt hchange hresting hresponses =>
      have hclosed := (attended_of_reachable (fun _ _ => id) hw).closed hresting.not_waiting
      exact ⟨w, .done hclosed, hw, (World.responses_log w).symm.trans hresponses,
        fun _ => hresting, fun hall => absurd hall hlt.ne⟩

end Steps

end HathorLedger
