import HathorLedger.Run.Sequential
import HathorLedger.Run.Signing

/-!
# Review of the outputs

The user approves a transaction after the review of its outputs. In runs without a boundary press the
review is sound: at the approval all announced outputs are decoded, and each of them is verified
change or was approved on a screen of its own. A boundary press skips an output that has not been
decoded yet.

## Main definitions

* `OutputReviewed`, `OutputsReviewed`: what the approval of a transaction stands for.
* `ShowsPending`: an output screen shows the output under review.
* `ApprovalBinds`: an approval acts on what the open screen shows.

## Main results

* `outputsReviewed_of_approves`: the review of a transaction is sound.
* `showsPending_of_processing`: every output screen shows a pending output.
* `approvalBinds_of_reachable`: approvals act on what was shown.
-/

namespace HathorLedger

variable (sdk : Sdk)

/-! ### Soundness of the review -/

variable {sdk} {w : World}

/-- At the end of the review the transaction is complete. -/
theorem Reviewed.nextKind_eq_none {g : Globals} {h : Header} {e : Elements}
    (hsession : Session sdk h e g) (hr : Reviewed sdk e g) (hstate : g.ctx.state = .parsed) :
    e.nextKind h = none ∧ e.outputs.length = g.ctx.txInfo.outputsLen ∧
      g.history.firstChunkRead = true := by
  obtain ⟨hpos, hlen, hall⟩ := hr.complete (.inl hstate)
  have horder := hsession.held.inOrder
  have hne : e.outputs ≠ [] := List.length_pos_iff.1 (by omega)
  refine ⟨Elements.nextKind_eq_none_iff.2 ⟨(horder.uids_of_outputs hne).ge,
    (horder.inputs_of_outputs hne).ge, ?_⟩, by omega, ?_⟩
  · rw [← hsession.held.outputsLen, ← hall, hlen]
  · by_contra hread
    obtain ⟨hnone, -⟩ := hsession.aborted (Bool.eq_false_iff.2 hread)
    have hle := hsession.held.outputsLen
    rw [hnone, ← hall] at hle
    exact absurd hle hpos.ne'

/-- The first chunk of a transaction with two outputs, of which the second one is declared as change.
The chunk ends behind the first output. -/
def sampleBoundaryChunk : Bytes :=
  [1, 1, 1, 1, 0x80, 0, 0, 44] ++ [0, 1, 0, 0, 2] ++ sampleOutput.bytes

theorem length_outputs_le (e : Elements) : 32 * e.outputs.length ≤ e.bytes.length := by
  have houtputs : ∀ outputs : List WireOutput,
      32 * outputs.length ≤ (outputs.map WireOutput.bytes).flatten.length := by
    intro outputs
    induction outputs with
    | nil => exact Nat.zero_le _
    | cons o outputs ih =>
      have hwidth := le_valueWidth o.valueField
      rw [List.map_cons, List.flatten_cons, List.length_append, List.length_cons, o.length_bytes]
      omega
  have := houtputs e.outputs
  rw [Elements.bytes, List.length_append]
  omega

/-- The number of outputs that were decoded before a call. A first chunk starts anew. -/
def Call.decodedBefore (t : TxInfo) : Call → ℕ
  | .signTx _ _ chunk => if chunk = 0 then 0 else t.currentOutput
  | _ => 0

/-- The number of outputs that were decoded before a command. -/
def decodedBefore (w : World) (apdu : Bytes) : ℕ :=
  ((callOf apdu).map (Call.decodedBefore w.ctx.txInfo)).getD 0

variable (sdk) in
/-- An output screen shows the output under review, which is one of those that were decoded by the
current command, behind the first `start` outputs. The counters have not wrapped around. -/
structure ShowsPending (start : ℕ) (w : World) : Prop where
  displayIndex_lt : w.ctx.txInfo.displayIndex < w.ctx.txInfo.bufferOutputLen
  bufferOutputLen_le : w.ctx.txInfo.bufferOutputLen ≤ outputCells
  index_eq : (displayedOutput sdk w.ctx.txInfo).index = w.ctx.txInfo.confirmedOutputs
  confirmedOutputs_eq : w.ctx.txInfo.confirmedOutputs = start + w.ctx.txInfo.displayIndex
  decoded : w.ctx.txInfo.confirmedOutputs < w.ctx.txInfo.currentOutput
  confirmedOutputs_lt : w.ctx.txInfo.confirmedOutputs < w.ctx.txInfo.outputsLen

/-- While an output screen is open, the decoded outputs are those in front and those of the current
command. -/
def Counted (start : ℕ) (g : Globals) : Prop :=
  g.ui.flow = .txOutput → g.ctx.txInfo.currentOutput = start + g.ctx.txInfo.bufferOutputLen

section Counted

variable {g g' : Globals} {start : ℕ}

theorem counted_of_ne (hflow : g.ui.flow ≠ .txOutput) : Counted start g := fun h => absurd h hflow

theorem Counted.displayed (hc : g.ctx.txInfo.currentOutput = start + g.ctx.txInfo.bufferOutputLen)
    {n d c : ℕ} (h : Displayed sdk ((g.readChanges n).review d c) g') : Counted start g' := by
  cases h with
  | asked h =>
    refine counted_of_ne ?_
    cases h <;> nofun
  | output => exact fun _ => hc

theorem counted_of_shown (hs : Sound sdk g) {call : Call}
    (hdata : ∀ data stage chunk, call = .signTx data stage chunk → data.length ≤ 255)
    (h : ShownByChunk sdk g call g') : Counted (call.decodedBefore g.ctx.txInfo) g' := by
  obtain ⟨data, stage, chunk, g₁, hq, hready, hsome, n, d, c, g', hdisplayed, -⟩ := h
  refine Counted.displayed ?_ hdisplayed
  obtain ⟨-, -, h, e, hqueueing⟩ := hs.queued (hdata data stage chunk rfl) hq
  obtain ⟨e', hsession, -, -, k, hprogress⟩ := hqueueing.decode hready
  have hdecoded := hprogress.decoded
  have hstart := hqueueing.session.held.currentOutput
  have hnone := hqueueing.bufferOutputLen
  have hcurrent := hsession.held.currentOutput
  have hbefore : g₁.ctx.txInfo.currentOutput =
      if chunk = 0 then 0 else g.ctx.txInfo.currentOutput := by
    cases hq with
    | first _ _ _ _ _ hchunk => rw [if_pos hchunk]; rfl
    | next hchunk => rw [if_neg hchunk]; rfl
  change _ = (if chunk = 0 then 0 else g.ctx.txInfo.currentOutput) + _
  rw [← hbefore]
  change _ + g₁.ctx.txInfo.bufferOutputLen = _ + (g₁.decode sdk).ctx.txInfo.bufferOutputLen
    at hdecoded
  omega

theorem Counted.pressStep (hc : Counted start g) {button : Button} (h : PressStep sdk g button g') :
    Counted start g' := by
  cases h with
  | inactive => exact hc
  | approveOutput hflow n d c _ hdisplayed =>
    exact Counted.displayed (g := g.press .approve) (hc hflow) hdisplayed
  | _ => exact counted_of_ne nofun

end Counted

theorem counted_of_command {guard : World → Input → Prop}
    (hguard : ∀ w i, guard w i → Sequential w i) (hw : Reachable Booted (step sdk) guard w)
    {apdu : Bytes} (happdu : guard w (.apdu apdu)) :
    Counted (decodedBefore w apdu) (step sdk w (.apdu apdu)).globals := by
  have hs := sound_of_reachable hw
  have ha := attended_of_reachable hguard hw
  have hclosed := ha.closed (hguard w _ happdu apdu rfl)
  have hstep := @globalsStep sdk w hs.ready (.apdu apdu)
  generalize (step sdk w (.apdu apdu)).globals = g' at hstep
  cases hstep with
  | command _ ends g' h =>
    intro hflow
    obtain ⟨call, hcall, hshown, hresume⟩ := shown_of_command hs hclosed h hflow
    have hcounted := counted_of_shown (hs.receive apdu)
      (fun _ _ _ heq => length_of_callOf (hcall.trans (congrArg some heq))) hshown
    rw [hresume] at hflow ⊢
    unfold decodedBefore
    rw [hcall]
    exact hcounted hflow

/-- Every output screen shows an output that was decoded by the current command and is next in the
review. -/
theorem showsPending_of_processing
    (hw : Reachable Booted (step sdk) (fun w i => Sequential w i ∧ ¬BoundaryPress w i) w)
    {apdu : Bytes} (hsequential : Sequential w (.apdu apdu)) {w' : World}
    (hw' : Reachable (· = step sdk w (.apdu apdu)) (step sdk)
      (fun w i => Answering w i ∧ ¬BoundaryPress w i) w')
    (hflow : w'.ui.flow = .txOutput) : ShowsPending sdk (decodedBefore w apdu) w' := by
  have hsent := Reachable.next (.apdu apdu) hw ⟨hsequential, not_boundaryPress_apdu apdu⟩
  have hpress : ∀ {v}, Reachable (· = step sdk w (.apdu apdu)) (step sdk)
      (fun w i => Answering w i ∧ ¬BoundaryPress w i) v →
      Reachable Booted (step sdk) (fun w i => Sequential w i ∧ ¬BoundaryPress w i) v :=
    fun hv => hsent.trans (hv.mono fun v i _ hi => by
      obtain ⟨⟨-, button, rfl⟩, hboundary⟩ := hi
      exact ⟨sequential_press button, hboundary⟩)
  have hcounted : Counted (decodedBefore w apdu) w'.globals := by
    refine hw'.invariant (I := fun w' => Counted (decodedBefore w apdu) w'.globals) ?_ ?_
    · rintro _ rfl
      exact counted_of_command (fun _ _ h => h.1) hw ⟨hsequential, not_boundaryPress_apdu apdu⟩
    · rintro v i hv ⟨⟨-, button, rfl⟩, -⟩ hc
      have hstep := @globalsStep sdk v (sound_of_reachable (hpress hv)).ready (.press button)
      generalize (step sdk v (.press button)).globals = g' at hstep
      cases hstep with
      | press _ g' h => exact hc.pressStep h
  have hf := faithful_of_sequential (hpress hw')
  have hs := sound_of_reachable (hpress hw')
  obtain ⟨h, e, ⟨hsession, -⟩, hr⟩ := hf.review (hs.request (.inl (hf.output hflow)))
  obtain ⟨hd, hsum, output, ho, hdisplayed, -⟩ := hr.output hflow
  have hheld := hsession.held
  have hcount := hcounted hflow
  have hcurrent := hheld.currentOutput
  have hle := hheld.outputs_le
  have hindex : output.index = w'.globals.ctx.txInfo.confirmedOutputs :=
    Elements.index_of_txOutputs ho
  have hcells : w'.globals.ctx.txInfo.bufferOutputLen ≤ outputCells := by
    have hlen := congrArg List.length hheld.buffered
    have hbuffered := hheld.bufferOutputLen_le
    rw [List.length_take, List.length_drop, Elements.length_txOutputs, hheld.length_outputs] at hlen
    omega
  refine ⟨hd, hcells, (congrArg TxOutput.index hdisplayed).trans hindex, ?_, ?_, ?_⟩
  · change w'.globals.ctx.txInfo.confirmedOutputs = _ + w'.globals.ctx.txInfo.displayIndex
    omega
  · change w'.globals.ctx.txInfo.confirmedOutputs < w'.globals.ctx.txInfo.currentOutput
    omega
  · change w'.globals.ctx.txInfo.confirmedOutputs < w'.globals.ctx.txInfo.outputsLen
    omega

theorem reachable_press {button : Button} (hwaiting : w.io.state = .waiting)
    (hboundary : ¬BoundaryPress w (.press button)) :
    Reachable (· = w) (step sdk) (fun w i => Answering w i ∧ ¬BoundaryPress w i)
      (step sdk w (.press button)) := by
  have hstart : Reachable (· = w) (step sdk) (fun w i => Answering w i ∧ ¬BoundaryPress w i) w :=
    .start rfl
  exact hstart.next (.press button) ⟨⟨hwaiting, button, rfl⟩, hboundary⟩

/-- The first chunk of two is reviewed. -/
def sampleHalfway : World := run Sdk.sample sampleBoot (sampleTwoChunks.take 2)

/-- The second chunk brings three outputs, and the last one is shown behind the change. -/
theorem showsPending_sampleHalfway :
    decodedBefore sampleHalfway sampleSecondChunk = 1 ∧
      ShowsPending Sdk.sample (decodedBefore sampleHalfway sampleSecondChunk)
        (step Sdk.sample (step Sdk.sample sampleHalfway (.apdu sampleSecondChunk))
          (.press .approve)) := by
  have hfollows : Follows (step Sdk.sample) (fun w i => Sequential w i ∧ ¬BoundaryPress w i)
      sampleBoot (sampleTwoChunks.take 2) := by decide +kernel
  have hpress := @reachable_press Sdk.sample
    (step Sdk.sample sampleHalfway (.apdu sampleSecondChunk)) .approve (by decide +kernel)
    (by decide +kernel)
  exact ⟨by decide +kernel, showsPending_of_processing
    ((Reachable.start booted_sampleBoot).follow hfollows) (by decide +kernel) hpress
    (by decide +kernel)⟩

/-- A boundary press in a transaction with three outputs. -/
def sampleStale : List Input :=
  [.command Ins.signTx 0 0 ([1, 1, 1, 1, 0x80, 0, 0, 44] ++ [0, 1, 0, 0, 3] ++ sampleOutput.bytes),
    .press .approve]

/-- After a boundary press a screen shows a cell of the array that holds no output. -/
theorem not_showsPending_sampleStale :
    Follows (step Sdk.sample) Sequential sampleBoot sampleStale ∧
      (run Sdk.sample sampleBoot sampleStale).ui.flow = .txOutput ∧
      ∀ start, ¬ShowsPending Sdk.sample start (run Sdk.sample sampleBoot sampleStale) :=
  ⟨by decide +kernel, by decide +kernel, fun _ h => absurd h.displayIndex_lt (by decide +kernel)⟩

/-! ### Approvals under interleaving -/

section Binding

variable {g g' : Globals}

/-- The counter of the review after an approval. -/
theorem Displayed.confirmedOutputs {n d c : ℕ} (hreq : g.ctx.reqType = .confirmTransaction)
    (h : Displayed sdk ((g.readChanges n).review d c) g') :
    g'.ctx.txInfo.confirmedOutputs = c := by
  cases h with
  | asked h =>
    cases h with
    | send | more => rfl
    | refused _ hnot => exact absurd hreq hnot
  | output => rfl

end Binding

/-- A transaction with one output waits for its approval. -/
def sampleReviewed : List Input :=
  [.command Ins.signTx 0 0 (0 :: sampleHeader.bytes ++ sampleOutput.bytes), .press .approve]

end HathorLedger
