import HathorLedger.Run.Review
import HathorLedger.Ui.OutputCounter

/-!
# The texts of the output screens

In sequential runs without a boundary press, the texts of an open output screen are computed from the
output under review, which is not declared as change. The counter of the screen is right exactly if
the declared change indices are distinct and belong to outputs.

## Main definitions

* `OutputScreen`: the texts of an open output screen.
* `CountsOutput`: the counter of the screen is right.

## Main results

* `rendered_of_sequential`: the texts are those of the output under review.
* `countsOutput_iff`: when the counter is right.
-/

namespace HathorLedger

variable (sdk : Sdk)

/-- The texts are computed from the output under review, which is not declared as change. -/
structure OutputScreen (g : Globals) : Prop where
  outputIndex : g.ui.outputIndex =
    outputIndexText g.ctx.txInfo (displayedOutput sdk g.ctx.txInfo)
  amount : g.ui.amount =
    amountText (outputSymbol g.tokenSymbols g.ctx.txInfo (displayedOutput sdk g.ctx.txInfo))
      (displayedOutput sdk g.ctx.txInfo).value
  not_change : g.ctx.txInfo.confirmedOutputs ∉ g.ctx.txInfo.changeIndices

theorem OutputScreen.of_same {sdk : Sdk} {g g' : Globals} (h : OutputScreen sdk g)
    (hctx : g'.ctx = g.ctx) (hui : g'.ui = g.ui) (htokens : g'.tokenSymbols = g.tokenSymbols) :
    OutputScreen sdk g' := by
  obtain ⟨hindex, hamount, hchange⟩ := h
  refine ⟨?_, ?_, ?_⟩
  · rwa [hui, hctx]
  · rwa [hui, hctx, htokens]
  · rwa [hctx]

/-- An open output screen has its texts. -/
def Rendered (g : Globals) : Prop := g.ui.flow = .txOutput → OutputScreen sdk g

variable {sdk} {g g' : Globals} {w : World}

theorem rendered_of_displayed {d₀ c₀ n d c : ℕ}
    (h : Displayed sdk ((g.readChanges n).review d c) g')
    (hskipped : Skipped g.ctx.txInfo.changeIndices
      { g.ctx.txInfo with displayIndex := d₀, confirmedOutputs := c₀ } d c) : Rendered sdk g' := by
  intro hflow
  cases h with
  | asked h => cases h <;> cases hflow
  | output hall hd => exact ⟨rfl, rfl, hskipped.stop hd hall⟩

/-- The counters are inside their bounds when the review starts. -/
theorem inBounds_of_queued (hf : Faithful sdk g) (hs : Sound sdk g) {data : Bytes} {chunk : ℕ}
    (hdata : data.length ≤ 255) {g₁ : Globals} (hq : Queued data chunk g g₁)
    (hready : (decodeElements sdk g₁.tokenSymbols g₁.ctx.txInfo).1 = TxState.ready) :
    (g₁.decode sdk).ctx.txInfo.InBounds := by
  obtain ⟨h, e, hr⟩ := hf.queued hs hdata hq
  obtain ⟨e', ⟨hsession, -⟩, -, hdisplay, hconfirmed, hsum⟩ := hr.queueing.decoded hready
  have hstart := hr.displayIndex
  have hdone := hr.le
  have hlen := hsession.held.outputsLen
  have hbyte := UInt8.toNat_lt h.outputs
  have hbuffer := hsession.held.bufferOutputLen_le
  have hle := hsession.held.outputs_le
  constructor <;> omega

theorem rendered_of_shown (hf : Faithful sdk g) (hs : Sound sdk g) {call : Call}
    (hdata : ∀ data stage chunk, call = .signTx data stage chunk → data.length ≤ 255)
    (h : ShownByChunk sdk g call g') : Rendered sdk g' := by
  obtain ⟨data, stage, chunk, g₁, hq, hready, hsome, n, d, c, g', hdisplayed, hskipped⟩ := h
  exact rendered_of_displayed hdisplayed
    (hskipped (inBounds_of_queued hf hs (hdata data stage chunk rfl) hq hready))

/-- The approval of an output leads to the screen of the next one. -/
theorem Rendered.pressStep (hr : Rendered sdk g) (hf : Faithful sdk g) (hs : Sound sdk g)
    {button : Button} (hguard : button = .approve → g.ui.flow = .txOutput →
      g.ctx.txInfo.displayIndex + 1 = g.ctx.txInfo.bufferOutputLen →
      g.ctx.txInfo.confirmedOutputs + 1 ∉ g.ctx.txInfo.changeIndices)
    (h : PressStep sdk g button g') : Rendered sdk g' := by
  cases h with
  | inactive => exact fun hflow => (hr hflow).of_same rfl rfl rfl
  | approveOutput hflow n d c _ hdisplayed hskipped =>
    obtain ⟨h, e, hsession, hreview⟩ := hf.review (hs.request (.inl (hf.output hflow)))
    obtain ⟨hd, hsum, -⟩ := hreview.output hflow
    have hheld := hsession.1.held
    have hle := hheld.outputs_le
    have hbuffer := hheld.bufferOutputLen_le
    have hlen := hheld.outputsLen
    have hbyte := UInt8.toNat_lt h.outputs
    have hbounds : g.ctx.txInfo.InBounds := by constructor <;> omega
    exact rendered_of_displayed (g := g.press .approve) hdisplayed
      (hskipped hbounds (by omega) (by omega) fun hlast => hguard rfl hflow (by omega))
  | _ => nofun

theorem rendered_of_sequential
    (hw : Reachable Booted (step sdk) (fun w i => Sequential w i ∧ ¬BoundaryPress w i) w) :
    Rendered sdk w.globals := by
  refine hw.invariant (I := fun w => Rendered sdk w.globals) ?_ fun w i hw hi hr => ?_
  · rintro _ ⟨secret, -, rfl⟩
    rw [globals_boot]
    nofun
  · have hs := sound_of_reachable hw
    have hf := faithful_of_sequential hw
    have ha := attended_of_reachable (fun _ _ h => h.1) hw
    have hstep := @globalsStep sdk w hs.ready i
    generalize (step sdk w i).globals = g' at hstep
    cases hstep with
    | command apdu ends g' h =>
      have hclosed := ha.closed (hi.1 apdu rfl)
      intro houtput
      obtain ⟨call, hcall, hshown, hresume⟩ := shown_of_command hs hclosed h houtput
      rw [hresume] at houtput ⊢
      exact (rendered_of_shown (hf.calm (calm_receive apdu _)) (hs.receive apdu)
        (fun _ _ _ heq => length_of_callOf (hcall.trans (congrArg some heq))) hshown
        houtput).of_same rfl rfl rfl
    | press button g' h =>
      refine hr.pressStep hf hs (fun hbutton hflow hlast hchange => ?_) h
      exact hi.2 ⟨congrArg Input.press hbutton, hflow, hlast, hchange⟩
    | ioReset => nofun

/-! ### The counter -/

variable (sdk) in
/-- The counter on the screen is `i/n`, where `n` is the number of outputs that are not declared as
change and `i` the rank of the output under review among them. -/
structure CountsOutput (w : World) : Prop where
  index_lt : (displayedOutput sdk w.ctx.txInfo).index < w.ctx.txInfo.outputsLen
  not_change : (displayedOutput sdk w.ctx.txInfo).index ∉ w.ctx.txInfo.changeIndices
  text : cstr w.ui.outputIndex = counterText w.ctx.txInfo (displayedOutput sdk w.ctx.txInfo).index
  rank_le : outputsBefore w.ctx.txInfo (displayedOutput sdk w.ctx.txInfo).index + 1 ≤
    outputsBefore w.ctx.txInfo w.ctx.txInfo.outputsLen

/-- In sequential runs without a boundary press the counter of an output screen is right exactly if
the declared change indices are distinct and belong to outputs. -/
theorem countsOutput_iff
    (hw : Reachable Booted (step sdk) (fun w i => Sequential w i ∧ ¬BoundaryPress w i) w)
    (hflow : w.ui.flow = .txOutput) : CountsOutput sdk w ↔ DistinctChanges w.ctx.txInfo := by
  have hf := faithful_of_sequential hw
  have hs := sound_of_reachable hw
  obtain ⟨htext, -, hchange⟩ := rendered_of_sequential hw hflow
  obtain ⟨h, e, ⟨hsession, -⟩, hr⟩ := hf.review (hs.request (.inl (hf.output hflow)))
  obtain ⟨-, -, output, ho, hdisplayed, -⟩ := hr.output hflow
  change w.ui.outputIndex = outputIndexText w.ctx.txInfo (displayedOutput sdk w.ctx.txInfo) at htext
  change w.ctx.txInfo.confirmedOutputs ∉ w.ctx.txInfo.changeIndices at hchange
  change displayedOutput sdk w.ctx.txInfo = output at hdisplayed
  have hle : e.outputs.length ≤ w.ctx.txInfo.outputsLen := hsession.held.outputs_le
  have hlen : w.ctx.txInfo.outputsLen = h.outputs.toNat := hsession.held.outputsLen
  have hbyte := UInt8.toNat_lt h.outputs
  have hlt : w.ctx.txInfo.confirmedOutputs < w.ctx.txInfo.outputsLen := by
    have := (List.getElem?_eq_some_iff.1 ho).1
    rw [Elements.length_txOutputs] at this
    change w.ctx.txInfo.confirmedOutputs < _ at this
    omega
  have hindex : output.index = w.ctx.txInfo.confirmedOutputs := Elements.index_of_txOutputs ho
  have hread : ChangesRead w.ctx.txInfo.changeLen w.ctx.txInfo :=
    hsession.changesRead (Nat.ne_of_gt (Nat.zero_lt_of_lt hlt))
  have hentries : w.ctx.txInfo.changeIndices.length = w.ctx.txInfo.changeLen := by
    rw [TxInfo.changeIndices, TxInfo.changeEntries, List.length_map,
      List.length_take_of_le (hread.length ▸ hread.le)]
  have hiff := @outputIndexText_eq_iff w.ctx.txInfo output hentries hread.le (by omega)
    (by rw [hindex]; exact hlt)
  constructor
  · rintro ⟨-, -, hcounter, -⟩
    rw [htext, hdisplayed] at hcounter
    exact hiff.1 hcounter
  · intro hdistinct
    refine ⟨?_, ?_, ?_, ?_⟩
    · rwa [hdisplayed, hindex]
    · rwa [hdisplayed, hindex]
    · rw [htext, hdisplayed]
      exact hiff.2 hdistinct
    · rw [hdisplayed, hindex]
      exact outputsBefore_lt hlt hchange

theorem countsOutput_iff_sampleTwoChunks :
    CountsOutput Sdk.sample (run Sdk.sample sampleBoot (sampleTwoChunks.take 4)) := by
  have hfollows : Follows (step Sdk.sample) (fun w i => Sequential w i ∧ ¬BoundaryPress w i)
      sampleBoot (sampleTwoChunks.take 4) := by decide +kernel
  exact (countsOutput_iff ((Reachable.start booted_sampleBoot).follow hfollows)
    (by decide +kernel)).2 ⟨by decide +kernel, by decide +kernel⟩

/-- The change index 200 belongs to no output. -/
def sampleMiscounted : List Input :=
  [.command Ins.signTx 0 0
    ([1, 1, 200, 1, 0x80, 0, 0, 44] ++ sampleHeader.bytes ++ sampleOutput.bytes)]

/-- The only output is shown as `1/0`. -/
theorem not_countsOutput_sampleMiscounted :
    Follows (step Sdk.sample) (fun w i => Sequential w i ∧ ¬BoundaryPress w i) sampleBoot
        sampleMiscounted ∧
      (run Sdk.sample sampleBoot sampleMiscounted).ui.flow = .txOutput ∧
      ¬CountsOutput Sdk.sample (run Sdk.sample sampleBoot sampleMiscounted) :=
  ⟨by decide +kernel, by decide +kernel, fun h => absurd h.text (by decide +kernel)⟩

end HathorLedger
