import HathorLedger.Run.Deliveries
import HathorLedger.Run.Progress

/-!
# A review that goes astray

If a chunk ends behind an output under review and the next output is declared as change, the approval
of the former takes both counters past the outputs that were decoded. From there on the display index
never meets the end of the array again, so the user is asked to send the transaction before all of it
has arrived.

## Main definitions

* `Astray`: an output screen is open with the display index behind the decoded outputs.

## Main results

* `Job.approved_of_next`: with such a chunk the transaction ends up approved.
-/

namespace HathorLedger

variable {sdk : Sdk} {j : Job} {e : Elements} {r : Bytes} {n : ℕ} {g g' : Globals} {w w' : World}

/-- An output screen is open, but the display index is behind the decoded outputs. -/
structure Astray (g : Globals) : Prop where
  flow : g.ui.flow = .txOutput
  reqType : g.ctx.reqType = .confirmTransaction
  inRange : g.ctx.txInfo.InRange
  lt_display : g.ctx.txInfo.bufferOutputLen < g.ctx.txInfo.displayIndex

/-- An approval that leads behind the decoded outputs. -/
inductive LedAstray (left : ℕ) (g' : Globals) : Prop
  | send (hflow : g'.ui.flow = .confirmTx)
  | output (h : Astray g')
    (hleft : g'.ctx.txInfo.outputsLen - g'.ctx.txInfo.confirmedOutputs < left)

/-- If the display index leaves the array, the user is asked to send the transaction, or is shown
one more output. -/
theorem ledAstray_of_approve (hw : Reachable Booted (step sdk) Sequential w)
    (hflow : w.ui.flow = .txOutput) (hreq : w.ctx.reqType = .confirmTransaction)
    (hrange : w.ctx.txInfo.InRange)
    (hstray : w.ctx.txInfo.bufferOutputLen < w.ctx.txInfo.displayIndex ∨
      w.ctx.txInfo.displayIndex + 1 = w.ctx.txInfo.bufferOutputLen ∧
        w.ctx.txInfo.confirmedOutputs + 1 ∈ w.ctx.txInfo.changeIndices) :
    LedAstray (w.ctx.txInfo.outputsLen - w.ctx.txInfo.confirmedOutputs)
      (step sdk w (.press .approve)).globals := by
  have ht := (reviewable_of_reachable (fun _ _ => id) hw).advanceable hflow hrange
  have hlt : w.ctx.txInfo.confirmedOutputs < w.ctx.txInfo.outputsLen := ht.confirmed_lt
  obtain ⟨k, hpos, ⟨hle, m, hdisplayed⟩, hmem⟩ :=
    exists_displayedBy_of_approve sdk (sound_of_reachable hw).ready hflow ht hrange
  have hbehind : w.ctx.txInfo.bufferOutputLen < w.ctx.txInfo.displayIndex + k := by
    rcases hstray with h | ⟨h, hchange⟩
    · omega
    · have := hmem hchange
      omega
  generalize (step sdk w (.press .approve)).globals = g' at hdisplayed
  cases hdisplayed with
  | asked hasked =>
    cases hasked with
    | send => exact .send rfl
    | refused _ hother => exact absurd hreq hother
    | more _ hd => exact absurd hd (Nat.ne_of_gt hbehind)
  | output =>
    refine .output ⟨rfl, hreq, hrange, hbehind⟩ ?_
    change w.ctx.txInfo.outputsLen - (w.ctx.txInfo.confirmedOutputs + k) < _
    omega

/-- "Send Transaction?" is the last screen that asks. -/
theorem ApprovesAll.eq_of_confirmTx (hw : Reachable Booted (step sdk) Sequential w)
    (h : ApprovesAll sdk w w') (hflow : w.ui.flow = .confirmTx) :
    w' = step sdk w (.press .approve) := by
  have hio : w.io.state = .waiting := by
    refine (attended_of_reachable (fun _ _ => id) hw).hasApprove_iff.1 ?_
    rw [show w.globals.ui.flow = _ from hflow]
    rfl
  obtain ⟨hclosed, -⟩ := approved_of_confirmTx (sound_of_reachable hw) hflow hio
  cases h with
  | done hdone =>
    rw [hflow] at hdone
    cases hdone
  | press _ h' =>
    cases h' with
    | done => rfl
    | press hopen => cases hclosed.symm.trans hopen

/-- From there the approvals lead to the approved state. -/
theorem approved_of_ledAstray (hw : Reachable Booted (step sdk) Sequential w) {left : ℕ}
    (hled : LedAstray left w.globals) (h : ApprovesAll sdk w w') : w'.ctx.state = .approved := by
  induction left using Nat.strong_induction_on generalizing w with
  | _ left ih =>
    cases hled with
    | send hflow =>
      have hio : w.io.state = .waiting := by
        refine (attended_of_reachable (fun _ _ => id) hw).hasApprove_iff.1 ?_
        rw [hflow]
        rfl
      obtain ⟨-, happroved, -, -⟩ := approved_of_confirmTx (sound_of_reachable hw) hflow hio
      rw [h.eq_of_confirmTx hw hflow]
      exact happroved
    | output hastray hleft =>
      cases h with
      | done hdone =>
        rw [show w'.ui.flow = _ from hastray.flow] at hdone
        cases hdone
      | press _ h' =>
        exact ih _ hleft (hw.next _ (sequential_press _)) (ledAstray_of_approve hw hastray.flow
          hastray.reqType hastray.inRange (.inl hastray.lt_display)) h'

/-- In a chunk that ends behind an output under review, in front of one that is declared as change,
the transaction ends up approved although outputs are missing. -/
theorem Job.approved_of_next {start : ℕ} {old : List Bytes} (hj : j.Honest sdk)
    (hchange : e.outputs.length ∈ j.changes) (hlast : e.outputs.length - 1 ∉ j.changes)
    (hstart : start < e.outputs.length) (hlt : e.outputs.length < j.elements.outputs.length)
    (hw : Reachable Booted (step sdk) Sequential w) (h : j.Next sdk e r start old w.globals)
    (happroves : ApprovesAll sdk w w') : w'.ctx.state = .approved := by
  induction hn : e.outputs.length - start using Nat.strong_induction_on generalizing start w with
  | _ n ih =>
    have hs := sound_of_reachable hw
    have hnextw := hw.next (.press .approve) (sequential_press .approve)
    cases h with
    | send hall => omega
    | more _ hall => exact absurd (hall (e.outputs.length - 1) (by omega) (by omega)) hlast
    | output c hle ho =>
      have hc : c < e.outputs.length := by
        have := ho.displayIndex_lt
        have := ho.offset
        omega
      have hpress : ApprovesAll sdk (step sdk w (.press .approve)) w' := by
        cases happroves with
        | done hdone =>
          rw [show w'.ui.flow = _ from ho.flow] at hdone
          cases hdone
        | press _ h' => exact h'
      rcases Nat.lt_or_ge (c + 1) e.outputs.length with hmore | hend
      · have hnext := next_of_open hj hs ho fun heq => absurd heq hmore.ne
        exact ih _ (by omega) hmore hnextw hnext hpress rfl
      · -- the counters go past the outputs that were decoded
        have hindices := ho.review.changeIndices
        have hboundary : c + 1 = e.outputs.length := by omega
        have hrange : w.ctx.txInfo.InRange := by
          intro i hi
          rw [show w.ctx.txInfo.changeIndices = _ from hindices] at hi
          rw [show w.ctx.txInfo.outputsLen = _ from ho.review.outputsLen hj]
          exact hj.lt_of_mem i hi
        have hstray : w.ctx.txInfo.displayIndex + 1 = w.ctx.txInfo.bufferOutputLen ∧
            w.ctx.txInfo.confirmedOutputs + 1 ∈ w.ctx.txInfo.changeIndices := by
          have hoffset : c + w.ctx.txInfo.bufferOutputLen =
              e.outputs.length + w.ctx.txInfo.displayIndex := ho.offset
          refine ⟨by omega, ?_⟩
          rw [show w.ctx.txInfo.changeIndices = _ from hindices,
            show w.ctx.txInfo.confirmedOutputs = _ from ho.confirmedOutputs, hboundary]
          exact hchange
        have hled := ledAstray_of_approve hw ho.flow ho.review.reqType hrange (.inr hstray)
        exact approved_of_ledAstray hnextw hled hpress

end HathorLedger
