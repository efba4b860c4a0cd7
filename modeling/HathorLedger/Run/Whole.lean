import HathorLedger.Run.Paths
import HathorLedger.Run.Records
import HathorLedger.Run.Review

/-!
# Only whole transactions are signed

Nothing at the sign stage looks at what is signed. That it is a whole transaction follows from the
press that approved it: the screen "Send Transaction?" opens behind the last output, and then the
decoder has no bytes left. The app does not check the version of a transaction.

## Main definitions

* `WholeTransaction`: the documented serialisation of a transaction of version 1.
* `Input.announcesOtherVersion`: a header with another version.
* `SignsWhole`: a signature over the digest of a whole transaction.

## Main results

* `signsWhole_of_reachable`: the digest of a signature is that of a whole transaction.
-/

namespace HathorLedger

variable {sdk : Sdk} {w : World} {g g' g₁ : Globals} {i : Input}

/-- The bytes are the header of a transaction of version 1 and all the elements it announces. -/
def WholeTransaction (bytes : Bytes) : Prop :=
  ∃ (h : Header) (e : Elements), bytes = h.bytes ++ e.bytes ∧
    beValue [h.versionHigh, h.versionLow] = 1 ∧ e.uids.length = h.tokens.toNat ∧
    e.inputs.length = h.inputs.toNat ∧ e.outputs.length = h.outputs.toNat

/-! ### Versions -/

/-- A first chunk whose header announces outputs and another version than 1. -/
def Input.announcesOtherVersion : Input → Bool
  | .apdu bytes =>
    match callOf bytes with
    | some (.signTx data stage chunk) =>
      stage = 0 ∧ chunk = 0 ∧ (announced data).outputsLen ≠ 0 ∧ (announced data).txVersion ≠ 1
    | _ => false
  | _ => false

/-- The record of a transaction with outputs has the version 1. -/
def Versioned (t : TxInfo) : Prop := t.outputsLen ≠ 0 → t.txVersion = 1

theorem Versioned.recount {t t' : TxInfo} (ht : Versioned t) {d c : ℕ} (h : Recount t d c t') :
    Versioned t' := by
  cases h with
  | moved | emptied => exact ht

theorem Chunked.versioned (hq : Chunked g i g₁) (hg : Versioned g.ctx.txInfo)
    (hversion : i.announcesOtherVersion = false) : Versioned g₁.ctx.txInfo := by
  obtain ⟨apdu, data, chunk, rfl, hcall, hq⟩ := hq
  cases hq with
  | first h skipped rest changeLen changeInfo hchunk hdata cdata hchanges hread =>
    subst hchunk
    intro houtputs
    have hone : (announced data).outputsLen ≠ 0 → (announced data).txVersion = 1 := by
      simpa [Input.announcesOtherVersion, hcall] using hversion
    rw [hread] at hone
    exact hone houtputs
  | next => exact hg

theorem versioned_of_recordStep (hs : Sound sdk g) (hg : Versioned g.ctx.txInfo)
    (hversion : i.announcesOtherVersion = false) {ctx : GlobalCtx}
    (h : RecordStep sdk g i ctx) : Versioned ctx.txInfo := by
  cases h with
  | kept hreq h => exact h ▸ hg
  | restarted hreq h =>
    rw [h]
    exact hg
  | finished hreq hfinish =>
    obtain ⟨sighashAll, sha256, heq⟩ := finishSighashAll_eq hfinish
    rw [heq]
    exact hg
  | cleared hreq h =>
    obtain ⟨buffer, h⟩ := h
    rw [h]
    exact fun houtputs => absurd rfl houtputs
  | failed hi hcall h =>
    cases h with
    | changes | header => exact fun houtputs => absurd rfl houtputs
  | decoded hq hready hreq hskipped h =>
    obtain ⟨_, _, hqueueing⟩ := hq.queueing hs
    obtain ⟨_, _, -, -, _, hprogress⟩ := hqueueing.decode hready
    have hcontext := hprogress.context
    refine Versioned.recount (fun houtputs => ?_) h
    refine hcontext.txVersion.trans (hq.versioned hg hversion ?_)
    rw [← hcontext.outputsLen]
    exact houtputs
  | reviewed hi hflow hreq hskipped h => exact hg.recount h

theorem versioned_of_reachable {guard : World → Input → Prop}
    (hguard : ∀ w i, guard w i → i.announcesOtherVersion = false)
    (hw : Reachable Booted (step sdk) guard w) : Versioned w.ctx.txInfo := by
  refine hw.invariant (I := fun w => Versioned w.ctx.txInfo) ?_ fun w i hw hi hversioned => ?_
  · rintro _ ⟨secret, -, rfl⟩
    exact fun houtputs => absurd rfl houtputs
  · have hs := sound_of_reachable hw
    exact versioned_of_recordStep hs hversioned (hguard w i hi)
      (recordStep_of_globalsStep hs (globalsStep hs.ready i))

/-! ### Approvals -/

/-- The bytes approved last were hashed at a press on "Send Transaction?", and the session goes on
since. -/
theorem exists_press_of_sendApproved {log : List Event} {bytes : Bytes}
    (h : (history log).sendApproved = some bytes) :
    ∃ rest, .pressed .approve .confirmTx :: rest <:+ log ∧ (history rest).hashed = bytes ∧
      ((history rest).firstChunkRead = true → (history log).firstChunkRead = true) := by
  induction log with
  | nil => cases h
  | cons e log ih =>
    have hkeep : (history (e :: log)).sendApproved = (history log).sendApproved →
        ((history log).firstChunkRead = true → (history (e :: log)).firstChunkRead = true) →
        ∃ rest, .pressed .approve .confirmTx :: rest <:+ e :: log ∧
          (history rest).hashed = bytes ∧
          ((history rest).firstChunkRead = true → (history (e :: log)).firstChunkRead = true) := by
      intro hsame hread
      obtain ⟨rest, hsuffix, hbytes, hfirst⟩ := ih (hsame.symm.trans h)
      exact ⟨rest, hsuffix.trans (List.suffix_cons e log), hbytes, hread ∘ hfirst⟩
    cases e with
    | wiped | txInit => cases h
    | firstChunkRead => exact hkeep rfl fun _ => rfl
    | pressed button screen =>
      cases button with
      | approve =>
        by_cases hscreen : screen = .confirmTx
        · subst hscreen
          exact ⟨log, List.suffix_rfl, Option.some.inj h, id⟩
        · exact hkeep (if_neg hscreen) id
      | _ => exact hkeep rfl id
    | shown screen => cases screen <;> exact hkeep rfl id
    | _ => exact hkeep rfl id

theorem flow_of_shown {ui : Ui} (h : ui.shown = .confirmTx) : ui.flow = .confirmTx := by
  unfold Ui.shown at h
  cases hflow : ui.flow <;> rw [hflow] at h <;> first | rfl | cases h

/-- Where "Send Transaction?" is open, a whole transaction was hashed. -/
theorem wholeTransaction_of_send (hs : Sound sdk g) (hf : Faithful sdk g)
    (hversion : Versioned g.ctx.txInfo) (hflow : g.ui.flow = .confirmTx) :
    WholeTransaction g.history.hashed ∧ g.history.firstChunkRead = true := by
  obtain ⟨hstate, -⟩ := hf.send hflow
  obtain ⟨h, e, ⟨hsession, hrest⟩, hr⟩ := hf.review (hs.request (.inr (.inl hstate)))
  obtain ⟨hpos, hlen, hall⟩ := hr.complete (.inl hstate)
  obtain ⟨hnone, houtputs, hread⟩ := hr.nextKind_eq_none hsession hstate
  obtain ⟨hbe, hhashed, -⟩ := hsession.read hread
  have horder := hsession.held.inOrder
  have hne : e.outputs ≠ [] := List.length_pos_iff.1 (by omega)
  refine ⟨⟨h, e, ?_, ?_, horder.uids_of_outputs hne, horder.inputs_of_outputs hne, ?_⟩, hread⟩
  · rw [hhashed, hrest.settled hnone, List.append_nil]
  · rw [← hbe]
    exact hversion (by omega)
  · rw [houtputs, hsession.held.outputsLen]

/-! ### Signatures -/

/-- The signature is over the digest of what was hashed, which is a whole transaction. -/
def SignsWhole (sdk : Sdk) (digest : Bytes) (h : History) : Prop :=
  digest = sha256d sdk h.hashed ∧ WholeTransaction h.hashed

/-- In sequential runs without a boundary press and without a header of another version, every
signature is over the digest of a whole transaction, if the digest was taken for the first time or
does not start with a zero byte. -/
theorem signsWhole_of_reachable
    (hw : Reachable Booted (step sdk)
      (fun w i => Sequential w i ∧ ¬BoundaryPress w i ∧ i.announcesOtherVersion = false) w)
    {later earlier : List Event} {path : List ℕ} {digest signature : Bytes}
    (htrace : w.trace = later ++ .signed path digest signature :: earlier)
    (hown : (history earlier).finishes = 1 ∨ byteAt (sha256d sdk (history earlier).hashed) 0 ≠ 0) :
    SignsWhole sdk digest (history earlier) := by
  have hgrown := grown_of_reachable
    (P := fun e rest => e = .pressed .approve .confirmTx →
      WholeTransaction (history rest).hashed ∧ (history rest).firstChunkRead = true)
    (fun e rest he hpress => by subst hpress; cases he)
    (fun w i hw hi e rest he hpress => by
      subst hpress
      have hs := sound_of_reachable hw
      have hf := faithful_of_sequential (hw.mono fun _ _ _ h => ⟨h.1, h.2.1⟩)
      have hversion := versioned_of_reachable (fun _ _ h => h.2.2) hw
      generalize hevent : Event.pressed .approve .confirmTx = e at he
      cases he with
      | incidental h => subst hevent; cases h
      | pressed button hi =>
        exact wholeTransaction_of_send hs hf hversion
          (flow_of_shown (Event.pressed.inj hevent).2.symm)
      | address | xpub | signing => cases hevent
      | decoding hq he =>
        subst hevent
        rcases mem_decodeEvents he with h | h | ⟨_, -, h⟩ <;> cases h
      | reviewing hq hready hsome hskipped he | approving hi hflow hskipped he =>
        subst hevent
        cases he)
    hw
  have hauthorised := authorised_of_trace hw htrace
  have hearlier : history earlier = history (earlier.filter fun e => !e.silent) :=
    (history_filter earlier).symm
  obtain ⟨rest, hsuffix, hhashed, hread⟩ :=
    exists_press_of_sendApproved (hearlier ▸ hauthorised.approved)
  have hlog : earlier.filter (fun e => !e.silent) <:+ w.globals.log := by
    change _ <:+ w.trace.filter _
    rw [htrace, List.filter_append, List.filter_cons]
    exact (List.suffix_cons _ _).trans (List.suffix_append _ _)
  obtain ⟨hwhole, hfirst⟩ := hgrown.of_suffix (hsuffix.trans hlog) rfl
  rw [hhashed, ← hearlier] at hwhole
  rw [← hearlier] at hread
  exact ⟨hauthorised.own (hread hfirst) hown, hwhole⟩

theorem signsWhole_sampleApproved :
    SignsWhole Sdk.sample ([98, 32] ++ List.replicate 30 0)
      (history ((run Sdk.sample sampleBoot (sampleApproved ++ [sampleSign])).trace.drop 2)) := by
  have hfollows : Follows (step Sdk.sample)
      (fun w i => Sequential w i ∧ ¬BoundaryPress w i ∧ i.announcesOtherVersion = false) sampleBoot
      (sampleApproved ++ [sampleSign]) := by decide +kernel
  have htrace : (run Sdk.sample sampleBoot (sampleApproved ++ [sampleSign])).trace =
      (run Sdk.sample sampleBoot (sampleApproved ++ [sampleSign])).trace.take 1 ++
        .signed [0x8000002C] ([98, 32] ++ List.replicate 30 0) ([44, 98, 32] ++ List.replicate 30 0) ::
          (run Sdk.sample sampleBoot (sampleApproved ++ [sampleSign])).trace.drop 2 := by
    decide +kernel
  exact signsWhole_of_reachable ((Reachable.start booted_sampleBoot).follow hfollows) htrace
    (.inl (by decide +kernel))

/-- A transaction of version 2 is sent, approved and signed. -/
def sampleOtherVersion : List Input :=
  [.command Ins.signTx 0 0 ([0, 0, 2, 0, 0, 1] ++ sampleOutput.bytes), .press .approve,
    .press .approve, sampleSign]

/-- A transaction with two outputs is signed of which only one was sent. -/
def sampleCut : List Input :=
  [.command Ins.signTx 0 0 sampleBoundaryChunk, .press .approve, .press .approve, sampleSign]

/-- What the header of a whole transaction says about it. -/
theorem WholeTransaction.header {a b c d n : UInt8} {rest : Bytes}
    (h : WholeTransaction (a :: b :: c :: d :: n :: rest)) :
    beValue [a, b] = 1 ∧ 32 * n.toNat ≤ rest.length := by
  obtain ⟨header, e, hbytes, hversion, -, -, houtputs⟩ := h
  simp only [Header.bytes, List.cons_append, List.nil_append, List.cons.injEq] at hbytes
  obtain ⟨rfl, rfl, -, -, rfl, rfl⟩ := hbytes
  have hle := length_outputs_le e
  exact ⟨hversion, by omega⟩

/-- The last event but one of a run is a signature that is not over a whole transaction. -/
def EndsWithPartial (sdk : Sdk) (w : World) : Prop :=
  ∃ path digest signature earlier,
    w.trace = w.trace.take 1 ++ .signed path digest signature :: earlier ∧
      ¬SignsWhole sdk digest (history earlier)

/-- The app signs a transaction of version 2, and after a boundary press one that is not complete. -/
theorem endsWithPartial_samples :
    (Follows (step Sdk.sample) Sequential sampleBoot sampleOtherVersion ∧
      EndsWithPartial Sdk.sample (run Sdk.sample sampleBoot sampleOtherVersion)) ∧
    Follows (step Sdk.sample) Sequential sampleBoot sampleCut ∧
      EndsWithPartial Sdk.sample (run Sdk.sample sampleBoot sampleCut) := by
  refine ⟨⟨by decide +kernel, [0x8000002C], [99, 32] ++ List.replicate 30 0,
      [44, 99, 32] ++ List.replicate 30 0,
      (run Sdk.sample sampleBoot sampleOtherVersion).trace.drop 2, by decide +kernel, ?_⟩,
    by decide +kernel, [0x8000002C], [99, 32] ++ List.replicate 30 0,
      [44, 99, 32] ++ List.replicate 30 0,
      (run Sdk.sample sampleBoot sampleCut).trace.drop 2, by decide +kernel, ?_⟩
  · rintro ⟨-, hwhole⟩
    have hhashed : (history ((run Sdk.sample sampleBoot sampleOtherVersion).trace.drop 2)).hashed =
        0 :: 2 :: 0 :: 0 :: 1 :: sampleOutput.bytes := by decide +kernel
    rw [hhashed] at hwhole
    exact absurd hwhole.header.1 (by decide)
  · rintro ⟨-, hwhole⟩
    have hhashed : (history ((run Sdk.sample sampleBoot sampleCut).trace.drop 2)).hashed =
        0 :: 1 :: 0 :: 0 :: 2 :: sampleOutput.bytes := by decide +kernel
    rw [hhashed] at hwhole
    exact absurd hwhole.header.2 (by decide)

end HathorLedger
