import HathorLedger.Run.Session

/-!
# Commands behind an open screen

The approve callback acts on the context, not on the screen. A command that arrives while a screen is
open may change the context and leave the screen as it is. Most commands open a screen of their own
or return to the menu, but those that fail do not, and neither does a first chunk without a complete
output. A later chunk disturbs the review if outputs of an earlier chunk are still to be approved: it
puts its own outputs in their place.

## Main definitions

* `SilentFirstChunk`, `OvertakingChunk`: the data chunks that break the connection.
* `Call.Disturbs`, `Disturbs`: the commands that do.
* `BoundaryPress`: the one press that does.

## Main results

* `queuedFirst_of_queued`: which record a first chunk queues.
-/

namespace HathorLedger

variable (sdk : Sdk)

/-- The flows whose approve step acts on what the context holds. -/
def Flow.standsForContext : Flow → Bool
  | .confirmTx | .txOutput | .xpub | .signTokenData => true
  | _ => false

/-! ### Chunks -/

/-- The record with a first chunk queued for the decoder, if the chunk can be read. -/
def queuedFirst (data : Bytes) : Option TxInfo :=
  match (readFirstChunk data).run { sha256 := .fed [] } with
  | .ok cdata t => some (t.queue cdata.rest)
  | .error _ _ => none

/-- The record with a later chunk queued for the decoder. -/
def TxInfo.queuedNext (data : Bytes) (t : TxInfo) : TxInfo :=
  .queue data { t with displayIndex := 0, bufferOutputLen := 0, sha256 := t.sha256.update data }

/-- The decoder reads what is queued without an error. -/
def DecodesQueue (registry : TokenDataCtx) (t : TxInfo) : Prop :=
  (decodeElements sdk registry t).1 = TxState.ready

/-- The number of outputs among what is queued. -/
def decodedOutputs (registry : TokenDataCtx) (t : TxInfo) : ℕ :=
  (decodeElements sdk registry t).2.bufferOutputLen

/-- A first chunk starts another transaction without a screen: a transaction is being received, or
the chunk cannot be read, or it is decoded and holds no complete output. In the approved state and
with an invalid element the menu is shown. -/
def SilentFirstChunk (g : Globals) (data : Bytes) : Prop :=
  g.ctx.state = .recvData ∨ g.ctx.state ≠ .approved ∧ ∀ t ∈ queuedFirst data,
    DecodesQueue sdk g.tokenSymbols t ∧ decodedOutputs sdk g.tokenSymbols t = 0

/-- A later chunk is decoded while outputs are still to be reviewed. An output screen is open, or the
review goes on behind them. -/
def OvertakingChunk (g : Globals) (data : Bytes) : Prop :=
  g.ctx.state = .recvData ∧ g.ctx.txInfo.confirmedOutputs ≠ g.ctx.txInfo.currentOutput ∧
    DecodesQueue sdk g.tokenSymbols (g.ctx.txInfo.queuedNext data) ∧
    (g.ui.flow = .txOutput ∨
      decodedOutputs sdk g.tokenSymbols (g.ctx.txInfo.queuedNext data) ≠ 0)

/-! ### Inputs that break the connection -/

/-- The calls that change what an open screen stands for and do not close it, and the chunks that put
other outputs in the place of those under review. -/
def Call.Disturbs (g : Globals) : Call → Prop
  | .getAddress data => g.ui.flow.standsForContext = true ∧ ¬AddressRequest sdk data
  | .getXpub data => g.ui.flow.standsForContext = true ∧ ¬XpubRequest sdk data
  | .signTokenData data => g.ui.flow.standsForContext = true ∧ ¬TokenRequest data
  | .verifyTokenSignature _ => g.ui.flow.standsForContext = true
  | .sendTokenData first _ => g.ui.flow.standsForContext = true ∧ first = true
  | .signTx data stage chunk =>
    (stage = 0 ∧ chunk = 0 ∧ g.ui.flow.standsForContext = true ∧ SilentFirstChunk sdk g data) ∨
      (stage = 0 ∧ chunk ≠ 0 ∧ OvertakingChunk sdk g data) ∨
      (stage = 1 ∧ g.ui.flow = .txOutput)
  | .resetTokenSignatures | .getVersion => False

/-- A command disturbs what the open screen stands for. -/
def Disturbs (w : World) (i : Input) : Prop :=
  ∃ apdu call, i = .apdu apdu ∧ callOf apdu = some call ∧ call.Disturbs sdk w.globals

/-- The user approves the last decoded output, and the next output is declared as change. -/
def BoundaryPress (w : World) (i : Input) : Prop :=
  i = .press .approve ∧ w.ui.flow = .txOutput ∧
    w.ctx.txInfo.displayIndex + 1 = w.ctx.txInfo.bufferOutputLen ∧
    w.ctx.txInfo.confirmedOutputs + 1 ∈ w.ctx.txInfo.changeIndices

/-- The inputs that keep the connection between the open screen and the context. -/
def Undisturbed (w : World) (i : Input) : Prop := ¬Disturbs sdk w i ∧ ¬BoundaryPress w i

/-! ### They can be decided -/

instance (g : Globals) (data : Bytes) : Decidable (SilentFirstChunk sdk g data) :=
  inferInstanceAs (Decidable (_ ∨ _ ∧ ∀ t ∈ queuedFirst data, _ = _ ∧ _ = _))

instance (g : Globals) (data : Bytes) : Decidable (OvertakingChunk sdk g data) :=
  inferInstanceAs (Decidable (_ = _ ∧ _ ≠ _ ∧ _ = _ ∧ (_ ∨ _)))

instance (g : Globals) : ∀ call : Call, Decidable (call.Disturbs sdk g)
  | .getAddress _ | .getXpub _ | .signTokenData _ => inferInstanceAs (Decidable (_ ∧ ¬_))
  | .verifyTokenSignature _ => inferInstanceAs (Decidable (_ = _))
  | .sendTokenData _ _ => inferInstanceAs (Decidable (_ ∧ _))
  | .signTx _ _ _ => inferInstanceAs (Decidable (_ ∨ _ ∨ _))
  | .resetTokenSignatures | .getVersion => inferInstanceAs (Decidable False)

instance (w : World) (i : Input) : Decidable (BoundaryPress w i) := inferInstanceAs (Decidable (_ ∧ _))

variable {sdk} {w : World} {g g₁ : Globals} {data : Bytes}

theorem disturbs_apdu_iff {apdu : Bytes} :
    Disturbs sdk w (.apdu apdu) ↔ ∃ call ∈ callOf apdu, call.Disturbs sdk w.globals := by
  constructor
  · rintro ⟨apdu', call, hi, hcall, hdisturbs⟩
    obtain rfl := Input.apdu.inj hi
    exact ⟨call, hcall, hdisturbs⟩
  · rintro ⟨call, hcall, hdisturbs⟩
    exact ⟨apdu, call, rfl, hcall, hdisturbs⟩

instance : ∀ i : Input, Decidable (Disturbs sdk w i)
  | .apdu _ => decidable_of_iff _ disturbs_apdu_iff.symm
  | .press _ | .ioReset => isFalse nofun

instance (i : Input) : Decidable (Undisturbed sdk w i) := inferInstanceAs (Decidable (_ ∧ _))

theorem disturbs_receive {apdu : Bytes} {call : Call} :
    call.Disturbs sdk (g.receive apdu) ↔ call.Disturbs sdk g := by
  cases call <;> exact Iff.rfl

/-! ### What the chunks queue -/

theorem queuedFirst_of_queued (hdata : data.length ≤ 255) (hq : Queued data 0 g g₁) :
    queuedFirst data = some g₁.ctx.txInfo := by
  cases hq with
  | next hchunk => exact absurd rfl hchunk
  | first h skipped rest changeLen changeInfo hchunk hsplit cdata hchanges hread =>
    have hfed : (announced data).sha256 = .fed (h.bytes ++ rest) := by
      rw [hread]
      rfl
    obtain ⟨cdata', hrun, hrest⟩ := readFirstChunk_of_header hdata hchanges hfed
    rw [queuedFirst, hrun, ← hread, ← hrest]

/-- A first chunk starts with nothing confirmed, a later one goes on with the record. -/
theorem Queued.cases_record {chunk : ℕ} (hq : Queued data chunk g g₁) :
    (chunk = 0 ∧ g₁.ctx.txInfo.confirmedOutputs = 0 ∧ g₁.ctx.txInfo.currentOutput = 0) ∨
      (chunk ≠ 0 ∧ g.ctx.state = .recvData ∧ g₁.ctx.txInfo = g.ctx.txInfo.queuedNext data) := by
  cases hq with
  | first _ _ _ _ _ hchunk => exact .inl ⟨hchunk, rfl, rfl⟩
  | next hchunk hstate => exact .inr ⟨hchunk, hstate, rfl⟩

theorem tokenSymbols_of_queued {chunk : ℕ} (hq : Queued data chunk g g₁) :
    g₁.tokenSymbols = g.tokenSymbols := by
  cases hq <;> rfl

theorem queuedFirst_of_failed {sw : ℕ} (hfailed : FirstChunkFailed data g sw g₁) :
    queuedFirst data = none := by
  cases hfailed with
  | changes changeLen changeInfo sw hchanges =>
    rw [queuedFirst, readFirstChunk_of_changes_error hchanges]
  | header _ _ _ _ _ _ _ _ _ _ _ hread => rw [queuedFirst, hread]

end HathorLedger
