import HathorLedger.Run.Lockstep
import HathorLedger.Run.Paths
import HathorLedger.Run.Responses

/-!
# Sessions do not leak

A session of `SIGN_TX` that starts without a transaction and without an open screen does not depend
on what the app did before: on two apps with the same token registry, the same commands with the same
answers of the user have the same responses, the same signed digests and the same texts on the
screens. The two apps may even have different contents in the memory behind `outputs`, as long as the
review stays inside the array.

The exception is an app with a response that nobody has asked for. It is queued when a screen is
answered although the app does not wait for the user any more, and goes out in the next session.

## Main definitions

* `InSession`: the inputs of a session.
* `SameSession`: two apps do the same in a session.

## Main results

* `sameSession`: sessions that start without a transaction are the same.
-/

namespace HathorLedger

/-- A session consists of commands `SIGN_TX` and of presses on the screens that it has opened. -/
def InSession (old : List Event) (w : World) : Input → Prop
  | .apdu apdu => IsSignTx apdu
  | .press _ => HasShown old w
  | .ioReset => False

instance (old : List Event) (w : World) : ∀ i, Decidable (InSession old w i)
  | .apdu apdu => inferInstanceAs (Decidable (IsSignTx apdu))
  | .press _ => inferInstanceAs (Decidable (HasShown old w))
  | .ioReset => isFalse id

/-- The two apps do the same: they send the same responses, sign the same digests, show the same
texts, and whatever else is recorded is the same. -/
def SameSession (sdk sdk' : Sdk) (w₁ w₂ : World) (inputs : List Input) : Prop :=
  ∃ new, (run sdk w₁ inputs).trace = new ++ w₁.trace ∧
    (run sdk' w₂ inputs).trace = new ++ w₂.trace

variable {sdk : Sdk} {past : ℕ → TxOutput} {w w₁ w₂ : World} {old₁ old₂ : List Event} {i : Input}

/-! ### The array of outputs -/

theorem Held.bufferOutputLen_le_length {h : Header} {e : Elements} {t : TxInfo}
    (hh : Held sdk h e t) : t.bufferOutputLen ≤ t.outputs.length := by
  have hlen := congrArg List.length hh.buffered
  have hle := hh.bufferOutputLen_le
  rw [List.length_take, List.length_drop, Elements.length_txOutputs] at hlen
  omega

/-- As long as outputs are approved on review only, the display index stays inside the array. -/
theorem not_readsPast_of_reachable (hw : Reachable Booted (step sdk) InTurn w) :
    ¬w.ctx.txInfo.ReadsPast := by
  have hbounded := bounded_of_reachable (fun _ _ h => h.1) hw
  have hdisplay := hbounded.display_le
  rintro ⟨hge, hne⟩
  have hlen : w.ctx.txInfo.bufferOutputLen ≤ w.ctx.txInfo.outputs.length := by
    by_cases hreq : w.ctx.reqType = .confirmTransaction
    · obtain ⟨h, e, hsession, -⟩ := (sound_of_reachable hw).session hreq
      exact hsession.held.bufferOutputLen_le_length
    · have hvacant := (vacant_of_reachable hw hreq).bufferOutputLen
      change w.ctx.txInfo.bufferOutputLen = 0 at hvacant
      omega
  omega

/-! ### Sessions -/

/-- The apps are in lockstep since the start of the session, between two of its inputs. -/
structure Tied (old₁ old₂ : List Event) (w₁ w₂ : World) : Prop where
  delivered : ∀ apdu, Joined False old₁ old₂ (ioDeliver apdu w₁) (ioDeliver apdu w₂)
  pressed : HasShown old₁ w₁ → Alike True old₁ old₂ w₁ w₂
  trace : ∃ new, w₁.trace = new ++ old₁ ∧ w₂.trace = new ++ old₂

theorem Joined.tied (h : Joined True old₁ old₂ w₁ w₂) : Tied old₁ old₂ w₁ w₂ :=
  ⟨joined_ioDeliver h, fun hshown => ⟨h.toApart, h.ctx.resolve_right fun hnone => hnone.2.2 hshown⟩,
    h.trace⟩

/-- Two apps without a transaction that are blocked for the next command. -/
theorem tied_of_listening (h₁ : Listening w₁.globals) (h₂ : Listening w₂.globals)
    (hregistry : w₁.tokenSymbols = w₂.tokenSymbols) (hnone₁ : w₁.ctx.state = .none)
    (hnone₂ : w₂.ctx.state = .none) : Tied w₁.trace w₂.trace w₁ w₂ := by
  have hnot : ¬HasShown w₁.trace w₁ := Nat.lt_irrefl _
  refine ⟨fun apdu => ?_, fun hshown => absurd hshown hnot, [], rfl, rfl⟩
  have hstate₁ : (ioDeliver apdu w₁).io.state = .received := h₁.received apdu
  have hstate₂ : (ioDeliver apdu w₂).io.state = .received := h₂.received apdu
  have hshown : ¬HasShown w₁.trace (ioDeliver apdu w₁) := hnot
  refine ⟨⟨hregistry, hstate₁.trans hstate₂.symm, False.elim, fun hready => ?_,
    ⟨[.received apdu], rfl, rfl⟩, fun h => absurd h hshown⟩, .inr ⟨hnone₁, hnone₂, hshown⟩⟩
  cases hstate₁.symm.trans hready

theorem tied_step (h : Tied old₁ old₂ w₁ w₂) (hw : Reachable Booted (step sdk) InTurn w₁)
    (hi : InSession old₁ w₁ i) (hturn : InTurn w₁ i) :
    Tied old₁ old₂ (step sdk w₁ i) (step (sdk.withPast past) w₂ i) := by
  have hpast := not_readsPast_of_reachable (hw.next i hturn)
  cases i with
  | apdu apdu =>
    have hreceived : (ioDeliver apdu w₁).io.state = .received :=
      (listening_of_reachable (fun _ _ h => h.2) hw).received apdu
    have hio : (ioDeliver apdu w₁).io.state ≠ .waiting := by
      rw [hreceived]
      nofun
    exact ((joined_runCommand hi (h.delivered apdu) hio).resolve_right hpast).tied
  | press button =>
    exact ((alike_runPress (h.pressed hi) hi button).resolve_right hpast).joined.tied
  | ioReset => exact hi.elim

theorem tied_run (h : Tied old₁ old₂ w₁ w₂) (hw : Reachable Booted (step sdk) InTurn w₁)
    {inputs : List Input}
    (hinputs : Follows (step sdk) (fun w i => InSession old₁ w i ∧ InTurn w i) w₁ inputs) :
    Tied old₁ old₂ (run sdk w₁ inputs) (run (sdk.withPast past) w₂ inputs) := by
  induction inputs generalizing w₁ w₂ with
  | nil => exact h
  | cons i inputs ih =>
    obtain ⟨⟨hi, hturn⟩, hrest⟩ := hinputs
    exact ih (tied_step h hw hi hturn) (hw.next i hturn) hrest

/-- For any two states of runs whose inputs are in turn that hold the same token registry and no
transaction, and every session that is in turn: the two apps do the same. -/
theorem sameSession (h₁ : Reachable Booted (step sdk) InTurn w₁)
    (h₂ : Reachable Booted (step (sdk.withPast past)) InTurn w₂)
    (hregistry : w₁.tokenSymbols = w₂.tokenSymbols) (hnone₁ : w₁.ctx.state = .none)
    (hnone₂ : w₂.ctx.state = .none) {inputs : List Input}
    (hinputs : Follows (step sdk) (fun w i => InSession w₁.trace w i ∧ InTurn w i) w₁ inputs) :
    SameSession sdk (sdk.withPast past) w₁ w₂ inputs := by
  have hlistening₁ := listening_of_reachable (fun _ _ h => h.2) h₁
  have hlistening₂ := listening_of_reachable (fun _ _ h => h.2) h₂
  exact (tied_run (tied_of_listening hlistening₁ hlistening₂ hregistry hnone₁ hnone₂) h₁
    hinputs).trace

/-- Other contents behind the array. -/
def samplePast (_ : ℕ) : TxOutput := { value := 1 }

/-- An app that has handed out an extended key, which is still in the context. -/
def sampleHandedOut : List Input := sampleXpub ++ [.press .approve]

theorem sameSession_sampleHandedOut :
    SameSession Sdk.sample (Sdk.sample.withPast samplePast) sampleBoot
      (run (Sdk.sample.withPast samplePast) sampleBoot sampleHandedOut)
      (sampleApproved ++ [sampleSign]) := by
  have hfollows : Follows (step (Sdk.sample.withPast samplePast)) InTurn sampleBoot
      sampleHandedOut := by decide +kernel
  exact sameSession (.start booted_sampleBoot) ((Reachable.start booted_sampleBoot).follow hfollows)
    (by decide +kernel) (by decide +kernel) (by decide +kernel) (by decide +kernel)

/-- A command arrives while the app asks for the extended key, and the user rejects it after the
answer. -/
def sampleUnasked : World :=
  run Sdk.sample sampleBoot (sampleXpub ++ [.command Ins.getVersion 0 0 [], .press .reject])

/-- No screen is open and there is no transaction, but an old answer waits in the buffer: the next
session sends two bytes of its own command before the user is asked. -/
theorem not_sameSession_sampleUnasked :
    sampleUnasked.tokenSymbols = sampleBoot.tokenSymbols ∧ sampleUnasked.secret = sampleBoot.secret ∧
      sampleUnasked.ctx.state = .none ∧ sampleUnasked.ui.flow = .menuMain ∧
      Follows (step Sdk.sample) (InSession sampleBoot.trace) sampleBoot sampleShown ∧
      ¬SameSession Sdk.sample Sdk.sample sampleBoot sampleUnasked sampleShown := by
  refine ⟨by decide +kernel, by decide +kernel, by decide +kernel, by decide +kernel,
    by decide +kernel, ?_⟩
  rintro ⟨new, hboot, hstale⟩
  have hnone : (responses (run Sdk.sample sampleBoot sampleShown).trace).length =
      (responses sampleBoot.trace).length := by decide +kernel
  have hone : (responses (run Sdk.sample sampleUnasked sampleShown).trace).length =
      (responses sampleUnasked.trace).length + 1 := by decide +kernel
  rw [hboot, responses_append, List.length_append] at hnone
  rw [hstale, responses_append, List.length_append] at hone
  omega

end HathorLedger
