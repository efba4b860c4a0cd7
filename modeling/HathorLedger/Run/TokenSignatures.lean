import HathorLedger.Run.Registry
import HathorLedger.Run.Sequential
import HathorLedger.Token.Payload

/-!
# Token signatures verify

The token in the context is still the one of the command when the user approves its screen, and the
secret stays until a reset is approved. So the signature that the device has sent is the one that it
accepts for the data of the token, and the only one.

## Main definitions

* `Sdk.NeverZero`: the random generator never returns the secret of zeros.
* `Answers`: a command is answered with a status word.
* `SignatureVerifies`, `SignsToken`: a signature is the only one that is accepted.

## Main results

* `signsToken_of_reachable`: approved token signatures verify.
-/

namespace HathorLedger

variable (sdk : Sdk)

/-- The random generator never returns the secret of zeros. -/
def Sdk.NeverZero : Prop := ∀ n, ((sdk.rng n).take secretLen).any (· != 0) = true

/-- The response to the command is the status word. -/
def Answers (w : World) (apdu : Bytes) (sw : ℕ) : Prop :=
  responses (step sdk w (.apdu apdu)).trace = beBytes 2 sw :: responses w.trace

/-- Behind the data of the token the signature is accepted, and no other one. `SEND_TOKEN_DATA`
erases a full registry instead, unless it starts a new one. -/
structure SignatureVerifies (token : Token) (signature : Bytes) (w : World) : Prop where
  verify : ∀ apdu other, callOf apdu = some (.verifyTokenSignature (token.bytes ++ other)) →
    other.length = 32 →
    Answers sdk w apdu (if other = signature then Sw.ok else Sw.invalidSignature)
  send : ∀ apdu first other, callOf apdu = some (.sendTokenData first (token.bytes ++ other)) →
    other.length = 32 → first = true ∨ w.tokenSymbols.len < txMaxTokens →
    Answers sdk w apdu (if other = signature then Sw.ok else Sw.invalidSignature)

/-- The approval of the open screen is answered with a signature of 32 bytes for the token at the
front of the data, which verifies in all later states before the next reset. -/
def SignsToken (data : Bytes) (w : World) : Prop :=
  ∃ trailing signature, data = (requestedToken data).bytes ++ trailing ∧ signature.length = 32 ∧
    responses (step sdk w (.press .approve)).trace =
      (signature ++ beBytes 2 Sw.ok) :: responses w.trace ∧
    ∀ w', Reachable (· = step sdk w (.press .approve)) (step sdk)
        (fun w i => Sequential w i ∧ ¬ApprovesReset w i) w' →
      w'.io.state ≠ .waiting → SignatureVerifies sdk (requestedToken data) signature w'

variable {sdk} {g g' : Globals} {w w' : World} {i : Input} {data : Bytes}

/-! ### The secret -/

theorem any_memmove {old new : Bytes} (h : new.any (· != 0) = true) :
    (memmove old 0 new).any (· != 0) = true := by
  rw [memmove_zero, List.any_append, h, Bool.true_or]

/-- After an access the stored secret is not zero. -/
theorem any_readSecret (hrng : sdk.NeverZero) (g : Globals) :
    (g.readSecret sdk).secret.any (· != 0) = true := by
  unfold Globals.readSecret
  split_ifs with hsome
  · exact hsome
  · exact any_memmove (hrng g.draws)

theorem readSecret_eq_self (h : g.secret.any (· != 0) = true) : g.readSecret sdk = g := if_pos h

theorem SecretRead.eq_of_any {s s' : Bytes} (h : SecretRead sdk s s')
    (hs : s.any (· != 0) = true) : s' = s :=
  h.resolve_right fun hzero => Bool.noConfusion (hs.symm.trans hzero.1)

theorem secret_of_tokenStep (hsecret : w.secret.any (· != 0) = true) (hi : ¬ApprovesReset w i)
    (h : TokenStep sdk w.globals i g') : g'.secret = w.secret := by
  cases h with
  | steady h => exact h.secret.eq_of_any hsecret
  | erased _ h | stored _ _ _ _ _ _ _ _ _ h => exact h.eq_of_any hsecret
  | overfilled _ _ _ _ h | decoded _ _ _ h => exact h
  | reset hpress hflow => exact absurd ⟨hpress, hflow⟩ hi

/-- A secret that is not zero stays until a reset is approved. -/
theorem secret_of_reachable (hw : Reachable Booted (step sdk) (fun _ _ => True) w)
    (hsecret : w.secret.any (· != 0) = true)
    (hw' : Reachable (· = w) (step sdk) (fun w i => ¬ApprovesReset w i) w') :
    w'.secret = w.secret := by
  refine hw'.invariant (I := fun v => v.secret = w.secret) ?_ fun v i hv hi hsame => ?_
  · rintro _ rfl
    rfl
  · have hreach := hw.trans (hv.mono fun _ _ _ _ => trivial)
    have hstep := @globalsStep sdk v (sound_of_reachable hreach).ready i
    exact (secret_of_tokenStep (hsame ▸ hsecret) hi (tokenStep_of_globalsStep hstep)).trans hsame

/-- A secret that is not zero is never replaced by zeros. -/
theorem any_of_tokenStep (hrng : sdk.NeverZero) (hsecret : w.secret.any (· != 0) = true)
    (h : TokenStep sdk w.globals i g') : g'.secret.any (· != 0) = true := by
  cases h with
  | steady h =>
    rw [h.secret.eq_of_any hsecret]
    exact hsecret
  | erased _ h | stored _ _ _ _ _ _ _ _ _ h =>
    rw [h.eq_of_any hsecret]
    exact hsecret
  | overfilled _ _ _ _ h | decoded _ _ _ h =>
    rw [h]
    exact hsecret
  | reset _ _ _ _ h =>
    obtain ⟨old, n, hdrawn⟩ := h
    rw [hdrawn]
    exact any_memmove (hrng n)

theorem any_of_reachable (hrng : sdk.NeverZero) {guard : World → Input → Prop}
    (hw : Reachable Booted (step sdk) (fun _ _ => True) w) (hsecret : w.secret.any (· != 0) = true)
    (hw' : Reachable (· = w) (step sdk) guard w') : w'.secret.any (· != 0) = true := by
  refine hw'.invariant (I := fun v => v.secret.any (· != 0) = true) ?_ fun v i hv _ hany => ?_
  · rintro _ rfl
    exact hsecret
  · have hreach := hw.trans (hv.mono fun _ _ _ _ => trivial)
    have hstep := @globalsStep sdk v (sound_of_reachable hreach).ready i
    exact any_of_tokenStep hrng hany (tokenStep_of_globalsStep hstep)

/-! ### Checking a signature -/

theorem signedToken_bytes {token : Token} {signature : Bytes} (ht : token.Parsed)
    (hlen : signature.length = 32) : signedToken (token.bytes ++ signature) = some (token, signature) := by
  have hsymbol := ht.symbolLen_le
  have hname := ht.nameLen_le
  rw [maxTokenSymbolLen] at hsymbol
  rw [maxTokenNameLen] at hname
  have hwf : (Buffer.ofBytes (token.bytes ++ signature)).Wf := by
    refine Buffer.wf_ofBytes ?_
    have hbytes : token.bytes.length ≤ 1 + 32 + 1 + token.symbolLen + 1 + token.nameLen := by
      have hs := List.length_take_le token.symbolLen token.symbol
      have hn := List.length_take_le token.nameLen token.name
      have hu := ht.length_uid
      rw [tokenUidLen] at hu
      simp only [Token.bytes, Token.symbolBytes, Token.nameBytes, List.length_append,
        List.length_cons]
      omega
    rw [List.length_append, hlen, sizeMod]
    omega
  obtain ⟨rest, hparse, hrest, hwf'⟩ := parseToken_bytes ht hwf (Buffer.rest_ofBytes _)
  have hread : rest.readBytes (List.replicate 32 0) 32 32 =
      (true, signature, rest.advance 32) := by
    rw [hwf'.readBytes_eq (by rw [hrest, hlen]) le_rfl, hrest, List.take_of_length_le hlen.le,
      memmove_of_length (by rw [hlen, List.length_replicate])]
  simp only [signedToken, hparse, hread, Bool.and_self, if_true]

theorem verifyTokenSignature_iff {secret other : Bytes} {token : Token} (hlen : other.length = 32) :
    verifyTokenSignature sdk secret token other = true ↔ other = signToken sdk secret token := by
  have hdigest : (signToken sdk secret token).length = 32 := sdk.length_sha256 _
  rw [verifyTokenSignature, beq_iff_eq, List.take_of_length_le hlen.le,
    List.take_of_length_le hdigest.le]

/-- A status word that is sent while no screen is open is the response. -/
theorem responses_status {sw : ℕ} (h : g.io.state = .received) :
    responses ((g.reply none sw).resume (decide (g.io.state = .ready))).log =
      beBytes 2 sw :: responses g.log := by
  rw [responses_resume_reply, if_neg (by rw [h]; nofun)]
  rfl

/-- What `SEND_TOKEN_DATA` answers if there is room in the registry. -/
theorem responses_registryStep {token : Token} {other : Bytes} (ht : token.Parsed)
    (hlen : other.length = 32) (hsecret : g.secret.any (· != 0) = true)
    (hroom : g.tokenSymbols.len < txMaxTokens) (hio : g.io.state = .received)
    (h : RegistryStep sdk (token.bytes ++ other) g g') :
    responses (g'.resume (decide (g.io.state = .ready))).log =
      beBytes 2 (if other = signToken sdk g.secret token then Sw.ok else Sw.invalidSignature) ::
        responses g.log := by
  have hsigned := signedToken_bytes ht hlen
  have hread := @readSecret_eq_self sdk _ hsecret
  cases h with
  | full hfull => exact absurd hfull (not_le.2 hroom)
  | malformed _ hdata =>
    rw [hsigned] at hdata
    cases hdata
  | invalid _ token' signature hdata hinvalid =>
    obtain ⟨rfl, rfl⟩ := Prod.mk.inj (Option.some.inj (hsigned.symm.trans hdata))
    rw [hread] at hinvalid ⊢
    have hne : ¬other = signToken sdk g.secret token := fun heq => by
      rw [(verifyTokenSignature_iff hlen).2 heq] at hinvalid
      cases hinvalid
    rw [if_neg hne]
    exact responses_status hio
  | stored _ token' signature hdata haccepted hvalid =>
    obtain ⟨rfl, rfl⟩ := Prod.mk.inj (Option.some.inj (hsigned.symm.trans hdata))
    rw [hread] at hvalid ⊢
    rw [if_pos ((verifyTokenSignature_iff hlen).1 hvalid)]
    exact responses_status (g := { g with
      tokenSymbols := g.tokenSymbols.store token
      log := .tokenAccepted g.secret token other :: g.log }) hio

/-- In sequential runs the signature under the stored secret is accepted, and no other one. -/
theorem signatureVerifies_of_secret (hs : Sound sdk w.globals) (ha : Attended w.globals)
    (hsecret : w.secret.any (· != 0) = true) {token : Token} (ht : token.Parsed) :
    SignatureVerifies sdk token (signToken sdk w.secret token) w := by
  refine ⟨fun apdu other hcall hlen => ?_, fun apdu first other hcall hlen hroom => ?_⟩
  all_goals
    have hstep := @globalsStep sdk w hs.ready (.apdu apdu)
    have hio := ha.listening.received apdu
    rw [Answers, ← World.responses_log, ← World.responses_log]
    change responses (step sdk w (.apdu apdu)).globals.log = _
    generalize (step sdk w (.apdu apdu)).globals = g' at hstep
    obtain ⟨_, ends, g', h⟩ := hstep
    have hhandled := h.handled_of_callOf hcall
  · cases hhandled with
    | verifyTokenSignature =>
      have hread : (w.globals.receive apdu).wipe.readSecret sdk = (w.globals.receive apdu).wipe :=
        readSecret_eq_self hsecret
      have hverify : (w.globals.receive apdu).wipe.verify sdk (token.bytes ++ other) =
          (w.globals.receive apdu).wipe.reply none
            (if other = signToken sdk w.secret token then Sw.ok else Sw.invalidSignature) := by
        simp only [Globals.verify, signedToken_bytes ht hlen, hread, verifyTokenSignature_iff hlen]
        rfl
      rw [hverify]
      exact responses_status (g := (w.globals.receive apdu).wipe) hio
  · cases hhandled with
    | sendFirst _ _ h =>
      exact responses_registryStep
        (g := { (w.globals.receive apdu).wipe with tokenSymbols := {} }) ht hlen hsecret
        (Nat.zero_lt_succ 9) hio h
    | sendNext _ _ h =>
      exact responses_registryStep (g := w.globals.receive apdu) ht hlen hsecret
        (hroom.resolve_left nofun) hio h

/-! ### Signing -/

/-- While the screen of a token is open, the context holds the token of the command. -/
def HoldsToken (data : Bytes) (g : Globals) : Prop :=
  g.ui.flow = .signTokenData → TokenRequest data ∧ g.ctx.token = requestedToken data

theorem holdsToken_of_command (ha : Attended w.globals) {apdu : Bytes}
    (hsequential : Sequential w (.apdu apdu)) (hcall : callOf apdu = some (.signTokenData data))
    {ends : Bool} (h : CommandStep sdk w.globals apdu ends g') :
    HoldsToken data (g'.resume ends) := by
  have hclosed : (w.globals.receive apdu).ui.flow.hasApprove = false :=
    ha.closed (hsequential apdu rfl)
  have hresume : HoldsToken data g' → HoldsToken data (g'.resume ends) := by
    intro hholds
    cases ends with
    | true => exact nofun
    | false =>
      change HoldsToken data g'.mainLoop
      unfold Globals.mainLoop
      split
      · exact hholds
      · exact hholds
      · exact nofun
  refine hresume ?_
  cases h.handled_of_callOf hcall with
  | signTokenData _ _ _ h =>
    cases h with
    | rejected g₁ sw h hidle hui =>
      intro hflow
      have hopen : g₁.ui.flow = .signTokenData := hflow
      rw [hui] at hopen
      rw [hopen] at hclosed
      cases hclosed
    | opened _ haccepted hidle hopened hP => exact fun _ => ⟨haccepted, hP.2⟩

theorem HoldsToken.press {button : Button} (hholds : HoldsToken data g)
    (h : PressStep sdk g button g') : HoldsToken data g' := by
  cases h with
  | inactive => exact hholds
  | approveOutput hflow n d c _ hdisplayed =>
    cases hdisplayed with
    | asked h => cases h <;> exact nofun
    | output => exact nofun
  | _ => exact nofun

/-- When the screen is approved, the response is the signature under the secret that is stored
then. -/
theorem responses_approveToken (ha : Attended w.globals) (hflow : w.ui.flow = .signTokenData)
    (h : PressStep sdk w.globals .approve g') :
    g'.secret = (w.globals.readSecret sdk).secret ∧ responses g'.log =
      (signToken sdk g'.secret w.ctx.token ++ beBytes 2 Sw.ok) :: responses w.globals.log := by
  have hopen : w.globals.ui.flow = .signTokenData := hflow
  have hio : w.globals.io.state = .waiting := ha.hasApprove_iff.1 (by rw [hopen]; rfl)
  cases h with
  | approveToken _ secret hsecret =>
    have hstored : (w.globals.readSecret sdk).secret =
        ((w.globals.press .approve).readSecret sdk).secret := by
      unfold Globals.readSecret
      change _ = (if w.globals.secret.any (· != 0) then w.globals.press .approve else _).secret
      split_ifs <;> rfl
    subst hsecret
    refine ⟨hstored.symm, ?_⟩
    have hsent : (Globals.readSecret sdk (w.globals.press .approve)).io.state = .waiting := by
      rw [Globals.io_readSecret]
      exact hio
    have hdigest : ¬(signToken sdk ((w.globals.press .approve).readSecret sdk).secret
        w.globals.ctx.token).length > ioApduBufferSize - 2 := by
      rw [signToken, sdk.length_sha256]
      decide
    rw [Globals.log_openFlow _ rfl, responses_reply, if_pos hsent, responseBody, Option.getD_some,
      if_neg hdigest]
    rfl
  | inactive _ h =>
    rw [hopen] at h
    cases h
  | approveTx h | approveOutput h | approveXpub h | approveAddress h | approveReset h =>
    exact absurd (hopen.symm.trans h) (by rintro ⟨⟩)

/-- In sequential runs approved token signatures verify until the next reset, and no other signatures
do. -/
theorem signsToken_of_reachable (hrng : sdk.NeverZero)
    (hw : Reachable Booted (step sdk) Sequential w) {apdu : Bytes}
    (hsequential : Sequential w (.apdu apdu)) (hcall : callOf apdu = some (.signTokenData data))
    (hw' : Reachable (· = step sdk w (.apdu apdu)) (step sdk) Answering w')
    (hflow : w'.ui.flow = .signTokenData) : SignsToken sdk data w' := by
  have hsent := Reachable.next (.apdu apdu) hw hsequential
  have hreach : ∀ {v}, Reachable (· = step sdk w (.apdu apdu)) (step sdk) Answering v →
      Reachable Booted (step sdk) Sequential v := fun hv =>
    hsent.trans (hv.mono fun v i _ hi => by
      obtain ⟨-, button, rfl⟩ := hi
      rintro _ ⟨⟩)
  have hattended : ∀ {v}, Reachable Booted (step sdk) Sequential v → Attended v.globals :=
    fun hv => attended_of_reachable (fun _ _ h => h) hv
  have hholds : HoldsToken data w'.globals := by
    refine hw'.invariant (I := fun v => HoldsToken data v.globals) ?_ ?_
    · rintro _ rfl
      have hstep := @globalsStep sdk w (sound_of_reachable hw).ready (.apdu apdu)
      generalize (step sdk w (.apdu apdu)).globals = g' at hstep
      cases hstep with
      | command _ ends g' h => exact holdsToken_of_command (hattended hw) hsequential hcall h
    · rintro v i hv ⟨-, button, rfl⟩ hholds
      have hstep := @globalsStep sdk v (sound_of_reachable (hreach hv)).ready (.press button)
      generalize (step sdk v (.press button)).globals = g' at hstep
      cases hstep with
      | press _ g' h => exact hholds.press h
  obtain ⟨haccepted, htoken⟩ := hholds hflow
  have happroved := Reachable.next (.press .approve) (hreach hw') (show Sequential w' _ by rintro _ ⟨⟩)
  obtain ⟨hsecret, hresponse⟩ := responses_approveToken (hattended (hreach hw')) hflow
    (pressStep_approve (sound_of_reachable (hreach hw')).ready)
  have hparse : parseToken (.ofBytes data) {} =
      (true, requestedToken data, (parseToken (.ofBytes data) {}).2.2) := by
    rw [TokenRequest] at haccepted
    rw [requestedToken, ← haccepted]
  have hwf : (Buffer.ofBytes data).Wf :=
    Buffer.wf_ofBytes ((Call.length_payload hcall).trans_lt (by decide))
  obtain ⟨hparsed, hdata, -⟩ := bytes_of_parseToken hwf hparse
  rw [Buffer.rest_ofBytes] at hdata
  refine ⟨_, signToken sdk (step sdk w' (.press .approve)).secret (requestedToken data), hdata,
    sdk.length_sha256 _, ?_, fun v hv hio => ?_⟩
  · rw [← World.responses_log, ← World.responses_log, ← htoken]
    exact hresponse
  · have hv' := happroved.trans (hv.mono fun _ _ _ h => h.1)
    have hany : (step sdk w' (.press .approve)).secret.any (· != 0) = true := by
      have := any_readSecret hrng w'.globals
      rw [← hsecret] at this
      exact this
    have hsame := secret_of_reachable (happroved.mono fun _ _ _ _ => trivial) hany
      (hv.mono fun _ _ _ h => h.2)
    rw [← hsame]
    exact signatureVerifies_of_secret (sound_of_reachable hv') (hattended hv') (hsame ▸ hany) hparsed

/-- The sample platform with a random generator that repeats itself. -/
def sampleRandom : Sdk := { Sdk.sample with rng := fun _ => List.replicate secretLen 5 }

/-- The app after its first start, before there is a secret. -/
def sampleFresh : World := World.boot (List.replicate secretLen 0)

/-- A token is signed, with a byte behind its data. -/
def sampleTokenRequest : Input :=
  .command Ins.signTokenData 0 0 (sampleTokenData [0x41] [0x42] ++ [1])

theorem signsToken_sampleTokenRequest :
    SignsToken sampleRandom (sampleTokenData [0x41] [0x42] ++ [1])
      (step sampleRandom sampleFresh sampleTokenRequest) :=
  signsToken_of_reachable (fun _ => rfl)
    (.start ⟨_, List.length_replicate, rfl⟩)
    (show Sequential sampleFresh sampleTokenRequest by decide +kernel) (by decide +kernel)
    (.start rfl) (by decide +kernel)

end HathorLedger
