import HathorLedger.Run.Confirming

/-!
# What the requests on their own screens answer

`GET_XPUB` fills the context with the public key and the chain code of the path and with the
fingerprint of its parent, and these are what the answer carries when the user approves. Approving
the screen of `GET_ADDRESS` answers nothing but `SW_OK`, after the user has seen the address of the
path, and approving that of `SIGN_TOKEN_DATA` answers the signature of the token that is shown.

## Main definitions

* `Sdk.Sized`: the sizes of the keys and hashes of the platform.
* `xpubOf`: the key that `GET_XPUB` answers for a path.

## Main results

* `Serves.xpub`, `Serves.address`, `Serves.token`, `Serves.reset`: the exchanges with the answer
  `SW_OK`.
* `exists_serves_xpub`, `exists_serves_token`: these answers can be had.
-/

namespace HathorLedger

variable (sdk : Sdk)

/-- The sizes of public keys, chain codes and RIPEMD-160 digests. -/
structure Sdk.Sized : Prop where
  publicKey : ∀ key publicKey, sdk.initPublicKey key = some publicKey →
    publicKey.length = rawPubkeyLen
  chainCode : ∀ path key chainCode, sdk.derivePrivateKey path = some (key, chainCode) →
    chainCode.length = chaincodeLen
  ripemd160 : ∀ m, (sdk.ripemd160 m).length = pubkeyHashLen

/-- The public key and the chain code of a path, and the fingerprint of its parent. -/
def xpubOf (path : Bip32Path) : Option PkInfo := do
  let (publicKey, chainCode) ← deriveKey sdk path
  let fingerprint ← parentFingerprint sdk path
  return ⟨publicKey, chainCode, fingerprint⟩

variable {sdk} {data apdu : Bytes} {w w' : World} {path : Bip32Path}

/-! ### Public keys -/

section Xpub

theorem Sdk.Sized.of_deriveKey (hsdk : sdk.Sized) {publicKey chainCode : Bytes}
    (h : deriveKey sdk path = some (publicKey, chainCode)) :
    publicKey.length = rawPubkeyLen ∧ chainCode.length = chaincodeLen := by
  simp only [deriveKey, Option.bind_eq_bind, Option.bind_eq_some_iff, Option.pure_def,
    Option.some.injEq, Prod.mk.injEq] at h
  obtain ⟨⟨privateKey, chainCode⟩, hprivate, publicKey, hpublic, rfl, rfl⟩ := h
  exact ⟨hsdk.publicKey _ _ hpublic, hsdk.chainCode _ _ _ hprivate⟩

theorem Sdk.Sized.of_parentFingerprint (hsdk : sdk.Sized) {fingerprint : Bytes}
    (h : parentFingerprint sdk path = some fingerprint) : fingerprint.length = fingerprintLen := by
  simp only [parentFingerprint, Option.bind_eq_bind, Option.bind_eq_some_iff, Option.pure_def,
    Option.some.injEq] at h
  obtain ⟨_, -, rfl⟩ := h
  rw [List.length_take, hash160, hsdk.ripemd160]
  rfl

theorem xpubDerivable_iff (hsdk : sdk.Sized) :
    XpubDerivable sdk path ↔ ∃ info, xpubOf sdk path = some info := by
  simp only [xpubOf, Option.bind_eq_bind, Option.bind_eq_some_iff, Option.pure_def,
    Option.some.injEq]
  constructor
  · rintro ⟨⟨publicKey, chainCode, hkey, -⟩, fingerprint, hparent⟩
    exact ⟨_, (publicKey, chainCode), hkey, fingerprint, hparent, rfl⟩
  · rintro ⟨_, ⟨publicKey, chainCode⟩, hkey, fingerprint, hparent, rfl⟩
    exact ⟨⟨publicKey, chainCode, hkey, (hsdk.of_deriveKey hkey).1.le⟩, fingerprint, hparent⟩

theorem Sdk.Sized.of_xpubOf (hsdk : sdk.Sized) {info : PkInfo} (h : xpubOf sdk path = some info) :
    info.rawPublicKey.length = rawPubkeyLen ∧ info.chainCode.length = chaincodeLen ∧
      info.fingerprint.length = fingerprintLen := by
  simp only [xpubOf, Option.bind_eq_bind, Option.bind_eq_some_iff, Option.pure_def,
    Option.some.injEq] at h
  obtain ⟨⟨publicKey, chainCode⟩, hkey, fingerprint, hparent, rfl⟩ := h
  obtain ⟨hpublic, hchain⟩ := hsdk.of_deriveKey hkey
  exact ⟨hpublic, hchain, hsdk.of_parentFingerprint hparent⟩

/-- What is stored in the union one after the other is read back. -/
theorem pkInfo_writePkInfo {c : GlobalCtx} (hbuffer : c.txInfo.buffer.length = bufferCells)
    {info : PkInfo} (hkey : info.rawPublicKey.length = rawPubkeyLen)
    (hchain : info.chainCode.length = chaincodeLen)
    (hfingerprint : info.fingerprint.length = fingerprintLen) :
    (((c.writePkInfo 0 info.rawPublicKey).writePkInfo rawPubkeyLen info.chainCode).writePkInfo
      (rawPubkeyLen + chaincodeLen) info.fingerprint).pkInfo = info := by
  have hoffset : pkInfoOffset ≤ c.txInfo.buffer.length := by
    rw [hbuffer]
    decide
  have hfirst : pkInfoOffset + rawPubkeyLen = pkInfoOffset + info.rawPublicKey.length := by rw [hkey]
  have hsecond : pkInfoOffset + (rawPubkeyLen + chaincodeLen) =
      pkInfoOffset + (info.rawPublicKey ++ info.chainCode).length := by
    rw [List.length_append, hkey, hchain]
  have hwritten : memmove (memmove (memmove c.txInfo.buffer (pkInfoOffset + 0) info.rawPublicKey)
      (pkInfoOffset + rawPubkeyLen) info.chainCode) (pkInfoOffset + (rawPubkeyLen + chaincodeLen))
      info.fingerprint = memmove c.txInfo.buffer pkInfoOffset
        (info.rawPublicKey ++ info.chainCode ++ info.fingerprint) := by
    rw [hfirst, Nat.add_zero, memmove_memmove hoffset, hsecond, memmove_memmove hoffset]
  have hread := @drop_memmove _ c.txInfo.buffer
    (info.rawPublicKey ++ info.chainCode ++ info.fingerprint) _ hoffset
  generalize c.txInfo.buffer.drop _ = behind at hread
  obtain ⟨key, chain, fingerprint⟩ := info
  simp only [GlobalCtx.writePkInfo, GlobalCtx.pkInfo, hwritten, PkInfo.mk.injEq]
  rw [← List.drop_drop, ← List.drop_drop, ← List.drop_drop, hread, ← hkey, ← hchain, ← hfingerprint]
  simp

/-- `derive_xpub` stores the key, or throws. -/
theorem wp_deriveXpub_pkInfo (hsdk : sdk.Sized) (hbuffer : w.ctx.txInfo.buffer.length = bufferCells) :
    (deriveXpub sdk).wp (fun _ w' => xpubOf sdk w.ctx.bip32Path = some w'.ctx.pkInfo)
      (fun sw _ => sw = Sw.internalError) w := by
  simp only [deriveXpub, EStateM.wp_bind, EStateM.wp_modify, EStateM.wp_get, World.ctx_emit]
  cases hkey : deriveKey sdk w.ctx.bip32Path with
  | none => exact (EStateM.wp_throw _).2 rfl
  | some key =>
    obtain ⟨publicKey, chainCode⟩ := key
    obtain ⟨hpublic, hchain⟩ := hsdk.of_deriveKey hkey
    simp only [hpublic, lt_irrefl, if_false]
    cases hparent : parentFingerprint sdk w.ctx.bip32Path with
    | none => simp only [EStateM.wp_bind, EStateM.wp_set, EStateM.wp_throw]
    | some fingerprint =>
      refine (EStateM.wp_set _).2 ?_
      have hread := @pkInfo_writePkInfo _ hbuffer ⟨publicKey, chainCode, fingerprint⟩ hpublic hchain
        (hsdk.of_parentFingerprint hparent)
      rw [xpubOf, hkey, hparent, List.take_of_length_le hchain.le]
      exact congrArg some hread.symm

/-- What holds of the context when the screen of `GET_XPUB` is opened. -/
def XpubAsked (sdk : Sdk) (data : Bytes) (ctx : GlobalCtx) (_ : Ui) : Prop :=
  ∃ path, requestedPath data = some path ∧ xpubOf sdk path = some ctx.pkInfo

theorem wp_handlerGetXpub_pkInfo (hsdk : sdk.Sized) :
    (handlerGetXpub sdk (.ofBytes data)).wp
      (fun _ => AsksOrRefuses (XpubRequest sdk data) (XpubAsked sdk data))
      (fun sw _ => ¬XpubRequest sdk data ∧ sw ∈ Sw.errors) w := by
  obtain ⟨accepted, path, rest, hread⟩ :
      ∃ accepted path rest, (Buffer.ofBytes data).readBip32Path {} = (accepted, path, rest) :=
    ⟨_, _, _, rfl⟩
  have hpath := requestedPath_eq hread
  simp only [handlerGetXpub, EStateM.wp_bind, EStateM.wp_modify, EStateM.wp_get,
    EStateM.wp_set, EStateM.wp_ite, EStateM.wp_modifyGet, ctx_explicitBzeroContext, hread]
  cases accepted with
  | false =>
    simp only [Bool.not_false, if_true]
    refine .inr ⟨?_, _, by decide, _, rfl⟩
    rintro ⟨path, hsome, -⟩
    simp [hpath] at hsome
  | true =>
    simp only [Bool.not_true, Bool.false_eq_true, if_false]
    refine EStateM.wp_mono ?_ ?_ (EStateM.wp_and wp_deriveXpub
      (wp_deriveXpub_pkInfo hsdk List.length_replicate))
    · rintro _ w' ⟨⟨hderivable, w₁, ⟨buffer, events, hw₁, -⟩, rfl⟩, hinfo⟩
      have hshown : uiDisplayXpubConfirm (w₁.emit (.xpubDerived path.components w₁.ctx.pkInfo)) =
          (0, showWithCallback .confirmXpub .xpub
            (w₁.emit (.xpubDerived path.components w₁.ctx.pkInfo))) := by
        refine if_neg ?_
        rw [hw₁]
        simp
      rw [hshown]
      exact .inl ⟨⟨path, hpath, hderivable⟩, path, hpath, hinfo⟩
    · rintro sw w' ⟨⟨hderivable, -⟩, rfl⟩
      refine ⟨?_, by decide⟩
      rintro ⟨path', hsome, hderivable'⟩
      obtain rfl := Option.some.inj (hpath.symm.trans hsome)
      exact hderivable hderivable'

theorem requested_of_getXpub {g : Globals} :
    ∀ ends g', Handled sdk g (.getXpub data) ends g' →
      Requested .xpub (requestedPaths data) (XpubRequest sdk data) XpubHeld g ends g' := by
  rintro _ _ ⟨⟩
  assumption

/-- `GET_XPUB` answers `SW_OK` only with the key of the path that it was asked for, after the user
has approved. -/
theorem Serves.xpub (hsdk : sdk.Sized) (hw : Reachable Booted (step sdk) Sequential w)
    (hidle : w.io.state ≠ .waiting) (hcall : callOf apdu = some (.getXpub data)) {response : Bytes}
    (h : Serves sdk w apdu (Sw.ok, response) w') :
    ∃ path info, requestedPath data = some path ∧ xpubOf sdk path = some info ∧
      response = info.bytes ∧ w'.secret = w.secret ∧ PressedSince .approve .xpub w.log w'.log := by
  obtain ⟨-, hasks, hresponse, hsecret, hpressed⟩ :=
    h.asks hw hidle hcall rfl requested_of_getXpub (wp_handlerGetXpub_pkInfo hsdk)
  obtain ⟨path, hpath, hinfo⟩ := hasks.holds
  refine ⟨path, _, hpath, hinfo, ?_, ?_, ?_⟩
  · rw [hresponse, approval, hasks.flow_eq]
  · rw [hsecret, approvedSecret, hasks.flow_eq]
    exact hasks.secret_eq
  · rwa [show (step sdk w (.apdu apdu)).ui.shown = .xpub by
      rw [Ui.shown, show (step sdk w (.apdu apdu)).ui.flow = .xpub from hasks.flow_eq]] at hpressed

/-- The key of a path that can be derived is answered when the user approves. -/
theorem exists_serves_xpub (hsdk : sdk.Sized) (hw : Reachable Booted (step sdk) Sequential w)
    (hidle : w.io.state ≠ .waiting) (hcall : callOf apdu = some (.getXpub data)) {info : PkInfo}
    (hpath : requestedPath data = some path) (hinfo : xpubOf sdk path = some info) :
    ∃ w', Serves sdk w apdu (Sw.ok, info.bytes) w' := by
  obtain ⟨hasks, w', hserves⟩ := exists_serves_of_accepted hw hidle hcall rfl requested_of_getXpub
    (wp_handlerGetXpub_pkInfo hsdk) ⟨path, hpath, (xpubDerivable_iff hsdk).2 ⟨info, hinfo⟩⟩
  refine ⟨w', ?_⟩
  obtain ⟨path', hpath', hinfo'⟩ := hasks.holds
  obtain rfl := Option.some.inj (hpath.symm.trans hpath')
  obtain rfl := Option.some.inj (hinfo.symm.trans hinfo')
  rwa [approval, hasks.flow_eq] at hserves

end Xpub

/-! ### Addresses -/

section Address

/-- What holds of the screen when that of `GET_ADDRESS` is opened. -/
def AddressAsked (sdk : Sdk) (data : Bytes) (_ : GlobalCtx) (ui : Ui) : Prop :=
  ∃ path address, requestedPath data = some path ∧ confirmedAddress sdk path = some address ∧
    ui.shown = .address (cstr (b58Address address))

/-- `derive_address` throws one error. -/
theorem wp_deriveAddress_sw :
    (deriveAddress sdk).wp (fun _ _ => True) (fun sw _ => sw ∈ Sw.errors) w := by
  have hmem : Sw.internalError ∈ Sw.errors := by decide
  simp only [deriveAddress, EStateM.wp_bind, EStateM.wp_modify, EStateM.wp_get, World.ctx_emit]
  cases deriveKey sdk w.ctx.bip32Path with
  | none => exact (EStateM.wp_throw _).2 hmem
  | some key =>
    dsimp only
    split_ifs
    · exact (EStateM.wp_throw _).2 hmem
    · exact (EStateM.wp_set _).2 trivial

theorem wp_handlerGetAddress_shown :
    (handlerGetAddress sdk (.ofBytes data)).wp
      (fun _ => AsksOrRefuses (AddressRequest sdk data) (AddressAsked sdk data))
      (fun sw _ => ¬AddressRequest sdk data ∧ sw ∈ Sw.errors) w := by
  obtain ⟨accepted, path, rest, hread⟩ :
      ∃ accepted path rest, (Buffer.ofBytes data).readBip32Path {} = (accepted, path, rest) :=
    ⟨_, _, _, rfl⟩
  have hpath := requestedPath_eq hread
  simp only [handlerGetAddress, EStateM.wp_bind, EStateM.wp_modify, EStateM.wp_get,
    EStateM.wp_set, EStateM.wp_ite, EStateM.wp_modifyGet, ctx_explicitBzeroContext, hread]
  cases accepted with
  | false =>
    simp only [Bool.not_false, if_true]
    refine .inr ⟨?_, _, by decide, _, rfl⟩
    rintro ⟨path, hsome, -⟩
    simp [hpath] at hsome
  | true =>
    simp only [Bool.not_true, Bool.false_eq_true, if_false]
    refine EStateM.wp_mono ?_ ?_ (EStateM.wp_and wp_deriveAddress wp_deriveAddress_sw)
    · rintro _ w' ⟨⟨hderivable, buffer, rfl⟩, -⟩
      obtain ⟨address, haddress⟩ := Option.isSome_iff_exists.1 (isSome_confirmedAddress hderivable)
      simp only [uiDisplayConfirmAddress, World.ctx_emit, haddress, showWithCallback, ne_eq,
        not_true_eq_false, or_self, if_false]
      exact .inl ⟨⟨path, hpath, hderivable⟩, path, address, hpath, haddress, rfl⟩
    · rintro sw w' ⟨⟨hderivable, -⟩, hsw⟩
      refine ⟨?_, hsw⟩
      rintro ⟨path', hsome, hderivable'⟩
      obtain rfl := Option.some.inj (hpath.symm.trans hsome)
      exact hderivable hderivable'

theorem requested_of_getAddress {g : Globals} :
    ∀ ends g', Handled sdk g (.getAddress data) ends g' →
      Requested .address (requestedPath data).toList (AddressRequest sdk data) (fun _ => True) g
        ends g' := by
  rintro _ _ ⟨⟩
  assumption

/-- `GET_ADDRESS` answers `SW_OK` only after the user has approved the screen with the address of the
path. -/
theorem Serves.address (hw : Reachable Booted (step sdk) Sequential w)
    (hidle : w.io.state ≠ .waiting) (hcall : callOf apdu = some (.getAddress data))
    {response : Bytes} (h : Serves sdk w apdu (Sw.ok, response) w') :
    ∃ path address, requestedPath data = some path ∧ confirmedAddress sdk path = some address ∧
      response = [] ∧ w'.secret = w.secret ∧
      PressedSince .approve (.address (cstr (b58Address address))) w.log w'.log := by
  obtain ⟨-, hasks, hresponse, hsecret, hpressed⟩ :=
    h.asks hw hidle hcall rfl requested_of_getAddress wp_handlerGetAddress_shown
  obtain ⟨path, address, hpath, haddress, hshown⟩ := hasks.holds
  refine ⟨path, address, hpath, haddress, ?_, ?_, hshown ▸ hpressed⟩
  · rw [hresponse, approval, hasks.flow_eq]
  · rw [hsecret, approvedSecret, hasks.flow_eq]
    exact hasks.secret_eq

end Address

/-! ### Tokens -/

section Tokens

/-- What holds when the screen of `SIGN_TOKEN_DATA` is opened. -/
def TokenAsked (data : Bytes) (ctx : GlobalCtx) (ui : Ui) : Prop :=
  ctx.token = requestedToken data ∧ ui.shown = tokenScreen (requestedToken data)

theorem wp_handlerSignTokenData_shown :
    (handlerSignTokenData (.ofBytes data)).wp
      (fun _ => AsksOrRefuses (TokenRequest data) (TokenAsked data))
      (fun sw _ => ¬TokenRequest data ∧ sw ∈ Sw.errors) w := by
  obtain ⟨accepted, token, rest, hparse⟩ :
      ∃ accepted token rest, parseToken (.ofBytes data) {} = (accepted, token, rest) :=
    ⟨_, _, _, rfl⟩
  have htoken : requestedToken data = token := congrArg (fun r => r.2.1) hparse
  simp only [handlerSignTokenData, EStateM.wp_bind, EStateM.wp_modify, EStateM.wp_get,
    EStateM.wp_set, EStateM.wp_ite, EStateM.wp_modifyGet, ctx_explicitBzeroContext, hparse]
  cases accepted with
  | false =>
    simp only [Bool.not_false, if_true]
    exact .inr ⟨by simp [TokenRequest, hparse], _, by decide, _, rfl⟩
  | true =>
    have ht := accepted_of_parseToken hparse
    have hsymbol := ht.symbolLen_le
    have hname := ht.nameLen_le
    have hfits : ¬(token.symbolLen > maxTokenSymbolLen ∨ token.nameLen > maxTokenNameLen) := by
      omega
    simp only [uiDisplaySignTokenData, showWithCallback, hfits, Bool.not_true, Bool.false_eq_true,
      if_false]
    exact .inl ⟨by simp [TokenRequest, hparse], htoken.symm, htoken ▸ rfl⟩

theorem requested_of_signTokenData {g : Globals} :
    ∀ ends g', Handled sdk g (.signTokenData data) ends g' →
      Requested .signTokenData [] (TokenRequest data)
        (fun g => TokenHeld g ∧ g.ctx.token = requestedToken data) g ends g' := by
  rintro _ _ ⟨⟩
  assumption

/-- `SIGN_TOKEN_DATA` answers `SW_OK` only with the signature of the token that the user has seen and
approved, under the secret that is stored afterwards. -/
theorem Serves.token (hw : Reachable Booted (step sdk) Sequential w)
    (hidle : w.io.state ≠ .waiting) (hcall : callOf apdu = some (.signTokenData data))
    {response : Bytes} (h : Serves sdk w apdu (Sw.ok, response) w') :
    TokenRequest data ∧ response = signToken sdk w'.secret (requestedToken data) ∧
      w'.secret = (w.globals.readSecret sdk).secret ∧
      PressedSince .approve (tokenScreen (requestedToken data)) w.log w'.log := by
  obtain ⟨haccepted, hasks, hresponse, hsecret, hpressed⟩ :=
    h.asks hw hidle hcall rfl requested_of_signTokenData wp_handlerSignTokenData_shown
  obtain ⟨htoken, hshown⟩ := hasks.holds
  rw [approvedSecret, hasks.flow_eq] at hsecret
  have hread := @secret_readSecret_congr sdk _ _ hasks.secret_eq hasks.draws_eq
  refine ⟨haccepted, ?_, hsecret.trans hread, hshown ▸ hpressed⟩
  rw [hresponse, approval, hasks.flow_eq, htoken, hsecret]

/-- The token in the data is signed when the user approves. -/
theorem exists_serves_token (hw : Reachable Booted (step sdk) Sequential w)
    (hidle : w.io.state ≠ .waiting) (hcall : callOf apdu = some (.signTokenData data))
    (haccepted : TokenRequest data) :
    ∃ w', Serves sdk w apdu
      (Sw.ok, signToken sdk (w.globals.readSecret sdk).secret (requestedToken data)) w' := by
  obtain ⟨hasks, w', hserves⟩ := exists_serves_of_accepted hw hidle hcall rfl
    requested_of_signTokenData wp_handlerSignTokenData_shown haccepted
  refine ⟨w', ?_⟩
  obtain ⟨htoken, -⟩ := hasks.holds
  rwa [approval, hasks.flow_eq, htoken, secret_readSecret_congr hasks.secret_eq hasks.draws_eq]
    at hserves

end Tokens

/-! ### Resets -/

section Reset

variable (sdk) in
/-- `RESET_TOKEN_SIGNATURES` opens its screen. -/
theorem asks_resetTokenSignatures (hw : Reachable Booted (step sdk) Sequential w)
    (hcall : callOf apdu = some .resetTokenSignatures) :
    Asks .resetTokenSignatures (fun _ _ => True) w.globals (step sdk w (.apdu apdu)).globals := by
  obtain ⟨ends, g', hhandled, hglobals, hio⟩ := exists_handled sdk hw hcall
  rw [hglobals]
  cases hhandled with
  | resetTokenSignatures =>
    have hloop : ((w.globals.receive apdu).askReset).resume false =
        { (w.globals.receive apdu).askReset with
          io := { (w.globals.receive apdu).io with state := .waiting, asynch := true } } := by
      change (w.globals.receive apdu).askReset.mainLoop = _
      rw [Globals.mainLoop, show (w.globals.receive apdu).askReset.io.state = .received from hio]
      rfl
    rw [hloop]
    exact ⟨rfl, trivial, rfl, rfl⟩

/-- `RESET_TOKEN_SIGNATURES` answers `SW_OK` only after the user has approved, and then a new secret is
stored. -/
theorem Serves.reset (hw : Reachable Booted (step sdk) Sequential w) (hidle : w.io.state ≠ .waiting)
    (hcall : callOf apdu = some .resetTokenSignatures) {response : Bytes}
    (h : Serves sdk w apdu (Sw.ok, response) w') :
    w'.secret = (w.globals.generateSecret sdk).secret ∧
      PressedSince .approve .resetTokenSignatures w.log w'.log := by
  have hasks := asks_resetTokenSignatures sdk hw hcall
  have hflow : (step sdk w (.apdu apdu)).ui.flow = .resetTokenSignatures := hasks.flow_eq
  have hconfirmed := h.confirmed hw hidle (by rw [hflow]; rfl)
  generalize hanswer : (Sw.ok, response) = answer at hconfirmed
  cases hconfirmed with
  | approved hpressed hsecret =>
    constructor
    · rw [hsecret, approvedSecret, hasks.flow_eq]
      change memmove _ 0 _ = memmove _ 0 _
      rw [hasks.secret_eq, hasks.draws_eq]
    · have hshown : (step sdk w (.apdu apdu)).globals.ui.shown = .resetTokenSignatures := by
        rw [Ui.shown, hasks.flow_eq]
      exact (hshown ▸ hpressed).of_suffix (log_suffix_step hw _)
  | denied => exact absurd (Prod.mk.inj hanswer).1 (by decide)

end Reset

end HathorLedger
