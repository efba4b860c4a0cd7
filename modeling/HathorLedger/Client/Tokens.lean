import HathorLedger.Client.Commands
import HathorLedger.Run.OwnScreens
import HathorLedger.Run.Storing

/-!
# Tokens from the client to the device

The client has tokens signed by the device, and sends lists of signed tokens back to it. A list that
was sent is the registry of the device, unless the user has left the app in between.

## Main definitions

* `tokenSignature`: the signature of a token under a secret.
* `Signs`: a token of the client with a signature that the device accepts.

## Main results

* `signTokenData_returns_iff`: what `sign_token_data` can return, and what the user has approved.
* `verifyTokenSignature_lasts`: a signature is accepted until the next reset.
* `resetTokenSignatures_returns`: a reset is approved, and replaces the secret.
* `sendTokenDataList_returns_iff`: when `send_token_data_list` can return, and what is in the registry
  then.
-/

namespace HathorLedger.Client

open Dialogue (Runs runs_bind_ok_iff runs_discard_ok_iff runs_pure_iff runs_each_cons_iff
  runs_each_nil_iff)

variable {sdk : Sdk} {w w' : World} {token : Token} {signature data : Bytes} {f : TokenFields}

/-! ### Signatures -/

variable (sdk) in
/-- The signature of a token: the digest of a secret and the fields. -/
def tokenSignature (secret : Bytes) (f : TokenFields) : Bytes :=
  sdk.sha256 (secret ++ f.uid ++ f.symbol ++ f.name ++ [f.version])

theorem signToken_token (secret : Bytes) (f : TokenFields) :
    signToken sdk secret (f.token {}) = tokenSignature sdk secret f := by
  rw [signToken, initTokenSignatureMessage, f.symbolBytes_token, f.nameBytes_token,
    f.uid_token (t := {}) rfl]
  rfl

theorem length_bytes_le (f : TokenFields) : f.bytes.length ≤ 70 := by
  have huid := f.length_uid
  have hsymbol := f.length_symbol
  have hname := f.length_name
  rw [tokenUidLen] at huid
  rw [maxTokenSymbolLen] at hsymbol
  rw [maxTokenNameLen] at hname
  simp only [TokenFields.bytes, List.length_append, List.length_cons]
  omega

/-- The screen with the symbol, the name and the UID of a token. -/
def tokenPage (f : TokenFields) : Screen :=
  .signTokenData f.symbol f.name
    (f.uid.flatMap fun b => [hexDigit (b.toNat / 16), hexDigit (b.toNat % 16)])

theorem hexDigit_ne_zero {n : ℕ} (h : n < 16) : hexDigit n ≠ 0 := by
  interval_cases n <;> decide

/-- Printable texts are shown whole. -/
theorem tokenScreen_token (hsymbol : AllPrintable f.symbol) (hname : AllPrintable f.name) :
    tokenScreen (f.token {}) = tokenPage f := by
  have hfits : ¬65 < 2 * f.uid.length + 1 := by
    rw [f.length_uid]
    decide
  have hhex : ∀ c ∈ f.uid.flatMap fun b => [hexDigit (b.toNat / 16), hexDigit (b.toNat % 16)],
      c ≠ 0 := by
    intro c hc
    obtain ⟨b, -, hb⟩ := List.mem_flatMap.1 hc
    have hlt := b.toNat_lt
    rcases List.mem_cons.1 hb with rfl | hb
    · exact hexDigit_ne_zero (by omega)
    · rw [List.mem_singleton.1 hb]
      exact hexDigit_ne_zero (by omega)
  change Screen.signTokenData (cstr ((f.token {}).symbolBytes ++ [0]))
    (cstr ((f.token {}).nameBytes ++ [0])) (cstr ((formatHex (f.token {}).uid 65).getD [])) = _
  rw [f.symbolBytes_token, f.nameBytes_token, f.uid_token (t := {}) rfl, formatHex, if_neg hfits,
    Option.getD_some, cstr_append_nul hhex, (cstr_append_nul_iff _).2 ((allPrintable_iff _).1 hsymbol).2,
    (cstr_append_nul_iff _).2 ((allPrintable_iff _).1 hname).2]
  rfl

theorem wf_ofBytes_of_le (hlen : data.length ≤ 255) : (Buffer.ofBytes data).Wf := by
  refine Buffer.wf_ofBytes ?_
  rw [sizeMod]
  omega

/-- If the device accepts the data of a token, then it has read the fields of the token. -/
theorem spells_of_tokenRequest (hnul : token.NoNul) (hdata : token.serialize none = some data)
    (hlen : data.length ≤ 255) (h : TokenRequest data) :
    ∃ f, token.Spells f ∧ requestedToken data = f.token {} := by
  obtain ⟨accepted, parsed, rest, hparse⟩ : ∃ accepted parsed rest,
      parseToken (.ofBytes data) {} = (accepted, parsed, rest) := ⟨_, _, _, rfl⟩
  rw [TokenRequest, hparse] at h
  obtain rfl : accepted = true := h
  obtain ⟨f, hbytes, hsymbol, hname, rfl, -⟩ := fields_of_parseToken (wf_ofBytes_of_le hlen) hparse
  rw [Buffer.rest_ofBytes] at hbytes
  rw [requestedToken, hparse]
  exact ⟨f, (Token.spells_of_serialize hnul (hbytes ▸ hdata) hsymbol hname).1, rfl⟩

/-- The device accepts printable fields. -/
theorem tokenRequest_bytes (hsymbol : AllPrintable f.symbol) (hname : AllPrintable f.name) :
    TokenRequest f.bytes ∧ requestedToken f.bytes = f.token {} := by
  have hwf := wf_ofBytes_of_le ((length_bytes_le f).trans (by decide))
  have hrest : (Buffer.ofBytes f.bytes).rest = f.bytes ++ [] := by
    rw [Buffer.rest_ofBytes, List.append_nil]
  obtain ⟨rest, hparse, -⟩ := parseToken_of_fields hwf hrest ((allPrintable_iff _).1 hsymbol).1
    ((allPrintable_iff _).1 hname).1 {}
  rw [TokenRequest, requestedToken, hparse]
  exact ⟨rfl, rfl⟩

/-- The exchange of `sign_token_data`. -/
theorem runs_signTokenData_iff :
    Runs (Serves sdk) (signTokenData token) w (.ok signature) w' ↔
      ∃ data, token.serialize none = some data ∧ data.length ≤ 255 ∧
        callOf (Command.encode ⟨cla, Ins.signTokenData, 0, 0, data⟩) = some (.signTokenData data) ∧
        Serves sdk w (Command.encode ⟨cla, Ins.signTokenData, 0, 0, data⟩) (Sw.ok, signature) w' := by
  refine (runs_dataCommand_iff 0 (by decide)).trans ⟨?_, ?_⟩
  · rintro ⟨-, data, hdata, hlen, hserves⟩
    exact ⟨data, hdata, hlen, callOf_encode (by decide) (by decide) (by decide) hlen rfl, hserves⟩
  · rintro ⟨data, hdata, hlen, -, hserves⟩
    exact ⟨by decide, data, hdata, hlen, hserves⟩

/-- A token that was signed has a form that the device accepts, and the user has approved the screen
with it. -/
theorem signed_of_runs (hw : Reachable Booted (step sdk) Sequential w)
    (hidle : w.io.state ≠ .waiting) (hnul : token.NoNul)
    (h : Runs (Serves sdk) (signTokenData token) w (.ok signature) w') :
    Reachable Booted (step sdk) Sequential w' ∧ w'.io.state ≠ .waiting ∧
      ∃ f, token.Spells f ∧ signature = tokenSignature sdk w'.secret f ∧
        w'.secret = (w.globals.readSecret sdk).secret ∧
        PressedSince .approve (tokenPage f) w.log w'.log := by
  obtain ⟨data, hdata, hlen, hcall, hserves⟩ := runs_signTokenData_iff.1 h
  obtain ⟨haccepted, hresponse, hsecret, hpressed⟩ := hserves.token hw hidle hcall
  obtain ⟨f, hspells, htoken⟩ := spells_of_tokenRequest hnul hdata hlen haccepted
  rw [htoken, signToken_token] at hresponse
  rw [htoken, tokenScreen_token hspells.printable_symbol hspells.printable_name] at hpressed
  exact ⟨hserves.reachable hw hidle, hserves.not_waiting hw hidle, f, hspells, hresponse, hsecret,
    hpressed⟩

/-- A token is signed when the user approves. -/
theorem exists_runs_signTokenData (hw : Reachable Booted (step sdk) Sequential w)
    (hidle : w.io.state ≠ .waiting) (hspells : token.Spells f) :
    ∃ w', Runs (Serves sdk) (signTokenData token) w
      (.ok (tokenSignature sdk (w.globals.readSecret sdk).secret f)) w' := by
  have hdata := hspells.serialize none
  rw [Option.getD_none, List.append_nil] at hdata
  have hlen : f.bytes.length ≤ 255 := (length_bytes_le f).trans (by decide)
  have hcall : callOf (Command.encode ⟨cla, Ins.signTokenData, 0, 0, f.bytes⟩) =
      some (.signTokenData f.bytes) :=
    callOf_encode (by decide) (by decide) (by decide) hlen rfl
  obtain ⟨haccepted, htoken⟩ := tokenRequest_bytes hspells.printable_symbol hspells.printable_name
  obtain ⟨w', hserves⟩ := exists_serves_token hw hidle hcall haccepted
  rw [htoken, signToken_token] at hserves
  exact ⟨w', runs_signTokenData_iff.2 ⟨_, hdata, hlen, hcall, hserves⟩⟩

/-- `sign_token_data` can return the signature of its token under the secret of the device, if the
token has a form that the device accepts, and nothing else. It returns after the user has approved the
screen with the token. -/
theorem signTokenData_returns_iff (hw : Reachable Booted (step sdk) Sequential w)
    (hidle : w.io.state ≠ .waiting) (hnul : token.NoNul) :
    ((∃ w', Runs (Serves sdk) (signTokenData token) w (.ok signature) w') ↔
      ∃ f, token.Spells f ∧
        signature = tokenSignature sdk (w.globals.readSecret sdk).secret f) ∧
    ∀ w', Runs (Serves sdk) (signTokenData token) w (.ok signature) w' →
      ∃ f, token.Spells f ∧ signature = tokenSignature sdk w'.secret f ∧
        PressedSince .approve (tokenPage f) w.log w'.log := by
  refine ⟨⟨?_, ?_⟩, fun w' h => ?_⟩
  · rintro ⟨w', h⟩
    obtain ⟨-, -, f, hspells, hsignature, hsecret, -⟩ := signed_of_runs hw hidle hnul h
    exact ⟨f, hspells, hsecret ▸ hsignature⟩
  · rintro ⟨f, hspells, rfl⟩
    exact exists_runs_signTokenData hw hidle hspells
  · obtain ⟨-, -, f, hspells, hsignature, -, hpressed⟩ := signed_of_runs hw hidle hnul h
    exact ⟨f, hspells, hsignature, hpressed⟩

/-! ### Signed tokens -/

variable (sdk) in
/-- The signature of a token is the one under the secret, and the command with both is short enough.
The device looks at the first 32 bytes of a signature. -/
structure Signs (secret : Bytes) (p : Token × Bytes) (f : TokenFields) : Prop where
  spells : p.1.Spells f
  length_le : f.bytes.length + p.2.length ≤ 255
  take_eq : p.2.take 32 = tokenSignature sdk secret f

/-- The signature of a token is one that the device accepts. -/
theorem signs_of_spells (h : token.Spells f) (secret : Bytes) :
    Signs sdk secret (token, tokenSignature sdk secret f) f where
  spells := h
  length_le := by
    have hfields := length_bytes_le f
    have hdigest : (tokenSignature sdk secret f).length = 32 := sdk.length_sha256 _
    change f.bytes.length + (tokenSignature sdk secret f).length ≤ 255
    omega
  take_eq := List.take_of_length_le (sdk.length_sha256 _).le

theorem verifyTokenSignature_token_iff {secret : Bytes} (hlen : signature.length = 32) :
    HathorLedger.verifyTokenSignature sdk secret (f.token {}) signature = true ↔
      signature = tokenSignature sdk secret f := by
  rw [verifyTokenSignature_iff hlen, signToken_token]

/-- A signature that the device finds valid is that of the token. -/
theorem signs_of_signedToken (hnul : token.NoNul)
    (hdata : token.serialize (some signature) = some data) (hlen : data.length ≤ 255)
    {secret : Bytes} {signed : HathorLedger.Token} {s : Bytes}
    (hsigned : signedToken data = some (signed, s))
    (hvalid : HathorLedger.verifyTokenSignature sdk secret signed s = true) :
    ∃ f, Signs sdk secret (token, signature) f ∧ signed = f.token {} := by
  obtain ⟨f, rest, rfl, hsymbol, hname, rfl, hs⟩ := (signedToken_eq_some_iff hlen).1 hsigned
  obtain ⟨hspells, hrest⟩ := Token.spells_of_serialize hnul hdata hsymbol hname
  rw [Option.getD_some] at hrest
  refine ⟨f, ⟨hspells, ?_, ?_⟩, rfl⟩
  · rwa [hrest, List.length_append] at hlen
  · change signature.take 32 = _
    rw [← hrest, List.take_left' hs]
    exact (verifyTokenSignature_token_iff hs).1 hvalid

/-- The device finds the signature of a token valid. -/
theorem Signs.exists_data {secret : Bytes} (h : Signs sdk secret (token, signature) f) :
    ∃ data, token.serialize (some signature) = some data ∧ data.length ≤ 255 ∧
      signedToken data = some (f.token {}, signature.take 32) ∧
      HathorLedger.verifyTokenSignature sdk secret (f.token {}) (signature.take 32) = true := by
  have hdigest : (signature.take 32).length = 32 := by
    rw [h.take_eq]
    exact sdk.length_sha256 _
  have hlen : (f.bytes ++ signature).length ≤ 255 := by
    rw [List.length_append]
    exact h.length_le
  refine ⟨f.bytes ++ signature, h.spells.serialize (some signature), hlen, ?_,
    (verifyTokenSignature_token_iff hdigest).2 h.take_eq⟩
  refine (signedToken_eq_some_iff hlen).2 ⟨f, signature.drop 32, ?_,
    ((allPrintable_iff _).1 h.spells.printable_symbol).1,
    ((allPrintable_iff _).1 h.spells.printable_name).1, rfl, hdigest⟩
  rw [List.take_append_drop]

/-- The exchange of `send_token_data`. -/
theorem runs_sendTokenData_iff {num : ℕ} :
    Runs (Serves sdk) (sendTokenData token signature num) w (.ok ()) w' ↔
      num < 256 ∧ ∃ data response, token.serialize (some signature) = some data ∧
        data.length ≤ 255 ∧
        callOf (Command.encode ⟨cla, Ins.sendTokenData, num, 0, data⟩) =
          some (.sendTokenData (num = 0) data) ∧
        Serves sdk w (Command.encode ⟨cla, Ins.sendTokenData, num, 0, data⟩)
          (Sw.ok, response) w' := by
  have hcommand (response : Bytes) (v : World) :
      Runs (Serves sdk) (exchange Ins.getAddress (CommandBuilder.sendTokenData token signature num)) w
        (.ok response) v ↔ _ :=
    runs_dataCommand_iff num (by decide)
  rw [sendTokenData, runs_discard_ok_iff]
  constructor
  · rintro ⟨response, hexchange⟩
    obtain ⟨hnum, data, hdata, hlen, hserves⟩ := (hcommand response w').1 hexchange
    exact ⟨hnum, data, response, hdata, hlen,
      callOf_encode (by decide) hnum (by decide) hlen rfl, hserves⟩
  · rintro ⟨hnum, data, response, hdata, hlen, -, hserves⟩
    exact ⟨response, (hcommand response w').2 ⟨hnum, data, hdata, hlen, hserves⟩⟩

/-- A token that was sent has a valid signature, and is stored. -/
theorem stored_of_runs (hw : Reachable Booted (step sdk) Sequential w)
    (hidle : w.io.state ≠ .waiting) (hnul : token.NoNul) {num : ℕ}
    (h : Runs (Serves sdk) (sendTokenData token signature num) w (.ok ()) w') :
    Reachable Booted (step sdk) Sequential w' ∧
      ∃ f, Signs sdk (w.globals.readSecret sdk).secret (token, signature) f ∧
        (w.globals.registryFor (num = 0)).len < txMaxTokens ∧
        Stored (w.globals.readSecret sdk).secret
          ((w.globals.registryFor (num = 0)).store (f.token {})) (starts w.log) w'.globals := by
  obtain ⟨-, data, response, hdata, hlen, hcall, hserves⟩ := runs_sendTokenData_iff.1 h
  obtain ⟨signed, s, hsigned, hvalid, hroom, hstored⟩ := hserves.stored hw hidle hcall
  obtain ⟨f, hsigns, rfl⟩ := signs_of_signedToken hnul hdata hlen hsigned hvalid
  exact ⟨hserves.reachable hw hidle, f, hsigns, hroom, hstored⟩

/-- A token with a valid signature can be sent if there is room in the registry. -/
theorem exists_runs_sendTokenData (hw : Reachable Booted (step sdk) Sequential w) {num : ℕ}
    (hnum : num < 256)
    (hsigns : Signs sdk (w.globals.readSecret sdk).secret (token, signature) f)
    (hroom : (w.globals.registryFor (num = 0)).len < txMaxTokens) :
    ∃ w', Runs (Serves sdk) (sendTokenData token signature num) w (.ok ()) w' ∧
      starts w'.log = starts w.log := by
  obtain ⟨data, hdata, hlen, hsigned, hvalid⟩ := hsigns.exists_data
  have hcall : callOf (Command.encode ⟨cla, Ins.sendTokenData, num, 0, data⟩) =
      some (.sendTokenData (num = 0) data) :=
    callOf_encode (by decide) hnum (by decide) hlen rfl
  obtain ⟨w', hserves, hstarts⟩ := exists_serves_stored hw hcall hsigned hvalid hroom
  exact ⟨w', runs_sendTokenData_iff.2 ⟨hnum, _, _, hdata, hlen, hcall, hserves⟩, hstarts⟩

/-- `verify_token_signature` can return if the signature is that of the token under the secret of the
device, and only then. -/
theorem verifyTokenSignature_returns_iff (hw : Reachable Booted (step sdk) Sequential w)
    (hidle : w.io.state ≠ .waiting) (hnul : token.NoNul) :
    (∃ w', Runs (Serves sdk) (verifyTokenSignature token signature) w (.ok ()) w') ↔
      ∃ f, Signs sdk (w.globals.readSecret sdk).secret (token, signature) f := by
  have hcommand (response : Bytes) (v : World) :
      Runs (Serves sdk)
        (exchange Ins.getAddress (CommandBuilder.verifyTokenSignature token signature)) w
        (.ok response) v ↔ _ :=
    runs_dataCommand_iff 0 (by decide)
  have hcall {data : Bytes} (hlen : data.length ≤ 255) :
      callOf (Command.encode ⟨cla, Ins.verifyTokenSignature, 0, 0, data⟩) =
        some (.verifyTokenSignature data) :=
    callOf_encode (by decide) (by decide) (by decide) hlen rfl
  constructor
  · rintro ⟨w', h⟩
    obtain ⟨response, hexchange⟩ := runs_discard_ok_iff.1 h
    obtain ⟨-, data, hdata, hlen, hserves⟩ := (hcommand response w').1 hexchange
    obtain ⟨signed, s, hsigned, hvalid⟩ :=
      (exists_serves_verified_iff hw hidle (hcall hlen)).1 ⟨response, w', hserves⟩
    obtain ⟨f, hsigns, -⟩ := signs_of_signedToken hnul hdata hlen hsigned hvalid
    exact ⟨f, hsigns⟩
  · rintro ⟨f, hsigns⟩
    obtain ⟨data, hdata, hlen, hsigned, hvalid⟩ := hsigns.exists_data
    obtain ⟨response, w', hserves⟩ :=
      (exists_serves_verified_iff hw hidle (hcall hlen)).2 ⟨_, _, hsigned, hvalid⟩
    exact ⟨w', runs_discard_ok_iff.2 ⟨response, (hcommand response w').2
      ⟨by decide, data, hdata, hlen, hserves⟩⟩⟩

/-! ### Until the next reset -/

/-- **A signature lasts until the next reset.** After `sign_token_data` has returned a signature,
`verify_token_signature` can return in a later state exactly if the signature is the one under the
secret of that state. As long as no reset is approved, it is. -/
theorem verifyTokenSignature_lasts (hrng : sdk.NeverZero)
    (hw : Reachable Booted (step sdk) Sequential w) (hidle : w.io.state ≠ .waiting)
    (hnul : token.NoNul) (hsign : Runs (Serves sdk) (signTokenData token) w (.ok signature) w')
    {v : World} (hv : Reachable (· = w') (step sdk) Sequential v) (hready : v.io.state ≠ .waiting) :
    ((∃ v', Runs (Serves sdk) (verifyTokenSignature token signature) v (.ok ()) v') ↔
      ∃ f, token.Spells f ∧ signature = tokenSignature sdk v.secret f) ∧
    (Reachable (· = w') (step sdk) (fun u i => Sequential u i ∧ ¬ApprovesReset u i) v →
      ∃ v', Runs (Serves sdk) (verifyTokenSignature token signature) v (.ok ()) v') := by
  obtain ⟨hw', -, f, hspells, hsignature, hsecret, -⟩ := signed_of_runs hw hidle hnul hsign
  have hany : w'.secret.any (· != 0) = true := hsecret ▸ any_readSecret hrng w.globals
  have hfree : Reachable Booted (step sdk) (fun _ _ => True) w' := hw'.mono fun _ _ _ _ => trivial
  have hread : (v.globals.readSecret sdk).secret = v.secret :=
    congrArg Globals.secret (readSecret_eq_self (any_of_reachable hrng hfree hany hv))
  have hiff : (∃ v', Runs (Serves sdk) (verifyTokenSignature token signature) v (.ok ()) v') ↔
      ∃ f, token.Spells f ∧ signature = tokenSignature sdk v.secret f := by
    rw [verifyTokenSignature_returns_iff (hw'.trans hv) hready hnul, hread]
    refine exists_congr fun f' => ⟨fun h => ⟨h.spells, ?_⟩, ?_⟩
    · have hlen : signature.length = 32 := hsignature ▸ sdk.length_sha256 _
      rw [← h.take_eq, List.take_of_length_le hlen.le]
    · rintro ⟨hf, hsame⟩
      rw [hsame]
      exact signs_of_spells hf _
  refine ⟨hiff, fun hkept => hiff.2 ⟨f, hspells, ?_⟩⟩
  rw [secret_of_reachable hfree hany (hkept.mono fun _ _ _ h => h.2)]
  exact hsignature

/-- `reset_token_signatures` can always return. It returns after the user has approved, and a new
secret is stored then. -/
theorem resetTokenSignatures_returns (hw : Reachable Booted (step sdk) Sequential w)
    (hidle : w.io.state ≠ .waiting) :
    (∃ w', Runs (Serves sdk) resetTokenSignatures w (.ok ()) w') ∧
    ∀ w', Runs (Serves sdk) resetTokenSignatures w (.ok ()) w' →
      w'.secret = (w.globals.generateSecret sdk).secret ∧
        PressedSince .approve .resetTokenSignatures w.log w'.log := by
  have hcall : callOf (Command.encode ⟨cla, Ins.resetTokenSignatures, 0, 0, []⟩) =
      some .resetTokenSignatures :=
    callOf_encode (by decide) (by decide) (by decide) (by decide) rfl
  have hcommand : CommandBuilder.resetTokenSignatures =
      some (Command.encode ⟨cla, Ins.resetTokenSignatures, 0, 0, []⟩) :=
    (@serialize_eq_some_iff cla Ins.resetTokenSignatures 0 0 [] _).2 ⟨by decide, rfl⟩
  constructor
  · have hflow := (asks_resetTokenSignatures sdk hw hcall).flow_eq
    obtain ⟨w', hserves⟩ := serves_approve hw hidle (congrArg Flow.asks hflow)
    exact ⟨w', runs_discard_ok_iff.2 ⟨_, runs_exchange_ok_iff.2 ⟨_, hcommand, hserves⟩⟩⟩
  · intro w' h
    obtain ⟨response, hexchange⟩ := runs_discard_ok_iff.1 h
    obtain ⟨apdu, hapdu, hserves⟩ := runs_exchange_ok_iff.1 hexchange
    obtain rfl := Option.some.inj (hapdu.symm.trans hcommand)
    exact hserves.reset hw hidle hcall

/-! ### Lists of tokens -/

/-- The tokens are sent from number `k` on. -/
def sendTokenDataFrom (k : ℕ) (tokens : List (Token × Bytes)) : Method (List Unit) :=
  Dialogue.each (fun p : ℕ × Token × Bytes => sendTokenData p.2.1 p.2.2 p.1)
    (tokens.mapIdx fun i p => (k + i, p))

theorem sendTokenDataFrom_cons (k : ℕ) (p : Token × Bytes) (tokens : List (Token × Bytes)) :
    sendTokenDataFrom k (p :: tokens) = do
      let a ← sendTokenData p.1 p.2 k
      let as ← sendTokenDataFrom (k + 1) tokens
      return a :: as := by
  have hindex (i : ℕ) (q : Token × Bytes) : (k + (i + 1), q) = (k + 1 + i, q) := by
    rw [Nat.add_assoc, Nat.add_comm 1 i]
  simp only [sendTokenDataFrom, List.mapIdx_cons, hindex]
  rfl

/-- These tokens were sent, and they are the registry if the app was started `n` times. -/
structure Sending (sdk : Sdk) (secret : Bytes) (sent : List TokenFields) (n : ℕ) (w : World) :
    Prop where
  reachable : Reachable Booted (step sdk) Sequential w
  io_ne : w.io.state ≠ .waiting
  secret_eq : (w.globals.readSecret sdk).secret = secret
  le_starts : n ≤ starts w.log
  length_le : starts w.log = n → sent.length ≤ txMaxTokens
  registry_eq : starts w.log = n →
    w.globals.registryFor (sent.length = 0) = registryOf (sent.map fun f => f.token {})

/-- A secret that was read stays the same. -/
theorem secret_readSecret_of_eq (hrng : sdk.NeverZero) {g g' : Globals}
    (h : g'.secret = (g.readSecret sdk).secret) :
    (g'.readSecret sdk).secret = (g.readSecret sdk).secret := by
  rw [readSecret_eq_self (h ▸ any_readSecret hrng g), h]

/-- The next token is sent. -/
theorem Sending.step {secret : Bytes} {sent : List TokenFields} {n : ℕ} (hrng : sdk.NeverZero)
    (hs : Sending sdk secret sent n w) (hnul : token.NoNul)
    (h : Runs (Serves sdk) (sendTokenData token signature (sent.length : ℕ)) w (.ok ()) w') :
    ∃ f, Signs sdk secret (token, signature) f ∧ Sending sdk secret (sent ++ [f]) n w' := by
  obtain ⟨hw', f, hsigns, hroom, hstored⟩ := stored_of_runs hs.reachable hs.io_ne hnul h
  rw [hs.secret_eq] at hsigns
  have hsame (hn : starts w'.log = n) : starts w.log = n :=
    le_antisymm (hn ▸ hstored.le_starts) hs.le_starts
  have hlen : (sent ++ [f]).length = sent.length + 1 := by
    rw [List.length_append, List.length_singleton]
  refine ⟨f, hsigns, hw', hstored.io_ne, ?_, hs.le_starts.trans hstored.le_starts, ?_, ?_⟩
  · rw [secret_readSecret_of_eq hrng hstored.secret_eq, hs.secret_eq]
  · intro hn
    rw [hs.registry_eq (hsame hn), len_registryOf, List.length_map] at hroom
    rwa [hlen]
  · intro hn
    have hregistry : w'.globals.registryFor ((sent ++ [f]).length = 0) = w'.tokenSymbols := by
      rw [hlen]
      rfl
    have hstarts : starts w'.globals.log = starts w.log := hn.trans (hsame hn).symm
    rw [hregistry, List.map_append, List.map_singleton, registryOf_append,
      ← hs.registry_eq (hsame hn)]
    exact hstored.tokenSymbols_eq hstarts

/-- The tokens that were sent have valid signatures, and they are the registry. -/
theorem Sending.run {secret : Bytes} {sent : List TokenFields} {n : ℕ} (hrng : sdk.NeverZero)
    {tokens : List (Token × Bytes)} (hs : Sending sdk secret sent n w)
    (hnul : ∀ p ∈ tokens, p.1.NoNul) {units : List Unit}
    (h : Runs (Serves sdk) (sendTokenDataFrom sent.length tokens) w (.ok units) w') :
    ∃ fs, List.Forall₂ (Signs sdk secret) tokens fs ∧ Sending sdk secret (sent ++ fs) n w' := by
  induction tokens generalizing sent w units with
  | nil =>
    obtain ⟨-, rfl⟩ := runs_each_nil_iff.1 h
    exact ⟨[], .nil, by rwa [List.append_nil]⟩
  | cons p tokens ih =>
    obtain ⟨hp, htokens⟩ := List.forall_mem_cons.1 hnul
    rw [sendTokenDataFrom_cons, runs_bind_ok_iff] at h
    obtain ⟨_, v, hfirst, hrest⟩ := h
    obtain ⟨units', v', hrest, hreturn⟩ := runs_bind_ok_iff.1 hrest
    obtain ⟨-, rfl⟩ := runs_pure_iff.1 hreturn
    obtain ⟨f, hsigns, hs'⟩ := hs.step hrng hp hfirst
    have hlen : sent.length + 1 = (sent ++ [f]).length := by
      rw [List.length_append, List.length_singleton]
    rw [hlen] at hrest
    obtain ⟨fs, hall, hs''⟩ := ih hs' htokens hrest
    exact ⟨f :: fs, .cons hsigns hall, by rwa [List.append_assoc] at hs''⟩

/-- Tokens with valid signatures can be sent as long as there is room in the registry. -/
theorem Sending.exists_runs {secret : Bytes} {sent : List TokenFields} (hrng : sdk.NeverZero)
    {tokens : List (Token × Bytes)} {fs : List TokenFields}
    (hs : Sending sdk secret sent (starts w.log) w) (hnul : ∀ p ∈ tokens, p.1.NoNul)
    (hsigns : List.Forall₂ (Signs sdk secret) tokens fs)
    (hroom : sent.length + tokens.length ≤ txMaxTokens) :
    ∃ units w', Runs (Serves sdk) (sendTokenDataFrom sent.length tokens) w (.ok units) w' ∧
      starts w'.log = starts w.log := by
  induction hsigns generalizing sent w with
  | nil => exact ⟨[], w, runs_each_nil_iff.2 ⟨rfl, rfl⟩, rfl⟩
  | @cons p f tokens fs hsign _ ih =>
    obtain ⟨hp, htokens⟩ := List.forall_mem_cons.1 hnul
    rw [List.length_cons] at hroom
    have hfree : (w.globals.registryFor (sent.length = 0)).len < txMaxTokens := by
      rw [hs.registry_eq rfl, len_registryOf, List.length_map]
      omega
    have hnum : sent.length < 256 := by
      rw [txMaxTokens] at hroom
      omega
    have hsign' : Signs sdk (w.globals.readSecret sdk).secret (p.1, p.2) f := by
      rwa [hs.secret_eq]
    obtain ⟨v, hfirst, hstarts⟩ := exists_runs_sendTokenData hs.reachable hnum hsign' hfree
    obtain ⟨f', -, hs'⟩ := hs.step hrng hp hfirst
    have hlen : (sent ++ [f']).length = sent.length + 1 := by
      rw [List.length_append, List.length_singleton]
    rw [← hstarts] at hs'
    obtain ⟨units, w', hrest, hstarts'⟩ := ih hs' htokens (by rw [hlen]; omega)
    rw [hlen] at hrest
    refine ⟨() :: units, w', ?_, hstarts'.trans hstarts⟩
    rw [sendTokenDataFrom_cons]
    exact runs_bind_ok_iff.2 ⟨(), v, hfirst, runs_bind_ok_iff.2 ⟨units, w', hrest,
      runs_pure_iff.2 ⟨rfl, rfl⟩⟩⟩

theorem runs_sendTokenDataList_iff {tokens : List (Token × Bytes)} :
    Runs (Serves sdk) (sendTokenDataList tokens) w (.ok ()) w' ↔
      ∃ units, Runs (Serves sdk) (sendTokenDataFrom 0 tokens) w (.ok units) w' := by
  have hindex : (tokens.mapIdx fun i p => (i, p)) = tokens.mapIdx fun i p => (0 + i, p) := by
    simp only [Nat.zero_add]
  rw [sendTokenDataList, hindex]
  exact runs_discard_ok_iff

/-- A printable text is a string of its own length. -/
theorem cstr_of_allPrintable {text : Bytes} (h : AllPrintable text) : cstr text = text := by
  refine List.takeWhile_eq_self_iff.2 fun c hc => ?_
  have hne : c ≠ 0 := by
    rintro rfl
    exact absurd (h 0 hc).1 (by decide)
  simpa using hne

/-- Without a new start of the app, `send_token_data_list` can return if the registry has room for the
list and all signatures are those of the device, and only then. Afterwards the registry holds the
tokens of the list in their order, and nothing else. -/
theorem sendTokenDataList_returns_iff (hrng : sdk.NeverZero)
    (hw : Reachable Booted (step sdk) Sequential w) (hidle : w.io.state ≠ .waiting)
    {tokens : List (Token × Bytes)} (hnul : ∀ p ∈ tokens, p.1.NoNul) :
    ((∃ w', Runs (Serves sdk) (sendTokenDataList tokens) w (.ok ()) w' ∧
        starts w'.log = starts w.log) ↔
      tokens.length ≤ txMaxTokens ∧
        ∃ fs, List.Forall₂ (Signs sdk (w.globals.readSecret sdk).secret) tokens fs) ∧
    ∀ w', Runs (Serves sdk) (sendTokenDataList tokens) w (.ok ()) w' →
      ∃ fs, List.Forall₂ (Signs sdk (w.globals.readSecret sdk).secret) tokens fs ∧
        (starts w'.log = starts w.log → tokens ≠ [] →
          w'.tokenSymbols.entries = fs.map fun f => (f.uid, f.symbol)) := by
  have hstart : Sending sdk (w.globals.readSecret sdk).secret [] (starts w.log) w :=
    ⟨hw, hidle, rfl, le_rfl, fun _ => Nat.zero_le _, fun _ => rfl⟩
  refine ⟨⟨?_, ?_⟩, ?_⟩
  · rintro ⟨w', h, hstarts⟩
    obtain ⟨units, hrun⟩ := runs_sendTokenDataList_iff.1 h
    obtain ⟨fs, hsigns, hs⟩ := hstart.run hrng hnul hrun
    refine ⟨?_, fs, hsigns⟩
    rw [hsigns.length_eq]
    exact hs.length_le hstarts
  · rintro ⟨hlen, fs, hsigns⟩
    obtain ⟨units, w', hrun, hstarts⟩ := hstart.exists_runs hrng hnul hsigns
      (by rwa [List.length_nil, Nat.zero_add])
    exact ⟨w', runs_sendTokenDataList_iff.2 ⟨units, hrun⟩, hstarts⟩
  · intro w' h
    obtain ⟨units, hrun⟩ := runs_sendTokenDataList_iff.1 h
    obtain ⟨fs, hsigns, hs⟩ := hstart.run hrng hnul hrun
    rw [List.nil_append] at hs
    refine ⟨fs, hsigns, fun hstarts hne => ?_⟩
    have hregistry : w'.globals.registryFor (fs.length = 0) = w'.tokenSymbols := by
      rw [← hsigns.length_eq, decide_eq_false (by simpa using hne)]
      rfl
    have hlen : (fs.map fun f => f.token {}).length ≤ txMaxTokens := by
      rw [List.length_map]
      exact hs.length_le hstarts
    have hentries := entries_registryOf hlen
    rw [← hs.registry_eq hstarts, hregistry, List.map_map] at hentries
    obtain ⟨hprintable, -⟩ := (List.forall₂_and_left fs tokens).1
      (hsigns.flip.imp fun f p hsign => ⟨hsign.spells.printable_symbol, hsign⟩)
    rw [hentries]
    refine List.map_congr_left fun f hf => ?_
    rw [Function.comp_apply, f.uid_token (t := {}) rfl, f.symbolBytes_token,
      cstr_of_allPrintable (hprintable f hf)]

/-! ### An example -/

/-- The fields of a token with the symbol "A" and this name. -/
def sampleFields (name : UInt8) : TokenFields where
  version := 1
  uid := List.replicate tokenUidLen 0
  symbol := [0x41]
  name := [name]
  length_uid := List.length_replicate
  length_symbol := Nat.le_add_left _ _
  length_name := Nat.le_add_left _ _

/-- The token with these fields. -/
def sampleToken (name : UInt8) : Token where
  version := 1
  symbol := ['A']
  name := [Char.ofNat name.toNat]
  uid := List.replicate tokenUidLen 0
  length_uid := List.length_replicate

theorem spells_sampleToken {name : UInt8} (hname : 0x20 ≤ name ∧ name < 0x80) :
    (sampleToken name).Spells (sampleFields name) where
  version_eq := rfl
  uid_eq := rfl
  symbol_eq := rfl
  name_eq := rfl
  printable_symbol c hc := by
    obtain rfl := List.mem_singleton.1 hc
    decide
  printable_name c hc := by
    obtain rfl := List.mem_singleton.1 hc
    exact hname

theorem signTokenData_returns_sample :
    ∃ signature w', Runs (Serves Sdk.sample) (signTokenData (sampleToken 0x42)) sampleBoot
      (.ok signature) w' := by
  have hspells := @spells_sampleToken 0x42 (by decide)
  exact ⟨_, (signTokenData_returns_iff (.start booted_sampleBoot) (by decide) hspells.noNul).1.2
    ⟨sampleFields 0x42, hspells, rfl⟩⟩

/-- The host asks for the version, the user looks at the menu, and the app is started anew. -/
def sampleBetween : List Input :=
  [.command Ins.getVersion 0 0 [], .press .about, .press .back, .ioReset]

/-- A signature is accepted after these inputs. -/
theorem verifyTokenSignature_lasts_sample :
    ∃ signature w', Runs (Serves sampleRandom) (signTokenData (sampleToken 0x42)) sampleBoot
      (.ok signature) w' ∧ ∃ v', Runs (Serves sampleRandom)
        (verifyTokenSignature (sampleToken 0x42) signature) (run sampleRandom w' sampleBetween)
        (.ok ()) v' := by
  have hstart : Reachable Booted (step sampleRandom) Sequential sampleBoot := .start booted_sampleBoot
  have hspells := @spells_sampleToken 0x42 (by decide)
  obtain ⟨w', hsign⟩ := exists_runs_signTokenData hstart (by decide) hspells
  obtain ⟨-, hready, -⟩ := signed_of_runs hstart (by decide) hspells.noNul hsign
  have hfollows : Follows (step sampleRandom) (fun u i => Sequential u i ∧ ¬ApprovesReset u i) w'
      sampleBetween :=
    ⟨⟨fun _ _ => hready, nofun⟩, ⟨nofun, nofun⟩, ⟨nofun, nofun⟩, ⟨nofun, nofun⟩, trivial⟩
  have hkept := (@Reachable.start _ _ (· = w') _ _ w' rfl).follow hfollows
  have hlater : (run sampleRandom w' sampleBetween).io.state ≠ .waiting := nofun
  exact ⟨_, w', hsign, (verifyTokenSignature_lasts (fun _ => rfl) hstart (by decide) hspells.noNul
    hsign (hkept.mono fun _ _ _ h => h.1) hlater).2 hkept⟩

theorem resetTokenSignatures_returns_sample :
    ∃ w', Runs (Serves Sdk.sample) resetTokenSignatures sampleBoot (.ok ()) w' :=
  (resetTokenSignatures_returns (.start booted_sampleBoot) (by decide)).1

/-- The token with its signature. -/
def sampleSignedPair (name : UInt8) : Token × Bytes :=
  (sampleToken name, tokenSignature sampleRandom sampleBoot.secret (sampleFields name))

theorem signs_sampleSignedPair {name : UInt8} (hname : 0x20 ≤ name ∧ name < 0x80) :
    Signs sampleRandom (sampleBoot.globals.readSecret sampleRandom).secret (sampleSignedPair name)
      (sampleFields name) :=
  signs_of_spells (spells_sampleToken hname) _

theorem sendTokenDataList_returns_sample :
    ∃ w', Runs (Serves sampleRandom)
      (sendTokenDataList [sampleSignedPair 0x42, sampleSignedPair 0x43]) sampleBoot (.ok ()) w' ∧
        starts w'.log = starts sampleBoot.log := by
  have hfirst := @signs_sampleSignedPair 0x42 (by decide)
  have hsecond := @signs_sampleSignedPair 0x43 (by decide)
  refine (sendTokenDataList_returns_iff (fun _ => rfl) (.start booted_sampleBoot) (by decide) ?_).1.2
    ⟨by decide, _, .cons hfirst (.cons hsecond .nil)⟩
  exact List.forall_mem_cons.2 ⟨hfirst.spells.noNul,
    List.forall_mem_cons.2 ⟨hsecond.spells.noNul, List.forall_mem_nil _⟩⟩

end HathorLedger.Client
