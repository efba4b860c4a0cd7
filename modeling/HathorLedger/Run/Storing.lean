import HathorLedger.Run.Confirming
import HathorLedger.Run.TokenSignatures

/-!
# Storing tokens

`SEND_TOKEN_DATA` is answered with `SW_OK` when the token was stored in the registry. The user cannot
change the registry before the next command, except by leaving the app, which then starts anew with an
empty registry.

## Main definitions

* `registryOf`: the registry after a list of tokens.
* `TokenDataCtx.entries`: the UIDs and symbols in a registry.

## Main results

* `signedToken_eq_some_iff`: the data of a token with a signature.
* `entries_registryOf`: the registry holds the tokens in their order.
* `Serves.stored`, `exists_serves_stored`: the exchanges that store a token.
-/

namespace HathorLedger

variable {sdk : Sdk} {data apdu response signature : Bytes} {w w' : World} {g g' : Globals}
  {token : Token} {first : Bool} {registry : TokenDataCtx}

/-! ### Data of tokens -/

/-- A token with a signature is the data of the token, with the signature and anything else behind
it. -/
theorem signedToken_eq_some_iff (hlen : data.length ≤ 255) :
    signedToken data = some (token, signature) ↔
      ∃ (f : TokenFields) (rest : Bytes), data = f.bytes ++ (signature ++ rest) ∧
        isPrintable f.symbol = true ∧ isPrintable f.name = true ∧ token = f.token {} ∧
        signature.length = 32 := by
  have hwf : (Buffer.ofBytes data).Wf := by
    refine Buffer.wf_ofBytes ?_
    rw [sizeMod]
    omega
  constructor
  · intro h
    obtain ⟨accepted, parsed, cdata, hparse⟩ : ∃ accepted parsed cdata,
        parseToken (.ofBytes data) {} = (accepted, parsed, cdata) := ⟨_, _, _, rfl⟩
    obtain ⟨complete, bytes, cdata', hread⟩ : ∃ complete bytes cdata',
        cdata.readBytes (List.replicate 32 0) 32 32 = (complete, bytes, cdata') := ⟨_, _, _, rfl⟩
    simp only [signedToken, hparse, hread] at h
    split_ifs at h with hboth
    obtain ⟨rfl, rfl⟩ := Bool.and_eq_true_iff.1 hboth
    obtain ⟨rfl, rfl⟩ := Prod.mk.inj (Option.some.inj h)
    obtain ⟨f, hdata, hsymbol, hname, rfl, hwf'⟩ := fields_of_parseToken hwf hparse
    obtain ⟨bytes, hbytes, hlen', -, rfl, -⟩ := hwf'.of_readBytes hread
    rw [Buffer.rest_ofBytes, hbytes] at hdata
    rw [memmove_of_length (by rw [hlen', List.length_replicate])]
    exact ⟨f, _, hdata, hsymbol, hname, rfl, hlen'⟩
  · rintro ⟨f, rest, rfl, hsymbol, hname, rfl, hsignature⟩
    obtain ⟨cdata, hparse, hrest, hwf'⟩ :=
      parseToken_of_fields hwf (Buffer.rest_ofBytes _) hsymbol hname {}
    obtain ⟨cdata', hread, -⟩ :=
      hwf'.exists_readBytes (List.replicate 32 0) hrest hsignature.le
    rw [hsignature, memmove_of_length (by rw [hsignature, List.length_replicate])] at hread
    simp only [signedToken, hparse, hread, Bool.and_self, if_true]

/-! ### Registries -/

/-- The registry after these tokens. -/
def registryOf (tokens : List Token) : TokenDataCtx := tokens.foldl .store {}

/-- The UIDs and symbols in the registry, in their order. -/
def TokenDataCtx.entries (registry : TokenDataCtx) : List (Bytes × Bytes) :=
  (registry.tokens.take registry.len).map fun entry => (entry.uid, cstr entry.symbol)

theorem registryOf_append (tokens : List Token) (token : Token) :
    registryOf (tokens ++ [token]) = (registryOf tokens).store token := by
  rw [registryOf, List.foldl_append]
  rfl

theorem len_registryOf (tokens : List Token) : (registryOf tokens).len = tokens.length := by
  induction tokens using List.reverseRecOn with
  | nil => rfl
  | append_singleton tokens token ih =>
    rw [registryOf_append, List.length_append, ← ih]
    rfl

theorem length_tokens_registryOf (tokens : List Token) :
    (registryOf tokens).tokens.length = txMaxTokens := by
  induction tokens using List.reverseRecOn with
  | nil => rfl
  | append_singleton tokens token ih =>
    rw [registryOf_append]
    exact List.length_set.trans ih

/-- What stands behind a NUL is not part of a string. -/
theorem cstr_append_zero (text rest : Bytes) : cstr (text ++ 0 :: rest) = cstr text := by
  induction text with
  | nil => rfl
  | cons c text ih =>
    rw [cstr] at ih ⊢
    rw [List.cons_append, List.takeWhile_cons, ih, cstr, cstr, List.takeWhile_cons]

theorem cstr_symbol_newEntry (registry : TokenDataCtx) (token : Token) :
    cstr (registry.newEntry token).symbol = cstr token.symbolBytes := by
  rw [TokenDataCtx.newEntry, memmove, List.take_zero, List.nil_append, List.append_assoc,
    List.singleton_append, cstr_append_zero]

/-- A token is entered behind the others. -/
theorem entries_store (hlen : registry.len < registry.tokens.length) (token : Token) :
    (registry.store token).entries =
      registry.entries ++ [(token.uid, cstr token.symbolBytes)] := by
  have hstore : (registry.store token).tokens.take (registry.len + 1) =
      registry.tokens.take registry.len ++ [registry.newEntry token] := by
    change (registry.tokens.set registry.len (registry.newEntry token)).take (registry.len + 1) = _
    rw [List.take_add_one, List.take_set_of_le le_rfl, List.getElem?_set_self hlen]
    rfl
  change ((registry.store token).tokens.take (registry.len + 1)).map _ = _
  rw [hstore, List.map_append, List.map_singleton, cstr_symbol_newEntry]
  rfl

/-- The registry holds the tokens in their order. -/
theorem entries_registryOf {tokens : List Token} (hlen : tokens.length ≤ txMaxTokens) :
    (registryOf tokens).entries =
      tokens.map fun token => (token.uid, cstr token.symbolBytes) := by
  induction tokens using List.reverseRecOn with
  | nil => rfl
  | append_singleton tokens token ih =>
    rw [List.length_append, List.length_singleton] at hlen
    have hroom : (registryOf tokens).len < (registryOf tokens).tokens.length := by
      rw [len_registryOf, length_tokens_registryOf]
      omega
    rw [registryOf_append, entries_store hroom, ih (by omega), List.map_append]
    rfl

/-! ### Exchanges -/

/-- The globals behind the case of a first token. -/
def Globals.forToken (first : Bool) (g : Globals) : Globals :=
  if first then { g.wipe with tokenSymbols := {} } else g

theorem registryStep_of_handled {ends : Bool}
    (h : Handled sdk g (.sendTokenData first data) ends g') :
    ends = decide (g.io.state = .ready) ∧ RegistryStep sdk data (g.forToken first) g' := by
  cases h with
  | sendFirst _ _ h | sendNext _ _ h => exact ⟨rfl, h⟩

variable (sdk) in
/-- The command leaves what the handler leaves, and the app is blocked again. -/
theorem exists_registryStep (hw : Reachable Booted (step sdk) Sequential w)
    (hcall : callOf apdu = some (.sendTokenData first data)) :
    ∃ g', RegistryStep sdk data ((w.globals.receive apdu).forToken first) g' ∧
      (step sdk w (.apdu apdu)).globals = g'.mainLoop := by
  obtain ⟨ends, g', hhandled, hglobals, hio⟩ := exists_handled sdk hw hcall
  obtain ⟨rfl, hstep⟩ := registryStep_of_handled hhandled
  rw [hio] at hglobals
  exact ⟨g', hstep, hglobals⟩

/-- The registry to which a token is added. -/
def Globals.registryFor (first : Bool) (g : Globals) : TokenDataCtx :=
  if first then {} else g.tokenSymbols

/-- The token was stored under the secret, and the app is ready for the next command. When it starts
anew, the registry is lost. -/
structure Stored (secret : Bytes) (registry : TokenDataCtx) (n : ℕ) (g : Globals) : Prop where
  io_ne : g.io.state ≠ .waiting
  secret_eq : g.secret = secret
  le_starts : n ≤ starts g.log
  tokenSymbols_eq : starts g.log = n → g.tokenSymbols = registry

theorem starts_le_of_suffix {log log' : List Event} (h : log <:+ log') : starts log ≤ starts log' := by
  obtain ⟨events, rfl⟩ := h
  rw [starts_append]
  exact Nat.le_add_left _ _

/-- A press on a screen that asks for nothing keeps the registry, or the app starts anew. -/
theorem tokenSymbols_of_closed {button : Button} (hclosed : g.ui.flow.hasApprove = false)
    (h : PressStep sdk g button g') (hstarts : starts g'.log = starts g.log) :
    g'.tokenSymbols = g.tokenSymbols := by
  cases h with
  | inactive | exitToMenu | about | back => rfl
  | quit =>
    have hone : starts (g.press .quit).restart.log = starts g.log + 1 := by
      simp [Globals.restart, Globals.press, starts]
    rw [hone] at hstarts
    omega
  | approveTx hflow | approveOutput hflow | approveXpub hflow | approveToken hflow
  | approveAddress hflow | approveReset hflow | rejectReset hflow =>
    rw [hflow] at hclosed
    cases hclosed
  | reject hflow => cases (hasApprove_of_hasReject hflow).symm.trans hclosed

theorem Stored.pressStep {secret : Bytes} {n : ℕ} (hs : Stored secret registry n g) {button : Button}
    (hclosed : g.ui.flow.hasApprove = false) (h : PressStep sdk g button g') :
    Stored secret registry n g' := by
  have hlog := starts_le_of_suffix (emits_pressStep h).suffix
  refine ⟨(pressStep_of_closed hclosed h).2 hs.io_ne, (secret_of_closed hclosed h).trans hs.secret_eq,
    hs.le_starts.trans hlog, fun hn => ?_⟩
  have hsame : starts g'.log = starts g.log := le_antisymm (hn ▸ hs.le_starts) hlog
  exact (tokenSymbols_of_closed hclosed h hsame).trans (hs.tokenSymbols_eq (hsame ▸ hn))

section ForToken

variable (apdu) (first)

theorem tokenSymbols_forToken :
    ((w.globals.receive apdu).forToken first).tokenSymbols = w.globals.registryFor first := by
  cases first <;> rfl

theorem secret_forToken :
    (((w.globals.receive apdu).forToken first).readSecret sdk).secret =
      (w.globals.readSecret sdk).secret := by
  cases first <;> exact secret_readSecret_congr rfl rfl

theorem starts_forToken {secret : Bytes} :
    starts (.tokenAccepted secret token signature ::
      ((w.globals.receive apdu).forToken first).log) = starts w.globals.log := by
  cases first <;> simp [Globals.forToken, Globals.receive, Globals.wipe, starts]

theorem responses_forToken {secret : Bytes} :
    responses (.tokenAccepted secret token signature ::
      ((w.globals.receive apdu).forToken first).log) = responses w.globals.log := by
  cases first <;> rfl

end ForToken

/-- `SEND_TOKEN_DATA` answers `SW_OK` only for a token whose signature is valid, and stores it. -/
theorem Serves.stored (hw : Reachable Booted (step sdk) Sequential w)
    (hidle : w.io.state ≠ .waiting) (hcall : callOf apdu = some (.sendTokenData first data))
    (h : Serves sdk w apdu (Sw.ok, response) w') :
    ∃ token signature, signedToken data = some (token, signature) ∧
      verifyTokenSignature sdk (w.globals.readSecret sdk).secret token signature = true ∧
      (w.globals.registryFor first).len < txMaxTokens ∧
      Stored (w.globals.readSecret sdk).secret ((w.globals.registryFor first).store token)
        (starts w.log) w'.globals := by
  obtain ⟨g', hstep, hglobals⟩ := exists_registryStep sdk hw hcall
  cases hstep with
  | full | malformed | invalid => exact absurd hglobals (h.not_refused hw hidle (by decide) _)
  | stored hroom token signature hdata haccepted hvalid =>
    rw [secret_forToken] at hvalid
    rw [tokenSymbols_forToken] at hroom
    refine ⟨token, signature, hdata, hvalid, hroom, ?_⟩
    have hcommand : Stored (w.globals.readSecret sdk).secret
        ((w.globals.registryFor first).store token) (starts w.log)
        (step sdk w (.apdu apdu)).globals := by
      have hstarts : starts (step sdk w (.apdu apdu)).globals.log = starts w.log := by
        rw [hglobals, log_mainLoop_reply, starts_sent]
        exact starts_forToken apdu first
      rw [hglobals] at hstarts ⊢
      refine ⟨nofun, secret_forToken apdu first, hstarts.ge, fun _ => ?_⟩
      rw [← tokenSymbols_forToken apdu]
      rfl
    exact (h.induct (P := fun v => Stored (w.globals.readSecret sdk).secret
        ((w.globals.registryFor first).store token) (starts w.log) v.globals) hw hidle hcommand
      fun v button hv hs => hs.pressStep ((attended_of_reachable (fun _ _ => id) hv).closed hs.io_ne)
        (pressStep_of_reachable hv button)).2

/-- A token with a valid signature is stored if there is room. -/
theorem exists_serves_stored (hw : Reachable Booted (step sdk) Sequential w)
    (hcall : callOf apdu = some (.sendTokenData first data))
    (hdata : signedToken data = some (token, signature))
    (hvalid : verifyTokenSignature sdk (w.globals.readSecret sdk).secret token signature = true)
    (hroom : (w.globals.registryFor first).len < txMaxTokens) :
    ∃ w', Serves sdk w apdu (Sw.ok, []) w' ∧ starts w'.log = starts w.log := by
  obtain ⟨g', hstep, hglobals⟩ := exists_registryStep sdk hw hcall
  rw [← tokenSymbols_forToken apdu] at hroom
  rw [← secret_forToken apdu first] at hvalid
  cases hstep with
  | full hfull => exact absurd hfull (not_le.2 hroom)
  | malformed _ hnone => cases hnone.symm.trans hdata
  | invalid _ token' signature' hdata' hinvalid =>
    obtain ⟨rfl, rfl⟩ := Prod.mk.inj (Option.some.inj (hdata.symm.trans hdata'))
    cases hvalid.symm.trans hinvalid
  | stored =>
    have hstarts : starts (step sdk w (.apdu apdu)).globals.log = starts w.log := by
      rw [hglobals, log_mainLoop_reply, starts_sent]
      exact starts_forToken apdu first
    exact ⟨_, serves_of_reply hglobals (responses_forToken apdu first) rfl Sw.ok_lt, hstarts⟩

/-! ### Other commands -/

/-- `VERIFY_TOKEN_SIGNATURE` replies at once. -/
theorem globals_step_verify (hw : Reachable Booted (step sdk) Sequential w)
    (hcall : callOf apdu = some (.verifyTokenSignature data)) :
    (step sdk w (.apdu apdu)).globals =
      ((w.globals.receive apdu).wipe.verify sdk data).mainLoop := by
  obtain ⟨ends, g', hhandled, hglobals, hio⟩ := exists_handled sdk hw hcall
  cases hhandled with
  | verifyTokenSignature =>
    rw [hio] at hglobals
    exact hglobals

/-- `VERIFY_TOKEN_SIGNATURE` can be answered with `SW_OK` if the signature is valid, and only then. -/
theorem exists_serves_verified_iff (hw : Reachable Booted (step sdk) Sequential w)
    (hidle : w.io.state ≠ .waiting) (hcall : callOf apdu = some (.verifyTokenSignature data)) :
    (∃ response w', Serves sdk w apdu (Sw.ok, response) w') ↔
      ∃ token signature, signedToken data = some (token, signature) ∧
        verifyTokenSignature sdk (w.globals.readSecret sdk).secret token signature = true := by
  have hglobals := globals_step_verify hw hcall
  have hsecret : ((w.globals.receive apdu).wipe.readSecret sdk).secret =
      (w.globals.readSecret sdk).secret := secret_readSecret_congr rfl rfl
  rw [Globals.verify, hsecret] at hglobals
  constructor
  · rintro ⟨response, w', h⟩
    cases hdata : signedToken data with
    | none =>
      rw [hdata] at hglobals
      exact absurd hglobals (h.not_refused hw hidle (by decide) _)
    | some signed =>
      obtain ⟨token, signature⟩ := signed
      rw [hdata] at hglobals
      dsimp only at hglobals
      split_ifs at hglobals with hvalid
      · exact ⟨token, signature, rfl, hvalid⟩
      · exact absurd hglobals (h.not_refused hw hidle (by decide) _)
  · rintro ⟨token, signature, hdata, hvalid⟩
    rw [hdata] at hglobals
    dsimp only at hglobals
    rw [if_pos hvalid] at hglobals
    refine ⟨[], _, serves_of_reply hglobals ?_ rfl Sw.ok_lt⟩
    rw [Globals.log_readSecret]
    rfl

end HathorLedger
