import HathorLedger.Run.Buffers
import HathorLedger.Run.Tokens

/-!
# The token registry

Every entry of the registry was delivered by a `SEND_TOKEN_DATA` with a signature. The signature was
valid under the secret of that time. A reset of the token signatures replaces the secret and leaves
the registry as it is, so the entries are valid under the stored secret only as long as no reset is
approved while the registry holds any.

## Main definitions

* `TokenDataCtx.Holds`: all entries of the registry satisfy a predicate.
* `Delivered`: an entry was accepted with a valid signature.
* `RegistryTrusted`: the registry holds only tokens accepted since the last reset.

## Main results

* `registryTrusted_of_reachable`: the registry is trusted.
-/

namespace HathorLedger

variable (sdk : Sdk)

/-! ### Entries -/

/-- All entries of the registry satisfy a predicate, and they fit into its cells. -/
structure TokenDataCtx.Holds (P : TokenSymbol → Prop) (registry : TokenDataCtx) : Prop where
  length : registry.tokens.length = txMaxTokens
  len_le : registry.len ≤ txMaxTokens
  entry : ∀ k < registry.len, P (registry.tokens.getD k {})

/-- The entry that the registry gets for a new token. -/
def TokenDataCtx.newEntry (registry : TokenDataCtx) (token : Token) : TokenSymbol where
  uid := token.uid
  symbol := memmove (registry.tokens.getD registry.len {}).symbol 0 (token.symbolBytes ++ [0])

/-- The entry is the UID and the symbol of an accepted token, whose signature is valid under the
secret. -/
def Delivered (events : List Event) (secret : Bytes) (entry : TokenSymbol) : Prop :=
  ∃ token signature, .tokenAccepted secret token signature ∈ events ∧
    verifyTokenSignature sdk secret token signature = true ∧
    entry.uid = token.uid ∧ token.symbolBytes ++ [0] <+: entry.symbol

variable {sdk} {g g' : Globals} {w : World} {i : Input} {P Q : TokenSymbol → Prop}
  {registry : TokenDataCtx}

namespace TokenDataCtx

theorem holds_empty : Holds P {} := ⟨rfl, Nat.zero_le _, nofun⟩

theorem Holds.mono (h : registry.Holds P) (hPQ : 0 < registry.len → ∀ entry, P entry → Q entry) :
    registry.Holds Q :=
  ⟨h.length, h.len_le, fun k hk => hPQ (Nat.zero_lt_of_lt hk) _ (h.entry k hk)⟩

/-- A new entry leaves the others alone. -/
theorem getD_store {token : Token} {k : ℕ} (hk : k < registry.len) :
    (registry.store token).tokens.getD k {} = registry.tokens.getD k {} := by
  have hne : registry.len ≠ k := by omega
  rw [List.getD_eq_getElem?_getD, List.getD_eq_getElem?_getD, store, List.getElem?_set_ne hne]

theorem getD_store_len {token : Token} (hlen : registry.len < registry.tokens.length) :
    (registry.store token).tokens.getD registry.len {} = registry.newEntry token := by
  rw [List.getD_eq_getElem?_getD, store, List.getElem?_set_self hlen, Option.getD_some, newEntry]

theorem Holds.store (h : registry.Holds P) {token : Token} (hlen : registry.len < txMaxTokens)
    (hnew : P (registry.newEntry token)) : (registry.store token).Holds P := by
  refine ⟨?_, hlen, fun k hk => ?_⟩
  · rw [TokenDataCtx.store, List.length_set, h.length]
  · rcases Nat.lt_succ_iff_lt_or_eq.1 hk with hlt | rfl
    · rw [getD_store hlt]
      exact h.entry k hlt
    · rw [getD_store_len (h.length ▸ hlen)]
      exact hnew

end TokenDataCtx

/-- The token that was accepted is delivered by its own entry. -/
theorem delivered_of_accepted {events : List Event} {secret signature : Bytes} {token : Token}
    (hmem : .tokenAccepted secret token signature ∈ events)
    (hvalid : verifyTokenSignature sdk secret token signature = true) :
    Delivered sdk events secret (registry.newEntry token) :=
  ⟨token, signature, hmem, hvalid, rfl, _, (memmove_zero _ _).symm⟩

/-! ### Resets -/

/-- The user approves a reset of the token signatures. -/
def ApprovesReset (w : World) (i : Input) : Prop :=
  i = .press .approve ∧ w.ui.flow = .resetTokenSignatures

/-- The events since the last approved reset. -/
def sinceReset (events : List Event) : List Event :=
  events.takeWhile (· ≠ .pressed .approve .resetTokenSignatures)

theorem sinceReset_cons {e : Event} (he : e ≠ .pressed .approve .resetTokenSignatures)
    (events : List Event) : sinceReset (e :: events) = e :: sinceReset events :=
  List.takeWhile_cons_of_pos (decide_eq_true he)

/-- The log without silent events has the same resets. -/
theorem sinceReset_filter (events : List Event) :
    sinceReset (events.filter fun e => !e.silent) =
      (sinceReset events).filter fun e => !e.silent := by
  induction events with
  | nil => rfl
  | cons e events ih =>
    by_cases he : e = .pressed .approve .resetTokenSignatures
    · subst he
      rfl
    · rw [sinceReset_cons he, List.filter_cons, List.filter_cons]
      split_ifs with hsilent
      · rw [sinceReset_cons he, ih]
      · exact ih

theorem flow_of_shown_reset {ui : Ui} (h : ui.shown = .resetTokenSignatures) :
    ui.flow = .resetTokenSignatures := by
  unfold Ui.shown at h
  cases hflow : ui.flow <;> rw [hflow] at h <;> first | rfl | cases h

/-- The press that approves a reset. -/
theorem approvesReset_of_emission {rest : List Event}
    (he : Emission sdk g i (.pressed .approve .resetTokenSignatures) rest) :
    i = .press .approve ∧ g.ui.flow = .resetTokenSignatures := by
  generalize hevent : Event.pressed .approve .resetTokenSignatures = e at he
  cases he with
  | incidental h => subst hevent; cases h
  | pressed button hi =>
    obtain ⟨rfl, hscreen⟩ := Event.pressed.inj hevent
    exact ⟨hi, flow_of_shown_reset hscreen.symm⟩
  | address | xpub | signing => cases hevent
  | decoding hq he =>
    subst hevent
    rcases mem_decodeEvents he with h | h | ⟨_, -, h⟩ <;> cases h
  | reviewing hq hready hsome hskipped he | approving hi hflow hskipped he =>
    subst hevent
    cases he

/-- A step that approves no reset keeps the events since the last one. -/
theorem mem_sinceReset_of_emits (h : Emits sdk g i g g')
    (hi : ¬(i = .press .approve ∧ g.ui.flow = .resetTokenSignatures)) {e : Event}
    (he : e ∈ sinceReset g.log) : e ∈ sinceReset g'.log := by
  unfold Emits at h
  generalize g'.log = log' at h
  induction h with
  | refl => exact he
  | cons _ hemission ih =>
    rw [sinceReset_cons fun heq => hi (approvesReset_of_emission (heq ▸ hemission))]
    exact List.mem_cons_of_mem _ ih

theorem mem_sinceReset_of_accepts {secret signature : Bytes} {token : Token}
    (h : Accepts secret token signature g) :
    .tokenAccepted secret token signature ∈ sinceReset g.log := by
  obtain ⟨sent, rest, hlog, hsent⟩ := h
  rw [hlog]
  clear hlog
  induction sent with
  | nil =>
    rw [List.nil_append, sinceReset_cons (e := .tokenAccepted _ _ _) nofun]
    exact List.mem_cons_self
  | cons e sent ih =>
    obtain ⟨he, hmore⟩ := List.forall_mem_cons.1 hsent
    rw [List.cons_append, sinceReset_cons fun heq => by rw [heq] at he; cases he]
    exact List.mem_cons_of_mem _ (ih hmore)

/-! ### Trust -/

variable (sdk) in
/-- The registry holds only tokens that were accepted since the last reset, with signatures that are
valid under the stored secret, and the check of `SIGN_TX` accepts no others. -/
structure RegistryTrusted (w : World) : Prop where
  len_le : w.tokenSymbols.len ≤ txMaxTokens
  delivered : ∀ k < w.tokenSymbols.len,
    Delivered sdk (sinceReset w.trace) w.secret (w.tokenSymbols.tokens.getD k {})
  checked : ∀ uid, findTokenRegistryIndex w.tokenSymbols uid ≠ none → ∃ token signature,
    .tokenAccepted w.secret token signature ∈ sinceReset w.trace ∧
      verifyTokenSignature sdk w.secret token signature = true ∧ token.uid = uid

/-- While the registry holds tokens, a reset is approved, or the stored secret is all zero, so that
the next access replaces it. -/
def ReplacesSecret (w : World) (i : Input) : Prop :=
  0 < w.tokenSymbols.len ∧ (ApprovesReset w i ∨ w.secret.any (· != 0) = false)

instance (w : World) (i : Input) : Decidable (ApprovesReset w i) := inferInstanceAs (Decidable (_ ∧ _))

instance (w : World) (i : Input) : Decidable (ReplacesSecret w i) :=
  inferInstanceAs (Decidable (_ ∧ _))

theorem holds_of_tokenStep (hemits : Emits sdk w.globals i w.globals g')
    (hholds : w.tokenSymbols.Holds (Delivered sdk (sinceReset w.globals.log) w.secret))
    (hguard : ¬ReplacesSecret w i) (h : TokenStep sdk w.globals i g') :
    g'.tokenSymbols.Holds (Delivered sdk (sinceReset g'.log) g'.secret) := by
  -- while the registry holds tokens, neither the secret nor the events since the reset are lost
  have hkept : SecretRead sdk w.secret g'.secret →
      w.tokenSymbols.Holds (Delivered sdk (sinceReset g'.log) g'.secret) := by
    intro hsecret
    refine hholds.mono fun hpos entry hentry => ?_
    obtain ⟨token, signature, hmem, hvalid, huid, hsymbol⟩ := hentry
    have hreset : ¬(i = .press .approve ∧ w.globals.ui.flow = .resetTokenSignatures) :=
      fun h => hguard ⟨hpos, .inl h⟩
    have hsame : g'.secret = w.secret :=
      hsecret.resolve_right fun h => hguard ⟨hpos, .inr h.1⟩
    rw [hsame]
    exact ⟨token, signature, mem_sinceReset_of_emits hemits hreset hmem, hvalid, huid, hsymbol⟩
  cases h with
  | steady h =>
    rw [h.tokenSymbols]
    exact hkept h.secret
  | erased hregistry | overfilled _ _ _ hregistry =>
    rw [hregistry]
    exact TokenDataCtx.holds_empty
  | stored hi hcall hregistry hlen hdata haccepted hvalid hstored haccepts hsecret =>
    rw [hstored]
    refine TokenDataCtx.Holds.store ?_ hlen
      (delivered_of_accepted (mem_sinceReset_of_accepts haccepts) hvalid)
    rcases hregistry with ⟨rfl, -⟩ | ⟨rfl, -⟩
    · exact hkept hsecret
    · exact TokenDataCtx.holds_empty
  | reset hi hflow hregistry hpointers hsecret =>
    rw [hregistry]
    exact hholds.mono fun hpos => absurd ⟨hpos, .inl ⟨hi, hflow⟩⟩ hguard
  | decoded hq hready hregistry hsecret =>
    rw [hregistry]
    exact hkept (.inl hsecret)

/-- In runs that do not replace the secret behind the tokens of the registry, the registry is
trusted. -/
theorem registryTrusted_of_reachable
    (hw : Reachable Booted (step sdk) (fun w i => ¬ReplacesSecret w i) w) : RegistryTrusted sdk w := by
  have hholds : w.tokenSymbols.Holds (Delivered sdk (sinceReset w.globals.log) w.secret) := by
    refine hw.invariant (I := fun w =>
      w.tokenSymbols.Holds (Delivered sdk (sinceReset w.globals.log) w.secret)) ?_ ?_
    · rintro _ ⟨secret, -, rfl⟩
      exact TokenDataCtx.holds_empty
    · intro w i hw hguard hholds
      have hstep := @globalsStep sdk w (sound_of_reachable hw).ready i
      exact holds_of_tokenStep (emits_of_globalsStep hstep) hholds hguard
        (tokenStep_of_globalsStep hstep)
  have htrace : ∀ e ∈ sinceReset w.globals.log, e ∈ sinceReset w.trace := fun e he => by
    rw [show w.globals.log = w.trace.filter fun e => !e.silent from rfl, sinceReset_filter] at he
    exact (List.mem_filter.1 he).1
  have hdelivered : ∀ k < w.tokenSymbols.len,
      Delivered sdk (sinceReset w.trace) w.secret (w.tokenSymbols.tokens.getD k {}) := by
    intro k hk
    obtain ⟨token, signature, hmem, hentry⟩ := hholds.entry k hk
    exact ⟨token, signature, htrace _ hmem, hentry⟩
  refine ⟨hholds.len_le, hdelivered, fun uid hfound => ?_⟩
  obtain ⟨k, hk⟩ := Option.ne_none_iff_exists'.1 hfound
  obtain ⟨hlt, huid⟩ := findTokenRegistryIndex_eq_some hk
  obtain ⟨token, signature, hmem, hvalid, hentry, -⟩ := hdelivered k hlt
  exact ⟨token, signature, hmem, hvalid, hentry.symm.trans huid⟩

/-- A token is sent. -/
def sampleSent : List Input := [.command Ins.sendTokenData 0 0 sampleSignedToken]

theorem registryTrusted_sampleSent :
    RegistryTrusted Sdk.sample (run Sdk.sample sampleBoot sampleSent) := by
  have hfollows : Follows (step Sdk.sample) (fun w i => ¬ReplacesSecret w i) sampleBoot sampleSent := by
    decide +kernel
  exact registryTrusted_of_reachable ((Reachable.start booted_sampleBoot).follow hfollows)

/-- A token is sent, and then the user approves a reset. -/
def sampleReset : World :=
  run Sdk.sample sampleBoot
    (sampleSent ++ [.command Ins.resetTokenSignatures 0 0 [], .press .approve])

/-- The token is still in the registry, although the secret is another one. -/
theorem not_registryTrusted_sampleReset :
    sampleReset.secret ≠ sampleBoot.secret ∧
      findTokenRegistryIndex sampleReset.tokenSymbols (List.replicate tokenUidLen 0) = some 0 ∧
      ¬RegistryTrusted Sdk.sample sampleReset := by
  have hfound : findTokenRegistryIndex sampleReset.tokenSymbols (List.replicate tokenUidLen 0) =
      some 0 := by decide +kernel
  have hnone : ∀ e ∈ sinceReset sampleReset.trace, e.response.isSome ∨ e.silent = true := by
    decide +kernel
  refine ⟨by decide +kernel, hfound, fun h => ?_⟩
  obtain ⟨token, signature, hmem, -⟩ := h.checked _ (Option.isSome_iff_ne_none.1 (by rw [hfound]; rfl))
  rcases hnone _ hmem with hsent | hsilent
  · cases hsent
  · cases hsilent

end HathorLedger
