import HathorLedger.Run.Emissions
import HathorLedger.Run.Exchange

/-!
# What steps do to tokens

Tokens live in three places: the registry that `SEND_TOKEN_DATA` fills, the pointers into the
registry that the decoder collects for the UIDs of a transaction, and the secret under which token
signatures are made. This file says once for every step what it does to the three.

## Main definitions

* `Steady`: the registry is the same.
* `TokenStep`: what a step does to the registry, the pointers and the secret.

## Main results

* `tokenStep_of_globalsStep`: every step does one of these things.
-/

namespace HathorLedger

variable (sdk : Sdk)

/-! ### Steps -/

/-- The secret was kept, or it was all zero and a new one was drawn. -/
def SecretRead (s s' : Bytes) : Prop :=
  s' = s ∨ s.any (· != 0) = false ∧ ∃ old n, s' = memmove old 0 ((sdk.rng n).take secretLen)

/-- What was hashed since the last first chunk is the same, and whether that chunk could be read. -/
structure SameBytes (k k' : History) : Prop where
  hashed : k'.hashed = k.hashed
  firstChunkRead : k'.firstChunkRead = k.firstChunkRead

/-- The pointers into the registry are gone, or kept together with what was hashed. -/
def PointersKept (g g' : Globals) : Prop :=
  g'.ctx.txInfo.tokens = [] ∨
    g'.ctx.txInfo.tokens = g.ctx.txInfo.tokens ∧ SameBytes g.history g'.history

/-- The registry is the same, and the secret was read at most. -/
structure Steady (g g' : Globals) : Prop where
  tokenSymbols : g'.tokenSymbols = g.tokenSymbols
  secret : SecretRead sdk g.secret g'.secret
  pointers : PointersKept g g'

/-- The log has gone on by a token that was accepted, and responses at most. -/
def Accepts (secret : Bytes) (token : Token) (signature : Bytes) (g : Globals) : Prop :=
  ∃ sent rest, g.log = sent ++ .tokenAccepted secret token signature :: rest ∧
    ∀ e ∈ sent, e.response.isSome

/-- What a step does to the registry, the pointers into it and the secret. -/
inductive TokenStep (g : Globals) (i : Input) (g' : Globals) : Prop
  | steady (h : Steady sdk g g')
  | erased (hregistry : g'.tokenSymbols = {}) (hsecret : SecretRead sdk g.secret g'.secret)
    (htokens : g'.ctx.txInfo.tokens = [])
  /-- The registry is erased because it is full, behind the pointers of a transaction. -/
  | overfilled {apdu data : Bytes} (hi : i = .apdu apdu)
    (hcall : callOf apdu = some (.sendTokenData false data))
    (hfull : txMaxTokens ≤ g.tokenSymbols.len) (hregistry : g'.tokenSymbols = {})
    (hsecret : g'.secret = g.secret) (hpointers : PointersKept g g')
  | stored {apdu data : Bytes} {first : Bool} (hi : i = .apdu apdu)
    (hcall : callOf apdu = some (.sendTokenData first data)) {registry : TokenDataCtx}
    (hregistry : registry = g.tokenSymbols ∧ PointersKept g g' ∨
      registry = {} ∧ g'.ctx.txInfo.tokens = [])
    (hlen : registry.len < txMaxTokens) {token : Token} {signature : Bytes}
    (hdata : signedToken data = some (token, signature)) (haccepted : token.Accepted)
    (hvalid : verifyTokenSignature sdk g'.secret token signature = true)
    (hstored : g'.tokenSymbols = registry.store token)
    (haccepts : Accepts g'.secret token signature g')
    (hsecret : SecretRead sdk g.secret g'.secret)
  | reset (hi : i = .press .approve) (hflow : g.ui.flow = .resetTokenSignatures)
    (hregistry : g'.tokenSymbols = g.tokenSymbols) (hpointers : PointersKept g g')
    (hsecret : ∃ old n, g'.secret = memmove old 0 ((sdk.rng n).take secretLen))
  | decoded {g₁ : Globals} (hq : Chunked g i g₁)
    (hready : (decodeElements sdk g₁.tokenSymbols g₁.ctx.txInfo).1 = TxState.ready)
    (hregistry : g'.tokenSymbols = g.tokenSymbols) (hsecret : g'.secret = g.secret)
    (hregistry₁ : g₁.tokenSymbols = g.tokenSymbols)
    (hpointers : PointersKept (g₁.decode sdk) g')

variable {sdk} {g₀ g g' g'' g₁ : Globals} {i : Input} {s s' s'' : Bytes}

/-! ### The operations -/

section Operations

theorem SecretRead.refl (s : Bytes) : SecretRead sdk s s := .inl rfl

theorem SecretRead.trans (h : SecretRead sdk s s') (h' : SecretRead sdk s' s'') :
    SecretRead sdk s s'' := by
  rcases h with rfl | ⟨hzero, hdrawn⟩
  · exact h'
  · rcases h' with rfl | ⟨-, hdrawn'⟩
    · exact .inr ⟨hzero, hdrawn⟩
    · exact .inr ⟨hzero, hdrawn'⟩

theorem SameBytes.trans {k k' k'' : History} (h : SameBytes k k') (h' : SameBytes k' k'') :
    SameBytes k k'' :=
  ⟨h'.hashed.trans h.hashed, h'.firstChunkRead.trans h.firstChunkRead⟩

theorem PointersKept.trans (h : PointersKept g g') (h' : PointersKept g' g'') :
    PointersKept g g'' := by
  rcases h' with hnone | ⟨htokens', hhashed'⟩
  · exact .inl hnone
  · rcases h with hnone | ⟨htokens, hhashed⟩
    · exact .inl (htokens'.trans hnone)
    · exact .inr ⟨htokens'.trans htokens, hhashed.trans hhashed'⟩

theorem Steady.trans (h : Steady sdk g g') (h' : Steady sdk g' g'') : Steady sdk g g'' :=
  ⟨h'.tokenSymbols.trans h.tokenSymbols, h.secret.trans h'.secret, h.pointers.trans h'.pointers⟩

/-- The events that change what was hashed. -/
def Event.hashes : Event → Bool
  | .wiped | .txInit | .hashed _ | .firstChunkRead => true
  | _ => false

theorem sameBytes_append {events log : List Event} (h : ∀ e ∈ events, e.hashes = false) :
    SameBytes (history log) (history (events ++ log)) := by
  induction events with
  | nil => exact ⟨rfl, rfl⟩
  | cons e events ih =>
    obtain ⟨he, hrest⟩ := List.forall_mem_cons.1 h
    refine (ih hrest).trans ?_
    cases e with
    | wiped | txInit | hashed | firstChunkRead => cases he
    | pressed button => cases button <;> exact ⟨rfl, rfl⟩
    | shown screen => cases screen <;> exact ⟨rfl, rfl⟩
    | _ => exact ⟨rfl, rfl⟩

theorem pointersKept_of_log (events : List Event) (hlog : g'.log = events ++ g.log)
    (hevents : ∀ e ∈ events, e.hashes = false)
    (htokens : g'.ctx.txInfo.tokens = g.ctx.txInfo.tokens) : PointersKept g g' := by
  refine .inr ⟨htokens, ?_⟩
  change SameBytes (history g.log) (history g'.log)
  rw [hlog]
  exact sameBytes_append hevents

theorem steady_of_log (events : List Event) (hlog : g'.log = events ++ g.log)
    (hevents : ∀ e ∈ events, e.hashes = false) (hregistry : g'.tokenSymbols = g.tokenSymbols)
    (hsecret : g'.secret = g.secret)
    (htokens : g'.ctx.txInfo.tokens = g.ctx.txInfo.tokens) : Steady sdk g g' :=
  ⟨hregistry, .inl hsecret, pointersKept_of_log events hlog hevents htokens⟩

/-- Steps that leave no pointers behind. -/
theorem steady_of_nil (hregistry : g'.tokenSymbols = g.tokenSymbols) (hsecret : g'.secret = g.secret)
    (htokens : g'.ctx.txInfo.tokens = []) : Steady sdk g g' :=
  ⟨hregistry, .inl hsecret, .inl htokens⟩

theorem hashes_of_response {e : Event} (he : e.response.isSome) : e.hashes = false := by
  cases e <;> first | rfl | cases he

/-- Only responses were sent. -/
structure Sent (g g' : Globals) : Prop where
  ctx : g'.ctx = g.ctx
  tokenSymbols : g'.tokenSymbols = g.tokenSymbols
  secret : g'.secret = g.secret
  log : ∃ sent, g'.log = sent ++ g.log ∧ ∀ e ∈ sent, e.response.isSome

theorem sent_reply (rdata : Option Bytes) (sw : ℕ) (g : Globals) : Sent g (g.reply rdata sw) := by
  refine ⟨rfl, rfl, rfl, _, g.log_reply rdata sw, fun e he => ?_⟩
  split_ifs at he
  · rw [List.mem_singleton.1 he]
    rfl
  · cases he

theorem sent_openFlow {flow : Flow} (hflow : flow.hasApprove = false) : Sent g (g.openFlow flow) :=
  ⟨rfl, rfl, rfl, [], g.log_openFlow hflow, by simp⟩

theorem sent_mainLoop (g : Globals) : Sent g g.mainLoop ∨ g.mainLoop = g.restart := by
  unfold Globals.mainLoop
  split
  · refine .inl ⟨rfl, rfl, rfl, if g.io.outputLen = 0 then []
      else [.sent (g.io.apduBuffer.take g.io.outputLen)], ?_, ?_⟩
    · dsimp only
      split_ifs <;> rfl
    · split_ifs <;> simp [Event.response]
  · exact .inl ⟨rfl, rfl, rfl, [], rfl, by simp⟩
  · exact .inr rfl

theorem Sent.pointers (h : Sent g g') : PointersKept g g' := by
  obtain ⟨sent, hlog, hsent⟩ := h.log
  exact pointersKept_of_log sent hlog (fun e he => hashes_of_response (hsent e he)) (by rw [h.ctx])

theorem Sent.steady (h : Sent g g') : Steady sdk g g' := ⟨h.tokenSymbols, .inl h.secret, h.pointers⟩

theorem steady_reply (rdata : Option Bytes) (sw : ℕ) (g : Globals) :
    Steady sdk g (g.reply rdata sw) :=
  (sent_reply rdata sw g).steady

theorem steady_cancel (g : Globals) : Steady sdk g g.cancel := steady_of_nil rfl rfl rfl

theorem secretRead_readSecret (g : Globals) : SecretRead sdk g.secret (g.readSecret sdk).secret := by
  unfold Globals.readSecret
  split_ifs with hsome
  · exact .inl rfl
  · exact .inr ⟨Bool.eq_false_iff.2 hsome, g.secret, g.draws, rfl⟩

theorem steady_readSecret (g : Globals) : Steady sdk g (g.readSecret sdk) :=
  ⟨Globals.tokenSymbols_readSecret sdk g, secretRead_readSecret g,
    pointersKept_of_log [] (Globals.log_readSecret sdk g) (by simp)
      (by rw [Globals.ctx_readSecret])⟩

theorem steady_press (button : Button) (g : Globals) : Steady sdk g (g.press button) :=
  steady_of_log [.pressed button g.ui.shown] rfl (by simp [Event.hashes]) rfl rfl rfl

theorem steady_displayed {n d c : ℕ} (h : Displayed sdk ((g.readChanges n).review d c) g') :
    Steady sdk g g' := by
  have hreview : Steady sdk g ((g.readChanges n).review d c) :=
    steady_of_log (List.replicate n (.changesRead g.ctx.txInfo.changeLen)) rfl
      (fun e he => by rw [List.eq_of_mem_replicate he]; rfl) rfl rfl rfl
  refine hreview.trans ?_
  cases h with
  | asked h =>
    cases h with
    | send => exact steady_of_log [.shown .confirmTx] rfl (by simp [Event.hashes]) rfl rfl rfl
    | refused => exact (steady_cancel _).trans (steady_reply _ _ _)
    | more =>
      have hmore : Steady sdk ((g.readChanges n).review d c) { (g.readChanges n).review d c with
          ctx.txInfo.displayIndex := 0, ctx.txInfo.bufferOutputLen := 0, ui.flow := .menuMain } :=
        steady_of_log [] rfl (by simp) rfl rfl rfl
      exact hmore.trans (steady_reply _ _ _)
  | output hc hd =>
    refine steady_of_log (.shown _ :: Globals.tokenReads (displayedOutput sdk
      ((g.readChanges n).review d c).ctx.txInfo)) rfl (fun e he => ?_) rfl rfl rfl
    rcases List.mem_cons.1 he with rfl | he
    · rfl
    · unfold Globals.tokenReads at he
      split_ifs at he with hindex
      · cases he
      · rw [List.mem_singleton.1 he]
        rfl

end Operations

/-! ### Composing steps -/

theorem TokenStep.sent (h : TokenStep sdk g i g') (hsent : Sent g' g'') : TokenStep sdk g i g'' := by
  cases h with
  | steady h => exact .steady (h.trans hsent.steady)
  | erased hregistry hsecret htokens =>
    exact .erased (hsent.tokenSymbols.trans hregistry) (hsent.secret ▸ hsecret)
      (by rw [hsent.ctx]; exact htokens)
  | overfilled hi hcall hfull hregistry hsecret hpointers =>
    exact .overfilled hi hcall hfull (hsent.tokenSymbols.trans hregistry)
      (hsent.secret.trans hsecret) (hpointers.trans hsent.pointers)
  | stored hi hcall hregistry hlen hdata haccepted hvalid hstored haccepts hsecret =>
    obtain ⟨more, hlog, hmore⟩ := hsent.log
    obtain ⟨sent, rest, heq, hresponses⟩ := haccepts
    refine .stored hi hcall ?_ hlen hdata haccepted (hsent.secret ▸ hvalid)
      (hsent.tokenSymbols.trans hstored) ⟨more ++ sent, rest, ?_, ?_⟩ (hsent.secret ▸ hsecret)
    · exact hregistry.imp (And.imp_right fun h => h.trans hsent.pointers)
        (And.imp_right fun h => by rw [hsent.ctx]; exact h)
    · rw [hlog, heq, hsent.secret, List.append_assoc]
    · exact fun e he => (List.mem_append.1 he).elim (hmore e) (hresponses e)
  | reset hi hflow hregistry hpointers hsecret =>
    exact .reset hi hflow (hsent.tokenSymbols.trans hregistry) (hpointers.trans hsent.pointers)
      (hsent.secret ▸ hsecret)
  | decoded hq hready hregistry hsecret hregistry₁ hpointers =>
    exact .decoded hq hready (hsent.tokenSymbols.trans hregistry) (hsent.secret.trans hsecret)
      hregistry₁ (hpointers.trans hsent.pointers)

theorem TokenStep.secret {apdu : Bytes} (h : TokenStep sdk g (.apdu apdu) g') :
    SecretRead sdk g.secret g'.secret := by
  cases h with
  | steady h => exact h.secret
  | erased _ hsecret | stored _ _ _ _ _ _ _ _ _ hsecret => exact hsecret
  | overfilled _ _ _ _ hsecret | decoded _ _ _ hsecret => exact .inl hsecret
  | reset hi => cases hi

theorem TokenStep.resume {apdu : Bytes} {ends : Bool} (h : TokenStep sdk g (.apdu apdu) g') :
    TokenStep sdk g (.apdu apdu) (g'.resume ends) := by
  have hrestart : TokenStep sdk g (.apdu apdu) g'.restart := .erased rfl h.secret rfl
  cases ends with
  | true => exact hrestart
  | false =>
    change TokenStep sdk g (.apdu apdu) g'.mainLoop
    rcases sent_mainLoop g' with hsent | hloop
    · exact h.sent hsent
    · rw [hloop]
      exact hrestart

/-! ### Commands -/

section Commands

theorem steady_receive (apdu : Bytes) (g : Globals) : Steady sdk g (g.receive apdu) :=
  steady_of_log [.received apdu] rfl (by simp [Event.hashes]) rfl rfl rfl

theorem steady_requested {flow : Flow} {paths : List Bip32Path} {accepted : Prop}
    {P : Globals → Prop} {ends : Bool} (h : Requested flow paths accepted P g ends g') :
    Steady sdk g g' := by
  have hidle : ∀ {g₁}, Idle paths g g₁ → Steady sdk g g₁ := fun hidle => by
    obtain ⟨buffer, hrecord⟩ := hidle.record
    exact steady_of_nil hidle.tokenSymbols hidle.secret (by rw [hrecord])
  cases h with
  | rejected g₁ sw h hidle₁ => exact (hidle hidle₁).trans (steady_reply _ _ _)
  | opened _ h hidle₁ => exact hidle hidle₁

theorem tokens_finishSighashAll {t t' : TxInfo} (h : finishSighashAll sdk t = some t') :
    t'.tokens = t.tokens := by
  obtain ⟨sighashAll, sha256, rfl⟩ := finishSighashAll_eq h
  rfl

theorem steady_signStep {ends : Bool} (h : SignStep sdk g ends g') : Steady sdk g g' := by
  have hsteady : ∀ (t : TxInfo) (events : List Event), t.tokens = g.ctx.txInfo.tokens →
      (∀ e ∈ events, e.hashes = false) →
      Steady sdk g { g with ctx.txInfo := t, log := events ++ g.log } := fun _ _ htokens hevents =>
    steady_of_log _ rfl hevents rfl rfl htokens
  cases h with
  | empty => exact steady_reply _ _ _
  | refused =>
    exact (hsteady g.ctx.txInfo [.derived g.ctx.bip32Path] rfl
      (by simp [Event.hashes])).trans (steady_reply _ _ _)
  | finished h t hfinish =>
    exact (hsteady t [.hashFinished, .derived g.ctx.bip32Path]
      (tokens_finishSighashAll hfinish) (by simp [Event.hashes])).trans (steady_reply _ _ _)
  | signed h t hfinish privateKey chainCode signature =>
    exact (hsteady t [.signed _ _ _, .hashFinished, .derived g.ctx.bip32Path]
      (tokens_finishSighashAll hfinish) (by simp [Event.hashes])).trans (steady_reply _ _ _)

theorem Queued.aside {data : Bytes} {chunk : ℕ} (h : Queued data chunk g g₁) :
    g₁.tokenSymbols = g.tokenSymbols ∧ g₁.secret = g.secret := by
  cases h with
  | first | next => exact ⟨rfl, rfl⟩

theorem tokenStep_of_decoded {apdu : Bytes} {ends : Bool} (hq : Chunked g (.apdu apdu) g₁)
    (hregistry : g₁.tokenSymbols = g.tokenSymbols) (hsecret : g₁.secret = g.secret)
    (h : Decoded sdk g₁ ends g') : TokenStep sdk g (.apdu apdu) (g'.resume ends) := by
  have hdecoded : (decodeElements sdk g₁.tokenSymbols g₁.ctx.txInfo).1 = TxState.ready →
      g'.secret = g₁.secret → Steady sdk (g₁.decode sdk) g' → TokenStep sdk g (.apdu apdu) g' :=
    fun hready hsame hsteady => .decoded hq hready (hsteady.tokenSymbols.trans hregistry)
      (hsame.trans hsecret) hregistry hsteady.pointers
  cases h with
  | invalid => exact .resume (.steady (steady_of_nil hregistry hsecret rfl))
  | failed => exact .erased rfl (.inl hsecret) rfl
  | silent hready => exact .resume (hdecoded hready rfl (steady_reply _ _ _))
  | displayed hready hsome n d c _ hdisplayed =>
    refine .resume (hdecoded hready ?_ (steady_displayed hdisplayed))
    cases hdisplayed with
    | asked h => cases h <;> rfl
    | output => rfl

theorem tokenStep_of_stageStep {apdu data : Bytes} {stage chunk : ℕ} {ends : Bool}
    (hcall : callOf apdu = some (.signTx data stage chunk))
    (h : StageStep sdk data stage chunk (g.receive apdu) ends g') :
    TokenStep sdk g (.apdu apdu) (g'.resume ends) := by
  have hreceive := @steady_receive sdk apdu g
  have hreview : ∀ path, Steady sdk (g.receive apdu)
      { (g.receive apdu).restartReview with ctx.bip32Path := path } := fun path =>
    steady_of_log [] rfl (by simp) rfl rfl rfl
  cases h with
  | cancelled =>
    exact .resume (.steady (hreceive.trans ((steady_cancel _).trans (steady_reply _ _ _))))
  | refused => exact .resume (.steady (hreceive.trans ((hreview _).trans (steady_reply _ _ _))))
  | misread hstage hstate path =>
    exact .resume (.steady (hreceive.trans ((hreview path).trans (steady_reply _ _ _))))
  | signing hstage hstate path rest haccepted _ _ h =>
    exact .resume (.steady (hreceive.trans ((hreview path).trans (steady_signStep h))))
  | wiped => exact .resume (.steady (hreceive.trans (steady_of_nil rfl rfl rfl)))
  | failed hstage hchunk hstate happroved g₁ sw hfailed =>
    have hnone : Steady sdk (g.receive apdu) g₁ := by
      cases hfailed <;> exact steady_of_nil rfl rfl rfl
    exact .resume (.steady (hreceive.trans (hnone.trans (steady_reply _ _ _))))
  | received hstage happroved hfirst g₁ _ _ hq hd =>
    subst hstage
    obtain ⟨hregistry, hsecret⟩ := hq.aside
    exact tokenStep_of_decoded ⟨apdu, data, chunk, rfl, hcall, hq⟩ hregistry hsecret hd

/-- What `SEND_TOKEN_DATA` does once it has looked at `p1`. -/
theorem tokenStep_of_registryStep {apdu data : Bytes} {first : Bool} (hi : i = .apdu apdu)
    (hcall : callOf apdu = some (.sendTokenData first data)) (hsecret : g₀.secret = g.secret)
    (hregistry : g₀.tokenSymbols = g.tokenSymbols ∧ PointersKept g g₀ ∧ first = false ∨
      g₀.tokenSymbols = {} ∧ g₀.ctx.txInfo.tokens = [])
    (h : RegistryStep sdk data g₀ g') : TokenStep sdk g i g' := by
  have hsteady : Steady sdk g₀ g' → TokenStep sdk g i g' := fun h => by
    have hread : SecretRead sdk g.secret g'.secret := hsecret ▸ h.secret
    rcases hregistry with ⟨hsame, hpointers, -⟩ | ⟨hnone, htokens⟩
    · exact .steady ⟨h.tokenSymbols.trans hsame, hread, hpointers.trans h.pointers⟩
    · refine .erased (h.tokenSymbols.trans hnone) hread ?_
      rcases h.pointers with hgone | ⟨hkept, -⟩
      · exact hgone
      · exact hkept.trans htokens
  cases h with
  | full hfull =>
    rcases hregistry with ⟨hsame, hpointers, hfirst⟩ | ⟨hnone, -⟩
    · subst hfirst
      have hreply : PointersKept g₀ ({ g₀ with tokenSymbols := {} }.reply none Sw.wrongDataLength) :=
        (sent_reply none Sw.wrongDataLength { g₀ with tokenSymbols := {} }).pointers
      exact .overfilled hi hcall (hsame ▸ hfull) rfl hsecret (hpointers.trans hreply)
    · rw [hnone] at hfull
      exact absurd hfull (by decide)
  | malformed => exact hsteady (steady_reply _ _ _)
  | invalid => exact hsteady ((steady_readSecret _).trans (steady_reply _ _ _))
  | stored hlen token signature hdata haccepted hvalid =>
    have hread : SecretRead sdk g.secret (g₀.readSecret sdk).secret :=
      hsecret ▸ secretRead_readSecret g₀
    have hstored : TokenStep sdk g i { g₀.readSecret sdk with
        tokenSymbols := g₀.tokenSymbols.store token
        log := .tokenAccepted (g₀.readSecret sdk).secret token signature :: g₀.log } := by
      refine .stored hi hcall ?_ hlen hdata haccepted hvalid rfl ⟨[], _, rfl, by simp⟩ hread
      rcases hregistry with ⟨hsame, hpointers, -⟩ | ⟨hnone, htokens⟩
      · refine .inl ⟨hsame, hpointers.trans (pointersKept_of_log
          [.tokenAccepted (g₀.readSecret sdk).secret token signature] rfl (by simp [Event.hashes]) ?_)⟩
        rw [Globals.ctx_readSecret]
      · refine .inr ⟨hnone, ?_⟩
        rw [Globals.ctx_readSecret]
        exact htokens
    exact hstored.sent (sent_reply _ _ _)

theorem tokenStep_of_handled {apdu : Bytes} {call : Call} {ends : Bool}
    (hcall : callOf apdu = some call) (h : Handled sdk (g.receive apdu) call ends g') :
    TokenStep sdk g (.apdu apdu) (g'.resume ends) := by
  have hreceive := @steady_receive sdk apdu g
  cases h with
  | getVersion => exact .resume (.steady (hreceive.trans (steady_reply _ _ _)))
  | getAddress data _ _ h => exact .resume (.steady (hreceive.trans (steady_requested h)))
  | getXpub data _ _ h => exact .resume (.steady (hreceive.trans (steady_requested h)))
  | signTx data stage chunk _ _ h => exact tokenStep_of_stageStep hcall h
  | signTokenData data _ _ h => exact .resume (.steady (hreceive.trans (steady_requested h)))
  | sendFirst data _ h =>
    refine .resume (tokenStep_of_registryStep rfl hcall ?_ (.inr ?_) h)
    · rfl
    · exact ⟨rfl, rfl⟩
  | sendNext data _ h =>
    refine .resume (tokenStep_of_registryStep rfl hcall ?_ (.inl ?_) h)
    · rfl
    · exact ⟨rfl, hreceive.pointers, rfl⟩
  | verifyTokenSignature data =>
    have hwipe : Steady sdk g (g.receive apdu).wipe := steady_of_nil rfl rfl rfl
    refine .resume (.steady (hwipe.trans ?_))
    unfold Globals.verify
    split
    · exact steady_reply _ _ _
    · exact (steady_readSecret _).trans (steady_reply _ _ _)
  | resetTokenSignatures =>
    exact .resume (.steady (hreceive.trans (steady_of_log [] rfl (by simp) rfl rfl rfl)))

end Commands

/-! ### Presses and steps -/

theorem tokenStep_of_pressStep {button : Button} (h : PressStep sdk g button g') :
    TokenStep sdk g (.press button) g' := by
  have hpress : ∀ b : Button, Steady sdk g (g.press b) := fun b => steady_press b g
  cases h with
  | inactive button => exact .steady (hpress button)
  | approveTx =>
    have happroved : Steady sdk g { g.press .approve with ctx.state := .approved } :=
      (hpress .approve).trans (steady_of_log [] rfl (by simp) rfl rfl rfl)
    exact .steady (happroved.trans ((steady_reply _ _ _).trans (sent_openFlow rfl).steady))
  | approveOutput hflow n d c _ hdisplayed =>
    exact .steady ((hpress .approve).trans (steady_displayed (g := g.press .approve) hdisplayed))
  | approveXpub =>
    have hsent : Steady sdk g { g.press .approve with
        log := .xpubSent g.ctx.pkInfo :: (g.press .approve).log } :=
      (hpress .approve).trans (steady_of_log [.xpubSent _] rfl (by simp [Event.hashes]) rfl rfl rfl)
    exact .steady (hsent.trans ((steady_reply _ _ _).trans (sent_openFlow rfl).steady))
  | approveToken hflow secret =>
    have hsigned : Steady sdk ((g.press .approve).readSecret sdk) {
        (g.press .approve).readSecret sdk with
        log := .tokenSigned secret g.ctx.token :: (g.press .approve).log } := by
      refine steady_of_log [.tokenSigned secret g.ctx.token] ?_ (by simp [Event.hashes]) rfl rfl rfl
      rw [Globals.log_readSecret]
      rfl
    exact .steady ((hpress .approve).trans ((steady_readSecret _).trans
      (hsigned.trans ((steady_reply _ _ _).trans (sent_openFlow rfl).steady))))
  | approveAddress =>
    exact .steady ((hpress .approve).trans ((steady_reply _ _ _).trans (sent_openFlow rfl).steady))
  | approveReset hflow =>
    have hreset : TokenStep sdk g (.press .approve) ((g.press .approve).generateSecret sdk) :=
      .reset rfl hflow rfl ((hpress .approve).pointers.trans (pointersKept_of_log [] rfl (by simp) rfl))
        ⟨_, _, rfl⟩
    exact (hreset.sent (sent_reply _ _ _)).sent (sent_openFlow rfl)
  | reject =>
    exact .steady ((hpress .reject).trans ((steady_cancel _).trans (steady_reply _ _ _)))
  | rejectReset =>
    exact .steady ((hpress .reject).trans ((steady_reply _ _ _).trans (sent_openFlow rfl).steady))
  | exitToMenu => exact .steady (steady_of_nil rfl rfl rfl)
  | quit => exact .erased rfl (.refl _) rfl
  | about => exact .steady ((hpress .about).trans (sent_openFlow rfl).steady)
  | back => exact .steady ((hpress .back).trans (sent_openFlow rfl).steady)

/-- What every step does to tokens. -/
theorem tokenStep_of_globalsStep (h : GlobalsStep sdk g i g') : TokenStep sdk g i g' := by
  cases h with
  | command apdu ends g' h =>
    have hreceive := @steady_receive sdk apdu g
    cases h with
    | malformed | rejected =>
      exact .resume (.steady (hreceive.trans (steady_reply _ _ _)))
    | handled call hcall _ _ h => exact tokenStep_of_handled hcall h
  | press button g' h => exact tokenStep_of_pressStep h
  | ioReset => exact .erased rfl (.refl _) rfl

end HathorLedger
