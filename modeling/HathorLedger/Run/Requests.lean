import HathorLedger.Run.History
import HathorLedger.Token.Signature

/-!
# The commands that wipe the context

`GET_ADDRESS`, `GET_XPUB`, `SIGN_TOKEN_DATA` and `VERIFY_TOKEN_SIGNATURE` start by wiping the
context, and `SEND_TOKEN_DATA` does so when it starts a new list of tokens. Whatever they do then,
the context holds no transaction afterwards (`Idle`). The first three end by opening a screen of
their own, unless their request is rejected, and then the screen that was open stays.

## Main definitions

* `Idle`: the context was wiped and holds no transaction.
* `Requested`: the outcome of a command that asks the user.
* `AddressRequest`, `XpubRequest`, `TokenRequest`: the data that the commands accept.

## Main results

* `wp_handlerGetAddress`, `wp_handlerGetXpub`, `wp_handlerSignTokenData`,
  `wp_handlerVerifyTokenSignature`, `wp_handlerSendTokenData`: the outcomes.
-/

namespace HathorLedger

variable (sdk : Sdk)

/-! ### Outcomes -/

/-- No transaction was started since the context was last wiped. -/
structure History.Blank (h : History) : Prop where
  hashed : h.hashed = []
  firstChunkRead : h.firstChunkRead = false
  hashFinished : h.hashFinished = false
  approved : h.approved = []
  sendShown : h.sendShown = none
  sendApproved : h.sendApproved = none

/-- The events of the commands that are not `SIGN_TX`, with the paths that they may derive. -/
def Event.ofRequest (paths : List Bip32Path) : Event → Bool
  | .wiped | .tokenAccepted _ _ _ | .tokenShown _ | .xpubDerived _ _ => true
  | .derived path => path ∈ paths
  | _ => false

/-- The log has gone on by events of commands that are not `SIGN_TX`. -/
def Globals.Requests (paths : List Bip32Path) (g g' : Globals) : Prop :=
  ∃ events, g'.log = events ++ g.log ∧ ∀ e ∈ events, e.ofRequest paths = true

/-- Requests leave alone what is outside the context and the screen. -/
structure Aside (g g' : Globals) : Prop where
  tokenSymbols : g'.tokenSymbols = g.tokenSymbols
  secret : g'.secret = g.secret
  draws : g'.draws = g.draws
  io : g'.io = g.io

/-- The context was wiped, and holds no transaction. -/
structure Idle (paths : List Bip32Path) (g g' : Globals) : Prop extends Aside g g' where
  state : g'.ctx.state = .none
  reqType : g'.ctx.reqType ≠ .confirmTransaction
  blank : g'.history.Blank
  record : ∃ buffer, g'.ctx.txInfo = { buffer }
  log : g.Requests paths g'

/-- The callback that belongs to a flow with an approve step. -/
def Flow.callback : Flow → Callback
  | .confirmTx => .txConfirm
  | .txOutput => .confirmOutput
  | .xpub => .confirmXpub
  | .address => .confirmAddress
  | .resetTokenSignatures => .confirmResetTokenSignatures
  | .signTokenData => .signTokenData
  | .menuMain | .menuAbout | .processing => .null

/-- The screen of the flow is open, with its own callback. -/
structure Opened (f : Flow) (ui : Ui) : Prop where
  flow : ui.flow = f
  validateCallback : ui.validateCallback = f.callback

/-- The outcome of a command that asks the user on a screen of its own if it accepts its data, and
whether the app ends with it. Of the globals behind the screen `P` holds. -/
inductive Requested (flow : Flow) (paths : List Bip32Path) (accepted : Prop) (P : Globals → Prop)
    (g : Globals) : Bool → Globals → Prop
  /-- A rejected request leaves the screen as it was. -/
  | rejected (g₁ : Globals) (sw : ℕ) (h : ¬accepted) (hidle : Idle paths g g₁)
    (hui : g₁.ui = g.ui) (ends : Bool) (hends : ends = true → g.io.state = .ready) :
    Requested flow paths accepted P g ends (g₁.reply none sw)
  | opened (g' : Globals) (h : accepted) (hidle : Idle paths g g') (hopened : Opened flow g'.ui)
    (hP : P g') : Requested flow paths accepted P g false g'

/-! ### Requests -/

/-- The path in the data of a command, if it is accepted. -/
def requestedPath (data : Bytes) : Option Bip32Path :=
  let (accepted, path, _) := (Buffer.ofBytes data).readBip32Path {}
  if accepted then some path else none

/-- The paths that `GET_XPUB` derives: the accepted path and that of its parent. -/
def requestedPaths (data : Bytes) : List Bip32Path :=
  match requestedPath data with
  | none => []
  | some path => [path, parentPath path]

/-- `derive_address` succeeds for the path. -/
def AddressDerivable (path : Bip32Path) : Prop :=
  ∃ publicKey chainCode, deriveKey sdk path = some (publicKey, chainCode) ∧
    publicKey.length ≤ rawPubkeyLen

/-- `derive_xpub` succeeds for the path. -/
def XpubDerivable (path : Bip32Path) : Prop :=
  AddressDerivable sdk path ∧ ∃ fingerprint, parentFingerprint sdk path = some fingerprint

/-- `GET_ADDRESS` accepts the data: the path can be read and its key derived. -/
def AddressRequest (data : Bytes) : Prop :=
  ∃ path, requestedPath data = some path ∧ AddressDerivable sdk path

/-- `GET_XPUB` accepts the data: the path can be read and its key and the fingerprint of its parent
derived. -/
def XpubRequest (data : Bytes) : Prop :=
  ∃ path, requestedPath data = some path ∧ XpubDerivable sdk path

/-- `SIGN_TOKEN_DATA` accepts the data: it is the data of a token. -/
def TokenRequest (data : Bytes) : Prop := (parseToken (Buffer.ofBytes data) {}).1 = true

instance (path : Bip32Path) : Decidable (AddressDerivable sdk path) :=
  decidable_of_iff (∃ key ∈ deriveKey sdk path, key.1.length ≤ rawPubkeyLen) Prod.exists

instance (path : Bip32Path) : Decidable (XpubDerivable sdk path) :=
  decidable_of_iff (_ ∧ (parentFingerprint sdk path).isSome) (and_congr_right' Option.isSome_iff_exists)

instance (data : Bytes) : Decidable (AddressRequest sdk data) :=
  inferInstanceAs (Decidable (∃ path ∈ requestedPath data, AddressDerivable sdk path))

instance (data : Bytes) : Decidable (XpubRequest sdk data) :=
  inferInstanceAs (Decidable (∃ path ∈ requestedPath data, XpubDerivable sdk path))

instance (data : Bytes) : Decidable (TokenRequest data) := inferInstanceAs (Decidable (_ = true))

variable {sdk} {data : Bytes} {paths : List Bip32Path} {g g' : Globals} {w : World}

theorem History.Blank.record {h : History} {e : Event} (hh : h.Blank)
    (he : e.ofRequest paths = true) : (h.record e).Blank := by
  cases e with
  | wiped => exact ⟨rfl, rfl, rfl, rfl, rfl, rfl⟩
  | tokenAccepted | derived => exact hh
  | tokenShown => exact ⟨hh.1, hh.2, hh.3, hh.4, hh.5, hh.6⟩
  | xpubDerived => exact ⟨hh.1, hh.2, hh.3, hh.4, hh.5, hh.6⟩
  | _ => cases he

theorem blank_history {events rest : List Event} (h : ∀ e ∈ events, e.ofRequest paths = true) :
    (history (events ++ .wiped :: rest)).Blank := by
  induction events with
  | nil => exact ⟨rfl, rfl, rfl, rfl, rfl, rfl⟩
  | cons e events ih =>
    obtain ⟨he, hrest⟩ := List.forall_mem_cons.1 h
    exact (ih hrest).record he

theorem Idle.of_log (events : List Event) (haside : Aside g g') (hstate : g'.ctx.state = .none)
    (hreqType : g'.ctx.reqType ≠ .confirmTransaction) (hrecord : ∃ buffer, g'.ctx.txInfo = { buffer })
    (hlog : g'.log = events ++ .wiped :: g.log)
    (hevents : ∀ e ∈ events, e.ofRequest paths = true) : Idle paths g g' where
  toAside := haside
  state := hstate
  reqType := hreqType
  blank := by
    rw [Globals.history, hlog]
    exact blank_history hevents
  record := hrecord
  log := by
    refine ⟨events ++ [.wiped], by simp [hlog], fun e he => ?_⟩
    rcases List.mem_append.1 he with he | he
    · exact hevents e he
    · rw [List.mem_singleton.1 he]
      rfl

theorem requestedPath_eq {accepted : Bool} {path : Bip32Path} {rest : Buffer}
    (h : (Buffer.ofBytes data).readBip32Path {} = (accepted, path, rest)) :
    requestedPath data = if accepted then some path else none := by
  rw [requestedPath, h]

theorem isSome_confirmedAddress {path : Bip32Path} (h : AddressDerivable sdk path) :
    (confirmedAddress sdk path).isSome := by
  obtain ⟨publicKey, chainCode, h, -⟩ := h
  unfold deriveKey at h
  unfold confirmedAddress
  cases hp : sdk.derivePrivateKey path.components with
  | none => simp [hp] at h
  | some keys =>
    cases hq : sdk.initPublicKey keys.1 with
    | none => simp [hp, hq] at h
    | some publicKey =>
      simp [hq, addressFromPubkey, addressFromPubkeyHash, addressLen, pubkeyHashLen]

theorem requestedPaths_eq {path : Bip32Path} (h : requestedPath data = some path) :
    requestedPaths data = [path, parentPath path] := by
  rw [requestedPaths, h]

/-- The request is answered with a status word. -/
theorem Requested.of_answered {flow : Flow} {accepted : Prop} {P : Globals → Prop} (sw : ℕ)
    (h : ¬accepted) (hidle : Idle paths g w.globals) (hui : w.ui = g.ui) :
    Requested flow paths accepted P g (decide ((ioSendSw sw w).1 < 0)) (ioSendSw sw w).2.globals := by
  rw [ioSendSw_eq, globals_ioSendResponse]
  refine .rejected w.globals sw h hidle hui _ fun hends => ?_
  rw [← hidle.io]
  exact (fst_ioSendResponse_neg_iff w none sw).1 (of_decide_eq_true hends)

/-! ### Addresses and public keys -/

section Accounts

theorem wp_deriveAddress :
    (deriveAddress sdk).wp
      (fun _ w' => AddressDerivable sdk w.ctx.bip32Path ∧
        ∃ buffer, w' = { w.emit (.derived w.ctx.bip32Path) with ctx.txInfo.buffer := buffer })
      (fun _ w' => ¬AddressDerivable sdk w.ctx.bip32Path ∧
        w' = w.emit (.derived w.ctx.bip32Path)) w := by
  simp only [deriveAddress, EStateM.wp_bind, EStateM.wp_modify, EStateM.wp_get, World.ctx_emit]
  cases hkey : deriveKey sdk w.ctx.bip32Path with
  | none =>
    refine (EStateM.wp_throw _).2 ⟨?_, rfl⟩
    rintro ⟨publicKey, chainCode, hderive, -⟩
    rw [hkey] at hderive
    cases hderive
  | some key =>
    obtain ⟨publicKey, chainCode⟩ := key
    simp only [EStateM.wp_ite, EStateM.wp_set, EStateM.wp_throw]
    split_ifs with hlen
    · refine ⟨?_, trivial⟩
      rintro ⟨publicKey', chainCode', hderive, hle⟩
      obtain ⟨rfl, rfl⟩ := Prod.mk.injEq .. ▸ Option.some.inj (hkey.symm.trans hderive)
      omega
    · exact ⟨⟨publicKey, chainCode, hkey, by omega⟩, _, rfl⟩

/-- The globals after `derive_xpub`: the buffer may be written, and the paths were derived. -/
def Derived (w w' : World) : Prop :=
  ∃ buffer events, w' = { w with ctx.txInfo.buffer := buffer, trace := events ++ w.trace } ∧
    ∀ e ∈ events, e = .derived w.ctx.bip32Path ∨ e = .derived (parentPath w.ctx.bip32Path)

theorem wp_deriveXpub :
    (deriveXpub sdk).wp
      (fun _ w' => XpubDerivable sdk w.ctx.bip32Path ∧ ∃ w₁, Derived w w₁ ∧
        w' = w₁.emit (.xpubDerived w.ctx.bip32Path.components w₁.ctx.pkInfo))
      (fun _ w' => ¬XpubDerivable sdk w.ctx.bip32Path ∧ Derived w w') w := by
  simp only [deriveXpub, EStateM.wp_bind, EStateM.wp_modify, EStateM.wp_get, World.ctx_emit]
  cases hkey : deriveKey sdk w.ctx.bip32Path with
  | none =>
    refine (EStateM.wp_throw _).2 ⟨?_, w.ctx.txInfo.buffer, [.derived w.ctx.bip32Path], rfl, by simp⟩
    rintro ⟨⟨publicKey, chainCode, hderive, -⟩, -⟩
    rw [hkey] at hderive
    cases hderive
  | some key =>
    obtain ⟨publicKey, chainCode⟩ := key
    simp only [EStateM.wp_ite, EStateM.wp_throw]
    split_ifs with hlen
    · refine ⟨?_, w.ctx.txInfo.buffer, [.derived w.ctx.bip32Path], rfl, by simp⟩
      rintro ⟨⟨publicKey', chainCode', hderive, hle⟩, -⟩
      obtain ⟨rfl, rfl⟩ := Prod.mk.injEq .. ▸ Option.some.inj (hkey.symm.trans hderive)
      omega
    · cases hparent : parentFingerprint sdk w.ctx.bip32Path with
      | none =>
        simp only [EStateM.wp_bind, EStateM.wp_set, EStateM.wp_throw]
        refine ⟨?_, _, [.derived (parentPath w.ctx.bip32Path), .derived w.ctx.bip32Path], rfl,
          by simp⟩
        rintro ⟨-, fingerprint, hsome⟩
        rw [hparent] at hsome
        cases hsome
      | some fingerprint =>
        exact (EStateM.wp_set _).2
          ⟨⟨⟨publicKey, chainCode, hkey, by omega⟩, fingerprint, hparent⟩, _,
            ⟨_, [.derived (parentPath w.ctx.bip32Path), .derived w.ctx.bip32Path], rfl, by simp⟩,
            rfl⟩

theorem wp_handlerGetAddress :
    (handlerGetAddress sdk (.ofBytes data)).wp
      (fun ret w' => Requested .address (requestedPath data).toList (AddressRequest sdk data)
        (fun _ => True) w.globals (decide (ret < 0)) w'.globals)
      (fun sw w' => Requested .address (requestedPath data).toList (AddressRequest sdk data)
        (fun _ => True) w.globals false (w'.globals.reply none sw)) w := by
  obtain ⟨accepted, path, rest, hread⟩ :
      ∃ accepted path rest, (Buffer.ofBytes data).readBip32Path {} = (accepted, path, rest) :=
    ⟨_, _, _, rfl⟩
  have hpath := requestedPath_eq hread
  simp only [handlerGetAddress, EStateM.wp_bind, EStateM.wp_modify, EStateM.wp_get,
    EStateM.wp_set, EStateM.wp_ite, EStateM.wp_modifyGet, ctx_explicitBzeroContext, hread]
  cases accepted with
  | false =>
    have hnot : ¬AddressRequest sdk data := by
      rintro ⟨path, hsome, -⟩
      simp [hpath] at hsome
    simp only [Bool.not_false, if_true]
    exact .of_answered _ hnot (.of_log [] ⟨rfl, rfl, rfl, rfl⟩ rfl (by rintro ⟨⟩) ⟨_, rfl⟩
      (by simp [World.globals]) (by simp)) rfl
  | true =>
    have hpaths : (requestedPath data).toList = [path] := by simp [hpath]
    simp only [Bool.not_true, Bool.false_eq_true, if_false]
    refine EStateM.wp_mono ?_ ?_ wp_deriveAddress
    · rintro _ w' ⟨hderivable, buffer, rfl⟩
      have haccepted : AddressRequest sdk data := ⟨path, hpath, hderivable⟩
      obtain ⟨address, haddress⟩ := Option.isSome_iff_exists.1 (isSome_confirmedAddress hderivable)
      simp only [uiDisplayConfirmAddress, World.ctx_emit, haddress, showWithCallback, ne_eq,
        not_true_eq_false, or_self, if_false]
      exact .opened _ haccepted (.of_log [.derived path, .derived path] ⟨rfl, rfl, rfl, rfl⟩ rfl
        (by rintro ⟨⟩) ⟨_, rfl⟩ (by simp [World.globals]) (by simp [Event.ofRequest, hpaths])) ⟨rfl, rfl⟩
        trivial
    · rintro _ w' ⟨hderivable, rfl⟩
      have hnot : ¬AddressRequest sdk data := by
        rintro ⟨path', hsome, hderivable'⟩
        obtain rfl := Option.some.inj (hpath.symm.trans hsome)
        exact hderivable hderivable'
      refine .rejected _ _ hnot ?_ ?_ false (by rintro ⟨⟩)
      · exact .of_log [.derived path] ⟨rfl, rfl, rfl, rfl⟩ rfl (by rintro ⟨⟩) ⟨_, rfl⟩
          (by simp [World.globals]) (by simp [Event.ofRequest, hpaths])
      · rfl

/-- The key in the context is the one that was last derived for `GET_XPUB`. -/
def XpubHeld (g : Globals) : Prop :=
  ∃ path, g.history.xpubDerived = some (path, g.ctx.pkInfo)

theorem wp_handlerGetXpub :
    (handlerGetXpub sdk (.ofBytes data)).wp
      (fun ret w' => Requested .xpub (requestedPaths data) (XpubRequest sdk data) XpubHeld
        w.globals (decide (ret < 0)) w'.globals)
      (fun sw w' => Requested .xpub (requestedPaths data) (XpubRequest sdk data) XpubHeld
        w.globals false (w'.globals.reply none sw)) w := by
  obtain ⟨accepted, path, rest, hread⟩ :
      ∃ accepted path rest, (Buffer.ofBytes data).readBip32Path {} = (accepted, path, rest) :=
    ⟨_, _, _, rfl⟩
  have hpath := requestedPath_eq hread
  simp only [handlerGetXpub, EStateM.wp_bind, EStateM.wp_modify, EStateM.wp_get,
    EStateM.wp_set, EStateM.wp_ite, EStateM.wp_modifyGet, ctx_explicitBzeroContext, hread]
  cases accepted with
  | false =>
    have hnot : ¬XpubRequest sdk data := by
      rintro ⟨path, hsome, -⟩
      simp [hpath] at hsome
    simp only [Bool.not_false, if_true]
    exact .of_answered _ hnot (.of_log [] ⟨rfl, rfl, rfl, rfl⟩ rfl (by rintro ⟨⟩) ⟨_, rfl⟩
      (by simp [World.globals]) (by simp)) rfl
  | true =>
    have hpaths : requestedPaths data = [path, parentPath path] := requestedPaths_eq hpath
    -- the events of the derivations are kept by the log, and those of a request
    have hderived : ∀ {events : List Event},
        (∀ e ∈ events, e = .derived path ∨ e = .derived (parentPath path)) →
        events.filter (fun e => !e.silent) = events ∧
          ∀ e ∈ events, e.ofRequest (requestedPaths data) = true := by
      intro events hevents
      refine ⟨List.filter_eq_self.2 fun e he => ?_, fun e he => ?_⟩
      · rcases hevents e he with rfl | rfl <;> rfl
      · rcases hevents e he with rfl | rfl <;> simp [Event.ofRequest, hpaths]
    simp only [Bool.not_true, Bool.false_eq_true, if_false]
    refine EStateM.wp_mono ?_ ?_ wp_deriveXpub
    · rintro _ w' ⟨hderivable, w₁, ⟨buffer, events, hw₁, hevents⟩, rfl⟩
      have haccepted : XpubRequest sdk data := ⟨path, hpath, hderivable⟩
      obtain ⟨hfilter, hrequest⟩ := hderived hevents
      have hlog : w₁.log = events ++ .wiped :: w.log := by
        subst hw₁
        simp [World.log, explicitBzeroContext, World.emit, hfilter]
      have hctx : w₁.ctx.reqType = .confirmXpub ∧ w₁.ctx.state = .none ∧
          (∃ buffer, w₁.ctx.txInfo = { buffer }) ∧ Aside w.globals w₁.globals := by
        subst hw₁
        exact ⟨rfl, rfl, ⟨_, rfl⟩, rfl, rfl, rfl, rfl⟩
      obtain ⟨hreqType, hstate, hrecord, haside⟩ := hctx
      have hshown (w₂ : World) (hw₂ : w₂.ctx = w₁.ctx) : uiDisplayXpubConfirm w₂ =
          (0, showWithCallback .confirmXpub .xpub w₂) := if_neg (by simp [hw₂, hreqType, hstate])
      rw [hshown (w₁.emit _) rfl]
      refine .opened _ haccepted (.of_log (.xpubDerived path.components w₁.ctx.pkInfo :: events)
        ⟨haside.1, haside.2, haside.3, haside.4⟩ hstate (ne_of_eq_of_ne hreqType (by rintro ⟨⟩)) hrecord
        ?_ ?_) ⟨rfl, rfl⟩ ⟨path.components, ?_⟩
      · simp [World.globals, showWithCallback, hlog]
      · exact List.forall_mem_cons.2 ⟨rfl, hrequest⟩
      · simp [Globals.history, World.globals, showWithCallback, hlog, history, History.record]

    · rintro _ w' ⟨hderivable, buffer, events, rfl, hevents⟩
      have hnot : ¬XpubRequest sdk data := by
        rintro ⟨path', hsome, hderivable'⟩
        obtain rfl := Option.some.inj (hpath.symm.trans hsome)
        exact hderivable hderivable'
      obtain ⟨hfilter, hrequest⟩ := hderived hevents
      refine .rejected _ _ hnot ?_ ?_ false (by rintro ⟨⟩)
      · refine .of_log events ⟨rfl, rfl, rfl, rfl⟩ rfl (by rintro ⟨⟩) ⟨_, rfl⟩ ?_ hrequest
        simp [World.globals, World.log, explicitBzeroContext, World.emit, hfilter]
      · rfl

end Accounts

/-! ### Tokens -/

section Tokens

/-- The texts of the screen that asks to sign a token. -/
def tokenScreen (token : Token) : Screen :=
  { tokenUi token {} with flow := .signTokenData : Ui }.shown

/-- The screen shows the token in the context, the one for which it was last opened. -/
def TokenHeld (g : Globals) : Prop :=
  g.history.tokenShown = some g.ctx.token ∧ g.ui.shown = tokenScreen g.ctx.token

/-- The token that the data of `SIGN_TOKEN_DATA` holds. -/
def requestedToken (data : Bytes) : Token := (parseToken (.ofBytes data) {}).2.1

theorem wp_handlerSignTokenData :
    (handlerSignTokenData (.ofBytes data)).wp
      (fun ret w' => Requested .signTokenData [] (TokenRequest data)
        (fun g => TokenHeld g ∧ g.ctx.token = requestedToken data) w.globals (decide (ret < 0))
        w'.globals)
      (fun _ _ => False) w := by
  obtain ⟨accepted, token, rest, hparse⟩ :
      ∃ accepted token rest, parseToken (.ofBytes data) {} = (accepted, token, rest) :=
    ⟨_, _, _, rfl⟩
  simp only [handlerSignTokenData, EStateM.wp_bind, EStateM.wp_modify, EStateM.wp_get,
    EStateM.wp_set, EStateM.wp_ite, EStateM.wp_modifyGet, ctx_explicitBzeroContext, hparse]
  cases accepted with
  | false =>
    have hnot : ¬TokenRequest data := by simp [TokenRequest, hparse]
    simp only [Bool.not_false, if_true]
    exact .of_answered _ hnot (.of_log [] ⟨rfl, rfl, rfl, rfl⟩ rfl (by rintro ⟨⟩) ⟨_, rfl⟩
      (by simp [World.globals]) (by simp)) rfl
  | true =>
    have haccepted : TokenRequest data := by simp [TokenRequest, hparse]
    have ht := accepted_of_parseToken hparse
    have hsymbol := ht.symbolLen_le
    have hname := ht.nameLen_le
    have hfits : ¬(token.symbolLen > maxTokenSymbolLen ∨ token.nameLen > maxTokenNameLen) := by
      omega
    simp only [uiDisplaySignTokenData, showWithCallback, hfits, Bool.not_true, Bool.false_eq_true,
      if_false]
    exact .opened _ haccepted (.of_log [.tokenShown token] ⟨rfl, rfl, rfl, rfl⟩ rfl (by rintro ⟨⟩) ⟨_, rfl⟩
      (by simp [World.globals]) (by simp [Event.ofRequest])) ⟨rfl, rfl⟩
      ⟨⟨by simp [Globals.history, World.globals, history, History.record], rfl⟩,
        (congrArg (fun r => r.2.1) hparse).symm⟩

namespace Globals

variable (sdk)

/-- `generate_secret`. -/
def generateSecret (g : Globals) : Globals :=
  { g with
    secret := memmove g.secret 0 ((sdk.rng g.draws).take secretLen)
    draws := g.draws + 1 }

/-- `get_secret`. -/
def readSecret (g : Globals) : Globals :=
  if g.secret.any (· != 0) then g else g.generateSecret sdk

@[simp] theorem ctx_readSecret (g : Globals) : (g.readSecret sdk).ctx = g.ctx := by
  unfold readSecret
  split_ifs <;> rfl

@[simp] theorem tokenSymbols_readSecret (g : Globals) :
    (g.readSecret sdk).tokenSymbols = g.tokenSymbols := by
  unfold readSecret
  split_ifs <;> rfl

@[simp] theorem ui_readSecret (g : Globals) : (g.readSecret sdk).ui = g.ui := by
  unfold readSecret
  split_ifs <;> rfl

@[simp] theorem io_readSecret (g : Globals) : (g.readSecret sdk).io = g.io := by
  unfold readSecret
  split_ifs <;> rfl

@[simp] theorem log_readSecret (g : Globals) : (g.readSecret sdk).log = g.log := by
  unfold readSecret
  split_ifs <;> rfl

end Globals

theorem getSecret_eq : (getSecret sdk w).1 = (w.globals.readSecret sdk).secret ∧
    (getSecret sdk w).2.globals = w.globals.readSecret sdk := by
  have hsecret : w.globals.secret = w.secret := rfl
  unfold getSecret Globals.readSecret
  rw [hsecret]
  split_ifs <;> exact ⟨rfl, rfl⟩

/-- The data of a token and a signature, as `check_token_signature_from_apdu` reads them. -/
def signedToken (data : Bytes) : Option (Token × Bytes) :=
  let (accepted, token, cdata) := parseToken (.ofBytes data) {}
  let (complete, signature, _) := cdata.readBytes (List.replicate 32 0) 32 32
  if accepted && complete then some (token, signature) else none

/-- Checking a token signature touches nothing but the secret, and only for the data of a token. -/
theorem checkTokenSignatureFromApdu_eq :
    match signedToken data with
    | none => checkTokenSignatureFromApdu sdk (.ofBytes data) w = (.malformed, w)
    | some (token, signature) => token.Accepted ∧
      (checkTokenSignatureFromApdu sdk (.ofBytes data) w).2.globals = w.globals.readSecret sdk ∧
      (checkTokenSignatureFromApdu sdk (.ofBytes data) w).1 =
        if verifyTokenSignature sdk (w.globals.readSecret sdk).secret token signature then
          .valid (w.globals.readSecret sdk).secret token signature
        else .invalid := by
  obtain ⟨hsecret, hglobals⟩ := @getSecret_eq sdk w
  obtain ⟨accepted, token, cdata, hparse⟩ :
      ∃ accepted token cdata, parseToken (.ofBytes data) {} = (accepted, token, cdata) :=
    ⟨_, _, _, rfl⟩
  obtain ⟨complete, signature, rest, hread⟩ : ∃ complete signature rest,
      cdata.readBytes (List.replicate 32 0) 32 32 = (complete, signature, rest) := ⟨_, _, _, rfl⟩
  simp only [signedToken, checkTokenSignatureFromApdu, hparse, hread]
  cases accepted with
  | false => simp
  | true =>
    cases complete with
    | false => simp only [Bool.and_false, Bool.false_eq_true, if_false, hread]
    | true =>
      simp only [Bool.and_self, if_true, hread, hsecret]
      refine ⟨accepted_of_parseToken hparse, ?_, ?_⟩
      · split_ifs <;> exact hglobals
      · split_ifs <;> rfl

/-- What checking a token signature does to the secret, and the status word of
`VERIFY_TOKEN_SIGNATURE`. -/
def Globals.verify (sdk : Sdk) (data : Bytes) (g : Globals) : Globals :=
  match signedToken data with
  | none => g.reply none Sw.internalError
  | some (token, signature) => (g.readSecret sdk).reply none
      (if verifyTokenSignature sdk (g.readSecret sdk).secret token signature then Sw.ok
        else Sw.invalidSignature)

theorem wp_handlerVerifyTokenSignature :
    (handlerVerifyTokenSignature sdk (.ofBytes data)).wp
      (fun ret w' => (ret < 0 ↔ w.io.state = .ready) ∧
        w'.globals = w.globals.wipe.verify sdk data)
      (fun _ _ => False) w := by
  have hcheck := @checkTokenSignatureFromApdu_eq sdk data (explicitBzeroContext w)
  simp only [handlerVerifyTokenSignature, EStateM.wp_bind, EStateM.wp_modify, EStateM.wp_modifyGet]
  unfold Globals.verify
  cases hsigned : signedToken data with
  | none =>
    rw [hsigned] at hcheck
    rw [show checkTokenSignatureFromApdu sdk (.ofBytes data) (explicitBzeroContext w) = _
      from hcheck]
    refine (EStateM.wp_modifyGet _).2 ⟨fst_ioSendResponse_neg_iff _ _ _, ?_⟩
    rw [ioSendSw_eq, globals_ioSendResponse, globals_explicitBzeroContext]
  | some signed =>
    obtain ⟨token, signature⟩ := signed
    rw [hsigned] at hcheck
    obtain ⟨-, hglobals, hresult⟩ := hcheck
    rw [globals_explicitBzeroContext] at hglobals hresult
    have hio : (checkTokenSignatureFromApdu sdk (.ofBytes data) (explicitBzeroContext w)).2.io =
        w.io := (congrArg Globals.io hglobals).trans (Globals.io_readSecret sdk _)
    rw [hresult]
    split_ifs with hvalid
    all_goals
      refine (EStateM.wp_modifyGet _).2 ⟨?_, ?_⟩
      · rw [ioSendSw_eq, fst_ioSendResponse_neg_iff, hio]
      · rw [ioSendSw_eq, globals_ioSendResponse, hglobals]
        simp only [hvalid, Bool.false_eq_true, if_true, if_false]

/-- What `SEND_TOKEN_DATA` does to the registry and to the secret, and to nothing else. -/
inductive RegistryStep (sdk : Sdk) (data : Bytes) (g : Globals) : Globals → Prop
  | full (h : txMaxTokens ≤ g.tokenSymbols.len) :
    RegistryStep sdk data g ({ g with tokenSymbols := {} }.reply none Sw.wrongDataLength)
  | malformed (h : g.tokenSymbols.len < txMaxTokens) (hdata : signedToken data = none) :
    RegistryStep sdk data g (g.reply none Sw.internalError)
  | invalid (h : g.tokenSymbols.len < txMaxTokens) (token : Token) (signature : Bytes)
    (hdata : signedToken data = some (token, signature))
    (hinvalid : verifyTokenSignature sdk (g.readSecret sdk).secret token signature = false) :
    RegistryStep sdk data g ((g.readSecret sdk).reply none Sw.invalidSignature)
  | stored (h : g.tokenSymbols.len < txMaxTokens) (token : Token) (signature : Bytes)
    (hdata : signedToken data = some (token, signature)) (haccepted : token.Accepted)
    (hvalid : verifyTokenSignature sdk (g.readSecret sdk).secret token signature = true) :
    RegistryStep sdk data g ({ g.readSecret sdk with
      tokenSymbols := g.tokenSymbols.store token
      log := .tokenAccepted (g.readSecret sdk).secret token signature :: g.log }.reply none Sw.ok)

theorem wp_storeTokenData :
    (storeTokenData sdk (.ofBytes data)).wp
      (fun ret w' => (ret < 0 ↔ w.io.state = .ready) ∧ RegistryStep sdk data w.globals w'.globals)
      (fun _ _ => False) w := by
  have hcheck := @checkTokenSignatureFromApdu_eq sdk data w
  simp only [storeTokenData, EStateM.wp_bind, EStateM.wp_get, EStateM.wp_ite, EStateM.wp_modify,
    EStateM.wp_modifyGet]
  split_ifs with hfull
  · refine ⟨fst_ioSendResponse_neg_iff _ _ _, ?_⟩
    rw [ioSendSw_eq, globals_ioSendResponse, globals_explicitBzeroTokenSymbols]
    exact .full hfull
  · cases hsigned : signedToken data with
    | none =>
      rw [hsigned] at hcheck
      rw [show checkTokenSignatureFromApdu sdk (.ofBytes data) w = _ from hcheck]
      refine (EStateM.wp_modifyGet _).2 ⟨fst_ioSendResponse_neg_iff _ _ _, ?_⟩
      rw [ioSendSw_eq, globals_ioSendResponse]
      exact .malformed (not_le.1 hfull) hsigned
    | some signed =>
      obtain ⟨token, signature⟩ := signed
      rw [hsigned] at hcheck
      obtain ⟨haccepted, hglobals, hresult⟩ := hcheck
      have hio : (checkTokenSignatureFromApdu sdk (.ofBytes data) w).2.io = w.io :=
        (congrArg Globals.io hglobals).trans (Globals.io_readSecret sdk _)
      rw [hresult]
      split_ifs with hvalid
      · simp only [EStateM.wp_ite, EStateM.wp_bind, EStateM.wp_modify, EStateM.wp_modifyGet]
        rw [if_neg (not_lt.2 haccepted.symbolLen_le), ioSendSw_eq, globals_ioSendResponse,
          fst_ioSendResponse_neg_iff]
        have hstored : ∀ v : World, v.globals = w.globals.readSecret sdk →
            ({ v with tokenSymbols := v.tokenSymbols.store token }.emit
              (.tokenAccepted (w.globals.readSecret sdk).secret token signature)).globals =
            { w.globals.readSecret sdk with
              tokenSymbols := w.globals.tokenSymbols.store token
              log := .tokenAccepted (w.globals.readSecret sdk).secret token signature ::
                w.globals.log } := by
          intro v hv
          rw [← Globals.log_readSecret sdk w.globals,
            ← Globals.tokenSymbols_readSecret sdk w.globals, ← hv, World.globals_emit]
          rfl
        rw [hstored _ hglobals]
        refine ⟨?_, .stored (not_le.1 hfull) token signature hsigned haccepted hvalid⟩
        rw [← hio]
        rfl
      · refine (EStateM.wp_modifyGet _).2 ⟨?_, ?_⟩
        · rw [ioSendSw_eq, fst_ioSendResponse_neg_iff, hio]
        · rw [ioSendSw_eq, globals_ioSendResponse, hglobals]
          exact .invalid (not_le.1 hfull) token signature hsigned (Bool.eq_false_iff.2 hvalid)

theorem wp_handlerSendTokenData (first : Bool) :
    (handlerSendTokenData sdk first (.ofBytes data)).wp
      (fun ret w' => (ret < 0 ↔ w.io.state = .ready) ∧ RegistryStep sdk data
        (if first then { w.globals.wipe with tokenSymbols := {} } else w.globals) w'.globals)
      (fun _ _ => False) w := by
  cases first with
  | true =>
    have hglobals : ((explicitBzeroTokenSymbols ∘ explicitBzeroContext) w).globals =
        { w.globals.wipe with tokenSymbols := {} } := by
      rw [Function.comp_apply, globals_explicitBzeroTokenSymbols, globals_explicitBzeroContext]
    simp only [handlerSendTokenData, if_true, EStateM.wp_bind, EStateM.wp_modify]
    rw [← hglobals]
    exact @wp_storeTokenData sdk data ((explicitBzeroTokenSymbols ∘ explicitBzeroContext) w)
  | false => exact wp_storeTokenData

end Tokens

end HathorLedger
