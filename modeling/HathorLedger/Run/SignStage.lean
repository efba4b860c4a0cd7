import HathorLedger.Run.Serving

/-!
# The sign stage in an exchange

A sign stage needs no press: the app answers it at once. If the answer is `SW_OK`, its data is the
signature; and for an approved transaction and a path that the app accepts, this is the answer.

## Main definitions

* `signCommand`, `endCommand`: the commands of the sign stage and of the end.

## Main results

* `Serves.signed`: what a sign stage with the answer `SW_OK` has done.
* `exists_signed`: when a sign stage is answered with a signature.
-/

namespace HathorLedger

variable {sdk : Sdk} {g g' : Globals} {w w' : World} {base : List Event} {bytes : Bytes} {n : ℕ}

/-- The command of the sign stage for a path. -/
def signCommand (components : List ℕ) : Bytes :=
  Command.encode ⟨cla, Ins.signTx, 1, 0,
    UInt8.ofNat components.length :: components.flatMap (beBytes 4)⟩

section Sign

variable {components : List ℕ} {signature : Bytes}

/-- After a sign stage the app is ready for the next command. -/
theorem io_of_signStage {data : Bytes} {ends : Bool} (hio : g.io.state = .received)
    (hstage : StageStep sdk data 1 0 g ends g') : (g'.resume ends).io.state = .received := by
  have hends : decide (g.io.state = .ready) = false := by rw [hio]; rfl
  cases hstage with
  | cancelled | refused | misread =>
    rw [hends]
    rfl
  | wiped h | failed h | received h => cases h
  | signing _ _ _ _ _ _ _ hsign =>
    cases hsign with
    | empty | refused | finished => rfl
    | signed =>
      change (Globals.resume (decide (g.io.state = .ready)) _).io.state = _
      rw [hends]
      rfl

/-- A sign stage that leads to the answer `SW_OK` has signed: the log says so. -/
theorem signed_of_stageStep {data : Bytes} {ends : Bool} (hio : g.io.state = .received)
    (hstage : StageStep sdk data 1 0 g ends g')
    (hresponses : responses (g'.resume ends).log =
      (signature ++ beBytes 2 Sw.ok) :: responses g.log) :
    g.ctx.state = .approved ∧ ∃ path rest t,
      (Buffer.ofBytes data).readBip32Path g.ctx.bip32Path = (true, path, rest) ∧ ends = false ∧
      g' = ({ g.restartReview with
        ctx.bip32Path := path
        ctx.txInfo := t
        log := .signed path.components t.sighashAll signature :: .hashFinished :: .derived path ::
          g.log } : Globals).reply (some signature) Sw.ok := by
  have hends : decide (g.io.state = .ready) = false := by rw [hio]; rfl
  -- a response with another status word is not the answer
  have hsw : ∀ sw ∈ Sw.errors, ∀ g₁ : Globals, responses (g₁.reply none sw).mainLoop.log ≠
      (signature ++ beBytes 2 Sw.ok) :: responses g.log := by
    intro sw herror g₁
    rw [responses_mainLoop_reply]
    exact error_ne_ok herror
  -- an app that ends gives no answer
  have hend : ∀ (g₁ : Globals) (sw : ℕ), g₁.io.state = .received → responses g₁.log = responses g.log →
      responses (g₁.reply none sw).restart.log ≠
        (signature ++ beBytes 2 Sw.ok) :: responses g.log := by
    intro g₁ sw hio₁ hlog h
    have hnone : responses (g₁.reply none sw).restart.log = responses g.log := by
      change responses (g₁.reply none sw).log = _
      rw [responses_reply, hio₁]
      exact hlog
    exact List.cons_ne_self _ _ (h.symm.trans hnone)
  cases hstage with
  | cancelled h => omega
  | refused =>
    rw [hends] at hresponses
    exact absurd hresponses (hsw _ (by decide) _)
  | misread _ _ path =>
    rw [hends] at hresponses
    exact absurd hresponses (hsw _ (by decide) _)
  | wiped h | failed h | received h => cases h
  | signing _ hstate path rest hread _ _ hsign =>
    cases hsign with
    | empty | refused | finished => exact absurd hresponses (hend _ _ hio rfl)
    | signed _ t _ privateKey chainCode signature' _ _ =>
      have hends' : decide (g.restartReview.io.state = .ready) = false := hends
      rw [show decide (_ = _) = false from hends'] at hresponses
      change responses (Globals.reply (some signature') Sw.ok _).mainLoop.log = _ at hresponses
      rw [responses_mainLoop_reply] at hresponses
      obtain rfl : signature' = signature := data_of_responseBody (List.cons.inj hresponses).1
      exact ⟨hstate, path, rest, t, hread, hends', rfl⟩

/-- A sign stage with the answer `SW_OK` has signed the bytes that were hashed, which the user had
approved, with the key of the path. The digest is theirs if it was not taken before or does not start
with a zero byte. -/
theorem Serves.signed (hw : Reachable Booted (step sdk) Sequential w)
    (hidle : w.io.state ≠ .waiting) (hf : w.globals.Live → Fed base bytes n w.globals)
    (hlt : ∀ c ∈ components, c < 2 ^ 32)
    (hlen : 1 + 4 * components.length ≤ 255)
    (h : Serves sdk w (signCommand components) (Sw.ok, signature) w') :
    ApprovedSince base bytes w.log ∧
      (n = 0 ∨ byteAt (sha256d sdk bytes) 0 ≠ 0 → ∃ privateKey chainCode,
        sdk.derivePrivateKey components = some (privateKey, chainCode) ∧
          sdk.ecdsaSign privateKey (sha256d sdk bytes) = some signature) ∧
      (w'.globals.Live → Fed base bytes (n + 1) w'.globals) := by
  have hsound := @sound_of_reachable sdk _ _ hw
  have hio := (attended_of_reachable (fun _ _ => id) hw).listening.received (signCommand components)
  have hcall : callOf (signCommand components) = some (.signTx
      (UInt8.ofNat components.length :: components.flatMap (beBytes 4)) 1 0) := by
    refine callOf_signTx (.inr ⟨rfl, rfl⟩) (List.cons_ne_nil _ _) ?_
    rw [List.length_cons, length_flatMap_beBytes]
    omega
  obtain ⟨ends, g', hstage, hglobals⟩ := exists_stageStep_of_callOf hsound hcall
  -- the app does not wait for the user, so the answer is that of the sign stage
  have hstepped : (step sdk w (.apdu (signCommand components))).io.state = .received :=
    (congrArg (fun g => g.io.state) hglobals).trans (io_of_signStage hio hstage)
  have hresponses := h.responses_eq hw hidle (by rw [hstepped]; nofun)
  rw [← World.responses_log, ← World.responses_log] at hresponses
  change responses (step sdk w (.apdu (signCommand components))).globals.log = _ at hresponses
  rw [hglobals] at hresponses
  obtain ⟨hstate, path, rest, t, hread, rfl, hg'⟩ := signed_of_stageStep hio hstage hresponses
  have hfed : Fed base bytes n w.globals := hf (.inl (by
    rw [show w.globals.ctx.state = _ from hstate]
    nofun))
  obtain ⟨hcomponents, hcells⟩ := components_of_readBip32Path hlt hlen hfed.cells hread
  have hsettled := (hsound.receive (signCommand components)).stageStep (by
    rw [List.length_cons, length_flatMap_beBytes]
    omega) hstage
  have hauthorised : Authorised sdk path.components t.sighashAll signature
      (w.globals.history.record .hashFinished) := by
    have hgated := hsettled.gated
    rw [hg', Globals.log_reply] at hgated
    exact hgated.of_append.2
  have hhistory : w.globals.history.hashed = bytes := hfed.hashed
  refine ⟨?_, fun hdigest => ?_, ?_⟩
  · obtain ⟨events, hlog, hinit⟩ := hfed.began
    have happroved : (history w.globals.log).sendApproved = some bytes :=
      hhistory ▸ hauthorised.approved
    rw [hlog] at happroved
    change ApprovedSince base bytes w.globals.log
    rw [hlog]
    exact approvedSince_of_sendApproved hinit happroved
  · have hown := hauthorised.own hfed.read (by
      rw [show (w.globals.history.record .hashFinished).finishes = n + 1 from
        congrArg (· + 1) hfed.finishes]
      exact hdigest.imp (fun hn => by omega) fun hbyte => by rwa [← hhistory] at hbyte)
    obtain ⟨privateKey, chainCode, hderive, hsign⟩ := hauthorised.key
    rw [hcomponents] at hderive
    rw [show _ = sha256d sdk w.globals.history.hashed from hown, hhistory] at hsign
    exact ⟨privateKey, chainCode, hderive, hsign⟩
  · refine h.fed hw hidle fun _ => ?_
    rw [hglobals, hg']
    refine Fed.mainLoop (Fed.reply ?_ _ _) nofun
    obtain ⟨events, hlog, hinit⟩ := hfed.began
    exact ⟨⟨.signed _ _ _ :: .hashFinished :: .derived _ :: .received _ :: events,
      congrArg (_ :: _ :: _ :: _ :: ·) hlog, .tail _ (.tail _ (.tail _ (.tail _ hinit)))⟩, hhistory,
      hfed.read, congrArg (· + 1) hfed.finishes, hcells⟩

/-! ### When the app signs -/

/-- Signing succeeds, and a signature fits into a response. -/
def Sdk.Signs (sdk : Sdk) : Prop :=
  ∀ privateKey digest, ∃ signature, sdk.ecdsaSign privateKey digest = some signature ∧
    signature.length ≤ ioApduBufferSize - 2

/-- A transaction is approved, its hash is in a regular state, and the path has its cells. -/
structure ReadyToSign (g : Globals) : Prop where
  state : g.ctx.state = .approved
  sha256 : ∃ hashed, g.ctx.txInfo.sha256 = .fed hashed
  cells : g.ctx.bip32Path.path.length = maxBip32Path

/-- The digest can be taken of a hash in a regular state, which it leaves in one. -/
theorem exists_finishSighashAll {t : TxInfo} {hashed : Bytes} (h : t.sha256 = .fed hashed) :
    ∃ t', finishSighashAll sdk t = some t' ∧ ∃ hashed', t'.sha256 = .fed hashed' := by
  unfold finishSighashAll
  split_ifs
  · rw [h]
    exact ⟨_, rfl, _, rfl⟩
  · exact ⟨t, rfl, hashed, h⟩

/-- With a path that is not empty and has a key, the stage signs. -/
theorem exists_signed_of_signStep (hsdk : sdk.Signs) (hr : ReadyToSign g)
    (hio : g.io.state = .received) (hlen : g.ctx.bip32Path.length ≠ 0)
    (hderive : sdk.derivePrivateKey g.ctx.bip32Path.components ≠ none) {ends : Bool}
    (h : SignStep sdk g ends g') :
    ends = false ∧ ∃ signature g₁, g' = g₁.reply (some signature) Sw.ok ∧ ReadyToSign g₁ ∧
      g₁.ui = g.ui ∧ responses g₁.log = responses g.log ∧
      signature.length ≤ ioApduBufferSize - 2 := by
  obtain ⟨hashed, hsha256⟩ := hr.sha256
  obtain ⟨t', hfinish', hfed⟩ := @exists_finishSighashAll sdk _ _ hsha256
  cases h with
  | empty h => exact absurd h hlen
  | refused _ hnone =>
    rcases hnone with h | h
    · exact absurd h hderive
    · cases h.symm.trans hfinish'
  | finished _ t _ privateKey hnone =>
    obtain ⟨_, hsome, -⟩ := hsdk privateKey t.sighashAll
    cases hnone.symm.trans hsome
  | signed _ t hfinish privateKey chainCode signature _ hsigned =>
    obtain rfl := Option.some.inj (hfinish'.symm.trans hfinish)
    obtain ⟨_, hsome, hle⟩ := hsdk privateKey t'.sighashAll
    obtain rfl := Option.some.inj (hsome.symm.trans hsigned)
    refine ⟨?_, _, _, rfl, ⟨hr.state, hfed, hr.cells⟩, rfl, rfl, hle⟩
    rw [hio]
    rfl

/-- For an approved transaction the app answers a sign stage with a signature, and waits for the next
one. -/
theorem exists_signed (hsdk : sdk.Signs) (hw : Reachable Booted (step sdk) Sequential w)
    (hr : ReadyToSign w.globals) {p : WirePath} (hne : p.components ≠ [])
    (hderive : sdk.derivePrivateKey p.components ≠ none) :
    ∃ signature,
      responses (step sdk w (.apdu (signCommand p.components))).trace =
        (signature ++ beBytes 2 Sw.ok) :: responses w.trace ∧
      ReadyToSign (step sdk w (.apdu (signCommand p.components))).globals ∧
      (step sdk w (.apdu (signCommand p.components))).ui = w.ui ∧
      (step sdk w (.apdu (signCommand p.components))).io.state = .received := by
  have hio := (attended_of_reachable (fun _ _ => id) hw).listening.received
    (signCommand p.components)
  have hlen : p.bytes.length ≤ 255 := by
    have hle := p.length_le
    rw [p.length_bytes, maxBip32Path] at *
    omega
  have hcall : callOf (signCommand p.components) = some (.signTx p.bytes 1 0) :=
    callOf_signTx (.inr ⟨rfl, rfl⟩) (List.cons_ne_nil _ _) hlen
  obtain ⟨ends, g', hstage, hglobals⟩ := exists_stageStep_of_callOf (sound_of_reachable hw) hcall
  have hwf : (Buffer.ofBytes p.bytes).Wf := Buffer.wf_ofBytes (by rw [sizeMod]; omega)
  have hread := hwf.readBip32Path_wire (by rw [List.append_nil, Buffer.rest_ofBytes]) hr.cells
  have hstored := p.storedIn_store hr.cells
  cases hstage with
  | cancelled h => omega
  | refused _ hstate => exact absurd hr.state hstate
  | misread _ _ _ hmisread =>
    exact absurd ((congrArg Prod.fst hread).symm.trans hmisread) (by simp)
  | wiped h | failed h | received h => cases h
  | signing _ _ path _ hread' ends g' hsign =>
    obtain rfl : p.store w.globals.ctx.bip32Path = path :=
      (Prod.mk.inj (Prod.mk.inj (hread.symm.trans hread')).2).1
    have hready : ReadyToSign { (w.globals.receive (signCommand p.components)).restartReview with
        ctx.bip32Path := p.store w.globals.ctx.bip32Path } :=
      ⟨hr.state, hr.sha256, p.length_path_store hr.cells⟩
    have hcomponents : (p.store w.globals.ctx.bip32Path).length ≠ 0 := by
      rw [hstored.length_eq]
      exact fun h => hne (List.length_eq_zero_iff.1 h)
    have hkey : sdk.derivePrivateKey (p.store w.globals.ctx.bip32Path).components ≠ none := by
      rw [hstored.components_eq]
      exact hderive
    obtain ⟨rfl, signature, g₁, rfl, hr₁, hui, hresponses, hle⟩ :=
      exists_signed_of_signStep hsdk hready hio hcomponents hkey hsign
    have hbody : responseBody (some signature) Sw.ok = signature ++ beBytes 2 Sw.ok :=
      if_neg (Nat.not_lt.2 hle)
    refine ⟨signature, ?_, ?_, ?_, congrArg (fun g => g.io.state) hglobals⟩
    · rw [← World.responses_log, ← World.responses_log, ← hbody]
      change responses (step sdk w (.apdu (signCommand p.components))).globals.log = _
      rw [hglobals]
      exact (responses_mainLoop_reply _ _ _).trans (congrArg _ hresponses)
    · rw [hglobals]
      exact ⟨hr₁.state, hr₁.sha256, hr₁.cells⟩
    · exact (congrArg Globals.ui hglobals).trans hui

/-! ### The end -/

/-- The command that ends signing. -/
def endCommand : Bytes := Command.encode ⟨cla, Ins.signTx, 2, 0, []⟩

/-- The app ends signing at any time, and shows its menu. -/
theorem responses_endCommand (hw : Reachable Booted (step sdk) Sequential w) :
    responses (step sdk w (.apdu endCommand)).trace = beBytes 2 Sw.ok :: responses w.trace ∧
      (step sdk w (.apdu endCommand)).ui.flow = .menuMain := by
  have hio := (attended_of_reachable (fun _ _ => id) hw).listening.received endCommand
  have hcall : callOf endCommand = some (.signTx [] 2 0) := by decide
  obtain ⟨ends, g', hstage, hglobals⟩ := exists_stageStep_of_callOf (sound_of_reachable hw) hcall
  cases hstage with
  | cancelled =>
    have hends : decide ((w.globals.receive endCommand).io.state = .ready) = false := by
      rw [hio]
      rfl
    rw [hends] at hglobals
    constructor
    · rw [← World.responses_log, ← World.responses_log]
      change responses (step sdk w (.apdu endCommand)).globals.log = _
      rw [hglobals]
      exact responses_mainLoop_reply _ _ _
    · exact congrArg (fun g => g.ui.flow) hglobals
  | refused h | misread h | signing h | wiped h | failed h | received h => cases h

end Sign

end HathorLedger
