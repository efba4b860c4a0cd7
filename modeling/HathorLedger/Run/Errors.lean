import HathorLedger.Run.Sequential
import HathorLedger.Run.Signing

/-!
# Errors of SIGN_TX

A command `SIGN_TX` that is answered with an error, by the app or because of what the user answers,
wipes the context, or leaves it as it was up to scratch fields.

The exception is a first chunk that cannot be read. Its readers throw, and `app_main` answers with
the status word, but the context of the new transaction stays behind and waits for data: the next
first chunk is refused with `SW_BAD_STATE`.

## Main definitions

* `ErrorSent`: the response is the status word of an error.
* `GlobalCtx.Restored`: the context is wiped, or as before up to scratch fields.
* `AllOrNothing`: errors of a command leave nothing behind.

## Main results

* `Clean.pressStep`: the answers of the user to a command leave nothing behind.
* `allOrNothing_iff`: the commands whose errors leave nothing behind.
-/

namespace HathorLedger

/-! ### Errors -/

namespace Sw

/-- The status words of errors. -/
def errors : List ℕ :=
  [deny, wrongP1P2, wrongDataLength, insNotSupported, claNotSupported, wrongResponseLength,
    txParsingFail, badState, signatureFail, invalidTx, invalidSignature, internalError]

theorem byteAt_beBytes_of_mem_errors {sw : ℕ} (h : sw ∈ errors) : byteAt (beBytes 2 sw) 0 ≠ cla := by
  simp only [errors, List.mem_cons, List.not_mem_nil, or_false] at h
  rcases h with rfl | rfl | rfl | rfl | rfl | rfl | rfl | rfl | rfl | rfl | rfl | rfl <;> decide

theorem beBytes_ok_of_mem_errors {sw : ℕ} (h : sw ∈ errors) : beBytes 2 sw ≠ beBytes 2 ok := by
  simp only [errors, List.mem_cons, List.not_mem_nil, or_false] at h
  rcases h with rfl | rfl | rfl | rfl | rfl | rfl | rfl | rfl | rfl | rfl | rfl | rfl <;> decide

end Sw

/-- There is one more response, the status word of an error. -/
def ErrorSent (old new : List Bytes) : Prop := ∃ sw ∈ Sw.errors, new = beBytes 2 sw :: old

instance (old new : List Bytes) : Decidable (ErrorSent old new) :=
  inferInstanceAs (Decidable (∃ sw ∈ Sw.errors, _))

/-- The command is answered with an error. -/
def AnsweredWithError (w w' : World) : Prop := ErrorSent (responses w.trace) (responses w'.trace)

instance (w w' : World) : Decidable (AnsweredWithError w w') :=
  inferInstanceAs (Decidable (ErrorSent _ _))

namespace GlobalCtx

/-- The context without the fields that a command may use as scratch space. -/
def withoutScratch (c : GlobalCtx) : GlobalCtx :=
  { c with bip32Path := {}, txInfo.displayIndex := 0, txInfo.bufferOutputLen := 0 }

/-- The context `c'` is wiped, or it is `c` up to scratch fields. -/
def Restored (c c' : GlobalCtx) : Prop := c' = {} ∨ c'.withoutScratch = c.withoutScratch

instance (c c' : GlobalCtx) : Decidable (Restored c c') := inferInstanceAs (Decidable (_ ∨ _))

end GlobalCtx

open GlobalCtx (Restored)

variable (sdk : Sdk)

/-- The command is a first chunk of `SIGN_TX`, with the given data. -/
def IsFirstChunk (apdu data : Bytes) : Prop := callOf apdu = some (.signTx data 0 0)

instance (apdu data : Bytes) : Decidable (IsFirstChunk apdu data) :=
  inferInstanceAs (Decidable (callOf apdu = _))

/-- The command is a first chunk whose change information or header cannot be read. -/
def MalformedFirstChunk (apdu : Bytes) : Prop :=
  ∃ data sw t, IsFirstChunk apdu data ∧ (readFirstChunk data).run { sha256 := .fed [] } = .error sw t

/-- An error of the command leaves nothing behind. -/
structure AllOrNothing (w : World) (apdu : Bytes) : Prop where
  /-- The context is wiped, or as before up to scratch fields. -/
  context : ∀ w', Reachable (· = step sdk w (.apdu apdu)) (step sdk) Answering w' →
    AnsweredWithError w w' → Restored w.ctx w'.ctx
  /-- After a malformed first chunk, a first chunk is accepted that would have been accepted in its
  place. -/
  retry : w.ctx.state = .none → MalformedFirstChunk apdu → ∀ apdu' data, IsFirstChunk apdu' data →
    ¬AnsweredWithError w (step sdk w (.apdu apdu')) →
    ¬AnsweredWithError (step sdk w (.apdu apdu))
      (step sdk (step sdk w (.apdu apdu)) (.apdu apdu'))

/-- `cx_ecdsa_sign_no_throw` returns at most the 256 bytes that the array `out` has space for. -/
def Sdk.SignaturesFit : Prop :=
  ∀ key digest signature, sdk.ecdsaSign key digest = some signature → signature.length ≤ 256

variable {sdk} {g g' : Globals} {old : List Bytes} {c : GlobalCtx}

theorem not_errorSent_self : ¬ErrorSent old old := by
  rintro ⟨sw, -, h⟩
  exact List.cons_ne_self _ _ h.symm

theorem errorSent_of_mem {sw : ℕ} (h : sw ∈ Sw.errors) : ErrorSent old (responseBody none sw :: old) :=
  ⟨sw, h, rfl⟩

/-- Response data that fits is no error. -/
theorem not_errorSent_ok {rdata : Option Bytes} (h : (rdata.getD []).length ≤ 256) :
    ¬ErrorSent old (responseBody rdata Sw.ok :: old) := by
  rintro ⟨sw, hsw, hsent⟩
  have hbody : rdata.getD [] ++ beBytes 2 Sw.ok = [] ++ beBytes 2 sw := by
    rw [List.nil_append, ← (List.cons.inj hsent).1, responseBody, if_neg]
    rw [ioApduBufferSize]
    omega
  exact Sw.beBytes_ok_of_mem_errors hsw (List.append_inj_right' hbody (by simp)).symm

/-! ### What an answer leaves behind -/

/-- Since the responses `old`, with the context `c`, no error has left anything behind, and if the app
waits for the user, it is for the review of a transaction. -/
structure Clean (old : List Bytes) (c : GlobalCtx) (g : Globals) : Prop where
  restored : ErrorSent old (responses g.log) → Restored c g.ctx
  asked : g.io.state = .waiting →
    responses g.log = old ∧ (g.ui.flow = .txOutput ∨ g.ui.flow = .confirmTx)

/-- The answer is no error, or the context is restored. -/
def AnswerRestores (c c' : GlobalCtx) (rdata : Option Bytes) (sw : ℕ) : Prop :=
  sw = Sw.ok ∧ (rdata.getD []).length ≤ 256 ∨ Restored c c'

theorem AnswerRestores.restored {rdata : Option Bytes} {sw : ℕ} {c' : GlobalCtx}
    (h : AnswerRestores c c' rdata sw) (hsent : ErrorSent old (responseBody rdata sw :: old)) :
    Restored c c' := by
  rcases h with ⟨rfl, hlen⟩ | h
  · exact absurd hsent (not_errorSent_ok hlen)
  · exact h

theorem clean_restart : Clean old c g.restart := ⟨fun _ => .inl rfl, nofun⟩

theorem clean_resume_reply {rdata : Option Bytes} {sw : ℕ} {ends : Bool}
    (hold : responses g.log = old) (h : AnswerRestores c g.ctx rdata sw) :
    Clean old c ((g.reply rdata sw).resume ends) := by
  cases ends with
  | true => exact clean_restart
  | false =>
    refine ⟨fun hsent => ?_, nofun⟩
    have hlog : responses ((g.reply rdata sw).resume false).log = responseBody rdata sw :: old := by
      rw [← hold]
      exact responses_mainLoop_reply rdata sw g
    rw [hlog] at hsent
    exact h.restored hsent

/-- A handler that opens a screen sends no error, also if there is still an old response in the
buffer: the command is written over it, and no error starts with the class byte. -/
theorem clean_resume_asked (hold : responses g.log = old) (hbuffer : byteAt g.io.apduBuffer 0 = cla)
    (hflow : g.ui.flow = .txOutput ∨ g.ui.flow = .confirmTx) : Clean old c (g.resume false) := by
  change Clean old c g.mainLoop
  unfold Globals.mainLoop
  cases g.io.state with
  | ready =>
    refine ⟨?_, nofun⟩
    rintro ⟨sw, hsw, hsent⟩
    dsimp only at hsent
    split_ifs at hsent with hlen
    · rw [hold] at hsent
      exact absurd hsent.symm (List.cons_ne_self _ _)
    · rw [responses_sent] at hsent
      have hfirst : byteAt (g.io.apduBuffer.take g.io.outputLen) 0 = cla := by
        rw [← hbuffer, byteAt, byteAt, List.getD_eq_getElem?_getD, List.getD_eq_getElem?_getD,
          List.getElem?_take_of_lt (Nat.pos_of_ne_zero hlen)]
      rw [(List.cons.inj hsent).1] at hfirst
      exact absurd hfirst (Sw.byteAt_beBytes_of_mem_errors hsw)
  | received => exact ⟨fun hsent => absurd (hold ▸ hsent) not_errorSent_self, fun _ => ⟨hold, hflow⟩⟩
  | waiting => exact clean_restart

/-- The answer of the user. -/
theorem clean_press_reply {rdata : Option Bytes} {sw : ℕ} (hio : g.io.state = .waiting)
    (hold : responses g.log = old) (h : AnswerRestores c g.ctx rdata sw) :
    Clean old c (g.reply rdata sw) := by
  refine ⟨fun hsent => ?_, nofun⟩
  rw [responses_reply, if_pos hio, hold] at hsent
  exact h.restored hsent

/-- The review goes on with a question, or it ends with a wipe or without an error. -/
theorem Displayed.answer (h : Displayed sdk g g') :
    (∃ g₁ sw, g' = g₁.reply none sw ∧ Unanswered g g₁ ∧ AnswerRestores c g₁.ctx none sw) ∨
      Unanswered g g' ∧ (g'.ui.flow = .txOutput ∨ g'.ui.flow = .confirmTx) := by
  cases h with
  | asked h =>
    cases h with
    | send => exact .inr ⟨⟨rfl, rfl, rfl⟩, .inr rfl⟩
    | refused => exact .inl ⟨_, _, rfl, unanswered_cancel g, .inr (.inl rfl)⟩
    | more => exact .inl ⟨_, _, rfl, ⟨rfl, rfl, rfl⟩, .inl ⟨rfl, Nat.zero_le _⟩⟩
  | output => exact .inr ⟨unanswered_showOutput g, .inl rfl⟩

/-- What the user answers to the review of a transaction leaves nothing behind. -/
theorem Clean.pressStep (hclean : Clean old c g) (hio : g.io.state = .waiting) {button : Button}
    (h : PressStep sdk g button g') : Clean old c g' := by
  obtain ⟨hold, hopen⟩ := hclean.asked hio
  have hwaits : ∀ g₁ : Globals, Unanswered g g₁ → g₁.ui.flow = .txOutput ∨ g₁.ui.flow = .confirmTx →
      Clean old c g₁ := fun g₁ h hflow =>
    ⟨fun hsent => absurd (h.responses_eq.trans hold ▸ hsent) not_errorSent_self,
      fun _ => ⟨h.responses_eq.trans hold, hflow⟩⟩
  have hanswers : ∀ (g₁ : Globals) (rdata : Option Bytes) (sw : ℕ), Unanswered g g₁ →
      AnswerRestores c g₁.ctx rdata sw → Clean old c (g₁.reply rdata sw) := fun g₁ rdata sw h =>
    clean_press_reply (h.io_eq ▸ hio) (h.responses_eq.trans hold)
  cases h with
  | inactive => exact hwaits _ (unanswered_press _ g) hopen
  | approveTx =>
    rw [openFlow_reply rfl]
    exact hanswers _ _ _ ⟨rfl, rfl, rfl⟩ (.inl ⟨rfl, Nat.zero_le _⟩)
  | approveOutput hflow n d c' _ hdisplayed =>
    have hreview := (unanswered_press .approve g).trans (unanswered_review _ n d c')
    rcases hdisplayed.answer (c := c) with ⟨g₁, sw, rfl, hunanswered, hrestores⟩ | ⟨hunanswered, hflow⟩
    · exact hanswers _ _ _ (hreview.trans hunanswered) hrestores
    · exact hwaits _ (hreview.trans hunanswered) hflow
  | reject =>
    exact hanswers _ _ _ ((unanswered_press _ g).trans (unanswered_cancel _)) (.inr (.inl rfl))
  | approveXpub hflow | approveToken hflow | approveAddress hflow | approveReset hflow
    | rejectReset hflow | exitToMenu hflow | quit hflow | about hflow | back hflow =>
    rw [hflow] at hopen
    rcases hopen with h | h <;> cases h

/-! ### What a command leaves behind -/

/-- A first chunk that fails is one that cannot be read. -/
theorem FirstChunkFailed.run_eq {data : Bytes} {sw : ℕ} (h : FirstChunkFailed data g sw g') :
    ∃ t, (readFirstChunk data).run { sha256 := .fed [] } = .error sw t := by
  cases h with
  | changes changeLen changeInfo sw hchanges => exact ⟨_, readFirstChunk_of_changes_error hchanges⟩
  | header skipped rest changeLen changeInfo version tokens inputs hdata hshort cdata hchanges hread =>
    exact ⟨_, hread⟩

/-- A first chunk that is queued can be read. -/
theorem Queued.run_ne {data : Bytes} {sw : ℕ} {t : TxInfo} (hdata : data.length ≤ 255)
    (h : Queued data 0 g g') : (readFirstChunk data).run { sha256 := .fed [] } ≠ .error sw t := by
  cases h with
  | first h skipped rest changeLen changeInfo hchunk hsplit cdata hchanges hread =>
    have hhash : (announced data).sha256 = .fed (h.bytes ++ rest) := by
      rw [hread]
      rfl
    obtain ⟨cdata', hrun, -⟩ := readFirstChunk_of_header hdata hchanges hhash
    rw [hrun]
    rintro ⟨⟩
  | next hchunk => exact absurd rfl hchunk

/-- A command leaves nothing behind, unless it is a first chunk that cannot be read. -/
theorem clean_stageStep {data : Bytes} {stage chunk : ℕ} {ends : Bool} (hfit : sdk.SignaturesFit)
    (hbuffer : byteAt g.io.apduBuffer 0 = cla)
    (hreads : ∀ sw t, stage = 0 → chunk = 0 → g.ctx.state ≠ .recvData → g.ctx.state ≠ .approved →
      (readFirstChunk data).run { sha256 := .fed [] } ≠ .error sw t)
    (h : StageStep sdk data stage chunk g ends g') :
    Clean (responses g.log) g.ctx (g'.resume ends) := by
  cases h with
  | cancelled => exact clean_resume_reply (unanswered_cancel g).responses_eq (.inr (.inl rfl))
  | refused => exact clean_resume_reply rfl (.inr (.inr rfl))
  | misread => exact clean_resume_reply rfl (.inr (.inr rfl))
  | signing hstage hstate path rest haccepted _ _ h =>
    cases h with
    | empty | refused | finished => exact clean_restart
    | signed hpath t hfinish privateKey chainCode signature hderive hsign =>
      exact clean_resume_reply rfl (.inl ⟨rfl, hfit _ _ _ hsign⟩)
  | wiped => exact clean_resume_reply rfl (.inr (.inl rfl))
  | failed hstage hchunk hstate happroved g₁ sw hfailed =>
    obtain ⟨t, hrun⟩ := hfailed.run_eq
    exact absurd hrun (hreads sw t hstage hchunk hstate happroved)
  | received hstage happroved hfirst g₁ _ _ hq hd =>
    have hqueued : Unanswered g g₁ := by
      cases hq with
      | first => exact ⟨rfl, rfl, rfl⟩
      | next => exact ⟨rfl, rfl, rfl⟩
    have hdecode : Unanswered g (g₁.decode sdk) :=
      hqueued.trans (unanswered_decode g₁)
    cases hd with
    | invalid =>
      exact clean_resume_reply (hdecode.trans (unanswered_cancel _)).responses_eq (.inr (.inl rfl))
    | failed => exact clean_restart
    | silent => exact clean_resume_reply hdecode.responses_eq (.inl ⟨rfl, Nat.zero_le _⟩)
    | displayed hready hsome n d c _ hdisplayed =>
      have hreview := hdecode.trans (unanswered_review (g₁.decode sdk) n d c)
      rcases hdisplayed.answer (c := g.ctx) with ⟨g₂, sw, rfl, h₂, hrestores⟩ | ⟨h₂, hflow⟩
      · exact clean_resume_reply (hreview.trans h₂).responses_eq hrestores
      · refine clean_resume_asked (hreview.trans h₂).responses_eq ?_ hflow
        rw [(hreview.trans h₂).io_eq, hbuffer]

/-- The new transaction stays behind, and the host is told of an error. -/
theorem FirstChunkFailed.leaves {data : Bytes} {sw : ℕ} (h : FirstChunkFailed data g sw g') :
    sw ∈ Sw.errors ∧ g'.ctx.state = .recvData ∧ Unanswered g g' := by
  have hlength : Sw.wrongDataLength ∈ Sw.errors := by decide
  cases h with
  | changes changeLen changeInfo sw hchanges =>
    refine ⟨?_, rfl, ⟨rfl, rfl, rfl⟩⟩
    rcases (EStateM.wp_of_run_error hchanges).1 wp_readChangeInfo_refused with rfl | rfl
    · exact hlength
    · decide
  | header => exact ⟨hlength, rfl, ⟨rfl, rfl, rfl⟩⟩

variable {w : World} {apdu : Bytes}

theorem clean_of_command (hfit : sdk.SignaturesFit) (hready : w.globals.Ready)
    (hsign : IsSignTx apdu) (hreads : ¬(MalformedFirstChunk apdu ∧ w.ctx.state ≠ .recvData ∧
      w.ctx.state ≠ .approved)) :
    Clean (responses w.trace) w.ctx (step sdk w (.apdu apdu)).globals := by
  obtain ⟨ends, g', hcommand, hglobals⟩ : ∃ ends g', CommandStep sdk w.globals apdu ends g' ∧
      (step sdk w (.apdu apdu)).globals = g'.resume ends := commandStep_runCommand hready
  have hold : responses (w.globals.receive apdu).log = responses w.trace := by
    rw [responses_receive]
    exact w.responses_log
  rw [hglobals]
  cases hcommand with
  | malformed => exact clean_resume_reply hold (.inr (.inr rfl))
  | rejected => exact clean_resume_reply hold (.inr (.inr rfl))
  | handled call hcall _ _ h =>
    obtain ⟨data, rfl⟩ := call_of_isSignTx hsign hcall
    cases h with
    | signTx _ _ _ _ _ h =>
      rw [← hold]
      refine clean_stageStep hfit ?_ (fun sw t hstage hchunk hstate happroved hrun => ?_) h
      · obtain ⟨byte, rest, rfl⟩ := List.exists_cons_of_ne_nil (l := apdu) (by
          rintro rfl
          exact absurd hsign.1 (by decide))
        exact hsign.1
      · rw [hstage, hchunk] at hcall
        exact hreads ⟨⟨data, sw, t, hcall, hrun⟩, hstate, happroved⟩

/-- For every reachable state and every command `SIGN_TX`: an error, of the app or because of what
the user answers, leaves nothing behind, unless the command is a first chunk that cannot be read
although the app expects one. -/
theorem allOrNothing_iff (hfit : sdk.SignaturesFit)
    (hw : Reachable Booted (step sdk) (fun _ _ => True) w) (hsign : IsSignTx apdu) :
    AllOrNothing sdk w apdu ↔
      ¬(MalformedFirstChunk apdu ∧ w.ctx.state ≠ .recvData ∧ w.ctx.state ≠ .approved) := by
  constructor
  · rintro h ⟨⟨data, sw, t, hcall, hrun⟩, hstate, happroved⟩
    obtain ⟨ends, g', hcommand, hglobals⟩ : ∃ ends g', CommandStep sdk w.globals apdu ends g' ∧
        (step sdk w (.apdu apdu)).globals = g'.resume ends :=
      commandStep_runCommand (sound_of_reachable hw).ready
    cases hcommand.handled_of_callOf hcall with
    | signTx _ _ _ _ _ hstage =>
      cases hstage with
      | cancelled h =>
        rcases h with ⟨-, h | ⟨h, -⟩⟩ | h
        · exact happroved h
        · exact absurd h (Nat.lt_irrefl 0)
        · exact absurd h (by omega)
      | refused h | misread h | signing h => cases h
      | wiped _ _ hrecv => exact hstate hrecv
      | received _ _ _ _ _ _ hqueued => exact hqueued.run_ne (length_of_callOf hcall) hrun
      | failed _ _ _ _ g₁ sw hfailed =>
        obtain ⟨hsw, hleft, hunanswered⟩ := hfailed.leaves
        have hsent : AnsweredWithError w (step sdk w (.apdu apdu)) := by
          have hlog : responses (step sdk w (.apdu apdu)).log =
              responseBody none sw :: responses w.log := by
            calc responses (step sdk w (.apdu apdu)).log
                = responses (g₁.reply none sw).mainLoop.log :=
                  congrArg (fun g => responses g.log) hglobals
              _ = responseBody none sw :: responses g₁.log := responses_mainLoop_reply ..
              _ = responseBody none sw :: responses w.log := by
                  rw [hunanswered.responses_eq, responses_receive]
                  rfl
          rw [World.responses_log, World.responses_log] at hlog
          rw [AnsweredWithError, hlog]
          exact errorSent_of_mem hsw
        have hctx : (step sdk w (.apdu apdu)).ctx = g₁.ctx := congrArg Globals.ctx hglobals
        have hcontext := h.context _ (.start rfl) hsent
        rw [hctx] at hcontext
        rcases hcontext with hwiped | hsame
        · rw [hwiped] at hleft
          cases hleft
        · exact hstate ((congrArg GlobalCtx.state hsame).symm.trans hleft)
  · intro hreads
    have hclean : ∀ w', Reachable (· = step sdk w (.apdu apdu)) (step sdk) Answering w' →
        Clean (responses w.trace) w.ctx w'.globals := by
      intro w' hw'
      refine hw'.invariant (I := fun w' => Clean (responses w.trace) w.ctx w'.globals) ?_ ?_
      · rintro _ rfl
        exact clean_of_command hfit (sound_of_reachable hw).ready hsign hreads
      · rintro v _ hv ⟨hwaiting, button, rfl⟩ hclean
        have hall : Reachable Booted (step sdk) (fun _ _ => True) v :=
          (hw.next _ trivial).trans (hv.mono fun _ _ _ _ => trivial)
        have hpress := @globalsStep sdk v (sound_of_reachable hall).ready (.press button)
        generalize (step sdk v (.press button)).globals = g' at hpress
        cases hpress with
        | press _ _ h => exact hclean.pressStep hwaiting h
    refine ⟨fun w' hw' hsent => ?_, fun hnone hmalformed => ?_⟩
    · have hlog : responses w'.globals.log = responses w'.trace := w'.responses_log
      exact (hclean w' hw').restored (hlog ▸ hsent)
    · exact absurd ⟨hmalformed, by rw [hnone]; nofun, by rw [hnone]; nofun⟩ hreads

/-- The platform of the sample runs, with signatures of the length of real ones. -/
def shortSdk : Sdk := { Sdk.sample with ecdsaSign := fun key digest => some ((key ++ digest).take 72) }

theorem signaturesFit_shortSdk : shortSdk.SignaturesFit := by
  intro key digest signature h
  have hlen := List.length_take_le 72 (key ++ digest)
  rw [Option.some.inj h] at hlen
  omega

/-- The first chunk of two is reviewed. -/
def sampleUnfinished : World := run shortSdk sampleBoot (sampleTwoChunks.take 2)

/-- A second chunk with a malformed script. -/
def sampleBroken : Bytes := Command.encode ⟨cla, Ins.signTx, 0, 1, List.replicate 30 0⟩

/-- The error in the second chunk wipes what the first one has left in the context. -/
theorem allOrNothing_sampleBroken :
    sampleUnfinished.ctx.state = .recvData ∧
      AnsweredWithError sampleUnfinished (step shortSdk sampleUnfinished (.apdu sampleBroken)) ∧
      AllOrNothing shortSdk sampleUnfinished sampleBroken := by
  have hreach : Reachable Booted (step shortSdk) (fun _ _ => True) sampleUnfinished :=
    (Reachable.start booted_sampleBoot).follow (follows_true _ (sampleTwoChunks.take 2))
  refine ⟨by decide +kernel, by decide +kernel,
    (allOrNothing_iff signaturesFit_shortSdk hreach (by decide)).2 ?_⟩
  rintro ⟨⟨data, sw, t, hcall, -⟩, -⟩
  have hlater : callOf sampleBroken = some (.signTx (List.replicate 30 0) 0 1) := by decide +kernel
  cases hlater.symm.trans hcall

/-- A first chunk whose transaction is cut short behind the header. -/
def sampleFirst : Bytes := Command.encode ⟨cla, Ins.signTx, 0, 0, 0 :: sampleHeader.bytes⟩

/-- A first chunk with an unknown version of the change information. -/
def sampleUnknown : Bytes := Command.encode ⟨cla, Ins.signTx, 0, 0, 2 :: sampleHeader.bytes⟩

/-- After the unknown version a first chunk is refused that would have been accepted in its place. -/
theorem not_allOrNothing_sampleUnknown :
    Reachable Booted (step shortSdk) (fun _ _ => True) sampleBoot ∧ IsSignTx sampleUnknown ∧
      ¬AllOrNothing shortSdk sampleBoot sampleUnknown := by
  refine ⟨.start booted_sampleBoot, by decide, fun h => ?_⟩
  refine h.retry rfl ?_ sampleFirst (0 :: sampleHeader.bytes) (by decide +kernel)
    (by decide +kernel) (by decide +kernel)
  exact ⟨2 :: sampleHeader.bytes, Sw.invalidTx, _, by decide +kernel, rfl⟩

end HathorLedger
