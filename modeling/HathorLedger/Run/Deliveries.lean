import HathorLedger.Run.Approvals
import HathorLedger.Run.Errors

/-!
# The chunks of an honest transaction

Every chunk of an honest transaction is queued and decoded, and the review goes on with the outputs
that are complete by then. If there are none, the host is told at once to send more.

## Main definitions

* `dataChunk`: the command that sends a chunk.
* `Job.Loaded`: a chunk is queued.

## Main results

* `Job.Loaded.next`: what follows the decoder.
* `Job.next_of_first`, `Job.next_of_later`: what a chunk leads to.
-/

namespace HathorLedger

open EStateM (wp_of_run_ok wp_of_run_error)

/-- The command that sends a chunk of a transaction. -/
def dataChunk (number : UInt8) (data : Bytes) : Bytes :=
  Command.encode ⟨cla, Ins.signTx, 0, number.toNat, data⟩

/-- The app reads a command as the host sends it. -/
theorem apduParser_encode {cmd : Command} (hcla : cmd.cla < 256) (hins : cmd.ins < 256)
    (hp1 : cmd.p1 < 256) (hp2 : cmd.p2 < 256) (hlen : cmd.data.length ≤ 255) :
    apduParser cmd.encode = some cmd := by
  have hbyte : (UInt8.ofNat cmd.data.length).toNat = cmd.data.length :=
    UInt8.toNat_ofNat_of_lt' (by rw [UInt8.size]; omega)
  rw [apduParser, if_neg]
  · simp [Command.encode, byteAt, UInt8.toNat_ofNat_of_lt' hcla, UInt8.toNat_ofNat_of_lt' hins,
      UInt8.toNat_ofNat_of_lt' hp1, UInt8.toNat_ofNat_of_lt' hp2]
  · simp [Command.encode, byteAt, hbyte]

/-- A command that passes the checks makes its call. -/
theorem callOf_encode {ins p1 p2 : ℕ} {data : Bytes} {call : Call} (hins : ins < 256)
    (hp1 : p1 < 256) (hp2 : p2 < 256) (hlen : data.length ≤ 255)
    (hcheck : checkCommand ⟨cla, ins, p1, p2, data⟩ = .ok call) :
    callOf (Command.encode ⟨cla, ins, p1, p2, data⟩) = some call := by
  have hcla : cla < 256 := by decide
  rw [callOf, apduParser_encode hcla hins hp1 hp2 hlen]
  exact congrArg Except.toOption hcheck

/-- The commands `SIGN_TX` with data. -/
theorem callOf_signTx {stage chunk : ℕ} {data : Bytes}
    (hstage : stage = 0 ∧ chunk < 256 ∨ stage = 1 ∧ chunk = 0) (hne : data ≠ [])
    (hlen : data.length ≤ 255) :
    callOf (Command.encode ⟨cla, Ins.signTx, stage, chunk, data⟩) = some (.signTx data stage chunk) := by
  have hcheck : checkCommand ⟨cla, Ins.signTx, stage, chunk, data⟩ =
      .ok (.signTx data stage chunk) := by
    have hversion : Ins.signTx ≠ Ins.getVersion := by decide
    have haddress : Ins.signTx ≠ Ins.getAddress := by decide
    have hxpub : Ins.signTx ≠ Ins.getXpub := by decide
    rw [checkCommand, if_neg (not_not.2 rfl), if_neg hversion, if_neg haddress, if_neg hxpub,
      if_pos rfl, if_neg, if_neg]
    · rcases hstage with ⟨rfl, -⟩ | ⟨rfl, -⟩ <;> simp [hne]
    · rcases hstage with ⟨rfl, -⟩ | ⟨rfl, rfl⟩ <;> simp
  exact callOf_encode (by decide) (by omega) (by omega) hlen hcheck

theorem callOf_dataChunk {data : Bytes} (number : UInt8) (hne : data ≠ [])
    (hlen : data.length ≤ 255) :
    callOf (dataChunk number data) = some (.signTx data 0 number.toNat) :=
  callOf_signTx (.inl ⟨rfl, number.toNat_lt⟩) hne hlen

variable {sdk : Sdk} {j : Job} {e e' : Elements} {p r : Bytes} {n : ℕ} {g g' : Globals} {w : World}

/-! ### Decoding a chunk -/

variable (sdk j) in
/-- A chunk is queued for the decoder: the elements `e` were decoded before, and the bytes `p` are
pending. -/
structure Job.Loaded (e : Elements) (p : Bytes) (g : Globals) : Prop where
  held : Held sdk j.header e g.ctx.txInfo
  pointsTo : PointsTo j.registry e g.ctx.txInfo
  changeEntries : g.ctx.txInfo.changeEntries = j.infos
  changeLen : g.ctx.txInfo.changeLen = j.infos.length
  pending : g.ctx.txInfo.pending = p
  bufferLen_lt : g.ctx.txInfo.bufferLen < 320
  bufferOutputLen : g.ctx.txInfo.bufferOutputLen = 0
  displayIndex : g.ctx.txInfo.displayIndex = 0
  confirmedOutputs : g.ctx.txInfo.confirmedOutputs = e.outputs.length
  tokenSymbols : g.tokenSymbols = j.registry
  reqType : g.ctx.reqType = .confirmTransaction
  state : g.ctx.state = .recvData
  screens : ∃ shown, reviewScreens g.log = shown.reverse ++ reviewScreens j.log ∧
    List.Forall₂ (j.ScreenOf sdk) (j.reviewed e.outputs.length) shown

/-- The decoder shows no screens. -/
theorem reviewScreens_decode (g : Globals) :
    reviewScreens (g.decode sdk).log = reviewScreens g.log := by
  refine reviewScreens_of_forall (fun ev hev => ?_) g.log
  rcases mem_decodeEvents hev with rfl | rfl | ⟨info, -, rfl⟩ <;> rfl

/-- What follows the decoder: the elements up to `e'` are decoded, and the review goes on with the
outputs among them. -/
theorem Job.Loaded.next (hl : j.Loaded sdk e p g) (hj : j.Honest sdk)
    (hlt : e.outputs.length < j.elements.outputs.length)
    (hdrain : (elementParser sdk j.registry j.infos j.header).drain e p = .ok (e', r))
    (hstart : e'.StartOf j.elements) (hio : g.io.state = .received) {ends : Bool}
    (hd : Decoded sdk g ends g') :
    ends = false ∧ j.Next sdk e' r e.outputs.length (responses g.log) g'.mainLoop := by
  have hmore : e.nextKind j.header ≠ none := by
    intro hnone
    have hall := (Elements.nextKind_eq_none_iff.1 hnone).2.2
    rw [← hj.isTransaction.length_outputs] at hall
    omega
  rw [← hl.changeEntries, ← hl.pending] at hdrain
  obtain ⟨hready, hwaiting, hcontext, hcount⟩ := decodeElements_of_drain hl.held hl.pointsTo
    hl.bufferOutputLen hl.bufferLen_lt (.inr hmore) hdrain
  rw [← hl.tokenSymbols, hl.changeEntries] at hwaiting
  rw [← hl.tokenSymbols] at hready hcontext hcount
  have hconfirmed : (g.decode sdk).ctx.txInfo.confirmedOutputs = e.outputs.length :=
    hcontext.confirmedOutputs.trans hl.confirmedOutputs
  have hdisplay : (g.decode sdk).ctx.txInfo.displayIndex = 0 :=
    hcontext.displayIndex.trans hl.displayIndex
  have hunanswered : Unanswered g (g.decode sdk) := unanswered_decode g
  have hreview : j.Review sdk e' r e.outputs.length (g.decode sdk) := by
    refine ⟨hl.tokenSymbols ▸ hwaiting, hstart, hcontext.changeLen.trans hl.changeLen,
      hl.tokenSymbols, hl.reqType, hl.state, ?_⟩
    rw [reviewScreens_decode]
    exact hl.screens
  cases hd with
  | invalid h => cases hready.symm.trans h
  | failed h h' => exact absurd hready h'
  | silent h hnone =>
    have hnone' : (decodeElements sdk g.tokenSymbols g.ctx.txInfo).2.bufferOutputLen = 0 := hnone
    have hlen : e'.outputs.length = e.outputs.length := by omega
    rw [← hlen] at hreview hconfirmed
    refine ⟨rfl, .more (by omega) (by omega) ⟨hreview.of_same rfl rfl ?_, hconfirmed, nofun⟩ ?_⟩
    · rw [log_mainLoop_reply]
      rfl
    · rw [responses_mainLoop_reply, hunanswered.responses_eq]
      rfl
  | displayed h hsome n d c _ hdisplayed hskipped =>
    have hoffset : e.outputs.length + (g.decode sdk).ctx.txInfo.bufferOutputLen =
        e'.outputs.length + 0 := hcount
    have hle := hwaiting.held.bufferOutputLen_le
    have houtputs := Job.Review.outputs_le hreview
    have hbyte := Job.Review.outputs_lt hj
    have hbounds : (g.decode sdk).ctx.txInfo.InBounds :=
      ⟨by omega, by rw [hconfirmed, hreview.outputsLen hj]; omega, by omega,
        by rw [hreview.outputsLen hj]; exact hbyte⟩
    have hskipped' := hskipped hbounds
    have hcontinued := hreview.displayed hj hoffset
      (by rw [← hdisplay, ← hconfirmed]; exact hskipped') hdisplayed
    refine ⟨rfl, ?_⟩
    rw [← hunanswered.responses_eq]
    exact hcontinued.next_mainLoop (hunanswered.io_eq ▸ hio)

/-! ### Receiving a chunk -/

/-- A command that is `SIGN_TX` makes a stage. -/
theorem exists_stageStep_of_callOf (hs : Sound sdk w.globals) {apdu data : Bytes} {stage chunk : ℕ}
    (hcall : callOf apdu = some (.signTx data stage chunk)) : ∃ ends g',
      StageStep sdk data stage chunk (w.globals.receive apdu) ends g' ∧
        (step sdk w (.apdu apdu)).globals = g'.resume ends := by
  obtain ⟨ends, g', hcommand, hglobals⟩ : ∃ ends g', CommandStep sdk w.globals apdu ends g' ∧
      (step sdk w (.apdu apdu)).globals = g'.resume ends :=
    commandStep_runCommand hs.ready
  cases hcommand.handled_of_callOf hcall with
  | signTx _ _ _ _ _ hstage => exact ⟨ends, g', hstage, hglobals⟩

/-- A chunk is a data stage. -/
theorem exists_stageStep (hs : Sound sdk w.globals) {data : Bytes} (number : UInt8) (hne : data ≠ [])
    (hlen : data.length ≤ 255) : ∃ ends g',
      StageStep sdk data 0 number.toNat (w.globals.receive (dataChunk number data)) ends g' ∧
        (step sdk w (.apdu (dataChunk number data))).globals = g'.resume ends :=
  exists_stageStep_of_callOf hs (callOf_dataChunk number hne hlen)

section First

variable {changes : List ChangeEntry} {info first : Bytes} {h : Header}

theorem changeCells_initial : ({ sha256 := .fed [] } : TxInfo).ChangeCells where
  length_changeInfo := rfl
  pathCells info hinfo := by
    rw [List.eq_of_mem_replicate hinfo]
    rfl

/-- The record that a first chunk announces has its change entries and its header. -/
theorem announced_firstChunk (hinfo : ChangeCoding changes info)
    (hlen : (info ++ (h.bytes ++ first)).length ≤ 255) :
    ∃ cdata t, (readFirstChunk (info ++ (h.bytes ++ first))).run { sha256 := .fed [] } =
        .ok cdata (announced (info ++ (h.bytes ++ first))) ∧ Declares changes t ∧
      announced (info ++ (h.bytes ++ first)) =
        h.enter { t with sha256 := .fed (h.bytes ++ first) } := by
  have hwf : (Buffer.ofBytes (info ++ (h.bytes ++ first))).Wf :=
    Buffer.wf_ofBytes (by rw [sizeMod]; omega)
  obtain ⟨cdata, t, hrun, hrest, hdeclares⟩ := EStateM.exists_run_of_wp
    (hinfo.wp_readChangeInfo hwf changeCells_initial (Buffer.rest_ofBytes _))
  obtain ⟨hmoved, changeLen, changeInfo, rfl⟩ := (wp_of_run_ok hrun).1 (wp_readChangeInfo hwf)
  have hread := readFirstChunk_of_changes_ok hrun
  rw [run_readTxData (hmoved.wf hwf) hrest, hrest] at hread
  have hannounced := announced_of_ok hread
  refine ⟨cdata.advance 5, _, hread.trans ?_, hdeclares, hannounced⟩
  rw [hannounced]

/-- The first chunk is queued as it was sent. -/
theorem Job.loaded_of_first (hinfo : ChangeCoding changes info)
    (hlen : (info ++ (h.bytes ++ first)).length ≤ 255)
    (hq : Queued (info ++ (h.bytes ++ first)) 0 g g') (hheader : j.header = h)
    (hinfos : j.infos = (announced (info ++ (h.bytes ++ first))).changeEntries)
    (hregistry : g.tokenSymbols = j.registry) (hlog : reviewScreens g.log = reviewScreens j.log) :
    j.Loaded sdk {} first g' := by
  obtain ⟨-, t, -, hdeclares, hannounced⟩ := announced_firstChunk hinfo hlen
  cases hq with
  | next hchunk => exact absurd rfl hchunk
  | first h' skipped rest changeLen changeInfo hchunk hdata cdata hchanges hread =>
    have hhash : h'.bytes ++ rest = h.bytes ++ first :=
      Sha256Ctx.fed.inj (congrArg TxInfo.sha256 (hread.symm.trans hannounced))
    obtain ⟨hbytes, rfl⟩ := List.append_inj hhash rfl
    have hheaders : h' = h := by
      obtain ⟨⟩ := h
      obtain ⟨⟩ := h'
      simpa [Header.bytes] using hbytes
    subst hheaders hheader
    have hentries : (announced (info ++ (j.header.bytes ++ rest))).changeEntries =
        t.changeEntries := by
      rw [hannounced]
      rfl
    have hcount : changeLen = t.changeLen :=
      congrArg TxInfo.changeLen (hread.symm.trans hannounced)
    have hfit : (0 : ℕ) + rest.length ≤ bufferCells := by
      rw [List.length_append, List.length_append] at hlen
      rw [bufferCells]
      omega
    refine ⟨held_queue (held_enter List.length_replicate rfl rfl rfl rfl rfl) hfit,
      ⟨fun _ h => absurd h List.not_mem_nil, rfl⟩, ?_, ?_, ?_, ?_, rfl, rfl, rfl, hregistry, rfl, rfl,
      [], hlog, .nil⟩
    · rw [hinfos, hread]
      rfl
    · rw [hinfos, hentries, ← hdeclares.stored.length_eq, ← hdeclares.changeLen]
      exact hcount
    · exact pending_queue (Nat.zero_le _)
    · rw [bufferCells] at hfit
      change 0 + rest.length < 320
      omega

end First

/-- A later chunk is queued behind the bytes that are left over. -/
theorem Job.Resting.loaded (hr : j.Resting sdk e r g) {data : Bytes} {chunk : ℕ}
    (hdata : data.length ≤ 255) (hchunk : chunk ≠ 0) (hq : Queued data chunk g g') :
    j.Loaded sdk e (r ++ data) g' := by
  obtain ⟨⟨hwaiting, -, hchangeLen, htokens, hreq, hstate, hscreens⟩, hconfirmed, -⟩ := hr
  cases hq with
  | first h skipped rest changeLen changeInfo hfirst => exact absurd hfirst hchunk
  | next =>
    have hlen := hwaiting.bufferLen_lt
    have hfit : g.ctx.txInfo.bufferLen + data.length ≤ bufferCells := by
      rw [bufferCells]
      omega
    have hrestart : Held sdk j.header e { g.ctx.txInfo with
        displayIndex := 0, bufferOutputLen := 0, sha256 := g.ctx.txInfo.sha256.update data } := by
      have hheld := held_restart hwaiting.held
      exact { hheld with }
    refine ⟨held_queue hrestart hfit, ⟨hwaiting.pointsTo.lt_len, hwaiting.pointsTo.uids⟩,
      hwaiting.changeEntries, hchangeLen, ?_, ?_, rfl, rfl, hconfirmed, htokens, hreq, hstate,
      hscreens⟩
    · rw [← hwaiting.pending]
      exact pending_queue hrestart.bufferLen_le_length
    · change g.ctx.txInfo.bufferLen + data.length < 320
      omega

/-- The app waits for a later chunk, and goes on with the review when it arrives. -/
theorem Job.next_of_later (hj : j.Honest sdk) (hw : Reachable Booted (step sdk) Sequential w)
    (hr : j.Resting sdk e r w.globals) (hlt : e.outputs.length < j.elements.outputs.length)
    {number : UInt8} {data r' : Bytes} (hnumber : number ≠ 0) (hne : data ≠ [])
    (hlen : data.length ≤ 255)
    (hdrain : (elementParser sdk j.registry j.infos j.header).drain e (r ++ data) = .ok (e', r'))
    (hstart : e'.StartOf j.elements) :
    j.Next sdk e' r' e.outputs.length (responses w.trace)
      (step sdk w (.apdu (dataChunk number data))).globals := by
  have hlistening := (attended_of_reachable (fun _ _ => id) hw).listening
  have hio := hlistening.received (dataChunk number data)
  have hchunk : number.toNat ≠ 0 := fun h => hnumber (UInt8.toNat_inj.1 h)
  have hstate := hr.review.state
  obtain ⟨ends, g', hstage, hglobals⟩ := exists_stageStep (sound_of_reachable hw) number hne hlen
  rw [hglobals]
  cases hstage with
  | cancelled h =>
    rcases h with ⟨-, h | ⟨-, h⟩⟩ | h
    · cases hstate.symm.trans h
    · exact absurd hstate h
    · omega
  | refused h | misread h | signing h => cases h
  | wiped _ h => exact absurd h hchunk
  | failed _ h => exact absurd h hchunk
  | received _ _ _ g₁ _ _ hq hd =>
    have hreceived : j.Resting sdk e r (w.globals.receive (dataChunk number data)) :=
      ⟨hr.review.of_same rfl rfl rfl, hr.confirmedOutputs, by rw [hio]; nofun⟩
    have hloaded := hreceived.loaded hlen hchunk hq
    have hio₁ : g₁.io.state = .received := by
      cases hq with
      | first | next => exact hio
    obtain ⟨rfl, hnext⟩ := hloaded.next hj hlt hdrain hstart hio₁ hd
    have hresponses : responses g₁.log = responses w.trace := by
      rw [← World.responses_log]
      cases hq with
      | first | next => rfl
    rw [hresponses] at hnext
    exact hnext

/-- An app without a transaction starts the review when the first chunk arrives. -/
theorem Job.next_of_first {changes : List ChangeEntry} {info first : Bytes} {h : Header}
    (hinfo : ChangeCoding changes info) (hlen : (info ++ (h.bytes ++ first)).length ≤ 255)
    (hj : j.Honest sdk) (hheader : j.header = h)
    (hinfos : j.infos = (announced (info ++ (h.bytes ++ first))).changeEntries)
    (hregistry : w.tokenSymbols = j.registry) (hlog : j.log = w.trace)
    (hw : Reachable Booted (step sdk) Sequential w) (hrecv : w.ctx.state ≠ .recvData)
    (happroved : w.ctx.state ≠ .approved)
    (hdrain : (elementParser sdk j.registry j.infos j.header).drain {} first = .ok (e', r))
    (hstart : e'.StartOf j.elements) :
    j.Next sdk e' r 0 (responses w.trace)
      (step sdk w (.apdu (dataChunk 0 (info ++ (h.bytes ++ first))))).globals := by
  have hlistening := (attended_of_reachable (fun _ _ => id) hw).listening
  have hio := hlistening.received (dataChunk 0 (info ++ (h.bytes ++ first)))
  have hne : info ++ (h.bytes ++ first) ≠ [] := by
    rw [Header.bytes]
    simp
  obtain ⟨ends, g', hstage, hglobals⟩ := exists_stageStep (sound_of_reachable hw) 0 hne hlen
  rw [hglobals]
  cases hstage with
  | cancelled h =>
    rcases h with ⟨-, h | ⟨h, -⟩⟩ | h
    · exact absurd h happroved
    · exact absurd h (Nat.lt_irrefl 0)
    · omega
  | refused h | misread h | signing h => cases h
  | wiped _ _ h => exact absurd h hrecv
  | failed _ _ _ _ g₁ sw hfailed =>
    obtain ⟨t, hrun⟩ := hfailed.run_eq
    obtain ⟨cdata, -, hread, -⟩ := announced_firstChunk hinfo hlen
    cases hrun.symm.trans hread
  | received _ _ _ g₁ _ _ hq hd =>
    have hscreens : reviewScreens (w.globals.receive (dataChunk 0 (info ++ (h.bytes ++ first)))).log =
        reviewScreens j.log := by
      rw [hlog, ← World.reviewScreens_log]
      rfl
    have hloaded : j.Loaded sdk {} first g₁ :=
      Job.loaded_of_first hinfo hlen hq hheader hinfos hregistry hscreens
    have hio₁ : g₁.io.state = .received := by
      cases hq with
      | first | next => exact hio
    obtain ⟨rfl, hnext⟩ := hloaded.next hj hj.outputs_pos hdrain hstart hio₁ hd
    have hresponses : responses g₁.log = responses w.trace := by
      rw [← World.responses_log]
      cases hq with
      | first | next => rfl
    rw [hresponses] at hnext
    exact hnext

/-- An approved transaction takes no more chunks. -/
theorem refused_of_approved (hw : Reachable Booted (step sdk) Sequential w)
    (happroved : w.ctx.state = .approved) (number : UInt8) {data : Bytes} (hne : data ≠ [])
    (hlen : data.length ≤ 255) :
    (step sdk w (.apdu (dataChunk number data))).ui.flow.hasApprove = false ∧
      responses (step sdk w (.apdu (dataChunk number data))).trace =
        beBytes 2 Sw.badState :: responses w.trace := by
  have hio := (attended_of_reachable (fun _ _ => id) hw).listening.received (dataChunk number data)
  obtain ⟨ends, g', hstage, hglobals⟩ := exists_stageStep (sound_of_reachable hw) number hne hlen
  rw [← World.responses_log, ← World.responses_log]
  change (step sdk w (.apdu (dataChunk number data))).globals.ui.flow.hasApprove = false ∧
    responses (step sdk w (.apdu (dataChunk number data))).globals.log = _
  rw [hglobals]
  cases hstage with
  | cancelled h =>
    rw [hio]
    exact ⟨rfl, responses_mainLoop_reply _ _ _⟩
  | refused h | misread h | signing h => cases h
  | wiped _ _ h => cases h.symm.trans happroved
  | failed _ _ _ h | received _ h => exact absurd happroved h

end HathorLedger
