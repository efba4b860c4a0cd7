import HathorLedger.Run.Effects

/-!
# The session invariant

While the context holds a transaction, the transaction record stands for the elements that were read
so far, and the bytes fed to the transaction hash are the header, the serialised elements and the
pending bytes. A first chunk that could not be read leaves a record behind that announces no outputs.
This holds in every reachable state, also when commands arrive while a screen is open.

## Main definitions

* `Session`: the context holds a transaction with some header and some elements.
* `Authorised`, `Gated`: every signature in the log was made after the approval of what was hashed.
* `Sound`: the invariant.

## Main results

* `Sound.step`, `sound_of_reachable`: the invariant holds in every reachable state.
-/

namespace HathorLedger

variable (sdk : Sdk)

/-! ### The invariant -/

/-- The state of the transaction hash: it was fed with what was hashed, or its digest was taken. The
record keeps the digest, unless it was taken again because its first byte is zero. -/
structure Digest (h : History) (t : TxInfo) : Prop where
  unfinished : h.hashFinished = false →
    t.sha256 = .fed h.hashed ∧ t.sighashAll = List.replicate 32 0
  finished : h.finishes = 1 ∨ h.hashFinished = true ∧ byteAt (sha256d sdk h.hashed) 0 ≠ 0 →
    t.sighashAll = sha256d sdk h.hashed

/-- The transaction record stands for the elements `e` of a transaction with header `h`, and the
hash has been fed with all bytes received. -/
structure Session (h : Header) (e : Elements) (g : Globals) : Prop where
  held : Held sdk h e g.ctx.txInfo
  digest : Digest sdk g.history g.ctx.txInfo
  read : g.history.firstChunkRead = true →
    g.ctx.txInfo.txVersion = beValue [h.versionHigh, h.versionLow] ∧
      g.history.hashed = h.bytes ++ e.bytes ++ g.ctx.txInfo.pending ∧
      ChangesRead g.ctx.txInfo.changeLen g.ctx.txInfo
  aborted : g.history.firstChunkRead = false → h.outputs = 0 ∧ g.ctx.txInfo.changeLen < 256

/-- The decoder waits for more bytes: less than an element is pending, and nothing once all elements
are there. -/
structure Rested (h : Header) (e : Elements) (t : TxInfo) : Prop where
  bufferLen_lt : t.bufferLen < 36
  settled : e.nextKind h = none → t.pending = []

/-- What a signature is made for: the bytes hashed by then were approved, the digest is theirs if it
was taken only once or does not start with a zero byte, and the key is that of the path. -/
structure Authorised (path : List ℕ) (digest signature : Bytes) (h : History) : Prop where
  approved : h.sendApproved = some h.hashed
  own : h.firstChunkRead = true →
    h.finishes = 1 ∨ byteAt (sha256d sdk h.hashed) 0 ≠ 0 → digest = sha256d sdk h.hashed
  key : ∃ privateKey chainCode, sdk.derivePrivateKey path = some (privateKey, chainCode) ∧
    sdk.ecdsaSign privateKey digest = some signature

/-- Every signature was authorised when it was made. -/
def Gated : List Event → Prop
  | [] => True
  | .signed path digest signature :: log =>
    Gated log ∧ Authorised sdk path digest signature (history log)
  | _ :: log => Gated log

/-- The invariant of all runs. -/
structure Sound (g : Globals) : Prop where
  callback : g.ui.flow.hasApprove = true → g.ui.validateCallback = g.ui.flow.callback
  request : g.ctx.state = .recvData ∨ g.ctx.state = .parsed ∨ g.history.firstChunkRead = true →
    g.ctx.reqType = .confirmTransaction
  session : g.ctx.reqType = .confirmTransaction →
    ∃ h e, Session sdk h e g ∧ Rested h e g.ctx.txInfo
  approved : g.ctx.state = .approved → g.history.sendApproved = some g.history.hashed
  finished : g.history.hashFinished = true → g.ctx.state ≠ .recvData
  gated : Gated sdk g.log

variable {sdk} {g g' : Globals} {h : Header} {e : Elements}

theorem Sound.ready (hs : Sound sdk g) : g.Ready where
  callback := hs.callback
  bufferLen_lt hstate := by
    obtain ⟨h, e, -, hrest⟩ := hs.session (hs.request (.inl hstate))
    exact hrest.bufferLen_lt

/-- The change entries of a transaction that announces outputs are accepted. -/
theorem Session.changesRead (hsession : Session sdk h e g) (houtputs : g.ctx.txInfo.outputsLen ≠ 0) :
    ChangesRead g.ctx.txInfo.changeLen g.ctx.txInfo := by
  by_cases hread : g.history.firstChunkRead = true
  · exact (hsession.read hread).2.2
  · obtain ⟨hnone, -⟩ := hsession.aborted (Bool.eq_false_iff.2 hread)
    rw [hsession.held.outputsLen, hnone] at houtputs
    exact absurd rfl houtputs

/-! ### The operations keep the invariant -/

/-- What was hashed and approved is the same. -/
structure SameHashing (k k' : History) : Prop where
  hashed : k'.hashed = k.hashed
  firstChunkRead : k'.firstChunkRead = k.firstChunkRead
  finishes : k'.finishes = k.finishes
  sendApproved : k'.sendApproved = k.sendApproved

/-- The events that are no part of hashing, approving and signing a transaction. -/
def Event.neutral : Event → Bool
  | .wiped | .txInit | .hashed _ | .firstChunkRead | .hashFinished | .signed _ _ _ => false
  | .pressed .approve screen => screen ≠ .confirmTx
  | _ => true

theorem SameHashing.hashFinished {k k' : History} (h : SameHashing k k') :
    k'.hashFinished = k.hashFinished := by
  rw [History.hashFinished, h.finishes, History.hashFinished]

theorem sameHashing_record {e : Event} (he : e.neutral = true) (k : History) :
    SameHashing k (k.record e) := by
  cases e with
  | pressed button screen =>
    cases button with
    | approve =>
      have hscreen : screen ≠ .confirmTx := by simpa [Event.neutral] using he
      exact ⟨rfl, rfl, rfl, if_neg hscreen⟩
    | _ => exact ⟨rfl, rfl, rfl, rfl⟩
  | shown screen => cases screen <;> exact ⟨rfl, rfl, rfl, rfl⟩
  | wiped | txInit | hashed | firstChunkRead | hashFinished | signed => cases he
  | _ => exact ⟨rfl, rfl, rfl, rfl⟩

theorem sameHashing_append {events log : List Event} (h : ∀ e ∈ events, e.neutral = true) :
    SameHashing (history log) (history (events ++ log)) := by
  induction events with
  | nil => exact ⟨rfl, rfl, rfl, rfl⟩
  | cons e events ih =>
    obtain ⟨he, hrest⟩ := List.forall_mem_cons.1 h
    have hone := sameHashing_record he (history (events ++ log))
    have hmore := ih hrest
    exact ⟨hone.1.trans hmore.1, hone.2.trans hmore.2, hone.3.trans hmore.3, hone.4.trans hmore.4⟩

theorem Gated.append {events log : List Event} (hlog : Gated sdk log)
    (h : ∀ e ∈ events, e.neutral = true) : Gated sdk (events ++ log) := by
  induction events with
  | nil => exact hlog
  | cons e events ih =>
    obtain ⟨he, hrest⟩ := List.forall_mem_cons.1 h
    cases e with
    | signed path digest signature => cases he
    | _ => exact ih hrest

theorem Digest.of_same {k k' : History} {t t' : TxInfo} (hd : Digest sdk k t)
    (hhashed : k'.hashed = k.hashed) (hfinishes : k'.finishes = k.finishes)
    (hsha256 : t'.sha256 = t.sha256) (hsighash : t'.sighashAll = t.sighashAll) :
    Digest sdk k' t' := by
  have hfinished : k'.hashFinished = k.hashFinished := by
    rw [History.hashFinished, hfinishes, History.hashFinished]
  refine ⟨?_, ?_⟩
  · rw [hfinished, hhashed, hsha256, hsighash]
    exact hd.unfinished
  · rw [hfinishes, hfinished, hhashed, hsighash]
    exact hd.finished

theorem hashFinished_eq_false_iff {k : History} : k.hashFinished = false ↔ k.finishes = 0 := by
  simp [History.hashFinished]

theorem Digest.of_fed {k : History} {t : TxInfo} (hk : k.hashFinished = false)
    (hsha256 : t.sha256 = .fed k.hashed) (hsighash : t.sighashAll = List.replicate 32 0) :
    Digest sdk k t where
  unfinished _ := ⟨hsha256, hsighash⟩
  finished := by simp [hk, hashFinished_eq_false_iff.1 hk]

/-- The records differ in the counters of the review only. -/
def Recounted (t t' : TxInfo) : Prop :=
  ∃ d c b, (b = t.bufferOutputLen ∨ b = 0) ∧
    t' = { t with displayIndex := d, confirmedOutputs := c, bufferOutputLen := b }

/-- A change of the globals that is no part of hashing, approving and signing a transaction. -/
structure Framed (g g' : Globals) : Prop where
  txInfo : Recounted g.ctx.txInfo g'.ctx.txInfo
  reqType : g'.ctx.reqType = g.ctx.reqType
  state : g'.ctx.state = g.ctx.state ∨
    g'.ctx.state = .parsed ∧ g.ctx.reqType = .confirmTransaction
  callback : (g.ui.flow.hasApprove = true → g.ui.validateCallback = g.ui.flow.callback) →
    g'.ui.flow.hasApprove = true → g'.ui.validateCallback = g'.ui.flow.callback
  log : ∃ events, g'.log = events ++ g.log ∧ ∀ e ∈ events, e.neutral = true

theorem Recounted.refl (t : TxInfo) : Recounted t t := ⟨_, _, _, .inl rfl, rfl⟩

theorem Held.recounted {t t' : TxInfo} (hh : Held sdk h e t) (ht : Recounted t t') :
    Held sdk h e t' := by
  obtain ⟨d, c, b, hb, rfl⟩ := ht
  rcases hb with rfl | rfl
  · exact { hh with }
  · have hrestart := held_restart hh
    exact { hrestart with }

theorem Framed.sameHashing (hf : Framed g g') : SameHashing g.history g'.history := by
  obtain ⟨events, hlog, hneutral⟩ := hf.log
  rw [Globals.history, Globals.history, hlog]
  exact sameHashing_append hneutral

theorem Session.framed (hs : Session sdk h e g) (hf : Framed g g') : Session sdk h e g' := by
  have hheld := hs.held.recounted hf.txInfo
  obtain ⟨hhashed, hread, hfinishes, -⟩ := hf.sameHashing
  obtain ⟨d, c, b, hb, ht⟩ := hf.txInfo
  refine ⟨hheld, hs.digest.of_same hhashed hfinishes (by rw [ht]) (by rw [ht]), ?_, ?_⟩
  · rw [hread, hhashed, ht]
    intro h₁
    obtain ⟨hversion, hbytes, hchanges⟩ := hs.read h₁
    exact ⟨hversion, hbytes, hchanges.length, hchanges.le, hchanges.accepted⟩
  · rw [hread, ht]
    exact hs.aborted

theorem Rested.recounted {t t' : TxInfo} (hr : Rested h e t) (ht : Recounted t t') :
    Rested h e t' := by
  obtain ⟨d, c, b, hb, rfl⟩ := ht
  exact ⟨hr.bufferLen_lt, hr.settled⟩

theorem Sound.framed (hs : Sound sdk g) (hf : Framed g g') : Sound sdk g' := by
  have hfinished := hf.sameHashing.hashFinished
  obtain ⟨hhashed, hread, -, hsend⟩ := hf.sameHashing
  have hlog := hf.log
  refine ⟨hf.callback hs.callback, ?_, ?_, ?_, ?_, ?_⟩
  · rw [hf.reqType, hread]
    rintro (hstate | hstate | hfirst)
    · rcases hf.state with heq | ⟨-, hreq⟩
      · exact hs.request (.inl (heq ▸ hstate))
      · exact hreq
    · rcases hf.state with heq | ⟨-, hreq⟩
      · exact hs.request (.inr (.inl (heq ▸ hstate)))
      · exact hreq
    · exact hs.request (.inr (.inr hfirst))
  · rw [hf.reqType]
    intro hreq
    obtain ⟨h, e, hsession, hrest⟩ := hs.session hreq
    exact ⟨h, e, hsession.framed hf, hrest.recounted hf.txInfo⟩
  · rw [hsend, hhashed]
    intro hstate
    rcases hf.state with heq | ⟨hparsed, -⟩
    · exact hs.approved (heq ▸ hstate)
    · rw [hstate] at hparsed
      cases hparsed
  · rw [hfinished]
    intro hfin hstate
    rcases hf.state with heq | ⟨hparsed, -⟩
    · exact hs.finished hfin (heq ▸ hstate)
    · rw [hstate] at hparsed
      cases hparsed
  · obtain ⟨events, hevents, hneutral⟩ := hlog
    rw [hevents]
    exact hs.gated.append hneutral

/-- The context was wiped, and no transaction was set up since. -/
theorem sound_of_idle (hcallback : g.ui.flow.hasApprove = true →
      g.ui.validateCallback = g.ui.flow.callback)
    (hstate : g.ctx.state = .none) (hreqType : g.ctx.reqType ≠ .confirmTransaction)
    (hread : g.history.firstChunkRead = false) (hfinished : g.history.hashFinished = false)
    (hgated : Gated sdk g.log) : Sound sdk g where
  callback := hcallback
  request := by simp [hstate, hread]
  session hreq := absurd hreq hreqType
  approved := by simp [hstate]
  finished := by simp [hfinished]
  gated := hgated

theorem Sound.wipe (hs : Sound sdk g) : Sound sdk g.wipe :=
  sound_of_idle hs.callback rfl nofun rfl rfl hs.gated

theorem Sound.cancel (hs : Sound sdk g) : Sound sdk g.cancel :=
  sound_of_idle nofun rfl nofun rfl rfl hs.gated

theorem Sound.restart (hs : Sound sdk g) : Sound sdk g.restart :=
  sound_of_idle nofun rfl nofun rfl rfl hs.gated

theorem Sound.receive (hs : Sound sdk g) (apdu : Bytes) : Sound sdk (g.receive apdu) :=
  hs.framed ⟨.refl _, rfl, .inl rfl, id, [.received apdu], rfl, by simp [Event.neutral]⟩

theorem Sound.openFlow (hs : Sound sdk g) {flow : Flow} (hflow : flow.hasApprove = false) :
    Sound sdk (g.openFlow flow) :=
  hs.framed ⟨.refl _, rfl, .inl rfl, fun _ happrove => absurd happrove (by simp [hflow]), [],
    g.log_openFlow hflow, by simp⟩

theorem Sound.reply (hs : Sound sdk g) (rdata : Option Bytes) (sw : ℕ) :
    Sound sdk (g.reply rdata sw) := by
  refine hs.framed ⟨.refl _, rfl, .inl rfl, id, _, g.log_reply rdata sw, fun e he => ?_⟩
  split_ifs at he
  · rw [List.mem_singleton.1 he]
    rfl
  · cases he

theorem Sound.mainLoop (hs : Sound sdk g) : Sound sdk g.mainLoop := by
  unfold Globals.mainLoop
  split
  · refine hs.framed ⟨.refl _, rfl, .inl rfl, id,
      if g.io.outputLen = 0 then [] else [.sent (g.io.apduBuffer.take g.io.outputLen)], ?_, ?_⟩
    · dsimp only
      split_ifs <;> rfl
    · split_ifs <;> simp [Event.neutral]
  · exact hs.framed ⟨.refl _, rfl, .inl rfl, id, [], rfl, by simp⟩
  · exact hs.restart

/-- A command leaves the invariant behind, or the app ends, and then the log is all that counts. -/
structure Settled (sdk : Sdk) (ends : Bool) (g : Globals) : Prop where
  sound : ends = false → Sound sdk g
  gated : Gated sdk g.log

theorem Sound.settled (hs : Sound sdk g) (ends : Bool) : Settled sdk ends g := ⟨fun _ => hs, hs.gated⟩

theorem Settled.resume {ends : Bool} (hs : Settled sdk ends g) : Sound sdk (g.resume ends) := by
  cases ends with
  | true => exact sound_of_idle nofun rfl nofun rfl rfl hs.gated
  | false => exact (hs.sound rfl).mainLoop

/-- A press on "Send Transaction?" approves what is hashed by then. -/
theorem Sound.press (hs : Sound sdk g) (button : Button) : Sound sdk (g.press button) := by
  by_cases hneutral : (Event.pressed button g.ui.shown).neutral = true
  · exact hs.framed ⟨.refl _, rfl, .inl rfl, id, [.pressed button g.ui.shown], rfl,
      by simpa using hneutral⟩
  · have hsend : (g.press button).history.sendApproved = some g.history.hashed := by
      cases button with
      | approve =>
        have hscreen : g.ui.shown = .confirmTx := by simpa [Event.neutral] using hneutral
        exact if_pos hscreen
      | _ => exact absurd rfl hneutral
    have hhashed : (g.press button).history.hashed = g.history.hashed := by
      cases button <;> rfl
    have hread : (g.press button).history.firstChunkRead = g.history.firstChunkRead := by
      cases button <;> rfl
    have hfinishes : (g.press button).history.finishes = g.history.finishes := by
      cases button <;> rfl
    refine ⟨hs.callback, ?_, fun hreq => ?_, fun _ => by rw [hsend, hhashed], ?_, hs.gated⟩
    · rw [hread]
      exact hs.request
    · obtain ⟨h, e, hsession, hrest⟩ := hs.session hreq
      refine ⟨h, e, ⟨hsession.held, hsession.digest.of_same hhashed hfinishes rfl rfl, ?_, ?_⟩,
        hrest⟩
      · rw [hread, hhashed]
        exact hsession.read
      · rw [hread]
        exact hsession.aborted
    · rw [History.hashFinished, hfinishes]
      exact hs.finished

/-! ### The review -/

theorem Sound.review (hs : Sound sdk g) (n d c : ℕ) :
    Sound sdk ((g.readChanges n).review d c) :=
  hs.framed ⟨⟨d, c, _, .inl rfl, rfl⟩, rfl, .inl rfl, id, _, rfl, fun e he => by
    rw [List.eq_of_mem_replicate he]
    rfl⟩

theorem Sound.asked (hs : Sound sdk g) (h : Asked g g') : Sound sdk g' := by
  cases h with
  | send h hreq =>
    exact hs.framed ⟨.refl _, rfl, .inr ⟨rfl, hreq⟩, fun _ _ => rfl, [.shown .confirmTx], rfl,
      by simp [Event.neutral]⟩
  | refused h hreq => exact hs.cancel.reply _ _
  | more h hd =>
    have hmore : Sound sdk { g with
        ctx.txInfo.displayIndex := 0, ctx.txInfo.bufferOutputLen := 0, ui.flow := .menuMain } :=
      hs.framed ⟨⟨0, _, 0, .inr rfl, rfl⟩, rfl, .inl rfl, fun _ => nofun, [], rfl, by simp⟩
    exact hmore.reply _ _

theorem Sound.displayed (hs : Sound sdk g) (h : Displayed sdk g g') : Sound sdk g' := by
  cases h with
  | asked h => exact hs.asked h
  | output h hd =>
    refine hs.framed ⟨.refl _, rfl, .inl rfl, fun _ _ => rfl,
      .shown _ :: Globals.tokenReads (displayedOutput sdk g.ctx.txInfo), rfl, fun e he => ?_⟩
    unfold Globals.tokenReads at he
    rcases List.mem_cons.1 he with rfl | he
    · rfl
    · split_ifs at he
      · cases he
      · rw [List.mem_singleton.1 he]
        rfl

/-! ### The data stage -/

/-- A chunk is queued: the transaction record stands for the elements read so far, with the bytes of
the chunk pending. -/
structure Queueing (sdk : Sdk) (h : Header) (e : Elements) (g : Globals) : Prop where
  session : Session sdk h e g
  bufferOutputLen : g.ctx.txInfo.bufferOutputLen = 0
  state : g.ctx.state = .recvData
  reqType : g.ctx.reqType = .confirmTransaction
  hashFinished : g.history.hashFinished = false

theorem length_queued {data : Bytes} {t : TxInfo} (hlen : t.bufferLen < 36)
    (hdata : data.length ≤ 255) : t.bufferLen + data.length ≤ bufferCells := by
  rw [bufferCells]
  omega

/-- A first chunk sets up a transaction without elements. -/
theorem queueing_first {data : Bytes} (hdata : data.length ≤ 255) (hq : Queued data 0 g g') :
    (∃ h, Queueing sdk h {} g') ∧ g'.ctx.txInfo.confirmedOutputs = 0 ∧
      g'.ctx.txInfo.displayIndex = 0 := by
  cases hq with
  | next hchunk => exact absurd rfl hchunk
  | first h skipped rest changeLen changeInfo hchunk hsplit cdata hchanges =>
    refine ⟨⟨h, ⟨?_, ?_, ?_, ?_⟩, rfl, rfl, rfl, rfl⟩, rfl, rfl⟩
    · have hfit : (0 : ℕ) + rest.length ≤ bufferCells := by
        have := congrArg List.length hsplit
        rw [List.length_append, List.length_append] at this
        rw [bufferCells]
        omega
      exact held_queue (held_enter List.length_replicate rfl rfl rfl rfl rfl) hfit
    · exact .of_fed rfl rfl rfl
    · have hread := changesRead_of_readChangeInfo hchanges
      refine fun _ => ⟨rfl, ?_, hread.length, hread.le, hread.accepted⟩
      have hpending := @pending_queue (h.enter {
        sha256 := .fed (h.bytes ++ rest), changeLen, changeInfo }) rest (Nat.zero_le _)
      change h.bytes ++ rest = h.bytes ++ [] ++ TxInfo.pending _
      rw [hpending, List.append_nil]
      rfl
    · exact fun hno => Bool.noConfusion (show true = false from hno)

/-- A later chunk goes on with the transaction. -/
theorem Session.queueing (hsession : Session sdk h e g) (hrest : Rested h e g.ctx.txInfo)
    (hreq : g.ctx.reqType = .confirmTransaction) (hnot : g.history.hashFinished = false)
    {data : Bytes} {chunk : ℕ} (hdata : data.length ≤ 255) (hchunk : chunk ≠ 0)
    (hq : Queued data chunk g g') :
    Queueing sdk h e g' ∧
      g'.ctx.txInfo.confirmedOutputs = g.ctx.txInfo.confirmedOutputs ∧
      g'.ctx.txInfo.displayIndex = 0 := by
  cases hq with
  | first h skipped rest changeLen changeInfo hfirst => exact absurd hfirst hchunk
  | next hchunk hstate =>
    have hfit := length_queued hrest.bufferLen_lt hdata
    refine ⟨⟨⟨?_, ?_, ?_, ?_⟩, rfl, hstate, hreq, hnot⟩, rfl, rfl⟩
    · have hheld : Held sdk h e { g.ctx.txInfo with
          displayIndex := 0, bufferOutputLen := 0, sha256 := g.ctx.txInfo.sha256.update data } := by
        have hrestart := held_restart hsession.held
        exact { hrestart with }
      exact held_queue hheld hfit
    · obtain ⟨hsha256, hsighash⟩ := hsession.digest.unfinished hnot
      refine .of_fed hnot ?_ hsighash
      change g.ctx.txInfo.sha256.update data = .fed (g.history.hashed ++ data)
      rw [hsha256]
      rfl
    · intro hfirst
      obtain ⟨hversion, hbytes, hchanges⟩ := hsession.read hfirst
      refine ⟨hversion, ?_, hchanges.length, hchanges.le, hchanges.accepted⟩
      have hpending := @pending_queue { g.ctx.txInfo with
        displayIndex := 0, bufferOutputLen := 0, sha256 := g.ctx.txInfo.sha256.update data } data
        hsession.held.bufferLen_le_length
      change g.history.hashed ++ data = h.bytes ++ e.bytes ++ TxInfo.pending _
      rw [hpending, hbytes, List.append_assoc _ _ data]
      rfl
    · exact hsession.aborted

theorem Queued.log {data : Bytes} {chunk : ℕ} (hq : Queued data chunk g g')
    (hgated : Gated sdk g.log) : Gated sdk g'.log ∧ g'.ui = g.ui := by
  cases hq with
  | first => exact ⟨hgated, rfl⟩
  | next => exact ⟨hgated, rfl⟩

theorem Sound.queued (hs : Sound sdk g) {data : Bytes} {chunk : ℕ} (hdata : data.length ≤ 255)
    (hq : Queued data chunk g g') :
    Gated sdk g'.log ∧ g'.ui = g.ui ∧ ∃ h e, Queueing sdk h e g' := by
  obtain ⟨hgated, hui⟩ := hq.log hs.gated
  refine ⟨hgated, hui, ?_⟩
  rcases Nat.eq_zero_or_pos chunk with rfl | hchunk
  · obtain ⟨⟨h, hqueueing⟩, -⟩ := queueing_first hdata hq
    exact ⟨h, {}, hqueueing⟩
  · have hstate : g.ctx.state = .recvData := by
      cases hq with
      | first => omega
      | next hchunk hstate => exact hstate
    have hreq := hs.request (.inl hstate)
    obtain ⟨h, e, hsession, hrest⟩ := hs.session hreq
    have hnot : g.history.hashFinished = false :=
      Bool.eq_false_iff.2 fun hfin => hs.finished hfin hstate
    exact ⟨h, e, (hsession.queueing hrest hreq hnot hdata hchunk.ne' hq).1⟩

/-- The decoder goes on with the transaction if it is ready. -/
theorem Queueing.decode (hq : Queueing sdk h e g)
    (hready : (decodeElements sdk g.tokenSymbols g.ctx.txInfo).1 = TxState.ready) :
    ∃ e', Session sdk h e' (g.decode sdk) ∧ Rested h e' (g.decode sdk).ctx.txInfo ∧
      (elementParser sdk g.tokenSymbols g.ctx.txInfo.changeEntries h).drain e
        g.ctx.txInfo.pending = .ok (e', (g.decode sdk).ctx.txInfo.pending) ∧
      ∃ n, Progress sdk g.tokenSymbols h e e' n g.ctx.txInfo (g.decode sdk).ctx.txInfo := by
  have hheld := hq.session.held
  have hnone : e.nextKind h ≠ none := fun hnone => by
    rw [decodeElements_of_nextKind_none hheld hnone] at hready
    cases hready
  have hroom : 32 * g.ctx.txInfo.bufferOutputLen + g.ctx.txInfo.bufferLen < 320 := by
    have hle := hheld.bufferLen_le
    rw [bufferCells] at hle
    rw [hq.bufferOutputLen]
    omega
  rcases @decodeElements_cases sdk g.tokenSymbols h e _ hheld hroom (.inr hnone) with
    ⟨-, e', n, hdrain, hprogress⟩ | ⟨err, ⟨hne, -⟩, heq⟩
  · have hmore := (elementParser sdk g.tokenSymbols g.ctx.txInfo.changeEntries
      h).next_of_drain_eq_ok hdrain
    have hsame : SameHashing g.history (g.decode sdk).history :=
      sameHashing_append fun e he => by
        rcases mem_decodeEvents he with rfl | rfl | ⟨info, -, rfl⟩ <;> rfl
    have hcontext := hprogress.context
    have hbytes := bytes_of_drain hheld.inOrder hdrain
    refine ⟨e', ⟨hprogress.held, ?_, ?_, ?_⟩, ⟨?_, ?_⟩, hdrain, n, hprogress⟩
    · exact hq.session.digest.of_same hsame.hashed hsame.finishes hcontext.sha256
        hcontext.sighashAll
    · rw [hsame.firstChunkRead, hsame.hashed]
      intro hfirst
      obtain ⟨hversion, hhashed, hchanges⟩ := hq.session.read hfirst
      refine ⟨hcontext.txVersion.trans hversion, ?_, ?_, ?_, ?_⟩
      · rw [hhashed, List.append_assoc, List.append_assoc, ← hbytes]
        rfl
      · rw [show (g.decode sdk).ctx.txInfo.changeInfo = _ from hcontext.changeInfo]
        exact hchanges.length
      · rw [show (g.decode sdk).ctx.txInfo.changeLen = _ from hcontext.changeLen]
        exact hchanges.le
      · intro info hinfo
        have hmem : info ∈ (decodeElements sdk g.tokenSymbols g.ctx.txInfo).2.changeEntries := hinfo
        rw [hcontext.changeEntries] at hmem
        exact hchanges.accepted info hmem
    · rw [hsame.firstChunkRead]
      intro hfirst
      obtain ⟨houtputs, hlen⟩ := hq.session.aborted hfirst
      exact ⟨houtputs, hcontext.changeLen.trans_lt hlen⟩
    · have hlt := length_lt_of_attempt_eq_more hmore
      have hlen := hprogress.held.length_pending
      exact hlen ▸ hlt
    · intro hnone'
      by_contra hne
      have : attempt sdk g.tokenSymbols g.ctx.txInfo.changeEntries h e'
          (g.decode sdk).ctx.txInfo.pending = .more := hmore
      simp [attempt, hnone', hne] at this
  · rw [heq] at hready
    split_ifs at hready
    · cases hready
    · exact absurd hready hne

theorem Sound.decoded (hgated : Gated sdk g.log) (hcallback : g.ui.flow.hasApprove = true →
      g.ui.validateCallback = g.ui.flow.callback) (hq : Queueing sdk h e g)
    {ends : Bool} (hd : Decoded sdk g ends g') : Settled sdk ends g' := by
  have hneutral : ∀ ev ∈ decodeEvents g.ctx.txInfo
      (decodeElements sdk g.tokenSymbols g.ctx.txInfo).2, ev.neutral = true := fun ev hev => by
    rcases mem_decodeEvents hev with rfl | rfl | ⟨info, -, rfl⟩ <;> rfl
  have hgated' : Gated sdk (g.decode sdk).log := hgated.append hneutral
  have hready : (decodeElements sdk g.tokenSymbols g.ctx.txInfo).1 = TxState.ready →
      Sound sdk (g.decode sdk) := by
    intro hready
    obtain ⟨e', hsession, hrest, -⟩ := hq.decode hready
    have hfin : (g.decode sdk).history.hashFinished = false :=
      (sameHashing_append hneutral).hashFinished.trans hq.hashFinished
    refine ⟨hcallback, fun _ => hq.reqType, fun _ => ⟨h, e', hsession, hrest⟩, fun hstate => ?_,
      fun hfin' => ?_, hgated'⟩
    · have : g.ctx.state = .approved := hstate
      rw [hq.state] at this
      cases this
    · rw [hfin] at hfin'
      cases hfin'
  cases hd with
  | invalid h =>
    have hcancel : Sound sdk (g.decode sdk).cancel :=
      sound_of_idle nofun rfl nofun rfl rfl hgated'
    exact (hcancel.reply _ _).settled _
  | failed h h' => exact ⟨nofun, hgated'⟩
  | silent h hnone => exact ((hready h).reply _ _).settled _
  | displayed h hsome n d c g' hdisplayed =>
    exact (((hready h).review n d c).displayed hdisplayed).settled _

/-- A record that announces no outputs. -/
theorem held_aborted (bytes : Bytes) (changeLen : ℕ) (changeInfo : List ChangeOutputInfo)
    (version : ℕ) (tokens inputs : UInt8) : Held sdk ⟨0, 0, tokens, inputs, 0⟩ {} {
      sha256 := .fed bytes
      changeLen, changeInfo
      txVersion := version
      remainingTokens := tokens.toNat
      remainingInputs := inputs.toNat } := by
  have hheld := @held_enter sdk ⟨0, 0, tokens, inputs, 0⟩ { sha256 := .fed bytes, changeLen, changeInfo }
    List.length_replicate rfl rfl rfl List.length_replicate rfl
  exact { hheld with }

/-- A first chunk that cannot be read leaves a record behind that announces no outputs. -/
theorem Sound.firstChunkFailed (hs : Sound sdk g) {data : Bytes} {sw : ℕ}
    (hf : FirstChunkFailed data g sw g') : Sound sdk g' := by
  have hno : ∀ {P : Prop}, false = true → P := fun h => Bool.noConfusion h
  cases hf with
  | changes changeLen changeInfo sw hchanges =>
    exact {
      callback := hs.callback
      request := fun _ => rfl
      session := fun _ => ⟨⟨0, 0, 0, 0, 0⟩, {}, ⟨held_aborted [] changeLen changeInfo 0 0 0,
        .of_fed rfl rfl rfl, hno, fun _ => ⟨rfl, changeLen_lt_of_readChangeInfo hchanges⟩⟩,
        ⟨Nat.zero_lt_succ _, fun _ => rfl⟩⟩
      approved := nofun
      finished := hno
      gated := hs.gated }
  | header skipped rest changeLen changeInfo version tokens inputs hdata hshort cdata hchanges =>
    have hle : changeLen ≤ 1 + txMaxTokens := (changesRead_of_readChangeInfo hchanges).le
    rw [txMaxTokens] at hle
    exact {
      callback := hs.callback
      request := fun _ => rfl
      session := fun _ => ⟨⟨0, 0, tokens, inputs, 0⟩, {},
        ⟨held_aborted rest changeLen changeInfo version tokens inputs, .of_fed rfl rfl rfl, hno,
          fun _ => ⟨rfl, Nat.lt_of_le_of_lt hle (by decide)⟩⟩, ⟨Nat.zero_lt_succ _, fun _ => rfl⟩⟩
      approved := nofun
      finished := hno
      gated := hs.gated }

/-! ### The commands -/

theorem finishSighashAll_eq {t t' : TxInfo} (h : finishSighashAll sdk t = some t') :
    ∃ sighashAll sha256, t' = { t with sighashAll, sha256 } := by
  unfold finishSighashAll at h
  split_ifs at h
  · simp only [Option.bind_eq_bind, Option.bind_eq_some_iff] at h
    obtain ⟨_, -, _, -, h⟩ := h
    exact ⟨_, _, (Option.some.inj h).symm⟩
  · exact ⟨_, _, (Option.some.inj h).symm⟩

/-- The first time the digest is that of the hashed bytes, and it is kept if its first byte is not
zero. -/
theorem Digest.finish {k : History} {t t' : TxInfo} (hd : Digest sdk k t)
    (ht : finishSighashAll sdk t = some t') : Digest sdk (k.record .hashFinished) t' := by
  have htaken : (k.record .hashFinished).hashFinished = true := by
    simp [History.record, History.hashFinished]
  have hfirst : k.finishes = 0 → t'.sighashAll = sha256d sdk k.hashed := by
    intro hnone
    obtain ⟨hsha256, hsighash⟩ := hd.unfinished (hashFinished_eq_false_iff.2 hnone)
    unfold finishSighashAll at ht
    rw [if_pos (by rw [hsighash]; rfl), hsha256] at ht
    simp only [Sdk.hashLast, Option.bind_eq_bind, Option.bind_some, List.append_nil,
      List.nil_append] at ht
    rw [← Option.some.inj ht]
    rfl
  refine ⟨fun h => Bool.noConfusion (htaken.symm.trans h), fun h => ?_⟩
  change t'.sighashAll = sha256d sdk k.hashed
  rcases Nat.eq_zero_or_pos k.finishes with hnone | hpos
  · exact hfirst hnone
  · rcases h with h | ⟨-, hbyte⟩
    · change k.finishes + 1 = 1 at h
      omega
    · have hkept := hd.finished (.inr ⟨by simp [History.hashFinished]; omega, hbyte⟩)
      unfold finishSighashAll at ht
      rw [if_neg (by rw [hkept]; exact hbyte)] at ht
      rw [← Option.some.inj ht, hkept]

/-- The digest was taken; the rest of the record is the same. -/
theorem Session.finish (hsession : Session sdk h e g) (hrest : Rested h e g.ctx.txInfo) {t : TxInfo}
    (ht : finishSighashAll sdk g.ctx.txInfo = some t) :
    Session sdk h e { g with ctx.txInfo := t, log := .hashFinished :: g.log } ∧ Rested h e t := by
  have hfinish := ht
  obtain ⟨sighashAll, sha256, rfl⟩ := finishSighashAll_eq ht
  have hheld : Held sdk h e { g.ctx.txInfo with sighashAll, sha256 } := by
    have hheld := hsession.held
    exact { hheld with }
  refine ⟨⟨hheld, hsession.digest.finish hfinish, fun hfirst => ?_, hsession.aborted⟩,
    ⟨hrest.bufferLen_lt, hrest.settled⟩⟩
  obtain ⟨hversion, hbytes, hchanges⟩ := hsession.read hfirst
  exact ⟨hversion, hbytes, hchanges.length, hchanges.le, hchanges.accepted⟩

theorem Sound.hashFinished (hs : Sound sdk g) (hstate : g.ctx.state = .approved) {t : TxInfo}
    (ht : finishSighashAll sdk g.ctx.txInfo = some t) :
    Sound sdk { g with ctx.txInfo := t, log := .hashFinished :: g.log } := by
  refine ⟨hs.callback, hs.request, fun hreq => ?_, hs.approved, fun _ => ?_, hs.gated⟩
  · obtain ⟨h, e, hsession, hrest⟩ := hs.session hreq
    exact ⟨h, e, hsession.finish hrest ht⟩
  · rw [show ({ g with ctx.txInfo := _, log := _ } : Globals).ctx.state = _ from hstate]
    nofun

/-- The path of a sign stage was accepted or rejected, and the review of a chunk is over. -/
theorem Sound.restartReview (hs : Sound sdk g) (path : Bip32Path) :
    Sound sdk { g.restartReview with ctx.bip32Path := path } :=
  hs.framed ⟨⟨0, _, 0, .inr rfl, rfl⟩, rfl, .inl rfl, id, [], rfl, by simp⟩

theorem Sound.derived (hs : Sound sdk g) (path : Bip32Path) :
    Sound sdk { g with log := .derived path :: g.log } :=
  hs.framed ⟨.refl _, rfl, .inl rfl, id, [.derived path], rfl, by simp [Event.neutral]⟩

theorem Sound.signStep (hs : Sound sdk g) (hstate : g.ctx.state = .approved) {ends : Bool}
    (h : SignStep sdk g ends g') : Sound sdk g' := by
  have hderived := hs.derived g.ctx.bip32Path
  cases h with
  | empty h => exact hs.reply _ _
  | refused h => exact hderived.reply _ _
  | finished h t hfinish => exact (hderived.hashFinished hstate hfinish).reply _ _
  | signed h t hfinish privateKey chainCode signature hderive hsign =>
    have hfinished := hderived.hashFinished hstate hfinish
    have hauthorised : Authorised sdk g.ctx.bip32Path.components t.sighashAll signature
        (history (.hashFinished :: .derived g.ctx.bip32Path :: g.log)) := {
      approved := hfinished.approved hstate
      own := fun hread hown => by
        obtain ⟨h, e, hsession, -⟩ := hfinished.session (hfinished.request (.inr (.inr hread)))
        exact hsession.digest.finished (hown.imp_right fun hbyte =>
          ⟨by simp [History.hashFinished, Globals.history, history, History.record], hbyte⟩)
      key := ⟨privateKey, chainCode, hderive, hsign⟩ }
    -- the signature changes nothing but the log
    have hsigned : Sound sdk { g with
        ctx.txInfo := t
        log := .signed g.ctx.bip32Path.components t.sighashAll signature ::
          .hashFinished :: .derived g.ctx.bip32Path :: g.log } := {
      callback := hfinished.callback
      request := hfinished.request
      session := fun hreq => by
        obtain ⟨h, e, hsession, hrest⟩ := hfinished.session hreq
        exact ⟨h, e, ⟨hsession.held, hsession.digest, hsession.read, hsession.aborted⟩, hrest⟩
      approved := hfinished.approved
      finished := hfinished.finished
      gated := ⟨hfinished.gated, hauthorised⟩ }
    exact hsigned.reply _ _

theorem Sound.stageStep (hs : Sound sdk g) {data : Bytes} {stage chunk : ℕ} {ends : Bool}
    (hdata : data.length ≤ 255) (h : StageStep sdk data stage chunk g ends g') :
    Settled sdk ends g' := by
  cases h with
  | cancelled h => exact (hs.cancel.reply _ _).settled _
  | refused hstage hstate => exact ((hs.restartReview g.ctx.bip32Path).reply _ _).settled _
  | misread hstage hstate path => exact ((hs.restartReview path).reply _ _).settled _
  | signing hstage hstate path rest haccepted _ _ h =>
    exact ((hs.restartReview path).signStep hstate h).settled _
  | wiped hstage hchunk hstate => exact (hs.wipe.reply _ _).settled _
  | failed hstage hchunk hstate happroved _ _ h =>
    exact ((hs.firstChunkFailed h).reply _ _).settled _
  | received hstage happroved hfirst g₁ _ _ h h' =>
    obtain ⟨hgated, hui, h, e, hq⟩ := hs.queued hdata h
    exact Sound.decoded hgated (by rw [hui]; exact hs.callback) hq h'

theorem Sound.readSecret (hs : Sound sdk g) : Sound sdk (g.readSecret sdk) :=
  hs.framed ⟨by rw [Globals.ctx_readSecret]; exact .refl _, by rw [Globals.ctx_readSecret],
    .inl (by rw [Globals.ctx_readSecret]), by rw [Globals.ui_readSecret]; exact id, [], by simp,
    by simp⟩

theorem Sound.registryStep (hs : Sound sdk g) {data : Bytes} (h : RegistryStep sdk data g g') :
    Sound sdk g' := by
  cases h with
  | full h =>
    have herased : Sound sdk { g with tokenSymbols := {} } :=
      hs.framed ⟨.refl _, rfl, .inl rfl, id, [], rfl, by simp⟩
    exact herased.reply _ _
  | malformed => exact hs.reply _ _
  | invalid => exact hs.readSecret.reply _ _
  | stored hlen token signature hdata haccepted hvalid =>
    have hstored : Sound sdk { g.readSecret sdk with
        tokenSymbols := g.tokenSymbols.store token
        log := .tokenAccepted (g.readSecret sdk).secret token signature :: g.log } :=
      hs.readSecret.framed ⟨.refl _, rfl, .inl rfl, id,
        [.tokenAccepted (g.readSecret sdk).secret token signature], by simp,
        by simp [Event.neutral]⟩
    exact hstored.reply _ _

theorem Gated.requests {paths : List Bip32Path} {events log : List Event} (hlog : Gated sdk log)
    (h : ∀ e ∈ events, e.ofRequest paths = true) : Gated sdk (events ++ log) := by
  induction events with
  | nil => exact hlog
  | cons e events ih =>
    obtain ⟨he, hrest⟩ := List.forall_mem_cons.1 h
    cases e with
    | signed => cases he
    | _ => exact ih hrest

theorem Sound.idle (hs : Sound sdk g) {paths : List Bip32Path} (h : Idle paths g g')
    (hcallback : g'.ui.flow.hasApprove = true → g'.ui.validateCallback = g'.ui.flow.callback) :
    Sound sdk g' := by
  refine sound_of_idle hcallback h.state h.reqType h.blank.firstChunkRead h.blank.hashFinished ?_
  obtain ⟨events, hlog, hevents⟩ := h.log
  rw [hlog]
  exact hs.gated.requests hevents

theorem Sound.requested (hs : Sound sdk g) {flow : Flow} {paths : List Bip32Path} {accepted : Prop}
    {P : Globals → Prop} {ends : Bool} (h : Requested flow paths accepted P g ends g') :
    Sound sdk g' := by
  cases h with
  | rejected g₁ sw h hidle hui =>
    exact (hs.idle hidle (by rw [hui]; exact hs.callback)).reply _ _
  | opened _ h hidle hopened hP =>
    exact hs.idle hidle fun _ => by rw [hopened.validateCallback, hopened.flow]

theorem Sound.handled (hs : Sound sdk g) {call : Call} {ends : Bool}
    (hdata : ∀ data stage chunk, call = .signTx data stage chunk → data.length ≤ 255)
    (h : Handled sdk g call ends g') : Settled sdk ends g' := by
  cases h with
  | getVersion => exact (hs.reply _ _).settled _
  | getAddress data _ _ h => exact (hs.requested h).settled _
  | getXpub data _ _ h => exact (hs.requested h).settled _
  | signTx data stage chunk _ _ h => exact hs.stageStep (hdata data stage chunk rfl) h
  | signTokenData data _ _ h => exact (hs.requested h).settled _
  | sendFirst data _ h =>
    have hwiped : Sound sdk { g.wipe with tokenSymbols := {} } :=
      hs.wipe.framed ⟨.refl _, rfl, .inl rfl, id, [], rfl, by simp⟩
    exact (hwiped.registryStep h).settled _
  | sendNext data _ h => exact (hs.registryStep h).settled _
  | verifyTokenSignature data =>
    refine Sound.settled ?_ _
    unfold Globals.verify
    split
    · exact hs.wipe.reply _ _
    · exact hs.wipe.readSecret.reply _ _
  | resetTokenSignatures =>
    have hasked : Sound sdk g.askReset :=
      hs.framed ⟨.refl _, rfl, .inl rfl, fun _ _ => rfl, [], rfl, by simp⟩
    exact hasked.settled _

theorem Sound.commandStep (hs : Sound sdk g) {apdu : Bytes} {ends : Bool}
    (h : CommandStep sdk g apdu ends g') : Sound sdk (g'.resume ends) := by
  have hreceived := hs.receive apdu
  refine Settled.resume ?_
  cases h with
  | malformed => exact (hreceived.reply _ _).settled _
  | rejected cmd sw hparse hcheck => exact (hreceived.reply _ _).settled _
  | handled call hcall _ _ h =>
    exact hreceived.handled (fun _ _ _ h => length_of_callOf (hcall.trans (congrArg some h))) h

/-! ### Presses -/

theorem Sound.pressStep (hs : Sound sdk g) {button : Button} (h : PressStep sdk g button g') :
    Sound sdk g' := by
  have hpress := hs.press button
  have hmenu : Flow.menuMain.hasApprove = false := rfl
  cases h with
  | inactive button h => exact hpress
  | approveTx hflow =>
    have hscreen : g.ui.shown = .confirmTx := by rw [Ui.shown, hflow]
    have hsend : (g.press .approve).history.sendApproved =
        some (g.press .approve).history.hashed := if_pos hscreen
    have happroved : Sound sdk { g.press .approve with ctx.state := .approved } := {
      callback := hpress.callback
      request := fun h => hpress.request (.inr (.inr (by
        rcases h with h | h | h
        · cases h
        · cases h
        · exact h)))
      session := fun hreq => by
        obtain ⟨h, e, hsession, hrest⟩ := hpress.session hreq
        exact ⟨h, e, ⟨hsession.held, hsession.digest, hsession.read, hsession.aborted⟩, hrest⟩
      approved := fun _ => hsend
      finished := fun _ => nofun
      gated := hpress.gated }
    exact (happroved.reply _ _).openFlow rfl
  | approveOutput hflow n d c _ hdisplayed hskipped =>
    exact (hpress.review n d c).displayed hdisplayed
  | approveXpub hflow =>
    have hsent : Sound sdk { g.press .approve with
        log := .xpubSent g.ctx.pkInfo :: (g.press .approve).log } :=
      hpress.framed ⟨.refl _, rfl, .inl rfl, id, [.xpubSent g.ctx.pkInfo], rfl,
        by simp [Event.neutral]⟩
    exact (hsent.reply _ _).openFlow rfl
  | approveToken hflow secret hsecret =>
    have hsigned : Sound sdk { (g.press .approve).readSecret sdk with
        log := .tokenSigned secret g.ctx.token :: (g.press .approve).log } :=
      hpress.readSecret.framed ⟨.refl _, rfl, .inl rfl, id, [.tokenSigned secret g.ctx.token],
        by simp, by simp [Event.neutral]⟩
    exact (hsigned.reply _ _).openFlow rfl
  | approveAddress hflow => exact (hpress.reply _ _).openFlow rfl
  | approveReset hflow =>
    have hsecret : Sound sdk ((g.press .approve).generateSecret sdk) :=
      hpress.framed ⟨.refl _, rfl, .inl rfl, id, [], rfl, by simp⟩
    exact (hsecret.reply _ _).openFlow rfl
  | reject hflow hreset => exact hpress.cancel.reply _ _
  | rejectReset hflow => exact (hpress.reply _ _).openFlow rfl
  | exitToMenu hflow => exact hpress.cancel
  | quit hflow => exact hpress.restart
  | about hflow => exact hpress.openFlow rfl
  | back hflow => exact hpress.openFlow rfl

/-! ### Runs -/

theorem Sound.globalsStep (hs : Sound sdk g) {i : Input} (h : GlobalsStep sdk g i g') :
    Sound sdk g' := by
  cases h with
  | command apdu ends g' h => exact hs.commandStep h
  | press button g' h => exact hs.pressStep h
  | ioReset => exact hs.restart

theorem Sound.step {w : World} (hs : Sound sdk w.globals) (i : Input) :
    Sound sdk (step sdk w i).globals :=
  hs.globalsStep (HathorLedger.globalsStep hs.ready i)

/-- The initial states of all runs: the app after its start, with some stored secret. -/
def Booted (w : World) : Prop := ∃ secret : Bytes, secret.length = secretLen ∧ w = World.boot secret

/-- The globals after the start of the app. -/
theorem globals_boot (secret : Bytes) : (World.boot secret).globals = {
    ctx := {}
    tokenSymbols := {}
    secret
    draws := 0
    ui := {}
    io := { state := .received }
    log := [.started, .wiped] } :=
  globals_appMain _

theorem sound_boot (secret : Bytes) : Sound sdk (World.boot secret).globals := by
  rw [globals_boot]
  exact sound_of_idle nofun rfl nofun rfl rfl trivial

/-- The invariant holds in every reachable state. -/
theorem sound_of_reachable {guard : World → Input → Prop} {w : World}
    (hw : Reachable Booted (HathorLedger.step sdk) guard w) : Sound sdk w.globals := by
  refine hw.invariant (I := fun w => Sound sdk w.globals) ?_ fun w i _ _ hs => hs.step i
  rintro _ ⟨secret, -, rfl⟩
  exact sound_boot secret

end HathorLedger
