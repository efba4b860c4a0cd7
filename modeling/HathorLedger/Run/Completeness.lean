import HathorLedger.Run.Straying

/-!
# Complete reviews of honest transactions

The host sends an honest transaction in chunks, each one after the answer to the one in front, and
the user approves every screen. If no chunk parts a reviewed output from a change output behind it,
the user sees the screens of all outputs that are no change, in order, then "Send Transaction?" once,
and the transaction ends up approved. Otherwise the user is asked to send the transaction before all
of it has arrived.

## Main definitions

* `Cut.commands`: the commands that send a cut.
* `HonestRun`: the host sends commands, and the user approves every screen.
* `Completed`: a complete review.
* `ReviewsCompletely`: the review is complete if the user approves every screen.

## Main results

* `completes_iff`, `reviewsCompletely_iff`: the cuts that lead to a complete review.
-/

namespace HathorLedger

variable (sdk : Sdk)

/-- The commands that send the chunks of a cut. -/
def Cut.commands {info : Bytes} {h : Header} {e : Elements} (c : Cut info h e) : List Bytes :=
  dataChunk 0 (info ++ (h.bytes ++ c.first)) :: c.later.map fun p => dataChunk p.1 p.2

/-- The host sends commands, each one after the user has approved every screen of the one in front.
The list holds the states behind the commands. -/
inductive HonestRun : World → List Bytes → List World → Prop
  | nil {w : World} : HonestRun w [] []
  | cons {w w' : World} {command : Bytes} {commands : List Bytes} {ws : List World}
    (h : ApprovesAll sdk (step sdk w (.apdu command)) w') (hrest : HonestRun w' commands ws) :
    HonestRun w (command :: commands) (w' :: ws)

/-- The job of the app when an honest transaction is sent. -/
def Cut.job {info : Bytes} {h : Header} {e : Elements} (c : Cut info h e) (w : World) : Job where
  registry := w.tokenSymbols
  infos := (announced (info ++ (h.bytes ++ c.first))).changeEntries
  header := h
  elements := e
  log := w.trace

/-- How often "Send Transaction?" was shown. -/
def sends (events : List Event) : ℕ := (reviewScreens events).count .confirmTx

/-- Between the two states one command was answered, with `SW_OK` and maybe with data. -/
def AnsweredOk (w w' : World) : Prop :=
  ∃ rdata, responses w'.trace = (rdata ++ beBytes 2 Sw.ok) :: responses w.trace

/-- The review is complete: every command is answered with `SW_OK`, the user has seen the screens of
the outputs that are no change, in order, and then "Send Transaction?", which no earlier command has
shown, and the transaction is approved. -/
structure Completed (j : Job) (w : World) (earlier : List World) (last : World) : Prop where
  answered : List.IsChain (fun u v => responses v.trace = beBytes 2 Sw.ok :: responses u.trace)
    (w :: (earlier ++ [last]))
  screens : ∃ shown, reviewScreens last.trace = .confirmTx :: (shown.reverse ++ reviewScreens j.log) ∧
    List.Forall₂ (j.ScreenOf sdk) (j.reviewed j.elements.outputs.length) shown
  sends_earlier : ∀ u ∈ earlier, sends u.trace = sends j.log
  approved : last.ctx.state = .approved

/-- The user can approve every screen of the commands, and then the review is complete. -/
def ReviewsCompletely (j : Job) (w : World) (commands : List Bytes) : Prop :=
  (∃ ws, HonestRun sdk w commands ws) ∧
    ∀ earlier last, HonestRun sdk w commands (earlier ++ [last]) → Completed sdk j w earlier last

variable {sdk} {j : Job} {e e' : Elements} {r r' : Bytes} {start : ℕ} {w w' w₁ w₂ : World}
  {command : Bytes} {later : List (UInt8 × Bytes)}

/-! ### Runs -/

theorem ApprovesAll.reachable (hw : Reachable Booted (step sdk) Sequential w)
    (h : ApprovesAll sdk w w') : Reachable Booted (step sdk) Sequential w' := by
  induction h with
  | done => exact hw
  | press _ _ ih => exact ih (hw.next _ (sequential_press _))

theorem ApprovesAll.eq_of_closed (h : ApprovesAll sdk w w') (hclosed : w.ui.flow.hasApprove = false) :
    w' = w := by
  cases h with
  | done => rfl
  | press hopen => cases hclosed.symm.trans hopen

theorem ApprovesAll.unique (h₁ : ApprovesAll sdk w w₁) (h₂ : ApprovesAll sdk w w₂) : w₁ = w₂ := by
  induction h₁ with
  | done hclosed => exact (h₂.eq_of_closed hclosed).symm
  | press hopen _ ih =>
    cases h₂ with
    | done hclosed => cases hclosed.symm.trans hopen
    | press _ h₂ => exact ih h₂

theorem HonestRun.length_eq {commands : List Bytes} {ws : List World}
    (h : HonestRun sdk w commands ws) : ws.length = commands.length := by
  induction h with
  | nil => rfl
  | cons _ _ ih => rw [List.length_cons, List.length_cons, ih]

/-- The user leads the run on by what is on the screens only, so it is determined. -/
theorem HonestRun.unique {commands : List Bytes} {ws₁ ws₂ : List World}
    (h₁ : HonestRun sdk w commands ws₁) (h₂ : HonestRun sdk w commands ws₂) : ws₁ = ws₂ := by
  induction h₁ generalizing ws₂ with
  | nil =>
    cases h₂
    rfl
  | cons happroves _ ih =>
    cases h₂ with
    | cons happroves' hrest' =>
      obtain rfl := happroves.unique happroves'
      rw [ih hrest']

/-! ### Chunks that keep outputs together -/

/-- The outputs that were decoded do not end with a reviewed one in front of a change output. -/
def Job.Kept (j : Job) (e : Elements) : Prop :=
  e.outputs.length ∈ j.changes → e.outputs.length - 1 ∈ j.changes

/-- However much of the remaining chunks has been decoded, the outputs are kept together. -/
def Job.KeptAll (sdk : Sdk) (j : Job) (e : Elements) (r : Bytes) (pieces : List Bytes) : Prop :=
  ∀ sent, sent <+: pieces → ∀ e' r',
    (elementParser sdk j.registry j.infos j.header).drain e (r ++ sent.flatten) = .ok (e', r') →
      j.Kept e'

/-- The next chunk, and the ones behind it. -/
theorem Job.keptAll_cons {piece : Bytes} {pieces : List Bytes}
    (hmore : attempt sdk j.registry j.infos j.header e r = .more)
    (hdrain : (elementParser sdk j.registry j.infos j.header).drain e (r ++ piece) = .ok (e', r')) :
    j.KeptAll sdk e r (piece :: pieces) ↔ j.Kept e ∧ j.KeptAll sdk e' r' pieces := by
  have hnil : (elementParser sdk j.registry j.infos j.header).drain e (r ++ [].flatten) = .ok (e, r) := by
    rw [List.flatten_nil, List.append_nil]
    exact StepParser.drain_of_more hmore
  have hcons : ∀ sent : List Bytes,
      (elementParser sdk j.registry j.infos j.header).drain e (r ++ (piece :: sent).flatten) =
        (elementParser sdk j.registry j.infos j.header).drain e' (r' ++ sent.flatten) := by
    intro sent
    rw [List.flatten_cons, ← List.append_assoc, StepParser.drain_append, hdrain]
    rfl
  constructor
  · intro h
    refine ⟨h [] (List.nil_prefix) e r hnil, fun sent hsent e₁ r₁ hdrain₁ => ?_⟩
    exact h (piece :: sent) (List.cons_prefix_cons.2 ⟨rfl, hsent⟩) e₁ r₁ ((hcons sent).trans hdrain₁)
  · rintro ⟨hkept, hall⟩ sent hsent e₁ r₁ hdrain₁
    rcases List.prefix_cons_iff.1 hsent with rfl | ⟨sent', rfl, hsent'⟩
    · cases hnil.symm.trans hdrain₁
      exact hkept
    · exact hall sent' hsent' e₁ r₁ ((hcons sent').symm.trans hdrain₁)

/-- Behind the last output there is nothing to read. -/
theorem Job.outputs_lt_of_drain (hj : j.Honest sdk) (horder : e.InOrder j.header) {p : Bytes}
    (hp : p ≠ []) (hmore : attempt sdk j.registry j.infos j.header e r = .more)
    (hdrain : (elementParser sdk j.registry j.infos j.header).drain e (r ++ p) = .ok (j.elements, [])) :
    e.outputs.length < j.elements.outputs.length := by
  obtain ⟨a, ha, hemits, -⟩ := StepParser.drain_eq_ok_iff.1 hdrain
  refine lt_of_le_of_ne (startOf_of_emits hemits).outputs.length_le fun hall => ?_
  have hne : e.outputs ≠ [] := List.ne_nil_of_length_pos (hall ▸ hj.outputs_pos)
  have hnone : e.nextKind j.header = none := by
    refine Elements.nextKind_eq_none_iff.2 ⟨?_, ?_, ?_⟩
    · rw [horder.uids_of_outputs hne]
    · rw [horder.inputs_of_outputs hne]
    · rw [hall, hj.isTransaction.length_outputs]
  cases hemits with
  | nil =>
    rw [List.append_nil, List.append_eq_nil_iff] at ha
    exact hp ha.2
  | cons hnext =>
    obtain ⟨x, hk, -⟩ := attempt_eq_emit_iff.1 hnext
    cases hnone.symm.trans hk

/-- When all bytes have been decoded, so have all elements. -/
theorem Job.eq_elements_of_drain (hmore : attempt sdk j.registry j.infos j.header e r = .more)
    (hdrain : (elementParser sdk j.registry j.infos j.header).drain e (r ++ []) = .ok (j.elements, [])) :
    e = j.elements := by
  rw [List.append_nil, StepParser.drain_of_more hmore, Except.ok.injEq, Prod.mk.injEq] at hdrain
  exact hdrain.1

/-- While chunks are left, so are outputs. -/
theorem Job.outputs_lt_of_cons (hj : j.Honest sdk) (horder : e.InOrder j.header)
    {c : UInt8 × Bytes} (hne : c.2 ≠ []) (hmore : attempt sdk j.registry j.infos j.header e r = .more)
    (hdrain : (elementParser sdk j.registry j.infos j.header).drain e
      (r ++ ((c :: later).map Prod.snd).flatten) = .ok (j.elements, [])) :
    e.outputs.length < j.elements.outputs.length := by
  refine Job.outputs_lt_of_drain hj horder ?_ hmore hdrain
  rw [List.map_cons, List.flatten_cons]
  simp [hne]

theorem Job.kept_elements (hj : j.Honest sdk) : j.Kept j.elements :=
  fun hmem => absurd (hj.lt_of_mem _ hmem) (Nat.lt_irrefl _)

/-! ### Induction on the chunks -/

theorem Job.Review.sends {g : Globals} {n : ℕ} (hr : j.Review sdk e r n g) :
    sends g.log = HathorLedger.sends j.log := by
  obtain ⟨shown, hshown, hall⟩ := hr.screens
  rw [HathorLedger.sends, hshown, List.count_append, List.count_reverse,
    Job.count_confirmTx_of_screenOf hall, Nat.zero_add]
  rfl

/-- From a chunk on, outputs that are kept together lead to a complete review. -/
theorem Job.completes_of_keptAll (hj : j.Honest sdk)
    (hw : Reachable Booted (step sdk) Sequential w) (hturn : Sequential w (.apdu command))
    (hnext : j.Next sdk e r start (responses w.trace) (step sdk w (.apdu command)).globals)
    (horder : e.InOrder j.header) (hmore : attempt sdk j.registry j.infos j.header e r = .more)
    (hdrain : (elementParser sdk j.registry j.infos j.header).drain e
      (r ++ (later.map Prod.snd).flatten) = .ok (j.elements, []))
    (hlater : ∀ c ∈ later, c.1 ≠ 0 ∧ 1 ≤ c.2.length ∧ c.2.length ≤ 255)
    (hkept : j.KeptAll sdk e r (later.map Prod.snd)) :
    ∃ earlier last,
      HonestRun sdk w (command :: later.map fun p => dataChunk p.1 p.2) (earlier ++ [last]) ∧
        Completed sdk j w earlier last := by
  induction later generalizing w command e r start with
  | nil =>
    obtain rfl := Job.eq_elements_of_drain hmore hdrain
    obtain ⟨w', happroves, -, hended⟩ :=
      exists_approvesAll hj (Job.kept_elements hj) (hw.next _ hturn) hnext
    obtain ⟨happroved, hscreens⟩ := hended.approved rfl
    exact ⟨[], w', .cons happroves .nil, List.isChain_pair.2 hended.responses, hscreens, by simp,
      happroved⟩
  | cons c later ih =>
    obtain ⟨⟨hnumber, hpos, hlen⟩, hlater'⟩ := List.forall_mem_cons.1 hlater
    have hne : c.2 ≠ [] := List.ne_nil_of_length_pos hpos
    have hlt := Job.outputs_lt_of_cons hj horder hne hmore hdrain
    rw [List.map_cons, List.flatten_cons, ← List.append_assoc] at hdrain
    obtain ⟨e', r', hchunk, hrest⟩ := StepParser.exists_drain_of_append _ hdrain
    obtain ⟨a, -, hemits, hmore'⟩ := StepParser.drain_eq_ok_iff.1 hchunk
    obtain ⟨b, -, hemits', -⟩ := StepParser.drain_eq_ok_iff.1 hrest
    rw [List.map_cons, Job.keptAll_cons hmore hchunk] at hkept
    obtain ⟨w', happroves, hw', hended⟩ := exists_approvesAll hj hkept.1 (hw.next _ hturn) hnext
    have hresting := hended.resting hlt
    have hsends : sends w'.trace = sends j.log := by
      rw [← hresting.review.sends, sends, sends, ← World.reviewScreens_log]
      rfl
    obtain ⟨earlier, last, hrun, hanswered, hscreens, hearlier, happroved⟩ :=
      ih hw' (fun _ _ => hresting.not_waiting)
        (Job.next_of_later hj hw' hresting hlt hnumber hne hlen hchunk (startOf_of_emits hemits'))
        (elements_of_emits horder hemits).2.1 hmore' hrest hlater' hkept.2
    refine ⟨w' :: earlier, last, .cons happroves hrun, ?_, hscreens,
      List.forall_mem_cons.2 ⟨hsends, hearlier⟩, happroved⟩
    rw [List.cons_append, List.isChain_cons_cons]
    exact ⟨hended.responses, hanswered⟩

/-- If every command from a chunk on is answered with `SW_OK`, the outputs are kept together: a
review that goes astray ends with an approved transaction, which takes no more chunks. -/
theorem Job.keptAll_of_answered (hj : j.Honest sdk)
    (hw : Reachable Booted (step sdk) Sequential w) (hturn : Sequential w (.apdu command))
    (hnext : j.Next sdk e r start (responses w.trace) (step sdk w (.apdu command)).globals)
    (hle : start ≤ e.outputs.length) (hkept : start = e.outputs.length → j.Kept e)
    (horder : e.InOrder j.header) (hmore : attempt sdk j.registry j.infos j.header e r = .more)
    (hdrain : (elementParser sdk j.registry j.infos j.header).drain e
      (r ++ (later.map Prod.snd).flatten) = .ok (j.elements, []))
    (hlater : ∀ c ∈ later, c.1 ≠ 0 ∧ 1 ≤ c.2.length ∧ c.2.length ≤ 255) {ws : List World}
    (hrun : HonestRun sdk w (command :: later.map fun p => dataChunk p.1 p.2) ws)
    (hanswered : List.IsChain AnsweredOk (w :: ws)) : j.KeptAll sdk e r (later.map Prod.snd) := by
  induction later generalizing w command e r start ws with
  | nil =>
    obtain rfl := Job.eq_elements_of_drain hmore hdrain
    intro sent hsent e' r' hdrain'
    obtain rfl := List.prefix_nil.1 hsent
    rw [List.flatten_nil, List.append_nil, StepParser.drain_of_more hmore, Except.ok.injEq,
      Prod.mk.injEq] at hdrain'
    exact hdrain'.1 ▸ Job.kept_elements hj
  | cons c later ih =>
    obtain ⟨⟨hnumber, hpos, hlen⟩, hlater'⟩ := List.forall_mem_cons.1 hlater
    have hne : c.2 ≠ [] := List.ne_nil_of_length_pos hpos
    have hlt := Job.outputs_lt_of_cons hj horder hne hmore hdrain
    rw [List.map_cons, List.flatten_cons, ← List.append_assoc] at hdrain
    obtain ⟨e', r', hchunk, hrest⟩ := StepParser.exists_drain_of_append _ hdrain
    obtain ⟨a, -, hemits, hmore'⟩ := StepParser.drain_eq_ok_iff.1 hchunk
    obtain ⟨b, -, hemits', -⟩ := StepParser.drain_eq_ok_iff.1 hrest
    rw [List.map_cons, Job.keptAll_cons hmore hchunk]
    cases hrun with
    | @cons _ w₁ _ _ ws happroves hrun =>
      obtain ⟨-, hanswered'⟩ := List.isChain_cons_cons.1 hanswered
      by_cases hk : j.Kept e
      · obtain ⟨w', happroves', hw', hended⟩ := exists_approvesAll hj hk (hw.next _ hturn) hnext
        obtain rfl := happroves.unique happroves'
        have hresting := hended.resting hlt
        exact ⟨hk, ih hw' (fun _ _ => hresting.not_waiting)
          (Job.next_of_later hj hw' hresting hlt hnumber hne hlen hchunk
            (startOf_of_emits hemits'))
          (startOf_of_emits hemits).outputs.length_le (fun hsame => by rwa [Job.Kept, ← hsame])
          (elements_of_emits horder hemits).2.1 hmore' hrest hlater' hrun hanswered'⟩
      · -- the next chunk is refused
        have hchange : e.outputs.length ∈ j.changes ∧ e.outputs.length - 1 ∉ j.changes := by
          rwa [Job.Kept, Classical.not_imp] at hk
        have happroved := Job.approved_of_next hj hchange.1 hchange.2
          (lt_of_le_of_ne hle fun h => hk (hkept h)) hlt (hw.next _ hturn) hnext happroves
        obtain ⟨hclosed, hrefused⟩ := refused_of_approved
          (happroves.reachable (hw.next _ hturn)) happroved c.1 hne hlen
        cases hrun with
        | cons happroves₂ =>
          obtain ⟨⟨rdata, hok⟩, -⟩ := List.isChain_cons_cons.1 hanswered'
          rw [happroves₂.eq_of_closed hclosed, hrefused] at hok
          have hlast := congrArg (fun b : Bytes => b.getLast?) (List.cons.inj hok).1
          rw [List.getLast?_append] at hlast
          exact absurd (hlast.trans rfl : some (0x07 : UInt8) = some 0x00) (by decide)

/-! ### Cuts of an honest transaction -/

section Cut

variable {changes : List ChangeEntry} {info : Bytes} {h : Header} {c : Cut info h e}

theorem declares_announced (hinfo : ChangeCoding changes info) (c : Cut info h e) :
    Declares changes (announced (info ++ (h.bytes ++ c.first))) := by
  obtain ⟨-, t, -, ⟨hlen, hstored⟩, hannounced⟩ := announced_firstChunk hinfo c.first_le
  rw [hannounced]
  exact ⟨hlen, hstored⟩

theorem Cut.changes_job (hinfo : ChangeCoding changes info) (c : Cut info h e) (w : World) :
    (c.job w).changes = changes.map fun entry => entry.index.toNat :=
  (declares_announced hinfo c).changeIndices

theorem Cut.honest_job (ht : HonestTransaction sdk w.tokenSymbols changes h e)
    (hinfo : ChangeCoding changes info) (c : Cut info h e) : (c.job w).Honest sdk where
  isTransaction := ht.isTransaction (declares_announced hinfo c)
  infos_le := by
    change (announced (info ++ (h.bytes ++ c.first))).changeEntries.length ≤ 1 + txMaxTokens
    rw [← (declares_announced hinfo c).stored.length_eq, Nat.add_comm]
    exact ht.changes_le
  nodup := by
    rw [c.changes_job hinfo]
    exact ht.distinct
  lt_of_mem i hi := by
    rw [c.changes_job hinfo] at hi
    exact ht.lt_of_mem hi
  outputs_pos := ht.outputs_pos

/-- The outputs that are decoded behind a prefix are kept together exactly if it does not end
between a reviewed output and a change output behind it. -/
theorem Job.kept_iff (hj : j.Honest sdk) {p q : Bytes} (hbytes : q ++ p = j.elements.bytes)
    (hdrain : (elementParser sdk j.registry j.infos j.header).drain {} q = .ok (e', r'))
    (hrest : (elementParser sdk j.registry j.infos j.header).drain e' (r' ++ p) =
      .ok (j.elements, [])) :
    j.Kept e' ↔ ∀ i ∉ j.changes, i + 1 ∈ j.changes →
      ¬(j.elements.outputEnd i ≤ q.length ∧ q.length < j.elements.outputEnd (i + 1)) := by
  have ht := hj.isTransaction
  rw [← hbytes] at ht
  have hiff : ∀ i < j.elements.outputs.length,
      (i < e'.outputs.length ↔ j.elements.outputEnd i ≤ q.length) :=
    fun i hi => lt_outputs_iff ht hdrain hrest hi
  constructor
  · rintro hkept i hi hchange ⟨hle, hlt⟩
    have hnext := hj.lt_of_mem _ hchange
    have hlast := (hiff i (Nat.lt_of_succ_lt hnext)).2 hle
    have hmissing := mt (hiff (i + 1) hnext).1 (not_le.2 hlt)
    have hlen : e'.outputs.length = i + 1 := by omega
    rw [Job.Kept, hlen] at hkept
    exact hi (hkept hchange)
  · intro hall hmem
    by_contra hnot
    obtain ⟨i, hi⟩ : ∃ i, e'.outputs.length = i + 1 := by
      refine Nat.exists_eq_add_one.2 (Nat.pos_of_ne_zero fun hzero => ?_)
      rw [hzero] at hmem hnot
      exact hnot hmem
    rw [hi, Nat.add_sub_cancel] at hnot
    rw [hi] at hmem hiff
    have hnext := hj.lt_of_mem _ hmem
    refine hall i hnot hmem ⟨(hiff i (Nat.lt_of_succ_lt hnext)).1 (Nat.lt_succ_self i), ?_⟩
    exact not_le.1 (mt (hiff (i + 1) hnext).2 (Nat.lt_irrefl _))

/-- A prefix of the chunks, with the elements that are complete in it. -/
theorem Job.exists_drain_of_chunks (hj : j.Honest sdk) {sent pieces : List Bytes}
    (hpieces : pieces.flatten = j.elements.bytes) (hsent : sent <+: pieces) :
    ∃ p e' r', sent.flatten ++ p = j.elements.bytes ∧
      (elementParser sdk j.registry j.infos j.header).drain {} sent.flatten = .ok (e', r') ∧
      (elementParser sdk j.registry j.infos j.header).drain e' (r' ++ p) = .ok (j.elements, []) := by
  obtain ⟨more, rfl⟩ := hsent
  rw [List.flatten_append] at hpieces
  have ht := hj.isTransaction
  rw [← hpieces] at ht
  obtain ⟨e', r', hdrain, hrest⟩ := exists_drain_of_prefix ht
  exact ⟨more.flatten, e', r', hpieces, hdrain, hrest⟩

theorem Cut.keptAll_iff (hj : (c.job w).Honest sdk) :
    (c.job w).KeptAll sdk {} [] c.pieces ↔ c.KeepsTogether (c.job w).changes := by
  constructor
  · intro hall i hi hchange sent hsent
    obtain ⟨p, e', r', hbytes, hdrain, hrest⟩ :=
      Job.exists_drain_of_chunks hj c.flatten_pieces hsent
    exact (Job.kept_iff hj hbytes hdrain hrest).1 (hall sent hsent e' r' hdrain) i hi hchange
  · intro hkeeps sent hsent e₁ r₁ hdrain₁
    obtain ⟨p, e', r', hbytes, hdrain, hrest⟩ :=
      Job.exists_drain_of_chunks hj c.flatten_pieces hsent
    rw [List.nil_append, hdrain, Except.ok.injEq, Prod.mk.injEq] at hdrain₁
    obtain ⟨rfl, -⟩ := hdrain₁
    exact (Job.kept_iff hj hbytes hdrain hrest).2 fun i hi hchange => hkeeps i hi hchange sent hsent

/-- What the app has decoded after the first chunk, and what the later ones lead to. -/
theorem Cut.exists_next (hw : Reachable Booted (step sdk) Sequential w)
    (hrecv : w.ctx.state ≠ .recvData) (happroved : w.ctx.state ≠ .approved)
    (ht : HonestTransaction sdk w.tokenSymbols changes h e) (hinfo : ChangeCoding changes info)
    (c : Cut info h e) : ∃ e' r',
      (c.job w).Next sdk e' r' 0 (responses w.trace)
        (step sdk w (.apdu (dataChunk 0 (info ++ (h.bytes ++ c.first))))).globals ∧
      e'.InOrder h ∧ attempt sdk (c.job w).registry (c.job w).infos h e' r' = .more ∧
      (elementParser sdk (c.job w).registry (c.job w).infos h).drain e'
        (r' ++ (c.later.map Prod.snd).flatten) = .ok (e, []) ∧
      ((c.job w).KeptAll sdk e' r' (c.later.map Prod.snd) ↔
        c.KeepsTogether (changes.map fun entry => entry.index.toNat)) := by
  have hj := c.honest_job ht hinfo
  obtain ⟨p, e', r', hbytes, hdrain, hrest⟩ := Job.exists_drain_of_chunks hj c.flatten_pieces
    (List.prefix_append [c.first] _)
  have hp : p = (c.later.map Prod.snd).flatten := by
    refine List.append_cancel_left (hbytes.trans ?_)
    rw [List.flatten_singleton]
    exact c.join.symm
  rw [List.flatten_singleton] at hdrain
  rw [hp] at hrest
  obtain ⟨a, -, hemits, hmore⟩ := StepParser.drain_eq_ok_iff.1 hdrain
  obtain ⟨b, -, hemits', -⟩ := StepParser.drain_eq_ok_iff.1 hrest
  have hempty : (c.job w).Kept {} := id
  refine ⟨e', r', ?_, (elements_of_emits (Elements.inOrder_empty h) hemits).2.1, hmore, hrest, ?_⟩
  · exact Job.next_of_first hinfo c.first_le hj rfl rfl rfl rfl hw hrecv happroved hdrain
      (startOf_of_emits hemits')
  · rw [← c.changes_job hinfo w, ← c.keptAll_iff hj, Cut.pieces, Job.keptAll_cons attempt_nil hdrain,
      and_iff_right hempty]

/-- A cut that keeps the outputs together leads to a complete review. -/
theorem Cut.exists_completed (hw : Reachable Booted (step sdk) Sequential w)
    (hidle : w.io.state ≠ .waiting) (hrecv : w.ctx.state ≠ .recvData)
    (happroved : w.ctx.state ≠ .approved)
    (ht : HonestTransaction sdk w.tokenSymbols changes h e) (hinfo : ChangeCoding changes info)
    (c : Cut info h e) (hkeeps : c.KeepsTogether (changes.map fun entry => entry.index.toNat)) :
    ∃ earlier last, HonestRun sdk w c.commands (earlier ++ [last]) ∧
      Completed sdk (c.job w) w earlier last := by
  obtain ⟨e', r', hnext, horder, hmore, hrest, hkept⟩ := c.exists_next hw hrecv happroved ht hinfo
  exact Job.completes_of_keptAll (c.honest_job ht hinfo) hw (fun _ _ => hidle) hnext horder hmore
    hrest c.later_le (hkept.2 hkeeps)

/-- A cut whose commands are all answered with `SW_OK` keeps the outputs together. -/
theorem Cut.keepsTogether_of_answered (hw : Reachable Booted (step sdk) Sequential w)
    (hidle : w.io.state ≠ .waiting) (hrecv : w.ctx.state ≠ .recvData)
    (happroved : w.ctx.state ≠ .approved)
    (ht : HonestTransaction sdk w.tokenSymbols changes h e) (hinfo : ChangeCoding changes info)
    (c : Cut info h e) {ws : List World} (hrun : HonestRun sdk w c.commands ws)
    (hanswered : List.IsChain AnsweredOk (w :: ws)) :
    c.KeepsTogether (changes.map fun entry => entry.index.toNat) := by
  obtain ⟨e', r', hnext, horder, hmore, hrest, hkept⟩ := c.exists_next hw hrecv happroved ht hinfo
  refine hkept.1 (Job.keptAll_of_answered (c.honest_job ht hinfo) hw (fun _ _ => hidle) hnext
    (Nat.zero_le _) (fun hzero => ?_) horder hmore hrest c.later_le hrun hanswered)
  rw [Job.Kept, ← hzero]
  exact id

/-- For every app that is ready for a new transaction and every cut of an honest transaction: if the
user approves every screen, the review is completed, unless a chunk ends behind an output that is
under review and in front of the end of the next output, which is declared as change. -/
theorem completes_iff (hw : Reachable Booted (step sdk) Sequential w) (hidle : w.io.state ≠ .waiting)
    (hrecv : w.ctx.state ≠ .recvData) (happroved : w.ctx.state ≠ .approved)
    (ht : HonestTransaction sdk w.tokenSymbols changes h e) (hinfo : ChangeCoding changes info)
    (c : Cut info h e) :
    (∃ earlier last, HonestRun sdk w c.commands (earlier ++ [last]) ∧
      Completed sdk (c.job w) w earlier last) ↔
        c.KeepsTogether (changes.map fun entry => entry.index.toNat) := by
  constructor
  · rintro ⟨earlier, last, hrun, hcompleted⟩
    exact c.keepsTogether_of_answered hw hidle hrecv happroved ht hinfo hrun
      (hcompleted.answered.imp fun _ _ hok => ⟨[], hok⟩)
  · exact c.exists_completed hw hidle hrecv happroved ht hinfo

/-- For every app that is ready for a new transaction and every cut of an honest transaction: the user
can approve every screen, and doing so completes the review, unless a chunk ends behind an output that
is under review and in front of the end of the next output, which is declared as change. -/
theorem reviewsCompletely_iff (hw : Reachable Booted (step sdk) Sequential w)
    (hidle : w.io.state ≠ .waiting) (hrecv : w.ctx.state ≠ .recvData)
    (happroved : w.ctx.state ≠ .approved)
    (ht : HonestTransaction sdk w.tokenSymbols changes h e) (hinfo : ChangeCoding changes info)
    (c : Cut info h e) :
    ReviewsCompletely sdk (c.job w) w c.commands ↔
      c.KeepsTogether (changes.map fun entry => entry.index.toNat) := by
  constructor
  · rintro ⟨⟨ws, hrun⟩, hcompletes⟩
    have hne : ws ≠ [] := List.ne_nil_of_length_pos (hrun.length_eq ▸ Nat.succ_pos _)
    have hlast := List.dropLast_append_getLast hne
    rw [← hlast] at hrun
    exact c.keepsTogether_of_answered hw hidle hrecv happroved ht hinfo hrun
      ((hcompletes _ _ hrun).answered.imp fun _ _ hok => ⟨[], hok⟩)
  · intro hkeeps
    obtain ⟨earlier, last, hrun, hcompleted⟩ :=
      c.exists_completed hw hidle hrecv happroved ht hinfo hkeeps
    refine ⟨⟨_, hrun⟩, fun earlier' last' hrun' => ?_⟩
    obtain ⟨rfl, hsame⟩ := List.append_inj' (hrun.unique hrun') rfl
    obtain rfl := (List.cons.inj hsame).1
    exact hcompleted

end Cut

/-- A change entry for the second output. -/
def sampleSecond : ChangeEntry where
  index := 1
  path := ⟨[0x8000002c], by decide, by decide, nofun, nofun⟩

/-- A transaction with an output to review and its change. -/
def sampleChanged : Elements := ⟨[], [], [sampleOutput, sampleOwn]⟩

theorem honest_sampleChanged :
    HonestTransaction Sdk.sample sampleBoot.tokenSymbols [sampleSecond] ⟨0, 1, 0, 0, 2⟩
      sampleChanged where
  length_uids := rfl
  length_inputs := rfl
  length_outputs := rfl
  outputs_pos := by decide
  uids_le := by decide
  registered _ h := by cases h
  no_authority := by decide
  token_le := by decide
  changes_le := by decide
  distinct := by decide
  belongs := by
    rintro c hc
    obtain rfl := List.mem_singleton.1 hc
    exact ⟨sampleOwn, rfl, _, _, _, rfl, rfl, by decide +kernel⟩

/-- The first chunk ends inside the output that is under review. -/
def sampleInside : Cut (changeInfoBytes [sampleSecond]) ⟨0, 1, 0, 0, 2⟩ sampleChanged where
  first := sampleOutput.bytes.take 10
  later := [(1, sampleOutput.bytes.drop 10 ++ sampleOwn.bytes)]
  join := by decide +kernel
  first_le := by decide +kernel
  later_le := by decide +kernel

/-- The first chunk ends inside the change. -/
def sampleBehind : Cut (changeInfoBytes [sampleSecond]) ⟨0, 1, 0, 0, 2⟩ sampleChanged where
  first := sampleOutput.bytes ++ sampleOwn.bytes.take 10
  later := [(1, sampleOwn.bytes.drop 10)]
  join := by decide +kernel
  first_le := by decide +kernel
  later_le := by decide +kernel

theorem keepsTogether_sampleInside : sampleInside.KeepsTogether [1] := by
  intro i _ hi sent hsent
  obtain rfl : i = 0 := by simpa using hi
  have hlast := List.prefix_iff_eq_take.1 hsent
  have hle : sent.length ≤ 2 := hsent.length_le
  interval_cases sent.length <;> subst hlast <;> decide +kernel

theorem reviewsCompletely_sampleInside :
    ReviewsCompletely Sdk.sample (sampleInside.job sampleBoot) sampleBoot sampleInside.commands :=
  (reviewsCompletely_iff (.start booted_sampleBoot) (by decide) (by decide) (by decide)
    honest_sampleChanged (.version1 _ (by decide)) sampleInside).2 keepsTogether_sampleInside

theorem approvesAll_of_follows {n : ℕ}
    (hopen : Follows (step sdk) (fun v _ => v.ui.flow.hasApprove = true) w
      (List.replicate n (.press .approve)))
    (hclosed : (run sdk w (List.replicate n (.press .approve))).ui.flow.hasApprove = false) :
    ApprovesAll sdk w (run sdk w (List.replicate n (.press .approve))) := by
  induction n generalizing w with
  | zero => exact .done hclosed
  | succ n ih => exact .press hopen.1 (ih hopen.2 hclosed)

/-- The first chunk ends inside the change. Two screens are approved. -/
def sampleParted : World :=
  run Sdk.sample
    (step Sdk.sample sampleBoot (.apdu (dataChunk 0
      (changeInfoBytes [sampleSecond] ++ (Header.bytes ⟨0, 1, 0, 0, 2⟩ ++ sampleBehind.first)))))
    (List.replicate 2 (.press .approve))

/-- The honest transaction is approved before the second chunk, which cancels it. -/
theorem not_reviewsCompletely_sampleBehind :
    HonestTransaction Sdk.sample sampleBoot.tokenSymbols [sampleSecond] ⟨0, 1, 0, 0, 2⟩
        sampleChanged ∧
      sampleParted.ctx.state = .approved ∧
      (∃ last, HonestRun Sdk.sample sampleBoot sampleBehind.commands ([sampleParted] ++ [last]) ∧
        last.ctx.state = .none) ∧
      ¬ReviewsCompletely Sdk.sample (sampleBehind.job sampleBoot) sampleBoot sampleBehind.commands := by
  have hfirst := @approvesAll_of_follows Sdk.sample (step Sdk.sample sampleBoot (.apdu (dataChunk 0
    (changeInfoBytes [sampleSecond] ++ (Header.bytes ⟨0, 1, 0, 0, 2⟩ ++ sampleBehind.first))))) 2
    (by decide +kernel) (by decide +kernel)
  have hsecond := @ApprovesAll.done Sdk.sample (step Sdk.sample sampleParted
    (.apdu (dataChunk 1 (sampleOwn.bytes.drop 10)))) (by decide +kernel)
  have hrun : HonestRun Sdk.sample sampleBoot sampleBehind.commands ([sampleParted] ++ [_]) :=
    .cons hfirst (.cons hsecond .nil)
  have hnone : (step Sdk.sample sampleParted
      (.apdu (dataChunk 1 (sampleOwn.bytes.drop 10)))).ctx.state = .none := by decide +kernel
  refine ⟨honest_sampleChanged, by decide +kernel, ⟨_, hrun, hnone⟩, fun h => ?_⟩
  exact State.noConfusion (hnone.symm.trans (h.2 _ _ hrun).approved)

theorem completes_samples :
    (∃ earlier last, HonestRun Sdk.sample sampleBoot sampleInside.commands (earlier ++ [last]) ∧
      Completed Sdk.sample (sampleInside.job sampleBoot) sampleBoot earlier last) ∧
    ¬∃ earlier last, HonestRun Sdk.sample sampleBoot sampleBehind.commands (earlier ++ [last]) ∧
      Completed Sdk.sample (sampleBehind.job sampleBoot) sampleBoot earlier last :=
  ⟨(completes_iff (.start booted_sampleBoot) (by decide) (by decide) (by decide)
      honest_sampleChanged (.version1 _ (by decide)) sampleInside).2 keepsTogether_sampleInside,
    fun h => (completes_iff (.start booted_sampleBoot) (by decide) (by decide) (by decide)
      honest_sampleChanged (.version1 _ (by decide)) sampleBehind).1 h 0 (by decide) (by decide)
      [sampleBehind.first] (List.prefix_append _ _) (by decide +kernel)⟩

end HathorLedger
