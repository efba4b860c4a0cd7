import HathorLedger.Common.Bip32
import HathorLedger.Handler.Chunks

/-!
# Reading a first chunk

A first chunk starts with the change information and the header. The readers change no other fields
of the transaction record, also where they fail, and a header that is cut short leaves no output
announced.

## Main results

* `wp_readChangeInfo`: the change information is read from the front of the chunk.
* `changesRead_of_readChangeInfo`: the entries that are read fit into the array, and their paths are
  accepted.
* `wp_readTxData_short`: the header is cut short.
* `readFirstChunk`, `announced`: the readers together, and the record behind them.
-/

namespace HathorLedger

/-! ### Change information -/

/-- The records differ in their change entries only. -/
def OnlyChanges (t t' : TxInfo) : Prop :=
  ∃ changeLen changeInfo, t' = { t with changeLen, changeInfo }

variable {cdata : Buffer} {t t' t'' : TxInfo}

theorem OnlyChanges.trans (h : OnlyChanges t t') (h' : OnlyChanges t' t'') : OnlyChanges t t'' := by
  obtain ⟨_, _, rfl⟩ := h
  obtain ⟨_, _, rfl⟩ := h'
  exact ⟨_, _, rfl⟩

/-- The cursor has moved inside the buffer. -/
def Moved (cdata cdata' : Buffer) : Prop :=
  ∃ n ≤ cdata.rest.length, cdata' = cdata.advance n

theorem Moved.wf {cdata' : Buffer} (hwf : cdata.Wf) (h : Moved cdata cdata') : cdata'.Wf := by
  obtain ⟨n, hn, rfl⟩ := h
  exact hwf.advance hn

theorem Moved.trans {cdata' cdata'' : Buffer} (h : Moved cdata cdata') (h' : Moved cdata' cdata'') :
    Moved cdata cdata'' := by
  obtain ⟨n, hn, rfl⟩ := h
  obtain ⟨m, hm, rfl⟩ := h'
  rw [Buffer.rest_advance, List.length_drop] at hm
  exact ⟨n + m, by omega, by simp [Buffer.advance, Nat.add_assoc]⟩

theorem moved_readU8 (hwf : cdata.Wf) (h : cdata.readU8.1 = true) : Moved cdata cdata.readU8.2.2 := by
  rcases Nat.lt_or_ge cdata.rest.length 1 with hlen | hlen
  · rw [hwf.readU8_nil (List.length_eq_zero_iff.1 (by omega))] at h
    cases h
  · rw [hwf.readU8_eq hlen]
    exact ⟨1, hlen, rfl⟩

theorem moved_seekCur (hwf : cdata.Wf) {n : ℕ} (hn : n ≤ cdata.rest.length) :
    Moved cdata (cdata.seekCur n).2 := by
  rw [hwf.seekCur_eq hn]
  exact ⟨n, hn, rfl⟩

theorem moved_readBip32Path (hwf : cdata.Wf) {path : Bip32Path}
    (h : (cdata.readBip32Path path).1 = true) : Moved cdata (cdata.readBip32Path path).2.2 := by
  obtain ⟨accepted, out, hread⟩ : ∃ accepted out,
      bip32PathRead (cdata.ptr.drop cdata.offset) (sizeSub cdata.size cdata.offset) path =
        (accepted, out) := ⟨_, _, rfl⟩
  simp only [Buffer.readBip32Path, hread] at h ⊢
  cases accepted with
  | false => cases h
  | true =>
    -- an accepted path has been read up to its declared length
    have hlen : 1 + 4 * out.length ≤ cdata.rest.length := by
      rw [bip32PathRead, hwf.remaining] at hread
      split_ifs at hread with hshort
      · simp at hread
      · dsimp only at hread
        split_ifs at hread
        all_goals
          obtain rfl := (Prod.mk.inj hread).2
          dsimp only
          omega
    exact moved_seekCur hwf hlen

theorem wp_readChangeEntries (hwf : cdata.Wf) (n i : ℕ) :
    (readChangeEntries n i cdata).wp (fun cdata' t' => Moved cdata cdata' ∧ OnlyChanges t t')
      (fun _ t' => OnlyChanges t t') t := by
  induction n generalizing i cdata t with
  | zero => exact (EStateM.wp_pure _).2 ⟨⟨0, Nat.zero_le _, rfl⟩, _, _, rfl⟩
  | succ n ih =>
    simp only [readChangeEntries, EStateM.wp_bind, EStateM.wp_get, EStateM.wp_modify,
      EStateM.wp_require]
    split_ifs with hindex hpath
    · have hmoved := moved_readU8 hwf hindex
      have hmoved' := hmoved.trans (moved_readBip32Path (hmoved.wf hwf) hpath)
      refine EStateM.wp_mono ?_ ?_ (ih (hmoved'.wf hwf) (i + 1))
      · rintro cdata' t' ⟨hm, ht⟩
        exact ⟨hmoved'.trans hm, .trans ⟨_, _, rfl⟩ ht⟩
      · rintro _ t' ht
        exact .trans ⟨_, _, rfl⟩ ht
    · exact ⟨_, _, rfl⟩
    · exact ⟨_, _, rfl⟩

theorem wp_readChangeInfoV1 (hwf : cdata.Wf) :
    (readChangeInfoV1 cdata).wp (fun cdata' t' => Moved cdata cdata' ∧ OnlyChanges t t')
      (fun _ t' => OnlyChanges t t') t := by
  simp only [readChangeInfoV1, EStateM.wp_bind, EStateM.wp_modify, EStateM.wp_require]
  split_ifs with hlen hmax
  · have hmoved := moved_readU8 hwf hlen
    refine EStateM.wp_mono ?_ ?_ (wp_readChangeEntries (hmoved.wf hwf) _ _)
    · rintro cdata' t' ⟨hm, ht⟩
      exact ⟨hmoved.trans hm, .trans ⟨_, _, rfl⟩ ht⟩
    · rintro _ t' ht
      exact .trans ⟨_, _, rfl⟩ ht
  · exact ⟨_, _, rfl⟩
  · exact ⟨_, _, rfl⟩

theorem wp_readChangeInfoOldProtocol (hwf : cdata.Wf) (changeByte : ℕ) :
    (readChangeInfoOldProtocol changeByte cdata).wp
      (fun cdata' t' => Moved cdata cdata' ∧ OnlyChanges t t') (fun _ t' => OnlyChanges t t') t := by
  simp only [readChangeInfoOldProtocol, EStateM.wp_bind, EStateM.wp_get, EStateM.wp_modify,
    EStateM.wp_require, EStateM.wp_pure]
  split_ifs with hindex hlength hsize hpath
  · have hmoved := moved_readU8 hwf hindex
    have hsize' : 4 * (changeByte % 16) ≤ cdata.readU8.2.2.rest.length := by
      rw [← (hmoved.wf hwf).remaining]
      simpa using hsize
    exact ⟨hmoved.trans (moved_seekCur (hmoved.wf hwf) hsize'), _, _, rfl⟩
  all_goals exact ⟨_, _, rfl⟩

/-- The change information is read from the front of the chunk into the change entries. -/
theorem wp_readChangeInfo (hwf : cdata.Wf) :
    (readChangeInfo cdata).wp (fun cdata' t' => Moved cdata cdata' ∧ OnlyChanges t t')
      (fun _ t' => OnlyChanges t t') t := by
  simp only [readChangeInfo, EStateM.wp_bind, EStateM.wp_require, EStateM.wp_ite,
    EStateM.wp_modify, EStateM.wp_pure, EStateM.wp_throw]
  have hgo : cdata.readU8.1 = true → ∀ x : EStateM ℕ TxInfo Buffer,
      x.wp (fun cdata' t' => Moved cdata.readU8.2.2 cdata' ∧ OnlyChanges t t')
        (fun _ t' => OnlyChanges t t') t →
      x.wp (fun cdata' t' => Moved cdata cdata' ∧ OnlyChanges t t')
        (fun _ t' => OnlyChanges t t') t := by
    intro hversion x hx
    refine EStateM.wp_mono ?_ (fun _ _ => id) hx
    rintro cdata' t' ⟨hm, ht⟩
    exact ⟨(moved_readU8 hwf hversion).trans hm, ht⟩
  split_ifs with hversion
  · exact ⟨moved_readU8 hwf hversion, _, _, rfl⟩
  · exact hgo hversion _ (wp_readChangeInfoOldProtocol ((moved_readU8 hwf hversion).wf hwf) _)
  · exact hgo hversion _ (wp_readChangeInfoV1 ((moved_readU8 hwf hversion).wf hwf))
  · exact ⟨_, _, rfl⟩
  · exact ⟨_, _, rfl⟩

/-! ### The entries -/

/-- The first `n` entries of the array have accepted paths. -/
structure ChangesRead (n : ℕ) (t : TxInfo) : Prop where
  length : t.changeInfo.length = 1 + txMaxTokens
  le : n ≤ 1 + txMaxTokens
  accepted : ∀ info ∈ t.changeInfo.take n, info.path.Accepted

theorem ChangesRead.set {n : ℕ} (h : ChangesRead n t) (hn : n < 1 + txMaxTokens) (index : ℕ)
    {path : Bip32Path} (hpath : path.Accepted) :
    ChangesRead (n + 1) { t with changeInfo := t.changeInfo.set n { index, path } } where
  length := by rw [List.length_set, h.length]
  le := hn
  accepted info hinfo := by
    rw [take_set_append (h.length ▸ hn), List.mem_append, List.mem_singleton] at hinfo
    rcases hinfo with hinfo | rfl
    · exact h.accepted info hinfo
    · exact hpath

/-- The postcondition of the readers on exceptions: the array has its length, and the announced
number of entries is a byte. -/
def ChangesFailed (t : TxInfo) : Prop := t.changeInfo.length = 1 + txMaxTokens ∧ t.changeLen < 256

theorem changesRead_readChangeEntries {n i : ℕ} (h : ChangesRead i t)
    (hn : i + n ≤ 1 + txMaxTokens) (hlen : t.changeLen < 256) :
    (readChangeEntries n i cdata).wp
      (fun _ t' => ChangesRead (i + n) t' ∧ t'.changeLen = t.changeLen)
      (fun _ => ChangesFailed) t := by
  induction n generalizing i cdata t with
  | zero => exact (EStateM.wp_pure _).2 ⟨h, rfl⟩
  | succ n ih =>
    simp only [readChangeEntries, EStateM.wp_bind, EStateM.wp_get, EStateM.wp_modify,
      EStateM.wp_require, List.set_set]
    obtain ⟨accepted, path, rest, hread⟩ : ∃ accepted path rest,
        cdata.readU8.2.2.readBip32Path (t.changeInfo.getD i {}).path = (accepted, path, rest) :=
      ⟨_, _, _, rfl⟩
    rw [hread]
    split_ifs with hindex hpath
    · dsimp only at hpath
      have hset := h.set (by omega) cdata.readU8.2.1 ⟨_, _, rest, hpath ▸ hread⟩
      refine EStateM.wp_mono ?_ (fun _ _ => id) (ih hset (by omega) hlen)
      rintro _ t' ⟨ht', hlen'⟩
      exact ⟨by rwa [Nat.add_assoc, Nat.add_comm 1 n] at ht', hlen'⟩
    · exact ⟨by simp [h.length], hlen⟩
    · exact ⟨by simp [h.length], hlen⟩

theorem changesRead_readChangeInfoV1 (h : t.changeInfo.length = 1 + txMaxTokens) :
    (readChangeInfoV1 cdata).wp (fun _ t' => ChangesRead t'.changeLen t')
      (fun _ => ChangesFailed) t := by
  have hbyte := cdata.readU8_lt
  simp only [readChangeInfoV1, EStateM.wp_bind, EStateM.wp_modify, EStateM.wp_require]
  split_ifs with hlen hmax
  · have hmax' : cdata.readU8.2.1 ≤ txMaxTokens + 1 := by simpa using hmax
    refine EStateM.wp_mono ?_ (fun _ _ => id) (changesRead_readChangeEntries
      ⟨h, Nat.zero_le _, by simp⟩ (by rwa [Nat.zero_add, Nat.add_comm 1]) hbyte)
    rintro _ t' ⟨ht', hlen'⟩
    rw [hlen']
    rwa [Nat.zero_add] at ht'
  · exact ⟨h, hbyte⟩
  · exact ⟨h, hbyte⟩

theorem changesRead_readChangeInfoOldProtocol (h : t.changeInfo.length = 1 + txMaxTokens)
    (changeByte : ℕ) :
    (readChangeInfoOldProtocol changeByte cdata).wp (fun _ t' => ChangesRead t'.changeLen t')
      (fun _ => ChangesFailed) t := by
  simp only [readChangeInfoOldProtocol, EStateM.wp_bind, EStateM.wp_get, EStateM.wp_modify,
    EStateM.wp_require, EStateM.wp_pure, List.set_set]
  generalize hbuf : Buffer.mk _ _ _ = bufdata
  obtain ⟨accepted, path, rest, hread⟩ : ∃ accepted path rest,
      bufdata.readBip32Path (t.changeInfo.getD 0 {}).path = (accepted, path, rest) :=
    ⟨_, _, _, rfl⟩
  rw [hread]
  split_ifs with hindex hlength hsize hpath
  · dsimp only at hpath
    have hnone : ChangesRead 0 t := ⟨h, Nat.zero_le _, by simp⟩
    have hset := hnone.set (by decide) cdata.readU8.2.1 ⟨_, _, rest, hpath ▸ hread⟩
    exact ⟨hset.length, hset.le, hset.accepted⟩
  all_goals exact ⟨by simp [h], Nat.one_lt_succ_succ _⟩

theorem changesRead_readChangeInfo (h : t.changeInfo.length = 1 + txMaxTokens)
    (hlen : t.changeLen < 256) :
    (readChangeInfo cdata).wp (fun _ t' => ChangesRead t'.changeLen t')
      (fun _ => ChangesFailed) t := by
  simp only [readChangeInfo, EStateM.wp_bind, EStateM.wp_require, EStateM.wp_ite,
    EStateM.wp_modify, EStateM.wp_pure, EStateM.wp_throw]
  split_ifs with hversion
  · exact ⟨h, Nat.zero_le _, by simp⟩
  · exact changesRead_readChangeInfoOldProtocol h _
  · exact changesRead_readChangeInfoV1 h
  · exact ⟨h, hlen⟩
  · exact ⟨h, hlen⟩

/-- What a first chunk declares as change fits into the array, and has accepted paths. -/
theorem changesRead_of_readChangeInfo {cdata' : Buffer}
    (h : (readChangeInfo cdata).run { sha256 := .fed [] } = .ok cdata' t) :
    ChangesRead t.changeLen t := by
  have hread := @changesRead_readChangeInfo cdata { sha256 := .fed [] } rfl (by decide)
  exact (EStateM.wp_of_run_ok h).1 hread

/-- Also where the change information cannot be read, the number of entries is a byte. -/
theorem changeLen_lt_of_readChangeInfo {sw : ℕ}
    (h : (readChangeInfo cdata).run { sha256 := .fed [] } = .error sw t) : t.changeLen < 256 := by
  have hread := @changesRead_readChangeInfo cdata { sha256 := .fed [] } rfl (by decide)
  exact ((EStateM.wp_of_run_error h).1 hread).2

/-! ### Status words -/

/-- A first chunk that cannot be read is refused with one of two status words. -/
def ReadRefused (sw : ℕ) (_ : TxInfo) : Prop := sw = Sw.wrongDataLength ∨ sw = Sw.invalidTx

theorem readRefused_length : ReadRefused Sw.wrongDataLength t := .inl rfl

theorem wp_readChangeEntries_refused (n i : ℕ) :
    (readChangeEntries n i cdata).wp (fun _ _ => True) ReadRefused t := by
  induction n generalizing i cdata t with
  | zero => exact (EStateM.wp_pure _).2 trivial
  | succ n ih =>
    simp only [readChangeEntries, EStateM.wp_bind, EStateM.wp_get, EStateM.wp_modify,
      EStateM.wp_require]
    split_ifs
    · exact ih (i + 1)
    · exact readRefused_length
    · exact readRefused_length

theorem wp_readChangeInfoV1_refused :
    (readChangeInfoV1 cdata).wp (fun _ _ => True) ReadRefused t := by
  simp only [readChangeInfoV1, EStateM.wp_bind, EStateM.wp_modify, EStateM.wp_require]
  split_ifs
  · exact wp_readChangeEntries_refused _ _
  · exact readRefused_length
  · exact readRefused_length

theorem wp_readChangeInfoOldProtocol_refused (changeByte : ℕ) :
    (readChangeInfoOldProtocol changeByte cdata).wp (fun _ _ => True) ReadRefused t := by
  simp only [readChangeInfoOldProtocol, EStateM.wp_bind, EStateM.wp_get, EStateM.wp_modify,
    EStateM.wp_require, EStateM.wp_pure]
  split_ifs
  all_goals exact readRefused_length

theorem wp_readChangeInfo_refused :
    (readChangeInfo cdata).wp (fun _ _ => True) ReadRefused t := by
  simp only [readChangeInfo, EStateM.wp_bind, EStateM.wp_require, EStateM.wp_ite,
    EStateM.wp_modify, EStateM.wp_pure, EStateM.wp_throw]
  split_ifs
  · exact wp_readChangeInfoOldProtocol_refused _
  · exact wp_readChangeInfoV1_refused
  · exact .inr rfl
  · exact readRefused_length

/-! ### A header that is cut short -/

/-- The bytes do not suffice for a header, so no outputs are announced. -/
theorem wp_readTxData_short {Q : Buffer → TxInfo → Prop} (hwf : cdata.Wf)
    (hshort : cdata.rest.length < 5) (htokens : t.remainingTokens = 0)
    (hinputs : t.remainingInputs = 0) (houtputs : t.outputsLen = 0) :
    (readTxData cdata).wp Q (fun sw t' => sw = Sw.wrongDataLength ∧
      ∃ version, ∃ tokens inputs : UInt8, t' = { t with
        txVersion := version
        remainingTokens := tokens.toNat
        remainingInputs := inputs.toNat
        outputsLen := 0 }) t := by
  obtain ⟨⟩ := t
  dsimp only at htokens hinputs houtputs
  subst htokens hinputs houtputs
  simp only [readTxData, EStateM.wp_bind, EStateM.wp_modify, EStateM.wp_require]
  rcases Nat.lt_or_ge cdata.rest.length 2 with hlen | hlen
  · rw [show cdata.readU16 .be = (false, 0, cdata) from hwf.readUint_short hlen]
    exact ⟨trivial, 0, 0, 0, rfl⟩
  rw [hwf.readU16_eq hlen]
  have hwf₂ := hwf.advance hlen
  have hlen₂ : (cdata.advance 2).rest.length = cdata.rest.length - 2 := by
    rw [Buffer.rest_advance, List.length_drop]
  cases htokens : (cdata.advance 2).rest with
  | nil =>
    rw [hwf₂.readU8_nil htokens]
    exact ⟨trivial, _, 0, 0, rfl⟩
  | cons tokens rest₂ =>
    rw [hwf₂.readU8_cons htokens]
    have hwf₃ := hwf₂.advance (n := 1) (by simp [htokens])
    have hrest₃ : ((cdata.advance 2).advance 1).rest = rest₂ := by
      rw [Buffer.rest_advance, htokens]
      rfl
    cases hinputs : rest₂ with
    | nil =>
      rw [hwf₃.readU8_nil (hrest₃.trans hinputs)]
      exact ⟨trivial, _, tokens, 0, rfl⟩
    | cons inputs rest₃ =>
      rw [hwf₃.readU8_cons (hrest₃.trans hinputs)]
      have hwf₄ := hwf₃.advance (n := 1) (by simp [hrest₃, hinputs])
      have hrest₄ : (((cdata.advance 2).advance 1).advance 1).rest = [] := by
        rw [htokens, hinputs, List.length_cons, List.length_cons] at hlen₂
        rw [Buffer.rest_advance, hrest₃, hinputs, List.drop_one, List.tail_cons]
        exact List.length_eq_zero_iff.1 (by omega)
      rw [hwf₄.readU8_nil hrest₄]
      exact ⟨trivial, _, tokens, inputs, rfl⟩

/-! ### What a first chunk announces -/

/-- The readers of a first chunk, with the hash of what is behind the change information. -/
def readFirstChunk (data : Bytes) : EStateM ℕ TxInfo Buffer := do
  let cdata ← readChangeInfo (.ofBytes data)
  modify fun t => { t with sha256 := t.sha256.update cdata.rest }
  readTxData cdata

/-- The record of a new transaction after the readers of a first chunk, also where they fail. -/
def announced (data : Bytes) : TxInfo :=
  match (readFirstChunk data).run { sha256 := .fed [] } with
  | .ok _ t | .error _ t => t

variable {data : Bytes} {sw : ℕ}

theorem announced_of_ok (h : (readFirstChunk data).run { sha256 := .fed [] } = .ok cdata t) :
    announced data = t := by
  rw [announced, h]

theorem announced_of_error (h : (readFirstChunk data).run { sha256 := .fed [] } = .error sw t) :
    announced data = t := by
  rw [announced, h]

/-- The change information cannot be read. -/
theorem readFirstChunk_of_changes_error
    (h : (readChangeInfo (.ofBytes data)).run { sha256 := .fed [] } = .error sw t) :
    (readFirstChunk data).run { sha256 := .fed [] } = .error sw t := by
  simp only [readFirstChunk, EStateM.run, bind, EStateM.bind] at h ⊢
  rw [h]

/-- The change information can be read, and the header decides. -/
theorem readFirstChunk_of_changes_ok
    (h : (readChangeInfo (.ofBytes data)).run { sha256 := .fed [] } = .ok cdata t) :
    (readFirstChunk data).run { sha256 := .fed [] } =
      (readTxData cdata).run { t with sha256 := t.sha256.update cdata.rest } := by
  simp only [readFirstChunk, EStateM.run, bind, EStateM.bind] at h ⊢
  rw [h]
  rfl

/-- If the header behind the change information is complete, the chunk can be read. -/
theorem readFirstChunk_of_header {h : Header} {rest : Bytes} {changeLen : ℕ}
    {changeInfo : List ChangeOutputInfo} (hdata : data.length ≤ 255)
    (hchanges : (readChangeInfo (.ofBytes data)).run { sha256 := .fed [] } =
      .ok cdata { sha256 := .fed [], changeLen, changeInfo })
    (hread : (announced data).sha256 = .fed (h.bytes ++ rest)) :
    ∃ cdata', (readFirstChunk data).run { sha256 := .fed [] } = .ok cdata' (announced data) ∧
      cdata'.rest = rest := by
  have hdata' : (Buffer.ofBytes data).Wf := Buffer.wf_ofBytes (by rw [sizeMod]; omega)
  have hwf : cdata.Wf := ((EStateM.wp_of_run_ok hchanges).1 (wp_readChangeInfo hdata')).1.wf hdata'
  have hheader := readFirstChunk_of_changes_ok hchanges
  rcases Nat.lt_or_ge cdata.rest.length 5 with hshort | hlong
  · -- the bytes that were hashed are too few for a header
    have hfailed := @wp_readTxData_short _ {
      sha256 := (Sha256Ctx.fed []).update cdata.rest, changeLen, changeInfo } (fun _ _ => False) hwf
      hshort rfl rfl rfl
    rw [EStateM.wp, ← hheader] at hfailed
    cases hrun : (readFirstChunk data).run { sha256 := .fed [] } with
    | ok cdata' t =>
      rw [hrun] at hfailed
      exact hfailed.elim
    | error sw t =>
      rw [hrun] at hfailed
      obtain ⟨-, version, tokens, inputs, rfl⟩ := hfailed
      rw [announced_of_error hrun] at hread
      have hrest : cdata.rest = h.bytes ++ rest := Sha256Ctx.fed.inj hread
      have hlen : h.bytes.length = 5 := rfl
      rw [hrest, List.length_append] at hshort
      omega
  · obtain ⟨header, more, hrest⟩ := exists_header hlong
    have hrun := hheader.trans (run_readTxData hwf hrest)
    rw [announced_of_ok hrun] at hread
    have hfed : cdata.rest = h.bytes ++ rest := Sha256Ctx.fed.inj hread
    refine ⟨cdata.advance 5, ?_, ?_⟩
    · rw [hrun, announced_of_ok hrun]
    · rw [Buffer.rest_advance, hfed]
      rfl

end HathorLedger
