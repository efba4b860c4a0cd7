import HathorLedger.Common.Bip32
import HathorLedger.Handler.SignTx
import HathorLedger.Library.WeakestPrecondition

/-!
# The change information of a first chunk

A first chunk starts with the change entries. Version 1 of the protocol sends their number and then
each entry as an index byte and a path. The old protocol sends one entry, with the length of the
path in the lower half of the first byte.

The readers are exact: they accept the serialised lists of at most `TX_MAX_TOKENS + 1` entries and
nothing else, and leave the cursor on the byte behind. Both protocols read an entry in the same way,
although the old one goes through a copy of its path in an array of fixed size.

## Main definitions

* `ChangeEntry`, `changeInfoBytes`: change entries and the serialisation of version 1.
* `ChangeEntry.StoredIn`: a cell of `change_info` holds the entry.
* `TxInfo.ChangeCells`: the sizes of `change_info` and of the paths in it.

## Main results

* `readChangeEntries_entries`, `entries_of_readChangeEntries`: what the loop of
  `read_change_info_v1` reads.
* `changeInfo_codec`: the reader and the serialisation of version 1 are inverse to each other.
* `protocols_agree`: the old protocol reads what version 1 reads.
-/

namespace HathorLedger

open EStateM (wp_mono exists_run_of_wp)

/-! ### Change entries -/

/-- A change entry as it is sent. -/
structure ChangeEntry where
  index : UInt8
  path : WirePath

/-- The serialised entry. -/
def ChangeEntry.bytes (e : ChangeEntry) : Bytes := e.index :: e.path.bytes

/-- Version 1 of the change information: the version, the number of entries and the entries. -/
def changeInfoBytes (entries : List ChangeEntry) : Bytes :=
  1 :: UInt8.ofNat entries.length :: entries.flatMap ChangeEntry.bytes

/-- The cell holds the entry. -/
structure ChangeEntry.StoredIn (e : ChangeEntry) (info : ChangeOutputInfo) : Prop where
  index_eq : info.index = e.index.toNat
  path : e.path.StoredIn info.path

/-- Every path has its five cells. -/
def PathCells (infos : List ChangeOutputInfo) : Prop :=
  ∀ info ∈ infos, info.path.path.length = maxBip32Path

/-- The array `change_info` has its eleven cells, with five cells for each path. -/
structure TxInfo.ChangeCells (t : TxInfo) : Prop where
  length_changeInfo : t.changeInfo.length = 1 + txMaxTokens
  pathCells : PathCells t.changeInfo

/-- The cell with the entry written to it. -/
def ChangeEntry.store (e : ChangeEntry) (info : ChangeOutputInfo) : ChangeOutputInfo where
  index := e.index.toNat
  path := e.path.store info.path

/-- The cells with the entries written to them from cell `i` on. -/
def storeEntries : ℕ → List ChangeEntry → List ChangeOutputInfo → List ChangeOutputInfo
  | _, [], infos => infos
  | i, e :: entries, infos => storeEntries (i + 1) entries (infos.set i (e.store (infos.getD i {})))

section Cells

variable {infos : List ChangeOutputInfo} {i : ℕ}

theorem PathCells.getD (h : PathCells infos) (i : ℕ) :
    (infos.getD i {}).path.path.length = maxBip32Path := by
  rw [List.getD_eq_getElem?_getD]
  cases hi : infos[i]? with
  | none => rfl
  | some info => exact h info (List.mem_of_getElem? hi)

theorem PathCells.set (h : PathCells infos) {info : ChangeOutputInfo}
    (hinfo : info.path.path.length = maxBip32Path) : PathCells (infos.set i info) := by
  intro other hother
  rcases List.mem_or_eq_of_mem_set hother with hmem | rfl
  · exact h other hmem
  · exact hinfo

theorem PathCells.set_store (h : PathCells infos) (e : ChangeEntry) :
    PathCells (infos.set i (e.store (infos.getD i {}))) :=
  h.set (e.path.length_path_store (h.getD i))

/-- The entries stand in the cells behind those that were there. -/
theorem exists_take_storeEntries {entries : List ChangeEntry} (h : PathCells infos)
    (hi : i + entries.length ≤ infos.length) :
    ∃ stored, (storeEntries i entries infos).take (i + entries.length) = infos.take i ++ stored ∧
      List.Forall₂ ChangeEntry.StoredIn entries stored := by
  induction entries generalizing i infos with
  | nil => exact ⟨[], by rw [List.append_nil]; rfl, .nil⟩
  | cons e entries ih =>
    rw [List.length_cons] at hi ⊢
    obtain ⟨stored, htake, hstored⟩ := ih (i := i + 1) (h.set_store (i := i) e)
      (by rw [List.length_set]; omega)
    have hcell : e.StoredIn (e.store (infos.getD i {})) :=
      ⟨rfl, e.path.storedIn_store (h.getD i)⟩
    have hset : (infos.set i (e.store (infos.getD i {}))).take (i + 1) =
        infos.take i ++ [e.store (infos.getD i {})] := by
      rw [List.take_add_one, List.take_set_of_le le_rfl, List.getElem?_set_self (by omega)]
      rfl
    rw [hset, List.append_assoc] at htake
    refine ⟨e.store (infos.getD i {}) :: stored, ?_, .cons hcell hstored⟩
    rw [← Nat.add_assoc, Nat.add_right_comm]
    exact htake

/-- The entries that are written from the first cell on can be read there. -/
theorem TxInfo.ChangeCells.storedIn {t : TxInfo} (ht : t.ChangeCells) {entries : List ChangeEntry}
    (hlen : entries.length ≤ txMaxTokens + 1) :
    List.Forall₂ ChangeEntry.StoredIn entries
      ((storeEntries 0 entries t.changeInfo).take entries.length) := by
  have hcells := ht.length_changeInfo
  obtain ⟨stored, htake, hstored⟩ :=
    @exists_take_storeEntries t.changeInfo 0 entries ht.pathCells (by omega)
  rw [Nat.zero_add, List.take_zero, List.nil_append] at htake
  rwa [htake]

end Cells

/-! ### The loop of version 1 -/

section Entries

variable {cdata : Buffer} {t : TxInfo} {i n : ℕ}

/-- The loop reads entries that are there. -/
theorem readChangeEntries_entries {entries : List ChangeEntry} {more : Bytes} (h : cdata.Wf)
    (ht : PathCells t.changeInfo) (hr : cdata.rest = entries.flatMap ChangeEntry.bytes ++ more) :
    (readChangeEntries entries.length i cdata).wp
      (fun cdata' t' => cdata'.rest = more ∧
        t' = { t with changeInfo := storeEntries i entries t.changeInfo })
      (fun _ _ => False) t := by
  induction entries generalizing cdata t i with
  | nil => exact (EStateM.wp_pure _).2 ⟨hr, rfl⟩
  | cons e entries ih =>
    rw [List.flatMap_cons, ChangeEntry.bytes, List.append_assoc, List.cons_append] at hr
    obtain ⟨b₁, hindex, hr₁, h₁⟩ := h.exists_readU8 hr
    have hpath := h₁.readBip32Path_wire hr₁ (ht.getD i)
    have hlen : e.path.bytes.length ≤ b₁.rest.length := by simp [hr₁]
    have hnext := @ih (b₁.advance e.path.bytes.length)
      { t with changeInfo := t.changeInfo.set i (e.store (t.changeInfo.getD i {})) } (i + 1)
      (h₁.advance hlen) (ht.set_store e) (by rw [Buffer.rest_advance, hr₁, List.drop_left])
    rw [List.length_cons, readChangeEntries]
    simp only [EStateM.wp_bind, EStateM.wp_get, EStateM.wp_modify, EStateM.wp_require, hindex,
      hpath, if_true, List.set_set]
    exact hnext

/-- What the loop has read is a list of entries. -/
theorem entries_of_readChangeEntries (h : cdata.Wf) (ht : PathCells t.changeInfo) :
    (readChangeEntries n i cdata).wp
      (fun cdata' _ => ∃ entries : List ChangeEntry, entries.length = n ∧
        cdata.rest = entries.flatMap ChangeEntry.bytes ++ cdata'.rest)
      (fun _ _ => True) t := by
  induction n generalizing cdata t i with
  | zero => exact (EStateM.wp_pure _).2 ⟨[], rfl, rfl⟩
  | succ n ih =>
    rw [readChangeEntries]
    simp only [EStateM.wp_bind, EStateM.wp_get, EStateM.wp_modify, EStateM.wp_require,
      List.set_set]
    cases hindex : cdata.readU8 with
    | mk complete read =>
      obtain ⟨index, b₁⟩ := read
      cases complete with
      | false => trivial
      | true =>
        obtain ⟨x, hr, rfl, h₁⟩ := h.of_readU8 hindex
        rw [if_pos rfl]
        cases hpath : b₁.readBip32Path (t.changeInfo.getD i {}).path with
        | mk accepted read =>
          obtain ⟨path, b₂⟩ := read
          cases accepted with
          | false => trivial
          | true =>
            obtain ⟨p, hr₁⟩ := h₁.exists_wirePath (ht.getD i) hpath
            rw [h₁.readBip32Path_wire hr₁ (ht.getD i)] at hpath
            obtain ⟨-, rfl, rfl⟩ := Prod.mk.injEq .. ▸ hpath
            have hlen : p.bytes.length ≤ b₁.rest.length := by simp [hr₁]
            rw [if_pos rfl]
            refine wp_mono (fun cdata' _ hread => ?_) (fun _ _ _ => trivial)
              (ih (h₁.advance hlen) (ht.set_store (i := i) ⟨x, p⟩))
            obtain ⟨entries, hlength, hrest⟩ := hread
            refine ⟨⟨x, p⟩ :: entries, by rw [List.length_cons, hlength], ?_⟩
            rw [hr, hr₁, hrest, List.flatMap_cons, List.append_assoc]
            rfl

theorem readChangeInfo_version {rest : Bytes} (h : cdata.Wf) (hr : cdata.rest = 1 :: rest) :
    readChangeInfo cdata = readChangeInfoV1 (cdata.advance 1) := by
  rw [readChangeInfo, h.readU8_cons hr]
  rfl

/-- The reader of version 1 accepts the number of entries and the entries. -/
theorem readChangeInfo_entries {entries : List ChangeEntry} {more : Bytes} (h : cdata.Wf)
    (ht : t.ChangeCells) (hlen : entries.length ≤ txMaxTokens + 1)
    (hr : cdata.rest = changeInfoBytes entries ++ more) :
    (readChangeInfo cdata).wp
      (fun cdata' t' => cdata'.rest = more ∧ t' = { t with
        changeLen := entries.length
        changeInfo := storeEntries 0 entries t.changeInfo })
      (fun _ _ => False) t := by
  have h₁ : (cdata.advance 1).Wf := h.advance (by simp [hr, changeInfoBytes])
  have hr₁ : (cdata.advance 1).rest =
      UInt8.ofNat entries.length :: (entries.flatMap ChangeEntry.bytes ++ more) := by
    rw [Buffer.rest_advance, hr]
    rfl
  obtain ⟨b₂, hcount, hr₂, h₂⟩ := h₁.exists_readU8 hr₁
  rw [UInt8.toNat_ofNat_of_lt' (hlen.trans_lt (by decide))] at hcount
  have hloop := readChangeEntries_entries (i := 0)
    (t := { t with changeLen := entries.length }) h₂ ht.pathCells hr₂
  rw [readChangeInfo_version h hr, readChangeInfoV1, hcount]
  simpa [hlen] using hloop

/-- What the reader of version 1 has accepted. -/
theorem entries_of_readChangeInfo {rest : Bytes} (h : cdata.Wf) (ht : t.ChangeCells)
    (hr : cdata.rest = 1 :: rest) :
    (readChangeInfo cdata).wp
      (fun cdata' _ => ∃ entries : List ChangeEntry, entries.length ≤ txMaxTokens + 1 ∧
        cdata.rest = changeInfoBytes entries ++ cdata'.rest)
      (fun _ _ => True) t := by
  have h₁ : (cdata.advance 1).Wf := h.advance (by simp [hr])
  rw [readChangeInfo_version h hr, readChangeInfoV1]
  cases hcount : (cdata.advance 1).readU8 with
  | mk complete read =>
    obtain ⟨changeLen, b₂⟩ := read
    cases complete with
    | false => simp
    | true =>
      obtain ⟨x, hr₂, rfl, h₂⟩ := h₁.of_readU8 hcount
      by_cases hle : x.toNat ≤ txMaxTokens + 1
      · suffices (readChangeEntries x.toNat 0 b₂).wp
            (fun cdata' _ => ∃ entries : List ChangeEntry, entries.length ≤ txMaxTokens + 1 ∧
              cdata.rest = changeInfoBytes entries ++ cdata'.rest)
            (fun _ _ => True) { t with changeLen := x.toNat } by simpa [hle] using this
        refine wp_mono (fun cdata' _ hread => ?_) (fun _ _ _ => trivial)
          (entries_of_readChangeEntries h₂ ht.pathCells)
        obtain ⟨entries, hlength, hrest⟩ := hread
        refine ⟨entries, hlength.trans_le hle, ?_⟩
        rw [Buffer.rest_advance, hr] at hr₂
        rw [hr, changeInfoBytes, hlength, UInt8.ofNat_toNat, List.cons_append, List.cons_append,
          ← hrest, ← hr₂]
        rfl
      · simp [hle]

end Entries

/-! ### The codec of version 1 -/

/-- **The version-1 change information codec is exact.** The reader accepts the serialisation of
every list of at most eleven change entries, whatever follows it, stores the list and leaves the
cursor behind it. What it accepts with the version byte 1 is such a serialisation. -/
theorem changeInfo_codec {cdata : Buffer} {t : TxInfo} (h : cdata.Wf) (ht : t.ChangeCells) :
    (∀ (entries : List ChangeEntry) (more : Bytes), entries.length ≤ txMaxTokens + 1 →
      cdata.rest = changeInfoBytes entries ++ more →
      ∃ cdata' t', (readChangeInfo cdata).run t = .ok cdata' t' ∧ cdata'.rest = more ∧
        t'.changeLen = entries.length ∧
        List.Forall₂ ChangeEntry.StoredIn entries t'.changeEntries) ∧
    ∀ cdata' t', (readChangeInfo cdata).run t = .ok cdata' t' → cdata.rest.head? = some 1 →
      ∃ entries : List ChangeEntry, entries.length ≤ txMaxTokens + 1 ∧
        cdata.rest = changeInfoBytes entries ++ cdata'.rest ∧ t'.changeLen = entries.length ∧
        List.Forall₂ ChangeEntry.StoredIn entries t'.changeEntries := by
  have hforward : ∀ (entries : List ChangeEntry) (more : Bytes), entries.length ≤ txMaxTokens + 1 →
      cdata.rest = changeInfoBytes entries ++ more →
      ∃ cdata' t', (readChangeInfo cdata).run t = .ok cdata' t' ∧ cdata'.rest = more ∧
        t'.changeLen = entries.length ∧
        List.Forall₂ ChangeEntry.StoredIn entries t'.changeEntries := by
    intro entries more hlen hr
    obtain ⟨cdata', t', hrun, hmore, rfl⟩ := exists_run_of_wp (readChangeInfo_entries h ht hlen hr)
    exact ⟨cdata', _, hrun, hmore, rfl, ht.storedIn hlen⟩
  refine ⟨hforward, fun cdata' t' hrun hhead => ?_⟩
  obtain ⟨rest, hr⟩ := List.head?_eq_some_iff.1 hhead
  obtain ⟨entries, hlen, hentries⟩ :=
    (EStateM.wp_of_run_ok hrun).1 (entries_of_readChangeInfo h ht hr)
  -- the list that was accepted is read back by the first part
  obtain ⟨_, _, hagain, -, hcount, hall⟩ := hforward entries _ hlen hentries
  obtain ⟨-, rfl⟩ := EStateM.Result.ok.inj (hrun.symm.trans hagain)
  exact ⟨entries, hlen, hentries, hcount, hall⟩

/-- One entry with a path of two components, and its serialisation followed by two bytes. -/
def sampleEntry : ChangeEntry where
  index := 3
  path := ⟨[44, 280], by decide, by decide, nofun, nofun⟩

theorem changeInfo_codec_sample :
    ∃ cdata' t', (readChangeInfo (.ofBytes [1, 1, 3, 2, 0, 0, 0, 44, 0, 0, 1, 24, 7, 8])).run {} =
      .ok cdata' t' ∧ cdata'.rest = [7, 8] ∧ t'.changeLen = 1 ∧
      List.Forall₂ ChangeEntry.StoredIn [sampleEntry] t'.changeEntries :=
  (changeInfo_codec (Buffer.wf_ofBytes (by decide)) ⟨by decide, by unfold PathCells; decide⟩).1
    [sampleEntry] [7, 8] (by decide) (by decide)

/-! ### The old protocol -/

/-- What one entry does to the record, given the length of its path, its index and the bytes behind:
`none` where the path is too long, cut off or out of range. -/
def readEntry (n i : UInt8) (tail : Bytes) (t : TxInfo) : Option TxInfo :=
  let path := (t.changeInfo.getD 0 {}).path.written n.toNat tail
  if (n.toNat ≤ maxBip32Path ∧ 4 * n.toNat ≤ tail.length) ∧ path.InRange then
    some { t with changeLen := 1, changeInfo := t.changeInfo.set 0 { index := i.toNat, path } }
  else none

/-- Both readers succeed with one entry, the same record and the same unread part of `tail`, or both
throw the same status word. -/
def SameOutcome (tail : Bytes) :
    EStateM.Result ℕ TxInfo Buffer → EStateM.Result ℕ TxInfo Buffer → Prop
  | .ok b t, .ok b' t' => t = t' ∧ t.changeLen = 1 ∧ b.rest = b'.rest ∧ b.rest <:+ tail
  | .error sw _, .error sw' _ => sw = sw'
  | _, _ => False

section OldProtocol

variable {cdata : Buffer} {n i : UInt8} {tail : Bytes}

theorem changeLen_of_readEntry {t t' : TxInfo} (h : readEntry n i tail t = some t') :
    t'.changeLen = 1 := by
  rw [readEntry] at h
  split_ifs at h
  rw [← Option.some.inj h]

theorem wp_readChangeInfo_new (h : cdata.Wf) (hr : cdata.rest = 1 :: 1 :: i :: n :: tail)
    (t : TxInfo) :
    (readChangeInfo cdata).wp
      (fun b t' => readEntry n i tail t = some t' ∧ b.rest = tail.drop (4 * n.toNat))
      (fun sw _ => readEntry n i tail t = none ∧ sw = Sw.wrongDataLength) t := by
  have h₁ : (cdata.advance 1).Wf := h.advance (by simp [hr])
  have hr₁ : (cdata.advance 1).rest = 1 :: i :: n :: tail := by
    rw [Buffer.rest_advance, hr]
    rfl
  obtain ⟨b₂, hcount, hr₂, h₂⟩ := h₁.exists_readU8 hr₁
  obtain ⟨b₃, hindex, hr₃, h₃⟩ := h₂.exists_readU8 hr₂
  have hpath := h₃.readBip32Path_cons hr₃ (t.changeInfo.getD 0 {}).path
  have hrest : (b₃.advance (1 + 4 * n.toNat)).rest = tail.drop (4 * n.toNat) := by
    rw [Buffer.rest_advance, hr₃, Nat.add_comm, List.drop_succ_cons]
  rw [readChangeInfo_version h hr, readChangeInfoV1, hcount]
  simp only [EStateM.wp_bind, EStateM.wp_modify, EStateM.wp_require, if_true]
  rw [if_pos (by decide), show (1 : UInt8).toNat = 1 from rfl, readChangeEntries]
  simp only [EStateM.wp_bind, EStateM.wp_get, EStateM.wp_modify, EStateM.wp_require, hindex,
    List.set_set, if_true]
  by_cases hshort : n.toNat > maxBip32Path ∨ 4 * n.toNat > tail.length
  · rw [hpath, if_pos hshort]
    exact ⟨if_neg (by omega), trivial⟩
  · rw [if_neg hshort] at hpath
    by_cases hrange : ((t.changeInfo.getD 0 {}).path.written n.toNat tail).InRange
    · rw [hpath, if_pos hrange]
      exact (EStateM.wp_pure _).2 ⟨if_pos ⟨by omega, hrange⟩, hrest⟩
    · rw [hpath, if_neg hrange]
      exact ⟨if_neg fun hentry => hrange hentry.2, trivial⟩

/-- The copy of an encoded path in the array of the old protocol. -/
def scratch (n : ℕ) (bytes : Bytes) : Buffer where
  ptr := memmove (UInt8.ofNat n :: List.replicate (4 * maxBip32Path) 0) 1 (bytes.take (4 * n))
  size := 1 + 4 * maxBip32Path
  offset := 0

/-- Reading the copy is reading the encoded path. -/
theorem readBip32Path_scratch {n : ℕ} {bytes : Bytes} (hn : n ≤ maxBip32Path)
    (hlen : 4 * n ≤ bytes.length) (out : Bip32Path) :
    ∃ b, (scratch n bytes).readBip32Path out =
      (decide (out.written n bytes).InRange, out.written n bytes, b) := by
  have htake : (bytes.take (4 * n)).length = 4 * n := List.length_take_of_le hlen
  have hptr : (scratch n bytes).ptr =
      UInt8.ofNat n :: (bytes.take (4 * n) ++ List.replicate (4 * maxBip32Path - 4 * n) 0) := by
    rw [scratch, memmove, htake, List.take_succ_cons, List.take_zero, Nat.add_comm 1,
      List.drop_succ_cons, List.drop_replicate]
    rfl
  have hlength : (scratch n bytes).ptr.length = 1 + 4 * maxBip32Path := by
    rw [hptr, List.length_cons, List.length_append, List.length_replicate, htake]
    omega
  have hwf : (scratch n bytes).Wf :=
    ⟨hlength.ge, Nat.zero_le _, show 1 + 4 * maxBip32Path < sizeMod by decide⟩
  have hrest : (scratch n bytes).rest = (scratch n bytes).ptr := by
    rw [Buffer.rest, show (scratch n bytes).size = _ from hlength.symm, List.take_length]
    rfl
  have hnum : (UInt8.ofNat n).toNat = n := UInt8.toNat_ofNat_of_lt' (hn.trans_lt (by decide))
  have hwritten : out.written n (bytes.take (4 * n) ++ List.replicate (4 * maxBip32Path - 4 * n) 0) =
      out.written n bytes := by
    refine Bip32Path.written_congr ?_
    rw [List.take_left' htake]
  rw [hwf.readBip32Path_cons (hrest.trans hptr), hnum, hwritten,
    if_neg (by rw [List.length_append, htake]; omega)]
  by_cases hrange : (out.written n bytes).InRange
  · exact ⟨_, by rw [if_pos hrange, decide_eq_true hrange]⟩
  · exact ⟨_, by rw [if_neg hrange, decide_eq_false hrange]⟩

theorem wp_readChangeInfo_old (h : cdata.Wf) (hn : n < 16)
    (hr : cdata.rest = (0x80 ||| n) :: i :: tail) (t : TxInfo) :
    (readChangeInfo cdata).wp
      (fun b t' => readEntry n i tail t = some t' ∧ b.rest = tail.drop (4 * n.toNat))
      (fun sw _ => readEntry n i tail t = none ∧ sw = Sw.wrongDataLength) t := by
  have hnibble : ((0x80 : UInt8) ||| n).toNat = 128 + n.toNat := by
    have hlt : n.toNat < 2 ^ 7 := (UInt8.lt_iff_toNat_lt.1 hn).trans (by decide)
    rw [UInt8.toNat_or]
    exact (Nat.two_pow_add_eq_or_of_lt hlt 1).symm
  obtain ⟨b₁, hversion, hr₁, h₁⟩ := h.exists_readU8 hr
  obtain ⟨b₂, hindex, hr₂, h₂⟩ := h₁.exists_readU8 hr₁
  rw [hnibble] at hversion
  have hremaining := h₂.remaining
  have hseek := @Buffer.Wf.seekCur_eq b₂ h₂
  have hdrop := @Buffer.Wf.take_drop_ptr b₂ h₂
  rw [hr₂] at hremaining hseek hdrop
  rw [readChangeInfo, hversion]
  simp only [EStateM.wp_bind, EStateM.wp_require, EStateM.wp_ite, if_true]
  rw [if_neg (by omega), if_pos (by omega), readChangeInfoOldProtocol]
  simp only [EStateM.wp_bind, EStateM.wp_get, EStateM.wp_modify, EStateM.wp_require, hindex,
    List.set_set, if_true]
  have hmod : (128 + n.toNat) % 16 = n.toNat := by
    have hlt : n.toNat < 16 := UInt8.lt_iff_toNat_lt.1 hn
    omega
  rw [hmod]
  by_cases hlength : n.toNat ≤ maxBip32Path
  · rw [if_pos (decide_eq_true hlength)]
    by_cases henough : 4 * n.toNat ≤ tail.length
    · rw [hremaining, if_pos (decide_eq_true henough), hdrop henough, hseek henough]
      obtain ⟨b, hpath⟩ := readBip32Path_scratch hlength henough (t.changeInfo.getD 0 {}).path
      rw [scratch] at hpath
      rw [hpath]
      by_cases hrange : ((t.changeInfo.getD 0 {}).path.written n.toNat tail).InRange
      · rw [if_pos (decide_eq_true hrange)]
        refine (EStateM.wp_pure _).2 ⟨if_pos ⟨⟨hlength, henough⟩, hrange⟩, ?_⟩
        rw [Buffer.rest_advance, hr₂]
      · rw [if_neg (by simpa using hrange)]
        exact ⟨if_neg fun hentry => hrange hentry.2, trivial⟩
    · rw [hremaining, if_neg (by simpa using henough)]
      exact ⟨if_neg (by omega), trivial⟩
  · rw [if_neg (by simpa using hlength)]
    exact ⟨if_neg (by omega), trivial⟩

end OldProtocol

/-- **The old and the new change protocol agree.** With the length of the path in the lower half of
the first byte, the old protocol reads the entry that version 1 reads in a list of one, or both
throw. -/
theorem protocols_agree {old new : Buffer} {n i : UInt8} {tail : Bytes} (hold : old.Wf)
    (hnew : new.Wf) (hn : n < 16) (hr : old.rest = (0x80 ||| n) :: i :: tail)
    (hr' : new.rest = 1 :: 1 :: i :: n :: tail) (t : TxInfo) :
    SameOutcome tail ((readChangeInfo old).run t) ((readChangeInfo new).run t) := by
  have hreadOld := wp_readChangeInfo_old hold hn hr t
  have hreadNew := wp_readChangeInfo_new hnew hr' t
  cases hrunOld : (readChangeInfo old).run t with
  | ok b t₁ =>
    obtain ⟨hentry, hrest⟩ := (EStateM.wp_of_run_ok hrunOld).1 hreadOld
    cases hrunNew : (readChangeInfo new).run t with
    | ok b' t₂ =>
      obtain ⟨hentry', hrest'⟩ := (EStateM.wp_of_run_ok hrunNew).1 hreadNew
      obtain rfl := Option.some.inj (hentry.symm.trans hentry')
      refine ⟨rfl, changeLen_of_readEntry hentry, hrest.trans hrest'.symm, ?_⟩
      rw [hrest]
      exact List.drop_suffix _ _
    | error sw t₂ =>
      obtain ⟨hnone, -⟩ := (EStateM.wp_of_run_error hrunNew).1 hreadNew
      cases hentry.symm.trans hnone
  | error sw t₁ =>
    obtain ⟨hnone, hsw⟩ := (EStateM.wp_of_run_error hrunOld).1 hreadOld
    cases hrunNew : (readChangeInfo new).run t with
    | ok b' t₂ =>
      obtain ⟨hentry', -⟩ := (EStateM.wp_of_run_ok hrunNew).1 hreadNew
      cases hnone.symm.trans hentry'
    | error sw' t₂ =>
      obtain ⟨-, hsw'⟩ := (EStateM.wp_of_run_error hrunNew).1 hreadNew
      exact hsw.trans hsw'.symm

theorem protocols_agree_sample :
    SameOutcome [0, 0, 0, 44, 7]
      ((readChangeInfo (.ofBytes [0x81, 3, 0, 0, 0, 44, 7])).run {})
      ((readChangeInfo (.ofBytes [1, 1, 3, 1, 0, 0, 0, 44, 7])).run {}) :=
  protocols_agree (n := 1) (i := 3) (Buffer.wf_ofBytes (by decide)) (Buffer.wf_ofBytes (by decide))
    (by decide) (by decide) (by decide) {}

end HathorLedger
