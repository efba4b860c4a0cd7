import HathorLedger.Token.Payload
import HathorLedger.Ui.Display
import Mathlib.Data.List.TakeWhile

/-!
# Printable texts

`is_printable` ends its scan at the first NUL, as it was written for strings, but the symbol and the
name of a token are arrays with a length. What stands behind a NUL in them is not looked at. It is
signed with the token, and the screens do not show it.

## Main definitions

* `AllPrintable`: all bytes of a text are printable.
* `HidesBytes`: a token with a NUL in its symbol or name that `is_printable` lets pass.

## Main results

* `parsesDocumented_iff`: on which data `parse_token` accepts the documented format only.
-/

namespace HathorLedger

/-- All bytes are printable characters of ASCII. -/
def AllPrintable (text : Bytes) : Prop := ∀ c ∈ text, 0x20 ≤ c ∧ c < 0x80

/-- `is_printable` accepts a printable text, and one that is printable up to a NUL. -/
theorem allPrintable_iff (text : Bytes) :
    AllPrintable text ↔ isPrintable text = true ∧ 0 ∉ text := by
  induction text with
  | nil => simp [AllPrintable, isPrintable]
  | cons c text ih =>
    rw [AllPrintable, List.forall_mem_cons, ← AllPrintable, ih, isPrintable, List.mem_cons, not_or]
    by_cases hzero : c = 0
    · subst hzero
      simp
    · rw [if_neg hzero]
      split_ifs with hrange
      · refine iff_of_false (fun h => ?_) (by simp)
        rcases hrange with hlow | hhigh
        · exact absurd h.1.1 (UInt8.not_le.2 hlow)
        · exact absurd h.1.2 (UInt8.not_lt.2 hhigh)
      · rw [not_or, UInt8.not_lt, UInt8.not_le] at hrange
        exact ⟨fun h => ⟨h.2.1, Ne.symm hzero, h.2.2⟩, fun h => ⟨hrange, h.1, h.2.2⟩⟩

/-- A text in front of a NUL is displayed whole if it contains no NUL. -/
theorem cstr_append_nul_iff (text : Bytes) : cstr (text ++ [0]) = text ↔ 0 ∉ text := by
  constructor
  · intro h hmem
    have hfront : 0 ∈ cstr (text ++ [0]) := by rwa [h]
    simpa using List.mem_takeWhile_imp hfront
  · intro h
    exact cstr_append_nul fun c hc hzero => h (hzero ▸ hc)

/-! ### Documented tokens -/

/-- The record holds the fields. -/
structure TokenFields.StoredIn (f : TokenFields) (t : Token) : Prop where
  version_eq : t.version = f.version
  uid_eq : t.uid = f.uid
  symbolLen_eq : t.symbolLen = f.symbol.length
  symbolBytes_eq : t.symbolBytes = f.symbol
  nameLen_eq : t.nameLen = f.name.length
  nameBytes_eq : t.nameBytes = f.name

/-- `parse_token` accepts exactly the documented format, with printable texts. It stores the fields
and leaves the cursor behind the name, and the screens show the texts whole. -/
structure ParsesDocumented (buf : Buffer) (t : Token) : Prop where
  accepts_iff : (parseToken buf t).1 = true ↔
    ∃ (f : TokenFields) (rest : Bytes), buf.rest = f.bytes ++ rest ∧ AllPrintable f.symbol ∧
      AllPrintable f.name
  stored : (parseToken buf t).1 = true →
    ∃ f : TokenFields, buf.rest = f.bytes ++ (parseToken buf t).2.2.rest ∧ AllPrintable f.symbol ∧
      AllPrintable f.name ∧ f.StoredIn (parseToken buf t).2.1
  shown : (parseToken buf t).1 = true → ∀ ui : Ui,
    cstr (tokenUi (parseToken buf t).2.1 ui).tokenSymbol = (parseToken buf t).2.1.symbolBytes ∧
      cstr (tokenUi (parseToken buf t).2.1 ui).tokenName = (parseToken buf t).2.1.nameBytes

/-- The data is that of a token whose symbol or name contains a NUL, and `is_printable` accepts
both. -/
def HidesBytes (data : Bytes) : Prop :=
  ∃ (f : TokenFields) (rest : Bytes), data = f.bytes ++ rest ∧ isPrintable f.symbol = true ∧
    isPrintable f.name = true ∧ (0 ∈ f.symbol ∨ 0 ∈ f.name)

theorem TokenFields.storedIn_token (f : TokenFields) {t : Token} (h : t.uid.length = tokenUidLen) :
    f.StoredIn (f.token t) :=
  ⟨rfl, f.uid_token h, rfl, f.symbolBytes_token, rfl, f.nameBytes_token⟩

/-- `parse_token` accepts the documented format only, except for tokens that hide bytes behind a
NUL. -/
theorem parsesDocumented_iff (buf : Buffer) (t : Token) (hbuf : buf.Wf)
    (ht : t.uid.length = tokenUidLen) : ParsesDocumented buf t ↔ ¬HidesBytes buf.rest := by
  constructor
  · rintro h ⟨f, rest, hrest, hsymbol, hname, hnul⟩
    obtain ⟨buf', hparse, -, -⟩ := parseToken_of_fields hbuf hrest hsymbol hname t
    obtain ⟨f', -, hsymbol', hname', hstored⟩ := h.stored (by rw [hparse])
    rw [hparse] at hstored
    have hsymbol_eq : f'.symbol = f.symbol :=
      hstored.symbolBytes_eq.symm.trans f.symbolBytes_token
    have hname_eq : f'.name = f.name := hstored.nameBytes_eq.symm.trans f.nameBytes_token
    rw [hsymbol_eq, allPrintable_iff] at hsymbol'
    rw [hname_eq, allPrintable_iff] at hname'
    exact hnul.elim hsymbol'.2 hname'.2
  · intro h
    have hparsed : (parseToken buf t).1 = true →
        ∃ f : TokenFields, buf.rest = f.bytes ++ (parseToken buf t).2.2.rest ∧
          AllPrintable f.symbol ∧ AllPrintable f.name ∧ (parseToken buf t).2.1 = f.token t := by
      intro hok
      obtain ⟨f, hrest, hsymbol, hname, hf, -⟩ := fields_of_parseToken hbuf
        (show parseToken buf t = (true, _, _) from Prod.ext hok rfl)
      have hclean : 0 ∉ f.symbol ∧ 0 ∉ f.name := by
        rw [← not_or]
        exact fun hnul => h ⟨f, _, hrest, hsymbol, hname, hnul⟩
      exact ⟨f, hrest, (allPrintable_iff _).2 ⟨hsymbol, hclean.1⟩,
        (allPrintable_iff _).2 ⟨hname, hclean.2⟩, hf⟩
    refine ⟨⟨fun hok => ?_, ?_⟩, fun hok => ?_, fun hok ui => ?_⟩
    · obtain ⟨f, hrest, hsymbol, hname, -⟩ := hparsed hok
      exact ⟨f, _, hrest, hsymbol, hname⟩
    · rintro ⟨f, rest, hrest, hsymbol, hname⟩
      obtain ⟨buf', hparse, -, -⟩ := parseToken_of_fields hbuf hrest
        ((allPrintable_iff _).1 hsymbol).1 ((allPrintable_iff _).1 hname).1 t
      rw [hparse]
    · obtain ⟨f, hrest, hsymbol, hname, hf⟩ := hparsed hok
      exact ⟨f, hrest, hsymbol, hname, hf ▸ f.storedIn_token ht⟩
    · obtain ⟨f, -, hsymbol, hname, hf⟩ := hparsed hok
      rw [hf, tokenUi, f.symbolBytes_token, f.nameBytes_token, cstr_append_nul_iff,
        cstr_append_nul_iff]
      exact ⟨((allPrintable_iff _).1 hsymbol).2, ((allPrintable_iff _).1 hname).2⟩

/-- The data of a token with the symbol `A` and the name `B`. -/
theorem parsesDocumented_iff_sample :
    ParsesDocumented (.ofBytes (sampleTokenData [0x41] [0x42])) {} := by
  have hwf : (Buffer.ofBytes (sampleTokenData [0x41] [0x42])).Wf := Buffer.wf_ofBytes (by decide)
  refine (parsesDocumented_iff _ {} hwf (List.length_replicate ..)).2 ?_
  rintro ⟨f, rest, hrest, hsymbol, hname, hnul⟩
  obtain ⟨buf', hparse, -, -⟩ := parseToken_of_fields hwf hrest hsymbol hname {}
  have htoken := congrArg (fun result => result.2.1) hparse
  have hsymbol' : [0x41] = f.symbol := (congrArg Token.symbolBytes htoken).trans f.symbolBytes_token
  have hname' : [0x42] = f.name := (congrArg Token.nameBytes htoken).trans f.nameBytes_token
  rw [← hsymbol', ← hname'] at hnul
  exact absurd hnul (by decide)

/-- The data of a token whose symbol has a NUL between two letters. -/
theorem parseToken_accepts_nul : ¬∀ (buf : Buffer) (t : Token), buf.Wf →
    t.uid.length = tokenUidLen → ParsesDocumented buf t := by
  intro h
  have hsample := h (.ofBytes (sampleTokenData [0x41, 0, 0x42] [0x43])) {}
    (Buffer.wf_ofBytes (by decide)) (List.length_replicate ..)
  have hshown := (hsample.shown (by decide) {}).1
  revert hshown
  decide

end HathorLedger
