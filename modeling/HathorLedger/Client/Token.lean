import HathorLedger.Client.Path
import HathorLedger.Token.Printable

/-!
# Tokens in the client

The tokens of the client of the test suite and their serialisation, from `app_client/token.py`. The
lengths in it count the characters of the symbol and of the name, while the texts themselves are sent
in UTF-8.

## Main definitions

* `Token`, `Token.serialize`: a token and what the client sends of it.
* `Token.Spells`: the fields of a token in the terms of the device.

## Main results

* `Token.Spells.serialize`, `Token.spells_of_serialize`: the device reads the fields of the token, or
  nothing.
-/

namespace HathorLedger.Client

/-- `Token`. The hexadecimal text of the UID stands for its bytes. -/
structure Token where
  version : ℤ
  symbol : List Char
  name : List Char
  uid : Bytes
  length_uid : uid.length = tokenUidLen

/-- `str.encode()`: UTF-8. -/
def encode (text : List Char) : Bytes := text.flatMap String.utf8EncodeChar

/-- `Token.serialize`. -/
def Token.serialize (t : Token) (signature : Option Bytes) : Option Bytes := do
  let cdata :=
    (← toBytes t.version 1) ++ t.uid ++ (← toBytes t.symbol.length 1) ++ encode t.symbol ++
      (← toBytes t.name.length 1) ++ encode t.name
  match signature with
  | some signature => return cdata ++ signature
  | none => return cdata

/-! ### Texts -/

/-- A character of ASCII is one byte. -/
theorem utf8EncodeChar_of_lt {c : Char} (h : c.toNat < 0x80) :
    String.utf8EncodeChar c = [UInt8.ofNat c.toNat] := by
  have hle : c.val.toNat ≤ 0x7f := Nat.le_of_lt_succ h
  unfold String.utf8EncodeChar
  dsimp only
  rw [if_pos hle]
  rfl

/-- All other characters start with a byte that is none of ASCII. -/
theorem exists_utf8EncodeChar {c : Char} (h : 0x80 ≤ c.toNat) :
    ∃ b bytes, String.utf8EncodeChar c = b :: bytes ∧ 0x80 ≤ b := by
  have hhigh (n : ℕ) (hle : 0x80 ≤ n) (hlt : n < 256) : (0x80 : UInt8) ≤ UInt8.ofNat n := by
    rw [UInt8.le_iff_toNat_le, UInt8.toNat_ofNat_of_lt' hlt]
    exact hle
  have hascii : ¬c.val.toNat ≤ 0x7f := Nat.not_le_of_lt h
  unfold String.utf8EncodeChar
  dsimp only
  rw [if_neg hascii]
  split_ifs with h₂ h₃
  · exact ⟨_, _, rfl, hhigh _ (by omega) (by omega)⟩
  · exact ⟨_, _, rfl, hhigh _ (by omega) (by omega)⟩
  · exact ⟨_, _, rfl, hhigh _ (by omega) (by omega)⟩

/-- A byte of ASCII is read back from its character. -/
theorem toNat_ofNat_toNat {c : UInt8} (hc : c < 0x80) : (Char.ofNat c.toNat).toNat = c.toNat := by
  rw [UInt8.lt_iff_toNat_lt] at hc
  have hvalid : c.toNat.isValidChar := .inl (hc.trans (by decide))
  rw [Char.ofNat, dif_pos hvalid]
  rfl

/-- The UTF-8 of a text in ASCII is the text. -/
theorem encode_asciiText {text : Bytes} (h : ∀ c ∈ text, c < 0x80) : encode (asciiText text) = text := by
  induction text with
  | nil => rfl
  | cons c text ih =>
    obtain ⟨hc, htext⟩ := List.forall_mem_cons.1 h
    have hnat := toNat_ofNat_toNat hc
    have hbytes : String.utf8EncodeChar (Char.ofNat c.toNat) = [c] := by
      rw [utf8EncodeChar_of_lt (by rw [hnat]; exact UInt8.lt_iff_toNat_lt.1 hc), hnat,
        UInt8.ofNat_toNat]
    change String.utf8EncodeChar (Char.ofNat c.toNat) ++ encode (asciiText text) = c :: text
    rw [hbytes, ih htext, List.singleton_append]

/-- As many bytes in front of a text as it has characters are the characters, if the device finds
them printable. -/
theorem eq_of_encode_append {text : List Char} {s x y : Bytes} (hnul : Char.ofNat 0 ∉ text)
    (hlen : s.length = text.length) (hprintable : isPrintable s = true)
    (h : encode text ++ x = s ++ y) : text = asciiText s ∧ AllPrintable s ∧ x = y := by
  induction text generalizing s with
  | nil =>
    obtain rfl := List.length_eq_zero_iff.1 hlen
    exact ⟨rfl, by simp [AllPrintable], h⟩
  | cons c text ih =>
    obtain ⟨b, s, rfl⟩ := List.exists_cons_of_length_eq_add_one hlen
    obtain ⟨hc, htext⟩ := List.ne_and_not_mem_of_not_mem_cons hnul
    replace h : String.utf8EncodeChar c ++ (encode text ++ x) = b :: (s ++ y) := by
      rw [← List.append_assoc]
      exact h
    rcases Nat.lt_or_ge c.toNat 0x80 with hascii | hhigh
    · rw [utf8EncodeChar_of_lt hascii, List.singleton_append, List.cons.injEq] at h
      obtain ⟨rfl, hrest⟩ := h
      have hnat : (UInt8.ofNat c.toNat).toNat = c.toNat :=
        UInt8.toNat_ofNat_of_lt' (hascii.trans (by decide))
      have hne : UInt8.ofNat c.toNat ≠ 0 := by
        intro hzero
        rw [← UInt8.toNat_inj, hnat] at hzero
        exact hc ((Char.ofNat_toNat c).symm.trans (congrArg Char.ofNat hzero)).symm
      rw [isPrintable, if_neg hne] at hprintable
      split_ifs at hprintable with hrange
      rw [not_or, UInt8.not_lt, UInt8.not_le] at hrange
      obtain ⟨rfl, hall, hxy⟩ := ih htext (Nat.succ.inj hlen) hprintable hrest
      refine ⟨?_, List.forall_mem_cons.2 ⟨hrange, hall⟩, hxy⟩
      change c :: asciiText s = Char.ofNat (UInt8.ofNat c.toNat).toNat :: asciiText s
      rw [hnat, Char.ofNat_toNat]
    · obtain ⟨b', bytes, hbytes, hb⟩ := exists_utf8EncodeChar hhigh
      rw [hbytes, List.cons_append, List.cons.injEq] at h
      obtain ⟨rfl, -⟩ := h
      have hne : b' ≠ 0 := by
        rintro rfl
        exact absurd hb (by decide)
      rw [isPrintable, if_neg hne, if_pos (.inr hb)] at hprintable
      cases hprintable

/-! ### Tokens -/

namespace Token

variable {t : Token} {f : TokenFields} {signature : Option Bytes}

/-- The texts of the token do not contain NUL. -/
def NoNul (t : Token) : Prop := Char.ofNat 0 ∉ t.symbol ∧ Char.ofNat 0 ∉ t.name

/-- The token of the client has these fields, and its texts are printable. -/
structure Spells (t : Token) (f : TokenFields) : Prop where
  version_eq : t.version = (f.version.toNat : ℤ)
  uid_eq : t.uid = f.uid
  symbol_eq : t.symbol = asciiText f.symbol
  name_eq : t.name = asciiText f.name
  printable_symbol : AllPrintable f.symbol
  printable_name : AllPrintable f.name

/-- What the client sends of a token, with the signature behind it. -/
theorem serialize_eq_some_iff {data : Bytes} :
    t.serialize signature = some data ↔
      ∃ version : UInt8, t.version = (version.toNat : ℤ) ∧ t.symbol.length < 256 ∧
        t.name.length < 256 ∧
        data = version :: t.uid ++ UInt8.ofNat t.symbol.length :: encode t.symbol ++
          UInt8.ofNat t.name.length :: encode t.name ++ signature.getD [] := by
  have hversion (field : Bytes) : toBytes t.version 1 = some field ↔
      ∃ version : UInt8, t.version = (version.toNat : ℤ) ∧ field = [version] := by
    rw [toBytes_eq_some_iff, List.length_eq_one_iff]
    constructor
    · rintro ⟨⟨b, rfl⟩, hb⟩
      exact ⟨b, by simpa [beValue] using hb, rfl⟩
    · rintro ⟨b, hb, rfl⟩
      exact ⟨⟨b, rfl⟩, by simpa [beValue] using hb⟩
  simp only [serialize, Option.bind_eq_bind, Option.bind_eq_some_iff, hversion,
    toBytes_one_eq_some_iff]
  cases signature with
  | none =>
    simp only [Option.pure_def, Option.some.injEq, Option.getD_none, List.append_nil]
    constructor
    · rintro ⟨_, ⟨version, hv, rfl⟩, _, ⟨h₁, rfl⟩, _, ⟨h₂, rfl⟩, rfl⟩
      exact ⟨version, hv, h₁, h₂, by simp⟩
    · rintro ⟨version, hv, h₁, h₂, rfl⟩
      exact ⟨_, ⟨version, hv, rfl⟩, _, ⟨h₁, rfl⟩, _, ⟨h₂, rfl⟩, by simp⟩
  | some signature =>
    simp only [Option.pure_def, Option.some.injEq, Option.getD_some]
    constructor
    · rintro ⟨_, ⟨version, hv, rfl⟩, _, ⟨h₁, rfl⟩, _, ⟨h₂, rfl⟩, rfl⟩
      exact ⟨version, hv, h₁, h₂, by simp⟩
    · rintro ⟨version, hv, h₁, h₂, rfl⟩
      exact ⟨_, ⟨version, hv, rfl⟩, _, ⟨h₁, rfl⟩, _, ⟨h₂, rfl⟩, by simp⟩

/-- The fields of a token in the order of the device. -/
theorem Spells.serialize (h : t.Spells f) (signature : Option Bytes) :
    t.serialize signature = some (f.bytes ++ signature.getD []) := by
  have hsymbol := encode_asciiText fun c hc => (h.printable_symbol c hc).2
  have hname := encode_asciiText fun c hc => (h.printable_name c hc).2
  have hsymbolLen : t.symbol.length = f.symbol.length := by rw [h.symbol_eq, asciiText, List.length_map]
  have hnameLen : t.name.length = f.name.length := by rw [h.name_eq, asciiText, List.length_map]
  refine serialize_eq_some_iff.2 ⟨f.version, h.version_eq, ?_, ?_, ?_⟩
  · rw [hsymbolLen]
    exact f.length_symbol.trans_lt (by decide)
  · rw [hnameLen]
    exact f.length_name.trans_lt (by decide)
  · rw [hsymbolLen, hnameLen, h.symbol_eq, h.name_eq, hsymbol, hname, h.uid_eq, TokenFields.bytes]

theorem nul_notMem_asciiText {text : Bytes} (h : AllPrintable text) :
    Char.ofNat 0 ∉ asciiText text := by
  intro hmem
  obtain ⟨c, hc, heq⟩ := List.mem_map.1 hmem
  obtain ⟨hlow, hhigh⟩ := h c hc
  have hnat := (toNat_ofNat_toNat hhigh).symm.trans (congrArg Char.toNat heq)
  rw [UInt8.le_iff_toNat_le, hnat] at hlow
  exact absurd hlow (by decide)

/-- Printable texts contain no NUL. -/
theorem Spells.noNul (h : t.Spells f) : t.NoNul :=
  ⟨h.symbol_eq ▸ nul_notMem_asciiText h.printable_symbol,
    h.name_eq ▸ nul_notMem_asciiText h.printable_name⟩

/-- The length of a text in one byte. -/
theorem eq_of_ofNat_eq {n m : ℕ} (hn : n < 256) (hm : m < 256) (h : UInt8.ofNat n = UInt8.ofNat m) :
    n = m := by
  rw [← UInt8.toNat_inj, UInt8.toNat_ofNat_of_lt' hn, UInt8.toNat_ofNat_of_lt' hm] at h
  exact h

/-- If the device reads fields in what the client sends, then these are the fields of the token, and
what is left is the signature. -/
theorem spells_of_serialize (hnul : t.NoNul) {rest : Bytes}
    (h : t.serialize signature = some (f.bytes ++ rest)) (hsymbol : isPrintable f.symbol = true)
    (hname : isPrintable f.name = true) : t.Spells f ∧ rest = signature.getD [] := by
  obtain ⟨version, hversion, hsymbolLt, hnameLt, hdata⟩ := serialize_eq_some_iff.1 h
  simp only [TokenFields.bytes, List.cons_append, List.append_assoc, List.cons.injEq] at hdata
  obtain ⟨hv, hdata⟩ := hdata
  obtain ⟨huid, hdata⟩ := List.append_inj hdata (f.length_uid.trans t.length_uid.symm)
  obtain ⟨hsymbolLen, hdata⟩ := List.cons.inj hdata
  obtain ⟨hsymbolEq, hprintable, hdata⟩ := eq_of_encode_append hnul.1
    (eq_of_ofNat_eq (f.length_symbol.trans_lt (by decide)) hsymbolLt hsymbolLen) hsymbol hdata.symm
  obtain ⟨hnameLen, hdata⟩ := List.cons.inj hdata
  obtain ⟨hnameEq, hprintable', hdata⟩ := eq_of_encode_append hnul.2
    (eq_of_ofNat_eq (f.length_name.trans_lt (by decide)) hnameLt hnameLen.symm) hname hdata
  exact ⟨⟨hv ▸ hversion, huid.symm, hsymbolEq, hnameEq, hprintable, hprintable'⟩, hdata.symm⟩

end Token

end HathorLedger.Client
