import HathorLedger.Token.Signature

/-!
# The data of a token

The bytes that describe a token in the commands, as `doc/TOKEN.md` lists them. `parse_token` takes
exactly these bytes from the front of its buffer and leaves what stands behind them, such as a
signature, to its caller.

## Main definitions

* `TokenFields`, `TokenFields.bytes`: the fields of a token and its data.
* `Token.Parsed`: the tokens that `parse_token` produces in fresh cells.

## Main results

* `fields_of_parseToken`, `parseToken_of_fields`: `parse_token` accepts exactly the data of tokens
  with a symbol and a name that `is_printable` lets pass.
* `bytes_of_parseToken`, `parseToken_bytes`: the same for fresh cells.
-/

namespace HathorLedger

/-- Bytes that are written to the front of an array stand there. -/
theorem take_memmove_zero (out bytes : Bytes) : (memmove out 0 bytes).take bytes.length = bytes := by
  rw [memmove_zero, List.take_left]

/-- Bytes that fill an array are all that it holds. -/
theorem memmove_of_length {out bytes : Bytes} (h : bytes.length = out.length) :
    memmove out 0 bytes = bytes := by
  rw [memmove_zero, h, List.drop_length, List.append_nil]

/-! ### The format -/

/-- The fields of the data of a token. -/
structure TokenFields where
  version : UInt8
  uid : Bytes
  symbol : Bytes
  name : Bytes
  length_uid : uid.length = tokenUidLen
  length_symbol : symbol.length ≤ maxTokenSymbolLen
  length_name : name.length ≤ maxTokenNameLen

namespace TokenFields

/-- The data of a token: the version, the UID, and the symbol and the name with their lengths. -/
def bytes (f : TokenFields) : Bytes :=
  f.version :: f.uid ++ UInt8.ofNat f.symbol.length :: f.symbol ++
    UInt8.ofNat f.name.length :: f.name

/-- The token record `t` with these fields; a symbol or name leaves the cells behind it alone. -/
def token (f : TokenFields) (t : Token) : Token where
  uid := memmove t.uid 0 f.uid
  symbolLen := f.symbol.length
  symbol := memmove t.symbol 0 f.symbol
  nameLen := f.name.length
  name := memmove t.name 0 f.name
  version := f.version

variable {f : TokenFields} {t : Token}

@[simp] theorem symbolBytes_token : (f.token t).symbolBytes = f.symbol := take_memmove_zero ..

@[simp] theorem nameBytes_token : (f.token t).nameBytes = f.name := take_memmove_zero ..

theorem uid_token (h : t.uid.length = tokenUidLen) : (f.token t).uid = f.uid :=
  memmove_of_length (f.length_uid.trans h.symm)

end TokenFields

/-- What `parse_token` has taken from its buffer when it accepts. -/
theorem fields_of_parseToken {b rest : Buffer} {t₀ t : Token} (hb : b.Wf)
    (h : parseToken b t₀ = (true, t, rest)) :
    ∃ f : TokenFields, b.rest = f.bytes ++ rest.rest ∧ isPrintable f.symbol = true ∧
      isPrintable f.name = true ∧ t = f.token t₀ ∧ rest.Wf := by
  have hwp : (parseTokenFields b).wp
      (fun rest t => ∃ f : TokenFields, b.rest = f.bytes ++ rest.rest ∧
        isPrintable f.symbol = true ∧ isPrintable f.name = true ∧ t = f.token t₀ ∧ rest.Wf)
      (fun _ _ => True) t₀ := by
    simp only [parseTokenFields, EStateM.wp_bind, EStateM.wp_modify, EStateM.wp_require,
      EStateM.wp_get, EStateM.wp_set, EStateM.wp_pure]
    obtain ⟨complete₁, version, b₁, hversion⟩ : ∃ x y z, b.readU8 = (x, y, z) := ⟨_, _, _, rfl⟩
    obtain ⟨complete₂, uid, b₂, huid⟩ : ∃ x y z,
        b₁.readBytes t₀.uid tokenUidLen tokenUidLen = (x, y, z) := ⟨_, _, _, rfl⟩
    obtain ⟨complete₃, symbolLen, b₃, hsymbolLen⟩ : ∃ x y z, b₂.readU8 = (x, y, z) :=
      ⟨_, _, _, rfl⟩
    obtain ⟨complete₄, symbol, b₄, hsymbol⟩ : ∃ x y z,
        b₃.readBytes t₀.symbol maxTokenSymbolLen symbolLen = (x, y, z) := ⟨_, _, _, rfl⟩
    obtain ⟨complete₅, nameLen, b₅, hnameLen⟩ : ∃ x y z, b₄.readU8 = (x, y, z) :=
      ⟨_, _, _, rfl⟩
    obtain ⟨complete₆, name, b₆, hname⟩ : ∃ x y z,
        b₅.readBytes t₀.name maxTokenNameLen nameLen = (x, y, z) := ⟨_, _, _, rfl⟩
    simp only [hversion, huid, hsymbolLen, hsymbol, hnameLen, hname]
    split_ifs with h₁ h₂ h₃ h₄ h₅ h₆ h₇ h₈
    subst h₁ h₂ h₃ h₄ h₅ h₆
    obtain ⟨x, hx, rfl, hb₁⟩ := hb.of_readU8 hversion
    obtain ⟨uid', hr₁, hlen₁, -, rfl, hb₂⟩ := hb₁.of_readBytes huid
    obtain ⟨y, hy, rfl, hb₃⟩ := hb₂.of_readU8 hsymbolLen
    obtain ⟨symbol', hr₃, hlen₃, hle₃, rfl, hb₄⟩ := hb₃.of_readBytes hsymbol
    obtain ⟨z, hz, rfl, hb₅⟩ := hb₄.of_readU8 hnameLen
    obtain ⟨name', hr₅, hlen₅, hle₅, rfl, hb₆⟩ := hb₅.of_readBytes hname
    have hsymbol' : (memmove t₀.symbol 0 symbol').take y.toNat = symbol' :=
      hlen₃ ▸ take_memmove_zero t₀.symbol symbol'
    have hname' : (memmove t₀.name 0 name').take z.toNat = name' :=
      hlen₅ ▸ take_memmove_zero t₀.name name'
    refine ⟨⟨x, uid', symbol', name', hlen₁, hlen₃ ▸ hle₃, hlen₅ ▸ hle₅⟩, ?_, ?_, ?_, ?_, hb₆⟩
    · simp only [TokenFields.bytes, hlen₃, hlen₅, UInt8.ofNat_toNat, List.cons_append,
        List.append_assoc]
      rw [hx, hr₁, hy, hr₃, hz, hr₅]
    · rwa [Token.symbolBytes, hsymbol'] at h₇
    · rwa [Token.nameBytes, hname'] at h₈
    · simp only [TokenFields.token, hlen₃, hlen₅, UInt8.ofNat_toNat]
  rw [EStateM.wp] at hwp
  rw [parseToken] at h
  cases hrun : (parseTokenFields b).run t₀ with
  | ok rest' t' =>
    rw [hrun] at hwp h
    obtain ⟨-, rfl, rfl⟩ := Prod.mk.injEq .. ▸ h
    exact hwp
  | error _ t' =>
    rw [hrun] at h
    simp at h

/-- `parse_token` accepts the data of a token and leaves what stands behind it. -/
theorem parseToken_of_fields {b : Buffer} {f : TokenFields} {more : Bytes} (hb : b.Wf)
    (hrest : b.rest = f.bytes ++ more) (hsymbol : isPrintable f.symbol = true)
    (hname : isPrintable f.name = true) (t₀ : Token) :
    ∃ rest, parseToken b t₀ = (true, f.token t₀, rest) ∧ rest.rest = more ∧ rest.Wf := by
  have hbytes : b.rest = f.version :: (f.uid ++ (UInt8.ofNat f.symbol.length :: (f.symbol ++
      (UInt8.ofNat f.name.length :: (f.name ++ more))))) := by
    rw [hrest]
    simp [TokenFields.bytes]
  obtain ⟨b₁, hversion, hr₁, hb₁⟩ := hb.exists_readU8 hbytes
  obtain ⟨b₂, huid, hr₂, hb₂⟩ := hb₁.exists_readBytes t₀.uid hr₁ f.length_uid.le
  obtain ⟨b₃, hsymbolLen, hr₃, hb₃⟩ := hb₂.exists_readU8 hr₂
  obtain ⟨b₄, hsymbol', hr₄, hb₄⟩ := hb₃.exists_readBytes t₀.symbol hr₃ f.length_symbol
  obtain ⟨b₅, hnameLen, hr₅, hb₅⟩ := hb₄.exists_readU8 hr₄
  obtain ⟨b₆, hname', hr₆, hb₆⟩ := hb₅.exists_readBytes t₀.name hr₅ f.length_name
  have hsymbol₃ : (UInt8.ofNat f.symbol.length).toNat = f.symbol.length :=
    UInt8.toNat_ofNat_of_lt' (f.length_symbol.trans_lt (by decide))
  have hname₅ : (UInt8.ofNat f.name.length).toNat = f.name.length :=
    UInt8.toNat_ofNat_of_lt' (f.length_name.trans_lt (by decide))
  have htoken : ({
      uid := memmove t₀.uid 0 f.uid
      symbolLen := f.symbol.length
      symbol := memmove t₀.symbol 0 f.symbol
      nameLen := f.name.length
      name := memmove t₀.name 0 f.name
      version := UInt8.ofNat f.version.toNat } : Token) = f.token t₀ := by
    rw [TokenFields.token, UInt8.ofNat_toNat]
  rw [f.length_uid] at huid
  have hwp : (parseTokenFields b).wp (fun rest t => t = f.token t₀ ∧ rest = b₆) (fun _ _ => False)
      t₀ := by
    simp only [parseTokenFields, EStateM.wp_bind, EStateM.wp_modify, EStateM.wp_require,
      EStateM.wp_get, EStateM.wp_set, EStateM.wp_pure, hversion, huid, hsymbolLen, hsymbol₃,
      hsymbol', hnameLen, hname₅, hname', if_true, htoken, TokenFields.symbolBytes_token,
      TokenFields.nameBytes_token, hsymbol, hname, and_self]
  refine ⟨b₆, ?_, hr₆, hb₆⟩
  rw [EStateM.wp] at hwp
  rw [parseToken]
  cases hrun : (parseTokenFields b).run t₀ with
  | ok rest t =>
    rw [hrun] at hwp
    obtain ⟨rfl, rfl⟩ := hwp
    rfl
  | error _ t =>
    rw [hrun] at hwp
    exact hwp.elim

/-! ### Tokens in fresh cells -/

/-- The token fits into its cells, which are zero behind the texts, and the texts are printable. -/
structure Token.Parsed (t : Token) : Prop extends t.Accepted where
  symbol_eq : t.symbol = memmove (List.replicate maxTokenSymbolLen 0) 0 t.symbolBytes
  name_eq : t.name = memmove (List.replicate maxTokenNameLen 0) 0 t.nameBytes
  printable_symbol : isPrintable t.symbolBytes = true
  printable_name : isPrintable t.nameBytes = true

/-- The data of a token: the version, the UID, and the symbol and the name with their lengths. -/
def Token.bytes (t : Token) : Bytes :=
  t.version :: t.uid ++ UInt8.ofNat t.symbolLen :: t.symbolBytes ++
    UInt8.ofNat t.nameLen :: t.nameBytes

/-- What `parse_token` has taken from its buffer when it accepts a token into fresh cells. -/
theorem bytes_of_parseToken {b rest : Buffer} {t : Token} (hb : b.Wf)
    (h : parseToken b {} = (true, t, rest)) :
    t.Parsed ∧ b.rest = t.bytes ++ rest.rest ∧ rest.Wf := by
  have haccepted := accepted_of_parseToken h
  obtain ⟨f, hrest, hsymbol, hname, rfl, hwf⟩ := fields_of_parseToken hb h
  refine ⟨⟨haccepted, ?_, ?_, ?_, ?_⟩, ?_, hwf⟩
  · rw [TokenFields.symbolBytes_token]
    rfl
  · rw [TokenFields.nameBytes_token]
    rfl
  · rwa [TokenFields.symbolBytes_token]
  · rwa [TokenFields.nameBytes_token]
  · rw [hrest, Token.bytes, TokenFields.symbolBytes_token, TokenFields.nameBytes_token,
      TokenFields.uid_token (List.length_replicate ..)]
    rfl

/-- `parse_token` accepts the data of a token and leaves what stands behind it. -/
theorem parseToken_bytes {b : Buffer} {t : Token} {more : Bytes} (ht : t.Parsed) (hb : b.Wf)
    (hrest : b.rest = t.bytes ++ more) :
    ∃ rest, parseToken b {} = (true, t, rest) ∧ rest.rest = more ∧ rest.Wf := by
  have hsymbol := ht.length_symbolBytes
  have hname : t.nameBytes.length = t.nameLen := by
    rw [Token.nameBytes, List.length_take, min_eq_left]
    exact ht.length_name ▸ ht.nameLen_le
  let f : TokenFields := ⟨t.version, t.uid, t.symbolBytes, t.nameBytes, ht.length_uid,
    hsymbol ▸ ht.symbolLen_le, hname ▸ ht.nameLen_le⟩
  have hbytes : f.bytes = t.bytes := by
    rw [TokenFields.bytes, Token.bytes, ← hsymbol, ← hname]
  have htoken : f.token {} = t := by
    rw [TokenFields.token, ← ht.symbol_eq, ← ht.name_eq, hsymbol, hname,
      memmove_of_length (by rw [ht.length_uid, List.length_replicate])]
  obtain ⟨rest, hparse, hmore, hwf⟩ := parseToken_of_fields hb (hbytes ▸ hrest)
    ht.printable_symbol ht.printable_name {}
  exact ⟨rest, htoken ▸ hparse, hmore, hwf⟩

end HathorLedger
