import HathorLedger.Library.WeakestPrecondition
import HathorLedger.Token.TokenData

/-!
# What a token signature binds

A token signature is the SHA-256 digest of the secret, the UID, the symbol, the name and the
version, written one after the other without their lengths. So it binds the symbol and the name only
as one string: `token/signature.c` leaves out the two length bytes that the description of the
message has in front of them.

## Main definitions

* `Token.Accepted`: the tokens that `parse_token` can produce fit into their cells.
* `Token.Same`: two tokens have the same UID, symbol, name and version.

## Main results

* `accepted_of_parseToken`: a token that `parse_token` accepts fits into its cells.
* `verifyTokenSignature_binds_iff`: for which tokens a signature binds the token.
-/

namespace HathorLedger

/-! ### Accepted tokens -/

/-- The fields of the token fill their cells, and the two lengths do not exceed them. -/
structure Token.Accepted (t : Token) : Prop where
  length_uid : t.uid.length = tokenUidLen
  length_symbol : t.symbol.length = maxTokenSymbolLen
  symbolLen_le : t.symbolLen ≤ maxTokenSymbolLen
  length_name : t.name.length = maxTokenNameLen
  nameLen_le : t.nameLen ≤ maxTokenNameLen

/-- The two tokens agree in everything that a user sees of them. -/
structure Token.Same (t₁ t₂ : Token) : Prop where
  uid : t₁.uid = t₂.uid
  symbolBytes : t₁.symbolBytes = t₂.symbolBytes
  nameBytes : t₁.nameBytes = t₂.nameBytes
  version : t₁.version = t₂.version

/-- A read that succeeds fits into the output array, which keeps its size. -/
theorem readBytes_fits {b b' : Buffer} {out out' : Bytes} {outLen len : ℕ}
    (hout : out.length = outLen) (h : b.readBytes out outLen len = (true, out', b')) :
    len ≤ outLen ∧ out'.length = outLen := by
  rw [Buffer.readBytes] at h
  split_ifs at h with hlen
  · simp at h
  · obtain ⟨-, rfl, -⟩ := Prod.mk.injEq .. ▸ h
    have hle : len ≤ outLen := by omega
    refine ⟨hle, ?_⟩
    rw [length_memmove, hout]
    rw [List.length_take]
    omega

theorem wp_parseTokenFields (buf : Buffer) :
    (parseTokenFields buf).wp (fun _ t => t.Accepted) (fun _ _ => True) {} := by
  simp only [parseTokenFields, EStateM.wp_bind, EStateM.wp_modify, EStateM.wp_require,
    EStateM.wp_get, EStateM.wp_set, EStateM.wp_pure]
  obtain ⟨complete₁, version, buf₁, hversion⟩ : ∃ a b c, buf.readU8 = (a, b, c) := ⟨_, _, _, rfl⟩
  obtain ⟨complete₂, uid, buf₂, huid⟩ : ∃ a b c,
      buf₁.readBytes (List.replicate tokenUidLen 0) tokenUidLen tokenUidLen = (a, b, c) :=
    ⟨_, _, _, rfl⟩
  obtain ⟨complete₃, symbolLen, buf₃, hsymbolLen⟩ : ∃ a b c, buf₂.readU8 = (a, b, c) :=
    ⟨_, _, _, rfl⟩
  obtain ⟨complete₄, symbol, buf₄, hsymbol⟩ : ∃ a b c,
      buf₃.readBytes (List.replicate maxTokenSymbolLen 0) maxTokenSymbolLen symbolLen = (a, b, c) :=
    ⟨_, _, _, rfl⟩
  obtain ⟨complete₅, nameLen, buf₅, hnameLen⟩ : ∃ a b c, buf₄.readU8 = (a, b, c) :=
    ⟨_, _, _, rfl⟩
  obtain ⟨complete₆, name, buf₆, hname⟩ : ∃ a b c,
      buf₅.readBytes (List.replicate maxTokenNameLen 0) maxTokenNameLen nameLen = (a, b, c) :=
    ⟨_, _, _, rfl⟩
  simp only [hversion, huid, hsymbolLen, hsymbol, hnameLen, hname]
  split_ifs with h₁ h₂ h₃ h₄ h₅ h₆ h₇ h₈
  subst h₂ h₄ h₆
  have huid' := readBytes_fits (by simp) huid
  have hsymbol' := readBytes_fits (by simp) hsymbol
  have hname' := readBytes_fits (by simp) hname
  exact ⟨huid'.2, hsymbol'.2, hsymbol'.1, hname'.2, hname'.1⟩

/-- The tokens that `parse_token` produces fit into their cells. -/
theorem accepted_of_parseToken {buf rest : Buffer} {t : Token}
    (h : parseToken buf {} = (true, t, rest)) : t.Accepted := by
  have hwp := wp_parseTokenFields buf
  rw [EStateM.wp] at hwp
  rw [parseToken] at h
  cases hrun : (parseTokenFields buf).run {} with
  | ok rest' t' =>
    rw [hrun] at hwp h
    obtain ⟨-, rfl, -⟩ := Prod.mk.injEq .. ▸ h
    exact hwp
  | error _ t' =>
    rw [hrun] at h
    simp at h

/-! ### The signed message -/

section Message

variable {t t₁ t₂ : Token} {secret : Bytes}

theorem Token.Accepted.length_symbolBytes (h : t.Accepted) :
    t.symbolBytes.length = t.symbolLen := by
  rw [Token.symbolBytes, List.length_take, min_eq_left]
  exact h.length_symbol ▸ h.symbolLen_le

/-- The message determines the UID, the version, and the symbol and the name as one string. -/
theorem initTokenSignatureMessage_eq_iff (h₁ : t₁.Accepted) (h₂ : t₂.Accepted) :
    initTokenSignatureMessage secret t₁ = initTokenSignatureMessage secret t₂ ↔
      t₁.uid = t₂.uid ∧ t₁.symbolBytes ++ t₁.nameBytes = t₂.symbolBytes ++ t₂.nameBytes ∧
        t₁.version = t₂.version := by
  have huid : t₁.uid.length = t₂.uid.length := h₁.length_uid.trans h₂.length_uid.symm
  simp only [initTokenSignatureMessage, List.append_assoc, List.append_cancel_left_eq]
  constructor
  · intro h
    obtain ⟨huid, hrest⟩ := List.append_inj h huid
    rw [← List.append_assoc, ← List.append_assoc] at hrest
    obtain ⟨htext, hversion⟩ := List.append_inj' hrest rfl
    exact ⟨huid, htext, List.singleton_inj.1 hversion⟩
  · rintro ⟨huid, htext, hversion⟩
    rw [huid, hversion, ← List.append_assoc t₁.symbolBytes, htext, List.append_assoc]

/-- Where the split between symbol and name is the same, the one string determines both. -/
theorem same_iff_symbolLen_eq (h₁ : t₁.Accepted) (h₂ : t₂.Accepted) (huid : t₁.uid = t₂.uid)
    (htext : t₁.symbolBytes ++ t₁.nameBytes = t₂.symbolBytes ++ t₂.nameBytes)
    (hversion : t₁.version = t₂.version) : t₁.Same t₂ ↔ t₁.symbolLen = t₂.symbolLen := by
  constructor
  · intro h
    rw [← h₁.length_symbolBytes, ← h₂.length_symbolBytes, h.symbolBytes]
  · intro h
    have hlen : t₁.symbolBytes.length = t₂.symbolBytes.length := by
      rw [h₁.length_symbolBytes, h₂.length_symbolBytes, h]
    obtain ⟨hsymbol, hname⟩ := List.append_inj htext hlen
    exact ⟨huid, hsymbol, hname, hversion⟩

/-- Without a collision of the two messages, the signature of one token is accepted for the other
exactly if their messages are equal. -/
theorem verifyTokenSignature_signToken_iff (sdk : Sdk)
    (hash : sdk.sha256 (initTokenSignatureMessage secret t₁) =
        sdk.sha256 (initTokenSignatureMessage secret t₂) →
      initTokenSignatureMessage secret t₁ = initTokenSignatureMessage secret t₂) :
    verifyTokenSignature sdk secret t₂ (signToken sdk secret t₁) = true ↔
      initTokenSignatureMessage secret t₁ = initTokenSignatureMessage secret t₂ := by
  have htake : ∀ m, (sdk.sha256 m).take 32 = sdk.sha256 m := fun m =>
    List.take_of_length_le (sdk.length_sha256 m).le
  rw [verifyTokenSignature, beq_iff_eq, signToken, signToken, htake, htake]
  exact ⟨hash, congrArg sdk.sha256⟩

end Message

/-- A signature binds the token it was made for, except against a token with the same UID and
version whose symbol and name make up the same string with another split. The two messages are
assumed not to collide under SHA-256. -/
theorem verifyTokenSignature_binds_iff (sdk : Sdk) (secret : Bytes)
    (buf₁ buf₂ rest₁ rest₂ : Buffer) (t₁ t₂ : Token)
    (h₁ : parseToken buf₁ {} = (true, t₁, rest₁)) (h₂ : parseToken buf₂ {} = (true, t₂, rest₂))
    (hash : sdk.sha256 (initTokenSignatureMessage secret t₁) =
        sdk.sha256 (initTokenSignatureMessage secret t₂) →
      initTokenSignatureMessage secret t₁ = initTokenSignatureMessage secret t₂) :
    (verifyTokenSignature sdk secret t₂ (signToken sdk secret t₁) = true → t₁.Same t₂) ↔
      (t₁.uid = t₂.uid → t₁.symbolBytes ++ t₁.nameBytes = t₂.symbolBytes ++ t₂.nameBytes →
        t₁.version = t₂.version → t₁.symbolLen = t₂.symbolLen) := by
  have ha₁ := accepted_of_parseToken h₁
  have ha₂ := accepted_of_parseToken h₂
  rw [verifyTokenSignature_signToken_iff sdk hash, initTokenSignatureMessage_eq_iff ha₁ ha₂]
  constructor
  · intro h huid htext hversion
    exact (same_iff_symbolLen_eq ha₁ ha₂ huid htext hversion).1 (h ⟨huid, htext, hversion⟩)
  · rintro h ⟨huid, htext, hversion⟩
    exact (same_iff_symbolLen_eq ha₁ ha₂ huid htext hversion).2 (h huid htext hversion)

/-- A token of version 0 with a UID of zeros. -/
def sampleToken (symbol name : Bytes) : Token where
  symbolLen := symbol.length
  symbol := memmove (List.replicate maxTokenSymbolLen 0) 0 symbol
  nameLen := name.length
  name := memmove (List.replicate maxTokenNameLen 0) 0 name

/-- The data of this token. -/
def sampleTokenData (symbol name : Bytes) : Bytes :=
  0 :: List.replicate tokenUidLen 0 ++ UInt8.ofNat symbol.length :: symbol ++
    UInt8.ofNat name.length :: name

/-- The buffer that `parse_token` returns for this data. -/
def sampleTokenRest (symbol name : Bytes) : Buffer :=
  (Buffer.ofBytes (sampleTokenData symbol name)).advance (sampleTokenData symbol name).length

/-- The signature of the token with symbol `A` and name `B` is not one of the token with symbol `A`
and name `C`. -/
theorem verifyTokenSignature_binds_sample :
    verifyTokenSignature Sdk.sample (List.replicate secretLen 7) (sampleToken [0x41] [0x43])
      (signToken Sdk.sample (List.replicate secretLen 7) (sampleToken [0x41] [0x42])) = false := by
  have hother : ¬(sampleToken [0x41] [0x42]).Same (sampleToken [0x41] [0x43]) :=
    fun h => absurd h.nameBytes (by decide)
  rw [Bool.eq_false_iff]
  refine fun haccepted => hother ((verifyTokenSignature_binds_iff Sdk.sample
    (List.replicate secretLen 7)
    (.ofBytes (sampleTokenData [0x41] [0x42])) (.ofBytes (sampleTokenData [0x41] [0x43]))
    (sampleTokenRest [0x41] [0x42]) (sampleTokenRest [0x41] [0x43])
    (sampleToken [0x41] [0x42]) (sampleToken [0x41] [0x43]) (by decide) (by decide)
    (by decide +kernel)).2 (by decide) haccepted)

/-- The signature of the token with symbol `AB` and name `C` is accepted for the token with symbol
`A` and name `BC`. -/
theorem verifyTokenSignature_accepts_other_split :
    ¬∀ (sdk : Sdk) (secret : Bytes) (buf₁ buf₂ rest₁ rest₂ : Buffer) (t₁ t₂ : Token),
      secret.length = secretLen →
      parseToken buf₁ {} = (true, t₁, rest₁) → parseToken buf₂ {} = (true, t₂, rest₂) →
      (sdk.sha256 (initTokenSignatureMessage secret t₁) =
          sdk.sha256 (initTokenSignatureMessage secret t₂) →
        initTokenSignatureMessage secret t₁ = initTokenSignatureMessage secret t₂) →
      verifyTokenSignature sdk secret t₂ (signToken sdk secret t₁) = true → t₁.Same t₂ := by
  intro h
  have hsame := h Sdk.sample (List.replicate 32 7)
    (.ofBytes (sampleTokenData [0x41, 0x42] [0x43]))
    (.ofBytes (sampleTokenData [0x41] [0x42, 0x43]))
    (sampleTokenRest [0x41, 0x42] [0x43]) (sampleTokenRest [0x41] [0x42, 0x43])
    (sampleToken [0x41, 0x42] [0x43]) (sampleToken [0x41] [0x42, 0x43])
    (by decide) (by decide) (by decide) (fun _ => rfl)
    ((verifyTokenSignature_signToken_iff Sdk.sample fun _ => rfl).2 rfl)
  exact absurd hsame.symbolBytes (by decide)

end HathorLedger
