import HathorLedger.Common.Base58Decode
import HathorLedger.Handler.SignTx

/-!
# Addresses and change verification

The device shows the address of an output, which it computes from the hash in the script, and the
address of a path, which it computes from the public key. `verify_change` compares the hashes
instead. Both comparisons agree, as the base58 encoding of 25 bytes is never cut off and is
injective.

## Main definitions

* `outputAddress`, `pathAddress`: the cells of `g_address` for an output and for a path.
* `IsAddressText`: 34 characters and a NUL.

## Main results

* `base58Reference_injective`: different byte strings have different encodings.
* `verifiesDisplayed`: `verify_change` accepts an output exactly if the addresses are the same.
-/

namespace HathorLedger

/-! ### Encoded addresses -/

/-- Different byte strings have different encodings. -/
theorem base58Reference_injective {a b : Bytes} (h : base58Reference a = base58Reference b) :
    a = b := by
  rw [base58Reference_eq_map, base58Reference_eq_map] at h
  have ha := mapM_base58Digit_iff.2 ⟨@lt_of_mem_base58InputDigits a, rfl⟩
  have hb := mapM_base58Digit_iff.2 ⟨@lt_of_mem_base58InputDigits b, rfl⟩
  rw [h] at ha
  have hdigits : base58InputDigits a = base58InputDigits b := Option.some.inj (ha.symm.trans hb)
  rw [← base58Decoded_inputDigits a, hdigits, base58Decoded_inputDigits]

/-- The version bytes of the two networks. -/
def IsVersionByte (b : UInt8) : Prop := b = 0x28 ∨ b = 0x49

/-- The encoding of 25 bytes with a version byte in front has 34 characters. -/
theorem length_base58Reference {version : UInt8} {rest : Bytes} (hversion : IsVersionByte version)
    (hrest : rest.length = 24) : (base58Reference (version :: rest)).length = 34 := by
  have hne : (version == 0) = false := by rcases hversion with rfl | rfl <;> rfl
  have hbounds : 40 ≤ version.toNat ∧ version.toNat ≤ 73 := by
    rcases hversion with rfl | rfl <;> decide
  have hvalue : beValue (version :: rest) = version.toNat * 256 ^ 24 + beValue rest := by
    rw [← List.singleton_append, beValue_append, hrest]
    simp [beValue]
  have hlt := beValue_lt rest
  rw [hrest] at hlt
  have hle : (Numeral.digits 58 (beValue (version :: rest))).length ≤ 34 := by
    rw [Numeral.length_digits_le_iff (by decide), hvalue]
    norm_num at hlt ⊢
    omega
  have hge : ¬(Numeral.digits 58 (beValue (version :: rest))).length ≤ 33 := by
    rw [Numeral.length_digits_le_iff (by decide), hvalue]
    norm_num
    omega
  rw [base58Reference, List.takeWhile_cons_of_neg (by simp [hne]),
    List.dropWhile_cons_of_neg (by simp [hne])]
  simp only [List.length_nil, List.replicate_zero, List.nil_append, List.length_map]
  omega

/-- The cells hold 34 characters of the alphabet and a NUL. -/
structure IsAddressText (cells : Bytes) : Prop where
  length_eq : cells.length = b58AddressLen
  length_text : (cstr cells).length = 34
  alphabet : ∀ c ∈ cstr cells, c ∈ base58Alphabet
  nul : cells = cstr cells ++ [0]

theorem mem_alphabet_of_mem_base58Reference {input : Bytes} {c : UInt8}
    (h : c ∈ base58Reference input) : c ∈ base58Alphabet := by
  rw [base58Reference_eq_map] at h
  obtain ⟨d, hd, rfl⟩ := List.mem_map.1 h
  exact mem_base58Alphabet_iff.2 ⟨d, lt_of_mem_base58InputDigits d hd, rfl⟩

theorem ne_zero_of_mem_alphabet {c : UInt8} (h : c ∈ base58Alphabet) : c ≠ 0 := by
  rintro rfl
  revert h
  decide +kernel

/-- The address text fills its cells except for the NUL. -/
theorem b58Address_eq {version : UInt8} {rest : Bytes} (hversion : IsVersionByte version)
    (hrest : rest.length = 24) :
    b58Address (version :: rest) = base58Reference (version :: rest) ++ [0] := by
  have hlen := length_base58Reference hversion hrest
  have hroom : ¬b58AddressLen < (base58Reference (version :: rest)).length := by
    rw [hlen, b58AddressLen]
    decide
  have hinput : (version :: rest).length ≤ maxEncInputSize := by
    rw [List.length_cons, hrest]
    decide
  rw [b58Address, base58Encode_eq hinput, if_neg hroom, Option.getD_some, memmove_zero, hlen,
    List.drop_replicate]
  rfl

theorem isAddressText_b58Address {version : UInt8} {rest : Bytes} (hversion : IsVersionByte version)
    (hrest : rest.length = 24) : IsAddressText (b58Address (version :: rest)) := by
  have hcstr : cstr (b58Address (version :: rest)) = base58Reference (version :: rest) := by
    rw [b58Address_eq hversion hrest]
    exact cstr_append_nul fun c hc =>
      ne_zero_of_mem_alphabet (mem_alphabet_of_mem_base58Reference hc)
  have hlen := length_base58Reference hversion hrest
  refine ⟨?_, by rw [hcstr, hlen], fun c hc => ?_, ?_⟩
  · rw [b58Address_eq hversion hrest, List.length_append, hlen]
    rfl
  · exact mem_alphabet_of_mem_base58Reference (hcstr ▸ hc)
  · rw [hcstr, b58Address_eq hversion hrest]

/-! ### The displayed addresses -/

variable (sdk : Sdk)

/-- The address that the device displays for an output. -/
def outputAddress (output : TxOutput) : Option Bytes :=
  (addressFromPubkeyHash sdk output.pubkeyHash pubkeyHashLen addressLen).map b58Address

/-- The address that `GET_ADDRESS` displays for a path. -/
def pathAddress (path : Bip32Path) : Option Bytes := (confirmedAddress sdk path).map b58Address

/-- The screen of an output shows the address of the output. -/
theorem address_of_prepareDisplayOutput {w w' : World}
    (h : prepareDisplayOutput sdk w = (false, w')) :
    outputAddress sdk (displayedOutput sdk w'.ctx.txInfo) = some w'.ui.address := by
  unfold prepareDisplayOutput at h
  cases hcheck : checkOutputIndexState w with
  | mk done w₁ =>
    cases hskip : skipChangeOutputs w₁ with
    | mk done' w₂ =>
      cases done
      · cases done'
        · simp only [hcheck, hskip, Bool.false_eq_true, if_false, addressFromPubkeyHash_eq] at h
          obtain rfl := (Prod.mk.inj h).2
          rw [outputAddress, addressFromPubkeyHash_eq, Option.map_some]
          unfold recordTokenRead recordChangesRead
          split_ifs <;> rfl
        · simp [hcheck, hskip] at h
      · simp [hcheck] at h

/-- The address screen shows the address of the path. -/
theorem address_of_uiDisplayConfirmAddress {w : World} {address : Bytes}
    (hreq : w.ctx.reqType = .confirmAddress) (hstate : w.ctx.state = .none)
    (haddress : pathAddress sdk w.ctx.bip32Path = some address) :
    (uiDisplayConfirmAddress sdk w).1 = 0 ∧
      (uiDisplayConfirmAddress sdk w).2.ui.address = address ∧
      (uiDisplayConfirmAddress sdk w).2.ui.flow = .address := by
  obtain ⟨bytes, hbytes, rfl⟩ := Option.map_eq_some_iff.1 haddress
  have hshow : uiDisplayConfirmAddress sdk w = (0, showWithCallback .confirmAddress .address
      { ({ w with ui.address := [] } : World).emit (.derived w.ctx.bip32Path) with
        ui.address := b58Address bytes }) := by
    simp [uiDisplayConfirmAddress, hreq, hstate, hbytes, World.emit]
  rw [hshow]
  exact ⟨rfl, rfl, rfl⟩

/-! ### Change verification -/

/-- The version byte, a hash, and the checksum of both. -/
def addressBytes (hash : Bytes) : Bytes :=
  sdk.p2pkhVersionByte :: (hash.take pubkeyHashLen ++
    (sha256d sdk (sdk.p2pkhVersionByte :: hash.take pubkeyHashLen)).take 4)

theorem outputAddress_eq (output : TxOutput) :
    outputAddress sdk output = some (b58Address (addressBytes sdk output.pubkeyHash)) := by
  rw [outputAddress, addressFromPubkeyHash_eq, Option.map_some]
  rfl

theorem pathAddress_eq (path : Bip32Path) :
    pathAddress sdk path =
      (pubkeyHashOfPath sdk path).map fun hash => b58Address (addressBytes sdk hash) := by
  unfold pathAddress confirmedAddress pubkeyHashOfPath
  cases sdk.derivePrivateKey path.components with
  | none => rfl
  | some key =>
    cases hpublic : sdk.initPublicKey key.1 with
    | none => simp [hpublic]
    | some publicKey =>
      simp only [Option.bind_eq_bind, Option.bind_some, hpublic, addressFromPubkey]
      rw [if_neg (by decide), addressFromPubkeyHash_eq]
      rfl

section Verify

variable {sdk} {hash hash' : Bytes}

theorem length_addressBytes_tail (h : hash.length = pubkeyHashLen) :
    (hash.take pubkeyHashLen ++
      (sha256d sdk (sdk.p2pkhVersionByte :: hash.take pubkeyHashLen)).take 4).length = 24 := by
  rw [List.length_append, List.length_take, List.length_take, h, sha256d, sdk.length_sha256]
  rfl

theorem isAddressText_addressBytes (hversion : IsVersionByte sdk.p2pkhVersionByte)
    (h : hash.length = pubkeyHashLen) : IsAddressText (b58Address (addressBytes sdk hash)) :=
  isAddressText_b58Address hversion (length_addressBytes_tail h)

/-- The address text determines the hash. -/
theorem b58Address_addressBytes_inj (hversion : IsVersionByte sdk.p2pkhVersionByte)
    (h : hash.length = pubkeyHashLen) (h' : hash'.length = pubkeyHashLen) :
    b58Address (addressBytes sdk hash) = b58Address (addressBytes sdk hash') ↔ hash = hash' := by
  refine ⟨fun heq => ?_, fun heq => by rw [heq]⟩
  rw [addressBytes, addressBytes, b58Address_eq hversion (length_addressBytes_tail h),
    b58Address_eq hversion (length_addressBytes_tail h')] at heq
  have hbytes := base58Reference_injective (List.append_inj_left' heq rfl)
  rw [List.take_of_length_le h.le, List.take_of_length_le h'.le] at hbytes
  exact List.append_inj_left (List.cons.inj hbytes).2 (h.trans h'.symm)

end Verify

/-- `verify_change` agrees with the display. The screens show the addresses of outputs and of paths,
which fill their cells with 34 characters and a NUL; an output is accepted as change for a path
exactly if the device displays the same address for both. -/
structure VerifiesDisplayed : Prop where
  shown_output : ∀ w w' : World, prepareDisplayOutput sdk w = (false, w') →
    outputAddress sdk (displayedOutput sdk w'.ctx.txInfo) = some w'.ui.address
  shown_path : ∀ w : World, w.ctx.reqType = .confirmAddress → w.ctx.state = .none →
    pathAddress sdk w.ctx.bip32Path = some (uiDisplayConfirmAddress sdk w).2.ui.address
  output_text : ∀ output : TxOutput, output.pubkeyHash.length = pubkeyHashLen →
    ∃ cells, outputAddress sdk output = some cells ∧ IsAddressText cells
  path_text : ∀ path, ∃ cells, pathAddress sdk path = some cells ∧ IsAddressText cells
  verify_iff : ∀ (info : ChangeOutputInfo) (output : TxOutput),
    output.pubkeyHash.length = pubkeyHashLen →
      (verifyChange sdk info output = .ok true ↔
        outputAddress sdk output = pathAddress sdk info.path)

/-- Where the calls of the platform succeed, change verification agrees with the display. -/
theorem verifiesDisplayed (hversion : IsVersionByte sdk.p2pkhVersionByte)
    (hderive : ∀ path, sdk.derivePrivateKey path ≠ none)
    (hpublic : ∀ key, sdk.initPublicKey key ≠ none)
    (hhash : ∀ m, (hash160 sdk m).length = pubkeyHashLen) : VerifiesDisplayed sdk := by
  have hhashOf : ∀ path, ∃ hash, pubkeyHashOfPath sdk path = some hash ∧
      hash.length = pubkeyHashLen := by
    intro path
    obtain ⟨key, hkey⟩ := Option.ne_none_iff_exists'.1 (hderive path.components)
    obtain ⟨publicKey, hpublicKey⟩ := Option.ne_none_iff_exists'.1 (hpublic key.1)
    refine ⟨_, ?_, hhash ((compressPublicKey publicKey).take 33)⟩
    simp [pubkeyHashOfPath, hkey, hpublicKey]
  have hpath : ∀ path, ∃ hash, pubkeyHashOfPath sdk path = some hash ∧
      hash.length = pubkeyHashLen ∧
      pathAddress sdk path = some (b58Address (addressBytes sdk hash)) := by
    intro path
    obtain ⟨hash, heq, hlen⟩ := hhashOf path
    exact ⟨hash, heq, hlen, by rw [pathAddress_eq, heq, Option.map_some]⟩
  refine ⟨fun w w' => address_of_prepareDisplayOutput sdk, fun w hreq hstate => ?_,
    fun output houtput => ?_, fun path => ?_, fun info output houtput => ?_⟩
  · obtain ⟨hash, -, -, heq⟩ := hpath w.ctx.bip32Path
    rw [heq, (address_of_uiDisplayConfirmAddress sdk hreq hstate heq).2.1]
  · exact ⟨_, outputAddress_eq sdk output, isAddressText_addressBytes hversion houtput⟩
  · obtain ⟨hash, -, hlen, heq⟩ := hpath path
    exact ⟨_, heq, isAddressText_addressBytes hversion hlen⟩
  · obtain ⟨hash, hkey, hlen, heq⟩ := hpath info.path
    rw [verifyChange, hkey, heq, outputAddress_eq, Option.some.injEq,
      b58Address_addressBytes_inj hversion houtput hlen]
    simp only [Except.ok.injEq, beq_iff_eq]
    rw [List.take_of_length_le hlen.le, List.take_of_length_le houtput.le]
    exact eq_comm

theorem verifiesDisplayed_sample : VerifiesDisplayed Sdk.sample :=
  verifiesDisplayed Sdk.sample (.inl rfl) (fun _ => Option.some_ne_none _)
    (fun _ => Option.some_ne_none _) fun m => by simp [hash160, Sdk.sample, pubkeyHashLen]

end HathorLedger
