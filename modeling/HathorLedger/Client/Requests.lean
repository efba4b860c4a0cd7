import HathorLedger.Client.Commands
import HathorLedger.Run.OwnScreens
import HathorLedger.Ui.Address

/-!
# Addresses and keys for the client

The client asks for the extended public key of a path and for the display of an address. What the
methods return is compared with the keys of the path itself, whatever the user does in between.

## Main definitions

* `extendedKey`: the public key and chain code of the components of a path, with the fingerprint of
  the parent.

## Main results

* `getXpub_returns_iff`: what `get_xpub` can return, and that the user has approved it.
* `getAddress_returns_iff`: when `get_address` can return, and what the user has approved.
-/

namespace HathorLedger.Client

open Dialogue (Runs runs_bind_ok_iff runs_discard_ok_iff runs_pure_iff)

variable {sdk : Sdk} {w w' : World} {path : List Char} {components : List ℕ}

/-! ### Paths -/

/-- The parent of a path that is not empty. -/
theorem components_parentPath {p : Bip32Path} (hpos : 0 < p.length) (hle : p.length ≤ maxBip32Path)
    (hcells : p.path.length = maxBip32Path) :
    (parentPath p).components = p.components.dropLast := by
  have hlength : u8 (p.length + 255) = p.length - 1 := by
    rw [u8]
    rw [maxBip32Path] at hle
    omega
  have htake : (p.path.take (p.length - 1)).length = p.length - 1 := by
    rw [List.length_take]
    omega
  have hparent : (parentPath p).components = p.path.take (p.length - 1) := by
    change (p.path.take (p.length - 1) ++ _).take (u8 (p.length + 255)) = _
    rw [hlength]
    exact (congrArg (List.take · _) htake.symm).trans List.take_left
  have hmin : min p.length p.path.length - 1 = p.length - 1 := by omega
  rw [hparent, Bip32Path.components, List.dropLast_eq_take, List.length_take, hmin, List.take_take,
    min_eq_left (Nat.sub_le _ _)]

/-- Components are read back from their bytes. -/
theorem map_beValue_beBytes (h : ∀ c ∈ components, c < 2 ^ 32) :
    (components.map (beBytes 4)).map beValue = components := by
  rw [List.map_map]
  refine (List.map_congr_left fun c hc => ?_).trans (List.map_id components)
  rw [Function.comp_apply, beValue_beBytes]
  exact Nat.mod_eq_of_lt (h c hc)

/-- The path in a command is accepted if it has the form of a path for the device. -/
theorem requestedPath_eq_some_iff (hlt : ∀ c ∈ components, c < 2 ^ 32)
    (hlen : 1 + 4 * components.length ≤ 255) {p : Bip32Path} :
    requestedPath (UInt8.ofNat components.length :: components.flatMap (beBytes 4)) = some p ↔
      ∃ q : WirePath, q.components = components ∧ p = q.store {} := by
  have hcells : (({} : Bip32Path).path).length = maxBip32Path := rfl
  constructor
  · intro h
    obtain ⟨accepted, path, rest, hread⟩ : ∃ accepted path rest,
        (Buffer.ofBytes (UInt8.ofNat components.length ::
          components.flatMap (beBytes 4))).readBip32Path {} = (accepted, path, rest) := ⟨_, _, _, rfl⟩
    rw [requestedPath_eq hread] at h
    split_ifs at h with haccepted
    obtain rfl := Option.some.inj h
    rw [haccepted] at hread
    obtain ⟨hcomponents, -⟩ := components_of_readBip32Path hlt hlen hcells hread
    have hwf : (Buffer.ofBytes (UInt8.ofNat components.length ::
        components.flatMap (beBytes 4))).Wf := by
      refine Buffer.wf_ofBytes ?_
      rw [List.length_cons, length_flatMap_beBytes, sizeMod]
      omega
    obtain ⟨q, hrest⟩ := hwf.exists_wirePath hcells hread
    obtain rfl : q.store {} = path :=
      (Prod.mk.inj (Prod.mk.inj ((hwf.readBip32Path_wire hrest hcells).symm.trans hread)).2).1
    exact ⟨q, (q.storedIn_store hcells).components_eq.symm.trans hcomponents, rfl⟩
  · rintro ⟨q, rfl, rfl⟩
    have hwf : (Buffer.ofBytes q.bytes).Wf := Buffer.wf_ofBytes (by rw [q.length_bytes, sizeMod]; omega)
    have hread := hwf.readBip32Path_wire
      (show (Buffer.ofBytes q.bytes).rest = q.bytes ++ [] by rw [List.append_nil, Buffer.rest_ofBytes])
      hcells
    rw [show UInt8.ofNat q.components.length :: q.components.flatMap (beBytes 4) = q.bytes from rfl,
      requestedPath_eq hread, if_pos rfl]

/-! ### Keys -/

variable (sdk) in
/-- The public key and the chain code of the components of a path. -/
def keyOf (components : List ℕ) : Option (Bytes × Bytes) := do
  let (privateKey, chainCode) ← sdk.derivePrivateKey components
  let publicKey ← sdk.initPublicKey privateKey
  return (publicKey, chainCode)

variable (sdk) in
/-- The public key and the chain code of a path, with the first bytes of the hash of its parent's
compressed public key. -/
def extendedKey (components : List ℕ) : Option (Bytes × Bytes × Bytes) := do
  let (publicKey, chainCode) ← keyOf sdk components
  let (parentKey, _) ← keyOf sdk components.dropLast
  return (publicKey, chainCode, (hash160 sdk ((compressPublicKey parentKey).take 33)).take 4)

theorem storedIn_store_empty (p : WirePath) : p.StoredIn (p.store {}) := p.storedIn_store rfl

theorem xpubOf_store {p : WirePath} (hne : p.components ≠ []) :
    xpubOf sdk (p.store {}) = (extendedKey sdk p.components).map fun k => ⟨k.1, k.2.1, k.2.2⟩ := by
  have hstored := storedIn_store_empty p
  have hpos := List.length_pos_iff.2 hne
  have hparent := components_parentPath (p := p.store {}) (by rw [hstored.length_eq]; exact hpos)
    (by rw [hstored.length_eq]; exact p.length_le) (p.length_path_store rfl)
  rw [hstored.components_eq] at hparent
  have hkey : deriveKey sdk (p.store {}) = keyOf sdk p.components := by
    rw [← hstored.components_eq]
    rfl
  have hparentKey : deriveKey sdk (parentPath (p.store {})) = keyOf sdk p.components.dropLast := by
    rw [← hparent]
    rfl
  rw [xpubOf, parentFingerprint, hkey, hparentKey, extendedKey]
  cases keyOf sdk p.components with
  | none => rfl
  | some key =>
    cases keyOf sdk p.components.dropLast with
    | none => rfl
    | some parentKey => rfl

/-- The exchange of a command that consists of a path. -/
theorem runs_pathCommand_iff {ins : ℕ} (hins : ins < 256) {call : Bytes → Call}
    (hcheck : ∀ data, data ≠ [] → checkCommand ⟨cla, ins, 0, 0, data⟩ = .ok (call data))
    {response : Bytes} :
    Runs (Serves sdk) (exchange ins
        (do CommandBuilder.serialize cla ins 0 0 (← CommandBuilder.pathData path))) w
        (.ok response) w' ↔
      ∃ data, CommandBuilder.pathData path = some data ∧ data.length ≤ 255 ∧
        callOf (Command.encode ⟨cla, ins, 0, 0, data⟩) = some (call data) ∧
        Serves sdk w (Command.encode ⟨cla, ins, 0, 0, data⟩) (Sw.ok, response) w' := by
  refine (runs_dataCommand_iff 0 hins).trans ⟨?_, ?_⟩
  · rintro ⟨-, data, hdata, hlen, hserves⟩
    have hne : data ≠ [] := by
      obtain ⟨components, -, -, rfl⟩ := exists_of_pathData hdata
      exact List.cons_ne_nil _ _
    exact ⟨data, hdata, hlen, callOf_encode hins (by decide) (by decide) hlen (hcheck data hne),
      hserves⟩
  · rintro ⟨data, hdata, hlen, -, hserves⟩
    exact ⟨by decide, data, hdata, hlen, hserves⟩

/-- What the device makes of a path that the client sends. -/
theorem requestedPath_of_pathData {data : Bytes} (hdata : CommandBuilder.pathData path = some data)
    (hlen : data.length ≤ 255) {p : Bip32Path} :
    requestedPath data = some p ↔
      ∃ q : WirePath, bip32PathFromString path = some (q.components.map (beBytes 4)) ∧
        p = q.store {} := by
  obtain ⟨components, hlt, hparts, rfl⟩ := exists_of_pathData hdata
  rw [List.length_cons, length_flatMap_beBytes] at hlen
  rw [requestedPath_eq_some_iff hlt (by omega)]
  refine exists_congr fun q => and_congr_left fun _ => ?_
  rw [hparts, Option.some.injEq]
  constructor
  · rintro rfl
    rfl
  · intro h
    rw [← map_beValue_beBytes hlt, h, map_beValue_beBytes q.lt]

/-- The client cuts an answer into the fields of the key. -/
theorem runs_cut_iff {serve : World → Bytes → ℕ × Bytes → World → Prop} {info : PkInfo}
    {xpub : Bytes × Bytes × Bytes} (hkey : info.rawPublicKey.length = rawPubkeyLen)
    (hchain : info.chainCode.length = chaincodeLen)
    (hfingerprint : info.fingerprint.length = fingerprintLen) :
    Runs serve (if info.bytes.length ≠ 65 + 32 + 4 then .throw .python
        else return (info.bytes.take 65, (info.bytes.drop 65).take 32,
          (info.bytes.drop (65 + 32)).take 4) : Method (Bytes × Bytes × Bytes)) w (.ok xpub) w' ↔
      xpub = (info.rawPublicKey, info.chainCode, info.fingerprint) ∧ w' = w := by
  obtain ⟨key, chain, fingerprint⟩ := info
  change key.length = 65 at hkey
  change chain.length = 32 at hchain
  change fingerprint.length = 4 at hfingerprint
  have hlen : (PkInfo.bytes ⟨key, chain, fingerprint⟩).length = 65 + 32 + 4 := by
    rw [PkInfo.bytes, List.length_append, List.length_append]
    exact congrArg₂ _ (congrArg₂ _ hkey hchain) hfingerprint
  rw [if_neg (not_not.2 hlen), ← List.drop_drop]
  simp only [PkInfo.bytes, List.append_assoc]
  rw [List.take_left' hkey, List.drop_left' hkey, List.take_left' hchain, List.drop_left' hchain,
    List.take_of_length_le hfingerprint.le]
  refine runs_pure_iff.trans (and_congr_left fun _ => ?_)
  rw [Except.ok.injEq]

/-- `get_xpub` can return the key of its path, if the path has a form that the device holds and its
key can be derived, and nothing else. It returns after the user has approved. -/
theorem getXpub_returns_iff (hsdk : sdk.Sized) (hw : Reachable Booted (step sdk) Sequential w)
    (hidle : w.io.state ≠ .waiting) (hne : bip32PathFromString path ≠ some [])
    {xpub : Bytes × Bytes × Bytes} :
    ((∃ w', Runs (Serves sdk) (getXpub path) w (.ok xpub) w') ↔
      ∃ p : WirePath, bip32PathFromString path = some (p.components.map (beBytes 4)) ∧
        extendedKey sdk p.components = some xpub) ∧
    ∀ w', Runs (Serves sdk) (getXpub path) w (.ok xpub) w' →
      PressedSince .approve .xpub w.log w'.log := by
  have hchecked (data : Bytes) (h : data ≠ []) : checkCommand ⟨cla, Ins.getXpub, 0, 0, data⟩ =
      .ok (.getXpub data) := by
    simp [checkCommand, Ins.getXpub, Ins.getVersion, Ins.getAddress, h]
  -- the components of the path are known from the bytes that are sent
  have hnotEmpty {p : WirePath} (h : bip32PathFromString path = some (p.components.map (beBytes 4))) :
      p.components ≠ [] := fun hnil => hne (by rw [h, hnil]; rfl)
  have hsound : ∀ w', Runs (Serves sdk) (getXpub path) w (.ok xpub) w' →
      (∃ p : WirePath, bip32PathFromString path = some (p.components.map (beBytes 4)) ∧
        extendedKey sdk p.components = some xpub) ∧ PressedSince .approve .xpub w.log w'.log := by
    intro w' h
    obtain ⟨response, w₁, hexchange, hreturn⟩ := runs_bind_ok_iff.1 h
    obtain ⟨data, hdata, hlen, hcall, hserves⟩ := (runs_pathCommand_iff (by decide) hchecked).1 hexchange
    obtain ⟨p, info, hpath, hinfo, rfl, -, hpressed⟩ := hserves.xpub hsdk hw hidle hcall
    obtain ⟨q, hparts, rfl⟩ := (requestedPath_of_pathData hdata hlen).1 hpath
    obtain ⟨hsize, hchain, hfingerprint⟩ := hsdk.of_xpubOf hinfo
    obtain ⟨rfl, rfl⟩ := (runs_cut_iff hsize hchain hfingerprint).1 hreturn
    rw [xpubOf_store (hnotEmpty hparts), Option.map_eq_some_iff] at hinfo
    obtain ⟨key, hkey, rfl⟩ := hinfo
    exact ⟨⟨q, hparts, hkey⟩, hpressed⟩
  refine ⟨⟨?_, ?_⟩, fun w' h => (hsound w' h).2⟩
  · rintro ⟨w', h⟩
    exact (hsound w' h).1
  rintro ⟨p, hparts, hkey⟩
  have hdata := pathData_eq_some hparts
  have hlen : p.bytes.length ≤ 255 := p.length_bytes_le.trans (by decide)
  have hpath := (requestedPath_of_pathData hdata hlen).2 ⟨p, hparts, rfl⟩
  have hinfo : xpubOf sdk (p.store {}) = _ := xpubOf_store (hnotEmpty hparts)
  rw [hkey] at hinfo
  have hcall : callOf (Command.encode ⟨cla, Ins.getXpub, 0, 0, p.bytes⟩) = some (.getXpub p.bytes) :=
    callOf_encode (by decide) (by decide) (by decide) hlen (hchecked _ (List.cons_ne_nil _ _))
  obtain ⟨w', hserves⟩ := exists_serves_xpub hsdk hw hidle hcall hpath hinfo
  refine ⟨w', runs_bind_ok_iff.2 ⟨_, w', (runs_pathCommand_iff (by decide) hchecked).2
    ⟨_, hdata, hlen, hcall, hserves⟩, ?_⟩⟩
  obtain ⟨hsize, hchain, hfingerprint⟩ := hsdk.of_xpubOf hinfo
  exact (runs_cut_iff hsize hchain hfingerprint).2 ⟨rfl, rfl⟩

/-! ### Addresses -/

variable (sdk) in
/-- The screen with the address of a public key. -/
def addressScreen (publicKey : Bytes) : Screen :=
  .address (cstr (b58Address (addressBytes sdk (hash160 sdk ((compressPublicKey publicKey).take 33)))))

theorem confirmedAddress_store (p : WirePath) :
    confirmedAddress sdk (p.store {}) = (keyOf sdk p.components).map fun key =>
      addressBytes sdk (hash160 sdk ((compressPublicKey key.1).take 33)) := by
  rw [← (storedIn_store_empty p).components_eq, confirmedAddress, keyOf]
  cases sdk.derivePrivateKey (p.store {}).components with
  | none => rfl
  | some keys =>
    obtain ⟨privateKey, chainCode⟩ := keys
    cases hpublic : sdk.initPublicKey privateKey with
    | none => simp [hpublic]
    | some publicKey =>
      have hlen : ¬addressLen < 25 := by decide
      simp [hpublic, addressFromPubkey, hlen, addressFromPubkeyHash_eq, addressBytes]

theorem addressRequest_iff (hsdk : sdk.Sized) {data : Bytes}
    (hdata : CommandBuilder.pathData path = some data) (hlen : data.length ≤ 255) :
    AddressRequest sdk data ↔ ∃ (p : WirePath) (key : Bytes × Bytes),
      bip32PathFromString path = some (p.components.map (beBytes 4)) ∧
        keyOf sdk p.components = some key := by
  have hkey (p : WirePath) : deriveKey sdk (p.store {}) = keyOf sdk p.components := by
    rw [← (storedIn_store_empty p).components_eq]
    rfl
  constructor
  · rintro ⟨q, hpath, publicKey, chainCode, hderive, -⟩
    obtain ⟨p, hparts, rfl⟩ := (requestedPath_of_pathData hdata hlen).1 hpath
    exact ⟨p, _, hparts, (hkey p).symm.trans hderive⟩
  · rintro ⟨p, key, hparts, hsome⟩
    have hderive := (hkey p).trans hsome
    exact ⟨p.store {}, (requestedPath_of_pathData hdata hlen).2 ⟨p, hparts, rfl⟩, key.1, key.2,
      hderive, (hsdk.of_deriveKey hderive).1.le⟩

/-- `get_address` can return if the path has a form that the device holds and its key can be derived.
It returns after the user has approved the screen with the address of this key. -/
theorem getAddress_returns_iff (hsdk : sdk.Sized) (hw : Reachable Booted (step sdk) Sequential w)
    (hidle : w.io.state ≠ .waiting) :
    ((∃ w', Runs (Serves sdk) (getAddress path) w (.ok ()) w') ↔
      ∃ (p : WirePath) (key : Bytes × Bytes),
        bip32PathFromString path = some (p.components.map (beBytes 4)) ∧
          keyOf sdk p.components = some key) ∧
    ∀ w', Runs (Serves sdk) (getAddress path) w (.ok ()) w' →
      ∃ (p : WirePath) (key : Bytes × Bytes),
        bip32PathFromString path = some (p.components.map (beBytes 4)) ∧
          keyOf sdk p.components = some key ∧
          PressedSince .approve (addressScreen sdk key.1) w.log w'.log := by
  have hchecked (data : Bytes) (h : data ≠ []) : checkCommand ⟨cla, Ins.getAddress, 0, 0, data⟩ =
      .ok (.getAddress data) := by
    simp [checkCommand, Ins.getVersion, Ins.getAddress, h]
  have hsound : ∀ w', Runs (Serves sdk) (getAddress path) w (.ok ()) w' →
      ∃ (p : WirePath) (key : Bytes × Bytes),
        bip32PathFromString path = some (p.components.map (beBytes 4)) ∧
          keyOf sdk p.components = some key ∧
          PressedSince .approve (addressScreen sdk key.1) w.log w'.log := by
    intro w' h
    obtain ⟨response, hexchange⟩ := runs_discard_ok_iff.1 h
    obtain ⟨data, hdata, hlen, hcall, hserves⟩ := (runs_pathCommand_iff (by decide) hchecked).1 hexchange
    obtain ⟨q, address, hpath, haddress, -, -, hpressed⟩ := hserves.address hw hidle hcall
    obtain ⟨p, hparts, rfl⟩ := (requestedPath_of_pathData hdata hlen).1 hpath
    rw [confirmedAddress_store, Option.map_eq_some_iff] at haddress
    obtain ⟨key, hkey, rfl⟩ := haddress
    exact ⟨p, key, hparts, hkey, hpressed⟩
  refine ⟨⟨?_, ?_⟩, hsound⟩
  · rintro ⟨w', h⟩
    obtain ⟨p, key, hparts, hkey, -⟩ := hsound w' h
    exact ⟨p, key, hparts, hkey⟩
  · rintro ⟨p, key, hparts, hkey⟩
    have hdata := pathData_eq_some hparts
    have hlen : p.bytes.length ≤ 255 := p.length_bytes_le.trans (by decide)
    have hcall : callOf (Command.encode ⟨cla, Ins.getAddress, 0, 0, p.bytes⟩) =
        some (.getAddress p.bytes) :=
      callOf_encode (by decide) (by decide) (by decide) hlen (hchecked _ (List.cons_ne_nil _ _))
    obtain ⟨-, w', hserves⟩ := exists_serves_of_accepted hw hidle hcall rfl requested_of_getAddress
      wp_handlerGetAddress_shown ((addressRequest_iff hsdk hdata hlen).2 ⟨p, key, hparts, hkey⟩)
    exact ⟨w', runs_discard_ok_iff.2 ⟨_, (runs_pathCommand_iff (by decide) hchecked).2
      ⟨_, hdata, hlen, hcall, hserves⟩⟩⟩

/-! ### Versions -/

/-- The answer of `GET_VERSION`. -/
theorem serves_getVersion_iff (hw : Reachable Booted (step sdk) Sequential w)
    (hidle : w.io.state ≠ .waiting) {apdu response : Bytes} (hcall : callOf apdu = some .getVersion) :
    (∃ w', Serves sdk w apdu (Sw.ok, response) w') ↔ response = [0x48, 0x54, 0x52] ++ appVersion := by
  obtain ⟨ends, g', hhandled, hglobals, hio⟩ := exists_handled sdk hw hcall
  cases hhandled with
  | getVersion =>
    rw [hio] at hglobals
    constructor
    · rintro ⟨w', h⟩
      exact (data_of_responseBody (h.answer_eq hw hidle hglobals)).symm
    · rintro rfl
      exact ⟨_, serves_of_reply hglobals rfl rfl Sw.ok_lt⟩

/-- `get_version` can return the name and the version of the app, and nothing else. -/
theorem getVersion_returns_iff (hw : Reachable Booted (step sdk) Sequential w)
    (hidle : w.io.state ≠ .waiting) {version : Bytes × UInt8 × UInt8 × UInt8} :
    (∃ w', Runs (Serves sdk) getVersion w (.ok version) w') ↔
      version = ([0x48, 0x54, 0x52], 1, 1, 1) := by
  have hcall : callOf (Command.encode ⟨cla, Ins.getVersion, 0, 0, []⟩) = some .getVersion :=
    callOf_encode (by decide) (by decide) (by decide) (by decide) rfl
  have hcommand : CommandBuilder.getVersion = some (Command.encode ⟨cla, Ins.getVersion, 0, 0, []⟩) :=
    (@serialize_eq_some_iff cla Ins.getVersion 0 0 [] _).2 ⟨by decide, rfl⟩
  constructor
  · rintro ⟨w', h⟩
    obtain ⟨response, v, hexchange, hreturn⟩ := runs_bind_ok_iff.1 h
    obtain ⟨apdu, hapdu, hserves⟩ := runs_exchange_ok_iff.1 hexchange
    obtain rfl := Option.some.inj (hapdu.symm.trans hcommand)
    obtain rfl := (serves_getVersion_iff hw hidle hcall).1 ⟨v, hserves⟩
    exact Except.ok.inj (runs_pure_iff.1 hreturn).1
  · rintro rfl
    obtain ⟨w', hserves⟩ : ∃ w', Serves sdk w _ (Sw.ok, [0x48, 0x54, 0x52] ++ appVersion) w' :=
      (serves_getVersion_iff hw hidle hcall).2 rfl
    exact ⟨w', runs_bind_ok_iff.2 ⟨_, w', runs_exchange_ok_iff.2 ⟨_, hcommand, hserves⟩,
      runs_pure_iff.2 ⟨rfl, rfl⟩⟩⟩

/-! ### An example -/

/-- The sample platform with digests of full size. -/
def sizedSdk : Sdk :=
  { Sdk.sample with ripemd160 := fun m => (m ++ List.replicate pubkeyHashLen 0).take pubkeyHashLen }

theorem sized_sizedSdk : sizedSdk.Sized where
  publicKey key publicKey h := by
    obtain rfl := Option.some.inj h
    rw [List.length_take, List.length_append, List.length_cons, List.length_replicate, rawPubkeyLen]
    omega
  chainCode path key chainCode h := by
    obtain ⟨-, rfl⟩ := Prod.mk.inj (Option.some.inj h)
    exact List.length_replicate
  ripemd160 m := by
    change ((m ++ List.replicate pubkeyHashLen 0).take pubkeyHashLen).length = pubkeyHashLen
    rw [List.length_take, List.length_append, List.length_replicate]
    omega

/-- The path "44'/1". -/
def samplePath : WirePath := ⟨[0x8000002C, 1], by decide, by decide, nofun, nofun⟩

/-- The text of the path. -/
def samplePathText : List Char := ['4', '4', quote, '/', '1']

theorem bip32PathFromString_samplePathText :
    bip32PathFromString samplePathText = some (samplePath.components.map (beBytes 4)) := by
  decide +kernel

theorem getXpub_returns_sample :
    ∃ xpub w', Runs (Serves sizedSdk) (getXpub samplePathText) sampleBoot (.ok xpub) w' := by
  obtain ⟨xpub, hkey⟩ : ∃ xpub, extendedKey sizedSdk samplePath.components = some xpub := ⟨_, rfl⟩
  have hne : bip32PathFromString samplePathText ≠ some [] := by
    rw [bip32PathFromString_samplePathText]
    decide
  obtain ⟨w', h⟩ := (getXpub_returns_iff sized_sizedSdk (.start booted_sampleBoot) (by decide)
    hne).1.2 ⟨samplePath, bip32PathFromString_samplePathText, hkey⟩
  exact ⟨xpub, w', h⟩

theorem getAddress_returns_sample :
    ∃ w', Runs (Serves sizedSdk) (getAddress samplePathText) sampleBoot (.ok ()) w' := by
  obtain ⟨key, hkey⟩ : ∃ key, keyOf sizedSdk samplePath.components = some key := ⟨_, rfl⟩
  exact (getAddress_returns_iff sized_sizedSdk (.start booted_sampleBoot) (by decide)).1.2
    ⟨samplePath, key, bip32PathFromString_samplePathText, hkey⟩

end HathorLedger.Client
