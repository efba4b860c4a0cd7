import HathorLedger.Handler.SignTx

/-!
# The handlers of the other commands

`GET_VERSION`, `GET_ADDRESS`, `GET_XPUB`, `SIGN_TOKEN_DATA`, `SEND_TOKEN_DATA`,
`VERIFY_TOKEN_SIGNATURE` and `RESET_TOKEN_SIGNATURES`, from the files of `handler/` and from
`check_token_signature_from_apdu` of `token/signature.c`.
-/

namespace HathorLedger

variable (sdk : Sdk)

/-- The version bytes of the build: `MAJOR_VERSION`, `MINOR_VERSION` and `PATCH_VERSION`. -/
def appVersion : Bytes := [1, 1, 1]

def handlerGetVersion : App ℤ :=
  modifyGet (ioSendResponse (some ([0x48, 0x54, 0x52] ++ appVersion)) Sw.ok)

/-! ### Addresses and public keys -/

/-- The key of the path in the context: the public key and the chain code. -/
def deriveKey (path : Bip32Path) : Option (Bytes × Bytes) := do
  let (privateKey, chainCode) ← sdk.derivePrivateKey path.components
  let publicKey ← sdk.initPublicKey privateKey
  return (publicKey, chainCode)

/-- `derive_address`. -/
def deriveAddress : App Unit := do
  modify fun w => w.emit (.derived w.ctx.bip32Path)
  let w ← get
  match deriveKey sdk w.ctx.bip32Path with
  | none => throw Sw.internalError
  | some (publicKey, _) =>
    if rawPubkeyLen < publicKey.length then throw Sw.internalError
    else set { w with ctx := w.ctx.writePkInfo 0 publicKey }

def handlerGetAddress (cdata : Buffer) : App ℤ := do
  modify explicitBzeroContext
  let w ← get
  let (accepted, path, _) := cdata.readBip32Path w.ctx.bip32Path
  set { w with ctx.reqType := .confirmAddress, ctx.state := .none, ctx.bip32Path := path }
  if !accepted then modifyGet (ioSendSw Sw.wrongDataLength)
  else
    deriveAddress sdk
    modifyGet (uiDisplayConfirmAddress sdk)

/-- The path of the parent key: `derive_xpub` passes the length `length - 1`, which wraps around for
the empty path. -/
def parentPath (path : Bip32Path) : Bip32Path :=
  { length := u8 (path.length + 255),
    path := path.path.take (path.length - 1) ++
      List.replicate (maxBip32Path - (path.length - 1)) 0 }

/-- The first four bytes of the hash of the parent's public key. -/
def parentFingerprint (path : Bip32Path) : Option Bytes := do
  let (publicKey, _) ← deriveKey sdk (parentPath path)
  return (hash160 sdk ((compressPublicKey publicKey).take 33)).take fingerprintLen

/-- `derive_xpub`. The key and the chain code are stored before the parent is derived. -/
def deriveXpub : App Unit := do
  modify fun w => w.emit (.derived w.ctx.bip32Path)
  let w ← get
  match deriveKey sdk w.ctx.bip32Path with
  | none => throw Sw.internalError
  | some (publicKey, chainCode) =>
    if rawPubkeyLen < publicKey.length then throw Sw.internalError
    else
      let ctx := (w.ctx.writePkInfo 0 publicKey).writePkInfo rawPubkeyLen
        (chainCode.take chaincodeLen)
      let w := w.emit (.derived (parentPath w.ctx.bip32Path))
      match parentFingerprint sdk w.ctx.bip32Path with
      | none =>
        set { w with ctx }
        throw Sw.internalError
      | some fingerprint =>
        let ctx := ctx.writePkInfo (rawPubkeyLen + chaincodeLen) fingerprint
        set ({ w with ctx }.emit (.xpubDerived ctx.bip32Path.components ctx.pkInfo))

def handlerGetXpub (cdata : Buffer) : App ℤ := do
  modify explicitBzeroContext
  let w ← get
  let (accepted, path, _) := cdata.readBip32Path w.ctx.bip32Path
  set { w with ctx.reqType := .confirmXpub, ctx.state := .none, ctx.bip32Path := path }
  if !accepted then modifyGet (ioSendSw Sw.wrongDataLength)
  else
    deriveXpub sdk
    modifyGet uiDisplayXpubConfirm

/-! ### Token data -/

def handlerSignTokenData (cdata : Buffer) : App ℤ := do
  modify explicitBzeroContext
  let w ← get
  let (accepted, token, _) := parseToken cdata w.ctx.token
  set { w with ctx.token := token }
  if !accepted then modifyGet (ioSendSw Sw.invalidSignature)
  else modifyGet uiDisplaySignTokenData

/-- The results of `check_token_signature_from_apdu`: `0`, `1` and the errors. -/
inductive TokenCheck
  | valid (secret : Bytes) (token : Token) (signature : Bytes)
  | invalid
  | malformed
  deriving DecidableEq, Repr

/-- `check_token_signature_from_apdu`. The secret is not touched before the bytes are parsed. -/
def checkTokenSignatureFromApdu (cdata : Buffer) (w : World) : TokenCheck × World :=
  match parseToken cdata {} with
  | (false, _, _) => (.malformed, w)
  | (true, token, cdata) =>
    match cdata.readBytes (List.replicate 32 0) 32 32 with
    | (false, _, _) => (.malformed, w)
    | (true, signature, _) =>
      let (secret, w) := getSecret sdk w
      if verifyTokenSignature sdk secret token signature then (.valid secret token signature, w)
      else (.invalid, w)

def handlerVerifyTokenSignature (cdata : Buffer) : App ℤ := do
  modify explicitBzeroContext
  match ← modifyGet (checkTokenSignatureFromApdu sdk cdata) with
  | .valid _ _ _ => modifyGet (ioSendSw Sw.ok)
  | .invalid => modifyGet (ioSendSw Sw.invalidSignature)
  | .malformed => modifyGet (ioSendSw Sw.internalError)

/-- The registry with one more entry. The cells of a symbol behind its NUL keep their values. -/
def TokenDataCtx.store (registry : TokenDataCtx) (token : Token) : TokenDataCtx :=
  let entry := registry.tokens.getD registry.len {}
  { len := registry.len + 1,
    tokens := registry.tokens.set registry.len
      { uid := token.uid, symbol := memmove entry.symbol 0 (token.symbolBytes ++ [0]) } }

/-- The part of `handler_send_token_data` behind the case of a first token. -/
def storeTokenData (cdata : Buffer) : App ℤ := do
  let w ← get
  if w.tokenSymbols.len ≥ txMaxTokens then
    modify explicitBzeroTokenSymbols
    modifyGet (ioSendSw Sw.wrongDataLength)
  else
    match ← modifyGet (checkTokenSignatureFromApdu sdk cdata) with
    | .invalid => modifyGet (ioSendSw Sw.invalidSignature)
    | .malformed => modifyGet (ioSendSw Sw.internalError)
    | .valid secret token signature =>
      if token.symbolLen > maxTokenSymbolLen then
        modify fun w => { w with
          tokenSymbols.len := w.tokenSymbols.len + 1
          tokenSymbols.tokens := w.tokenSymbols.tokens.set w.tokenSymbols.len
            { w.tokenSymbols.tokens.getD w.tokenSymbols.len {} with uid := token.uid } }
        modifyGet (ioSendSw Sw.wrongDataLength)
      else
        modify fun w => { w with tokenSymbols := w.tokenSymbols.store token }.emit
          (.tokenAccepted secret token signature)
        modifyGet (ioSendSw Sw.ok)

/-- `handler_send_token_data`. -/
def handlerSendTokenData (first : Bool) (cdata : Buffer) : App ℤ := do
  if first then modify (explicitBzeroTokenSymbols ∘ explicitBzeroContext)
  storeTokenData sdk cdata

def handlerResetTokenSignatures : App ℤ := modifyGet uiDisplayResetTokenSignaturesConfirm

end HathorLedger
