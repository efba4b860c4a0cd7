import HathorLedger.Transaction.Deserialize
import HathorLedger.Ui.Display

/-!
# The handler of `SIGN_TX`

The functions of `handler/sign_tx.c`. The readers of a first chunk and the decoder work on the
transaction record alone (`TxInfo`), and throw status words or the values of `tx_decoder_state_e`.

## Main definitions

* `verifyChange`: whether an output belongs to the key of a declared path.
* `readChangeInfo`, `readTxData`: the readers of a first chunk.
* `decodeElementsStep`, `decodeElements`: `_decode_elements` and `decode_elements`.
* `receiveData`, `signTxWithKey`, `handlerSignTx`: the stages of the command.
-/

namespace HathorLedger

open EStateM (embed require zoom)

variable (sdk : Sdk)

/-! ### Change verification -/

/-- The hash of the public key of a path, or `none` where a call of the SDK fails. -/
def pubkeyHashOfPath (path : Bip32Path) : Option Bytes := do
  let (privateKey, _) ← sdk.derivePrivateKey path.components
  let publicKey ← sdk.initPublicKey privateKey
  return hash160 sdk ((compressPublicKey publicKey).take 33)

/-- `verify_change`. -/
def verifyChange (info : ChangeOutputInfo) (output : TxOutput) : Except ℕ Bool :=
  match pubkeyHashOfPath sdk info.path with
  | none => .error Sw.internalError
  | some hash => .ok (hash.take pubkeyHashLen == output.pubkeyHash.take pubkeyHashLen)

/-- The loop of `_decode_elements` over the change entries: every entry with the index of the
output must verify. -/
def verifyChanges (output : TxOutput) : List ChangeOutputInfo → Except ℕ Unit
  | [] => .ok ()
  | info :: infos => do
    if output.index = info.index then
      let valid ← verifyChange sdk info output
      Except.require valid TxState.err
    verifyChanges output infos

/-! ### Reading a first chunk -/

/-- The loop of `read_change_info_v1` from entry `i` on, with `n` entries left to read. -/
def readChangeEntries : ℕ → ℕ → Buffer → EStateM ℕ TxInfo Buffer
  | 0, _, cdata => pure cdata
  | n + 1, i, cdata => do
    let t ← get
    let info := t.changeInfo.getD i {}
    let (complete, index, cdata) := cdata.readU8
    modify fun t => { t with changeInfo := t.changeInfo.set i { info with index } }
    require complete Sw.wrongDataLength
    let (accepted, path, cdata) := cdata.readBip32Path info.path
    modify fun t => { t with changeInfo := t.changeInfo.set i { index, path } }
    require accepted Sw.wrongDataLength
    readChangeEntries n (i + 1) cdata

/-- `read_change_info_v1`. -/
def readChangeInfoV1 (cdata : Buffer) : EStateM ℕ TxInfo Buffer := do
  let (complete, changeLen, cdata) := cdata.readU8
  modify fun t => { t with changeLen }
  require complete Sw.wrongDataLength
  require (changeLen ≤ txMaxTokens + 1) Sw.wrongDataLength
  readChangeEntries changeLen 0 cdata

/-- `read_change_info_old_protocol`. The path is read from a copy of its encoding, in an array of
zeros whose size is that of the longest path. -/
def readChangeInfoOldProtocol (changeByte : ℕ) (cdata : Buffer) : EStateM ℕ TxInfo Buffer := do
  modify fun t => { t with changeLen := 1 }
  let t ← get
  let info := t.changeInfo.getD 0 {}
  let (complete, index, cdata) := cdata.readU8
  modify fun t => { t with changeInfo := t.changeInfo.set 0 { info with index } }
  require complete Sw.wrongDataLength
  let length := changeByte % 16
  require (length ≤ maxBip32Path) Sw.wrongDataLength
  require (sizeSub cdata.size cdata.offset ≥ 4 * length) Sw.wrongDataLength
  let buffer := memmove (UInt8.ofNat length :: List.replicate (4 * maxBip32Path) 0) 1
    ((cdata.ptr.drop cdata.offset).take (4 * length))
  let (_, cdata) := cdata.seekCur (4 * length)
  let bufdata : Buffer := { ptr := buffer, size := 1 + 4 * maxBip32Path, offset := 0 }
  let (accepted, path, _) := bufdata.readBip32Path info.path
  modify fun t => { t with changeInfo := t.changeInfo.set 0 { index, path } }
  require accepted Sw.wrongDataLength
  return cdata

/-- `read_change_info`. -/
def readChangeInfo (cdata : Buffer) : EStateM ℕ TxInfo Buffer := do
  let (complete, protoVersion, cdata) := cdata.readU8
  require complete Sw.wrongDataLength
  if protoVersion = 0 then
    modify fun t => { t with changeLen := 0 }
    return cdata
  else if protoVersion ≥ 0x80 then readChangeInfoOldProtocol protoVersion cdata
  else if protoVersion = 1 then readChangeInfoV1 cdata
  else throw Sw.invalidTx

/-- `read_tx_data`. -/
def readTxData (cdata : Buffer) : EStateM ℕ TxInfo Buffer := do
  let (complete, txVersion, cdata) := cdata.readU16 .be
  modify fun t => { t with txVersion }
  require complete Sw.wrongDataLength
  let (complete, remainingTokens, cdata) := cdata.readU8
  modify fun t => { t with remainingTokens }
  require complete Sw.wrongDataLength
  let (complete, remainingInputs, cdata) := cdata.readU8
  modify fun t => { t with remainingInputs }
  require complete Sw.wrongDataLength
  let (complete, outputsLen, cdata) := cdata.readU8
  modify fun t => { t with outputsLen }
  require complete Sw.wrongDataLength
  return cdata

/-! ### Decoding -/

/-- Drop the first `n` pending bytes: `buffer_len` shrinks and the rest moves to the front. -/
def TxInfo.consume (n : ℕ) (t : TxInfo) : TxInfo :=
  let bufferLen := sizeSub t.bufferLen n
  { t with bufferLen, buffer := memmove t.buffer 0 ((t.buffer.drop n).take bufferLen) }

/-- The token branch of `_decode_elements`. -/
def decodeToken (registry : TokenDataCtx) : EStateM ℕ TxInfo Unit := do
  let t ← get
  require (t.bufferLen ≥ tokenUidLen) TxState.ready
  match findTokenRegistryIndex registry (t.buffer.take tokenUidLen) with
  | none => throw TxState.err
  | some registryIndex =>
    -- no check that `tokens` has a free cell
    set { t with tokens := t.tokens ++ [registryIndex], remainingTokens := t.remainingTokens - 1 }
    modify (TxInfo.consume tokenUidLen)

/-- The input branch of `_decode_elements`. -/
def decodeInput : EStateM ℕ TxInfo Unit := do
  let t ← get
  require (t.bufferLen ≥ txInputLen) TxState.ready
  require (readU16Be t.buffer 33 = 0) TxState.err
  set { t with remainingInputs := t.remainingInputs - 1 }
  modify (TxInfo.consume txInputLen)

/-- The output branch of `_decode_elements`. -/
def decodeOutput : EStateM ℕ TxInfo Unit := do
  let t ← get
  let (output, outputLen) ← embed (parseOutput t.buffer t.bufferLen)
  require (!isAuthority output.tokenData) TxState.err
  require (tokenIndex output.tokenData ≤ t.tokensLen) TxState.err
  let output := { output with index := t.currentOutput }
  set { t with currentOutput := u8 (t.currentOutput + 1) }
  embed (verifyChanges sdk output t.changeEntries)
  modify (TxInfo.consume outputLen)
  let t ← get
  require (t.bufferOutputLen < outputCells) TxState.err
  set { t with
    outputs := t.outputs.set t.bufferOutputLen output
    bufferOutputLen := t.bufferOutputLen + 1 }

/-- `_decode_elements`: decode one element, and return whether more bytes are pending. -/
def decodeElementsStep (registry : TokenDataCtx) : EStateM ℕ TxInfo Bool := do
  let t ← get
  if t.remainingTokens > 0 then decodeToken registry
  else if t.remainingInputs > 0 then decodeInput
  else if t.currentOutput < t.outputsLen then decodeOutput sdk
  else throw TxState.err
  let t ← get
  return t.bufferLen != 0

/-- The loop of `decode_elements`, for at most `n` elements. -/
def decodeElementsLoop (registry : TokenDataCtx) : ℕ → EStateM ℕ TxInfo Unit
  | 0 => pure ()
  | n + 1 => do
    let more ← decodeElementsStep sdk registry
    if more then decodeElementsLoop registry n else pure ()

/-- `decode_elements`: the state of the decoder. Each element takes at least one pending byte, which
bounds the loop. -/
def decodeElements (registry : TokenDataCtx) (t : TxInfo) : ℕ × TxInfo :=
  match (decodeElementsLoop sdk registry (t.bufferLen + 1)).run t with
  | .ok _ t => (TxState.ready, t)
  | .error e t => (if e = Sw.txParsingFail then TxState.err else e, t)

/-! ### The data stage -/

/-- `sighash_all_hash`. -/
def sighashAllHash (cdata : Buffer) (w : World) : World :=
  (w.modifyTx fun t => { t with sha256 := t.sha256.update cdata.rest }).emit (.hashed cdata.rest)

/-- `init_sign_tx_ctx`. -/
def initSignTxCtx (w : World) : World :=
  let w := explicitBzeroContext w
  { w with
    ctx.reqType := .confirmTransaction
    ctx.state := .recvData
    ctx.txInfo.sha256 := .fed [] }.emit .txInit

/-- Copy the rest of a chunk behind the pending bytes. -/
def copyToDecodeBuffer (cdata : Buffer) : EStateM ℕ TxInfo Unit := do
  let t ← get
  let (complete, buffer) :=
    cdata.copy t.buffer t.bufferLen (sizeSub bufferCells t.bufferLen)
  set { t with buffer }
  require complete Sw.wrongDataLength
  modify fun t => { t with bufferLen := t.bufferLen + sizeSub cdata.size cdata.offset }

/-- Run a computation on the transaction record of the context. -/
def onTx {α : Type} (x : EStateM ℕ TxInfo α) : App α :=
  zoom (fun w => w.ctx.txInfo) (fun t w => { w with ctx.txInfo := t }) x

/-- The first part of `receive_data`: read the chunk, hash it and queue it for the decoder. -/
def receiveChunk (cdata : Buffer) (chunk : ℕ) : App Unit := do
  if chunk = 0 then
    let w ← get
    if w.ctx.state = .recvData then
      modify explicitBzeroContext
      throw Sw.badState
    else
      modify initSignTxCtx
      let cdata ← onTx (readChangeInfo cdata)
      modify (sighashAllHash cdata)
      let cdata ← onTx (readTxData cdata)
      onTx (copyToDecodeBuffer cdata)
      modify (World.emit .firstChunkRead)
  else
    modify (sighashAllHash cdata)
    onTx (copyToDecodeBuffer cdata)

/-- What `decode_elements` has done in going from one record to another. It runs over the change
entries for every output that it reaches, and derives the paths of those that are declared for it,
until one of them fails. -/
def decodeEvents (t t' : TxInfo) : List Event :=
  let derived := t.changeEntries.filter fun info =>
    t.currentOutput ≤ info.index ∧ info.index < t'.currentOutput
  let changes :=
    if t'.currentOutput = t.currentOutput then []
    else derived.map (fun info => .derived info.path) ++ [.changesRead t.changeLen]
  changes ++ [.decoded t'.tokensLen]

/-- Record what `decode_elements` has done. -/
def recordDecoded (t t' : TxInfo) (w : World) : World :=
  { w with trace := decodeEvents t t' ++ w.trace }

/-- The second part of `receive_data`: decode what is queued, and go on with the review. -/
def decodeChunk : App Bool := do
  let w ← get
  let (result, t) := decodeElements sdk w.tokenSymbols w.ctx.txInfo
  set (recordDecoded w.ctx.txInfo t { w with ctx.txInfo := t })
  if result = TxState.err then
    modify explicitBzeroContext
    let _ ← modifyGet (ioSendSw Sw.invalidTx)
    modify uiMenuMain
    return true
  else if result = TxState.ready then
    if t.bufferOutputLen ≠ 0 then
      modify (uiDisplayTxOutputs sdk)
      return true
    else
      let _ ← modifyGet (ioSendSw Sw.ok)
      return true
  else return false

/-- `receive_data`: whether the command is answered or waits for the user. -/
def receiveData (cdata : Buffer) (chunk : ℕ) : App Bool := do
  receiveChunk cdata chunk
  decodeChunk sdk

/-! ### The sign stage -/

/-- The lazy end of the transaction hash in `sign_tx_with_key`: while the first byte of
`sighash_all` is zero, the digest of the digest is computed from the hash context. `none` stands for
an error of the SDK. -/
def finishSighashAll (t : TxInfo) : Option TxInfo :=
  if byteAt t.sighashAll 0 = 0 then do
    let (digest, _) ← sdk.hashLast t.sha256 []
    let (digest, sha256) ← sdk.hashLast (.fed []) digest
    return { t with sighashAll := digest, sha256 }
  else some t

/-- `sign_tx_with_key`: whether the answer went out as the code expects it. -/
def signTxWithKey : App Bool := do
  let w ← get
  if w.ctx.bip32Path.length = 0 then
    let ret ← modifyGet (ioSendSw Sw.signatureFail)
    return ret > 0
  else
    modify (World.emit (.derived w.ctx.bip32Path))
    match sdk.derivePrivateKey w.ctx.bip32Path.components with
    | none =>
      let ret ← modifyGet (ioSendSw Sw.internalError)
      return ret > 0
    | some (privateKey, _) =>
      match finishSighashAll sdk w.ctx.txInfo with
      | none =>
        let ret ← modifyGet (ioSendSw Sw.internalError)
        return ret > 0
      | some t =>
        modify (World.emit .hashFinished ∘ World.modifyTx fun _ => t)
        match sdk.ecdsaSign privateKey t.sighashAll with
        | none =>
          let ret ← modifyGet (ioSendSw Sw.internalError)
          return ret > 0
        | some signature =>
          modify (World.emit (.signed w.ctx.bip32Path.components t.sighashAll signature))
          let ret ← modifyGet (ioSendResponse (some signature) Sw.ok)
          return ret ≥ 0

/-! ### The command -/

/-- `handler_sign_tx`, with the stage as the value of `P1`. -/
def handlerSignTx (cdata : Buffer) (stage chunk : ℕ) : App ℤ := do
  modify (World.modifyTx fun t => { t with displayIndex := 0, bufferOutputLen := 0 })
  let w ← get
  if stage = 2 then
    modify (uiMenuMain ∘ explicitBzeroContext)
    modifyGet (ioSendSw Sw.ok)
  else if stage = 1 then
    if w.ctx.state ≠ .approved then modifyGet (ioSendSw Sw.badState)
    else
      let (accepted, path, _) := cdata.readBip32Path w.ctx.bip32Path
      set { w with ctx.bip32Path := path }
      if !accepted then modifyGet (ioSendSw Sw.wrongDataLength)
      else
        let signed ← signTxWithKey sdk
        return if signed then 0 else -1
  else if stage = 0 then
    if w.ctx.state = .approved ∨ (chunk > 0 ∧ w.ctx.state ≠ .recvData) then
      modify (uiMenuMain ∘ explicitBzeroContext)
      modifyGet (ioSendSw Sw.badState)
    else
      let received ← receiveData sdk cdata chunk
      return if received then 0 else -1
  else
    modify (uiMenuMain ∘ explicitBzeroContext)
    modifyGet (ioSendSw Sw.badState)

end HathorLedger
