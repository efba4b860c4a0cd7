import HathorLedger.Common.Memory

/-!
# Constants and data types of the app

The constants of `constants.h`, `types.h`, `sw.h`, `token/types.h` and `transaction/types.h`, and
the records of the global context `G_context` and of the token registry `G_token_symbols`.

`G_context` overlays the public-key record `pk_info` and the transaction record `tx_info` in one
union. All fields of `pk_info` that the code uses lie inside the cells of `tx_info.buffer`, behind
the 24 bytes of the unused `key_path`, so the union is the transaction record and
`GlobalCtx.pkInfo` reads the other member out of those cells.

The array `tokens` of `sign_tx_ctx_t` has `TX_MAX_TOKENS` cells in C. Here it is the list of the
pointers stored so far, which `_decode_elements` extends without a bound check, so that the bound is
a statement about runs and not about the type.

## Main definitions

* `Sw.ok`, `Sw.deny`, ...: the status words; `TxState.ready`, `TxState.err`: the two values of
  `tx_decoder_state_e`, which are also thrown as exceptions.
* `Bip32Path`, `ChangeOutputInfo`, `TxOutput`, `Token`, `TokenSymbol`, `TokenDataCtx`.
* `TxInfo`, `GlobalCtx`: the transaction context and the global context.
-/

namespace HathorLedger

/-! ### Constants -/

def cla : ℕ := 0xE0
def addressLen : ℕ := 25
def b58AddressLen : ℕ := 35
def txInputLen : ℕ := 35
def pubkeyHashLen : ℕ := 20
def secretLen : ℕ := 32
def txMaxTokens : ℕ := 10
def tokenUidLen : ℕ := 32
def maxTokenSymbolLen : ℕ := 5
def maxTokenNameLen : ℕ := 30
def maxBip32Path : ℕ := 5
def maxDerivationIndex : ℕ := 2 ^ 20
def chaincodeLen : ℕ := 32
def fingerprintLen : ℕ := 4
def rawPubkeyLen : ℕ := 65
def bufferCells : ℕ := 300
def outputCells : ℕ := 10
def ioApduBufferSize : ℕ := 260

/-- `TOKEN_DATA_AUTHORITY_MASK`: the top bit of `token_data` marks an authority output. -/
def isAuthority (tokenData : UInt8) : Bool := tokenData &&& 0x80 != 0

/-- `token_data & TOKEN_DATA_INDEX_MASK`. -/
def tokenIndex (tokenData : UInt8) : ℕ := (tokenData &&& 0x7F).toNat

namespace Sw

def ok : ℕ := 0x9000
def deny : ℕ := 0x6985
def wrongP1P2 : ℕ := 0x6A86
def wrongDataLength : ℕ := 0x6A87
def insNotSupported : ℕ := 0x6D00
def claNotSupported : ℕ := 0x6E00
def wrongResponseLength : ℕ := 0xB000
def txParsingFail : ℕ := 0xB005
def badState : ℕ := 0xB007
def signatureFail : ℕ := 0xB008
def invalidTx : ℕ := 0xB009
def invalidSignature : ℕ := 0xB00A
def internalError : ℕ := 0xB00B

end Sw

namespace TxState

def err : ℕ := 1
def ready : ℕ := 2

end TxState

/-! ### Enumerations -/

/-- `state_e`, the state of the context. -/
inductive State
  | none
  | recvData
  | parsed
  | approved
  deriving DecidableEq, Repr

/-- `request_type_e`. A wiped context holds the first of them. -/
inductive RequestType
  | confirmAddress
  | confirmXpub
  | confirmTransaction
  deriving DecidableEq, Repr

/-- `io_state_e`. -/
inductive IoState
  | ready
  | received
  | waiting
  deriving DecidableEq, Repr

/-! ### Records -/

/-- `bip32_path_t`, with the five cells of `path`. -/
structure Bip32Path where
  length : ℕ := 0
  path : List ℕ := List.replicate maxBip32Path 0
  deriving DecidableEq, Repr

/-- The components that a derivation reads: the first `length` cells. -/
def Bip32Path.components (p : Bip32Path) : List ℕ := p.path.take p.length

/-- `change_output_info_t`. -/
structure ChangeOutputInfo where
  index : ℕ := 0
  path : Bip32Path := {}
  deriving DecidableEq, Repr

/-- `tx_output_t`. -/
structure TxOutput where
  index : ℕ := 0
  value : ℕ := 0
  tokenData : UInt8 := 0
  pubkeyHash : Bytes := List.replicate pubkeyHashLen 0
  deriving DecidableEq, Repr

/-- `token_t`, with the cells of `symbol` and `name`. -/
structure Token where
  uid : Bytes := List.replicate tokenUidLen 0
  symbolLen : ℕ := 0
  symbol : Bytes := List.replicate maxTokenSymbolLen 0
  nameLen : ℕ := 0
  name : Bytes := List.replicate maxTokenNameLen 0
  version : UInt8 := 0
  deriving DecidableEq, Repr

/-- The bytes of the symbol field that its length covers. -/
def Token.symbolBytes (t : Token) : Bytes := t.symbol.take t.symbolLen

/-- The bytes of the name field that its length covers. -/
def Token.nameBytes (t : Token) : Bytes := t.name.take t.nameLen

/-- `token_symbol_t`. -/
structure TokenSymbol where
  uid : Bytes := List.replicate tokenUidLen 0
  symbol : Bytes := List.replicate (maxTokenSymbolLen + 1) 0
  deriving DecidableEq, Repr

/-- `token_data_ctx_t`, the registry of tokens that `SEND_TOKEN_DATA` fills. -/
structure TokenDataCtx where
  len : ℕ := 0
  tokens : List TokenSymbol := List.replicate txMaxTokens {}
  deriving DecidableEq, Repr

/-- A `cx_sha256_t` context: all bytes zero, or initialised and fed with some bytes. -/
inductive Sha256Ctx
  | zeroed
  | fed (data : Bytes)
  deriving DecidableEq, Repr

/-- Feeding bytes to a hash context. A context that was never initialised stays as it is. -/
def Sha256Ctx.update : Sha256Ctx → Bytes → Sha256Ctx
  | .zeroed, _ => .zeroed
  | .fed data, more => .fed (data ++ more)

/-- `sign_tx_ctx_t`. The length `tokens_len` is the length of the list `tokens`; the fields
`change_output_index`, `change_bip32_path` and `decoded_output` are used by no function. -/
structure TxInfo where
  buffer : Bytes := List.replicate bufferCells 0
  bufferLen : ℕ := 0
  sha256 : Sha256Ctx := .zeroed
  sighashAll : Bytes := List.replicate 32 0
  changeLen : ℕ := 0
  changeInfo : List ChangeOutputInfo := List.replicate (1 + txMaxTokens) {}
  txVersion : ℕ := 0
  remainingTokens : ℕ := 0
  remainingInputs : ℕ := 0
  outputsLen : ℕ := 0
  currentOutput : ℕ := 0
  displayIndex : ℕ := 0
  confirmedOutputs : ℕ := 0
  bufferOutputLen : ℕ := 0
  outputs : List TxOutput := List.replicate outputCells {}
  tokens : List ℕ := []
  deriving DecidableEq, Repr

namespace TxInfo

/-- `tokens_len`. -/
def tokensLen (t : TxInfo) : ℕ := t.tokens.length

/-- The bytes that wait to be decoded, `buffer[0 .. buffer_len)`. -/
def pending (t : TxInfo) : Bytes := t.buffer.take t.bufferLen

/-- The declared change entries, `change_info[0 .. change_len)`. -/
def changeEntries (t : TxInfo) : List ChangeOutputInfo := t.changeInfo.take t.changeLen

/-- The indices of the declared change entries, in the order they were sent. -/
def changeIndices (t : TxInfo) : List ℕ := t.changeEntries.map ChangeOutputInfo.index

end TxInfo

/-- `global_ctx_t`. The member `pk_info` of its union is read out of `txInfo.buffer`. -/
structure GlobalCtx where
  state : State := .none
  txInfo : TxInfo := {}
  reqType : RequestType := .confirmAddress
  bip32Path : Bip32Path := {}
  token : Token := {}
  deriving DecidableEq, Repr

/-- `xpub_ctx_t` without its unused `key_path`. -/
structure PkInfo where
  rawPublicKey : Bytes
  chainCode : Bytes
  fingerprint : Bytes
  deriving DecidableEq, Repr

/-- The offset of `raw_public_key` in the union, behind `key_path`. -/
def pkInfoOffset : ℕ := 24

/-- The member `pk_info` of the union. -/
def GlobalCtx.pkInfo (c : GlobalCtx) : PkInfo where
  rawPublicKey := (c.txInfo.buffer.drop pkInfoOffset).take rawPubkeyLen
  chainCode := (c.txInfo.buffer.drop (pkInfoOffset + rawPubkeyLen)).take chaincodeLen
  fingerprint :=
    (c.txInfo.buffer.drop (pkInfoOffset + rawPubkeyLen + chaincodeLen)).take fingerprintLen

/-- Storing bytes in the union at `offset` bytes behind `key_path`. -/
def GlobalCtx.writePkInfo (c : GlobalCtx) (offset : ℕ) (src : Bytes) : GlobalCtx :=
  { c with txInfo.buffer := memmove c.txInfo.buffer (pkInfoOffset + offset) src }

end HathorLedger
