import HathorLedger.Library.Throwing
import HathorLedger.Common.Buffer
import HathorLedger.Sdk

/-!
# Token data and token signatures

The functions of `token/token_parser.c` and the pure part of `token/signature.c`.

## Main definitions

* `isPrintable`, `parseToken`, `findTokenRegistryIndex`: from `token/token_parser.c`.
* `initTokenSignatureMessage`, `signToken`, `verifyTokenSignature`: from `token/signature.c`.
-/

namespace HathorLedger

/-- `is_printable`. The scan ends with success at the first NUL. -/
def isPrintable : Bytes → Bool
  | [] => true
  | c :: str => if c = 0 then true else if c < 0x20 ∨ c ≥ 0x80 then false else isPrintable str

/-- The reads and checks of `parse_token`, in their order. The token is written field by field, so
that a failure leaves it half written. -/
def parseTokenFields (buf : Buffer) : EStateM Unit Token Buffer := do
  let (complete, version, buf) := buf.readU8
  modify fun t => { t with version := UInt8.ofNat version }
  EStateM.require complete ()
  let t ← get
  let (complete, uid, buf) := buf.readBytes t.uid tokenUidLen tokenUidLen
  set { t with uid }
  EStateM.require complete ()
  let (complete, symbolLen, buf) := buf.readU8
  modify fun t => { t with symbolLen }
  EStateM.require complete ()
  let t ← get
  let (complete, symbol, buf) := buf.readBytes t.symbol maxTokenSymbolLen t.symbolLen
  set { t with symbol }
  EStateM.require complete ()
  let (complete, nameLen, buf) := buf.readU8
  modify fun t => { t with nameLen }
  EStateM.require complete ()
  let t ← get
  let (complete, name, buf) := buf.readBytes t.name maxTokenNameLen t.nameLen
  set { t with name }
  EStateM.require complete ()
  let t ← get
  EStateM.require (isPrintable t.symbolBytes) ()
  EStateM.require (isPrintable t.nameBytes) ()
  return buf

/-- `parse_token`: whether the bytes are accepted, the token as far as it was written, and the
buffer, whose cursor no caller uses after a failure. -/
def parseToken (buf : Buffer) (token : Token) : Bool × Token × Buffer :=
  match (parseTokenFields buf).run token with
  | .ok buf token => (true, token, buf)
  | .error _ token => (false, token, buf)

/-- `find_token_registry_index`, with `none` for `-1`. -/
def findTokenRegistryIndex (registry : TokenDataCtx) (uid : Bytes) : Option ℕ :=
  (List.range registry.len).find? fun i => uid == (registry.tokens.getD i {}).uid

/-- `init_token_signature_message`: secret, uid, symbol, name and version in one string. -/
def initTokenSignatureMessage (secret : Bytes) (token : Token) : Bytes :=
  secret ++ token.uid ++ token.symbolBytes ++ token.nameBytes ++ [token.version]

/-- `sign_token`. -/
def signToken (sdk : Sdk) (secret : Bytes) (token : Token) : Bytes :=
  sdk.sha256 (initTokenSignatureMessage secret token)

/-- `verify_token_signature`, true where it returns `0` and false where it returns `1`. -/
def verifyTokenSignature (sdk : Sdk) (secret : Bytes) (token : Token) (signature : Bytes) : Bool :=
  signature.take 32 == (signToken sdk secret token).take 32

end HathorLedger
