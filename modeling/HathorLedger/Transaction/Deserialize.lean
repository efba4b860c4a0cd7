import HathorLedger.Library.Throwing
import HathorLedger.Common.Buffer

/-!
# Parsing an output

The functions of `transaction/deserialize.c`. They read the first `inlen` cells of an array and
throw: `TxState.ready` asks for more data and `Sw.txParsingFail` rejects the bytes.

## Main definitions

* `validateP2pkhScript`, `parseOutputValue`, `parseOutput`.
-/

namespace HathorLedger

def opDup : UInt8 := 0x76
def opEqualverify : UInt8 := 0x88
def opHash160 : UInt8 := 0xA9
def opChecksig : UInt8 := 0xAC

/-- The constant bytes of a P2PKH script, in front of the hash and behind it. -/
def p2pkh : Bytes := [opDup, opHash160, UInt8.ofNat pubkeyHashLen, opEqualverify, opChecksig]

/-- `validate_p2pkh_script`. -/
def validateP2pkhScript (input : Buffer) (scriptLen : ℕ) : Except ℕ Unit := do
  Except.require (scriptLen = 25) Sw.txParsingFail
  Except.require (sizeSub input.size input.offset ≥ 25) TxState.ready
  Except.require (p2pkh.take 3 = (input.ptr.drop input.offset).take 3 ∧
    p2pkh.drop 3 = (input.ptr.drop (input.offset + pubkeyHashLen + 3)).take 2) Sw.txParsingFail

/-- `parse_output_value`: the value and the buffer behind it. The first bit of the array tells the
width, also when no byte is pending. The product with `-1` is the negation of a 64-bit number. -/
def parseOutputValue (buf : Buffer) : Except ℕ (ℕ × Buffer) :=
  if byteAt buf.ptr 0 ≥ 0x80 then do
    let (complete, tmp, buf) := buf.readU64 .be
    Except.require complete TxState.ready
    return ((2 ^ 64 - tmp) % 2 ^ 64, buf)
  else do
    let (complete, tmp, buf) := buf.readU32 .be
    Except.require complete TxState.ready
    return (tmp, buf)

/-- `parse_output`: the output and the number of bytes that it takes. The index of the output is set
by the caller. -/
def parseOutput (input : Bytes) (inlen : ℕ) : Except ℕ (TxOutput × ℕ) := do
  let buf : Buffer := { ptr := input, size := inlen, offset := 0 }
  let (value, buf) ← parseOutputValue buf
  let (complete, tokenData, buf) := buf.readU8
  Except.require complete TxState.ready
  let (complete, scriptLen, buf) := buf.readU16 .be
  Except.require complete TxState.ready
  validateP2pkhScript buf scriptLen
  let pubkeyHash := (buf.ptr.drop (buf.offset + 3)).take pubkeyHashLen
  let (complete, buf) := buf.seekCur scriptLen
  Except.require complete Sw.txParsingFail
  return ({ value, tokenData := UInt8.ofNat tokenData, pubkeyHash }, buf.offset)

end HathorLedger
