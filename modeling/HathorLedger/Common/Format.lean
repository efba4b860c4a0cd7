import HathorLedger.Types

/-!
# Number formatting and base58

The functions of `common/format.c` and the encoder of `common/base58.c` that build the texts of the
screens. A function that writes to a `char` array returns the bytes it leaves in the array from its
first cell on, the terminating NUL included.

## Main definitions

* `formatU64`, `formatFpu64`, `itoa`, `formatValue`, `formatHex`: from `common/format.c`.
* `base58Encode`: from `common/base58.c`.
-/

namespace HathorLedger

/-- The loop of `format_u64`: `out` holds the digits written so far, `out[0 .. i)`, the last digit
of the number first. The loop runs at most 19 times for a 64-bit number. -/
def formatU64Loop (outLen : ℕ) : ℕ → Bytes → ℕ → Bool × Bytes
  | 0, out, _ => (false, out)
  | fuel + 1, out, n =>
    if n > 9 then
      let out := out ++ [UInt8.ofNat (n % 10 + 48)]
      if out.length + 1 > outLen then (false, out) else formatU64Loop outLen fuel out (n / 10)
    else (true, (out ++ [UInt8.ofNat (n + 48)]).reverse ++ [0])

/-- `format_u64`. -/
def formatU64 (outLen n : ℕ) : Bool × Bytes :=
  if outLen = 0 then (false, []) else formatU64Loop (outLen - 1) 20 [] n

/-- `format_fpu64`, with `dst` the cells of the output array. -/
def formatFpu64 (dst : Bytes) (dstLen value decimals : ℕ) : Bool × Bytes :=
  let (complete, text) := formatU64 21 value
  let buffer := memmove (List.replicate 21 0) 0 text
  if !complete then (false, dst)
  else
    let digits := (cstr buffer).length
    if digits ≤ decimals then
      if dstLen ≤ 2 + decimals - digits then (false, dst)
      else
        let dst := memmove dst 0 (48 :: 46 :: List.replicate (decimals - digits) 48)
        (true, strncpy dst (2 + decimals - digits) buffer (dstLen - (2 + decimals - digits)))
    else if dstLen ≤ digits + 1 + decimals then (false, dst)
    else
      let shift := digits - decimals
      let dst := memmove dst 0 (buffer.take shift)
      let dst := dst.set shift 46
      (true, strncpy dst (shift + 1) (buffer.drop shift) decimals)

/-- The cells of the string literal in `itoa`: the digits `z ... 1`, then `0 ... z`, and the NUL. -/
def itoaTable : Bytes :=
  ((List.range 26).map (fun i => UInt8.ofNat (122 - i))) ++
    ((List.range 10).map fun i => UInt8.ofNat (57 - i)) ++
    ((List.range 9).map fun i => UInt8.ofNat (49 + i)) ++
    ((List.range 26).map fun i => UInt8.ofNat (97 + i)) ++ [0]

/-- The cell of the string literal that `itoa` reads, or `none` outside of it. -/
def itoaCell (index : ℤ) : Option UInt8 := if index < 0 then none else itoaTable[index.toNat]?

/-- The loop of `itoa`. It returns the digits, the last one first, and the last `tmp_value`; `none`
stands for a division by zero, for a read outside of the table and for a loop that has not ended
after as many rounds as a 32-bit number has binary digits. -/
def itoaLoop (base : ℤ) : ℕ → ℤ → Bytes → Option (Bytes × ℤ)
  | 0, _, _ => none
  | fuel + 1, value, out =>
    if base = 0 then none
    else
      let tmpValue := value
      let value := value.tdiv base
      match itoaCell (35 + (tmpValue - value * base)) with
      | none => none
      | some digit =>
        let out := out ++ [digit]
        if value = 0 then some (out, tmpValue) else itoaLoop base fuel value out

/-- `itoa`. For a base outside `2 .. 36` the first cell is set to NUL and the conversion goes on. -/
def itoa (value base : ℤ) : Option Bytes :=
  match itoaLoop base 33 value [] with
  | none => none
  | some (out, tmpValue) => some ((if tmpValue < 0 then out ++ [45] else out).reverse ++ [0])

/-- The decimal text of a number, as `itoa(n, out, 10)` leaves it, without the NUL. -/
def decimal (n : ℕ) : Bytes := cstr ((itoa n 10).getD [])

/-- The loop of `format_value`, which copies the digits `buf` and adds a comma after a digit when
the counter `c` is 1. -/
def formatValueLoop : Bytes → ℕ → Bytes → Bytes
  | [], _, out => out
  | d :: buf, c, out =>
    formatValueLoop buf ((c + 1) % 3) (if c = 1 then out ++ [d, 44] else out ++ [d])

/-- `format_value`: the last character written by the loop is replaced by the decimal point. -/
def formatValue (value : ℕ) : Bytes :=
  let buf := cstr (formatU64 35 (value / 100)).2
  let out := (formatValueLoop buf (2 - buf.length % 3) []).dropLast
  let tmp := value % 100
  out ++ [46] ++ (if tmp < 10 then [48] else []) ++ (itoa tmp 10).getD []

/-- The digits of `format_hex`. -/
def hexDigit (n : ℕ) : UInt8 := if n < 10 then UInt8.ofNat (48 + n) else UInt8.ofNat (55 + n)

/-- `format_hex`, or `none` when the capacity `outLen` is too small. -/
def formatHex (input : Bytes) (outLen : ℕ) : Option Bytes :=
  if outLen < 2 * input.length + 1 then none
  else some ((input.flatMap fun b => [hexDigit (b.toNat / 16), hexDigit (b.toNat % 16)]) ++ [0])

/-! ### Base58 -/

def maxEncInputSize : ℕ := 120

/-- `BASE58_ALPHABET`: the digits and letters without `0`, `I`, `O` and `l`. -/
def base58Alphabet : Bytes :=
  ((List.range 9).map fun i => UInt8.ofNat (49 + i)) ++
    ((List.range 8).map fun i => UInt8.ofNat (65 + i)) ++
    ((List.range 5).map fun i => UInt8.ofNat (74 + i)) ++
    ((List.range 11).map fun i => UInt8.ofNat (80 + i)) ++
    ((List.range 11).map fun i => UInt8.ofNat (97 + i)) ++
    (List.range 14).map fun i => UInt8.ofNat (109 + i)

/-- The inner loop of `base58_encode` over the digits `j - 1, ..., 0`. It returns the digits and the
value of `j` when the loop ends, which is the `size_t` value of `-1` after a full pass. -/
def base58Carry (stopAt : ℕ) : ℕ → ℕ → List ℕ → List ℕ × ℕ
  | 0, _, buffer => (buffer, sizeMod - 1)
  | j + 1, carry, buffer =>
    let carry := carry + 256 * buffer.getD j 0
    let buffer := buffer.set j (carry % 58)
    let carry := carry / 58
    if j ≤ sizeSub stopAt 1 ∧ carry = 0 then (buffer, j) else base58Carry stopAt j carry buffer

/-- The outer loop of `base58_encode` over the input bytes. -/
def base58Digits (outputSize : ℕ) : Bytes → ℕ → List ℕ → List ℕ
  | [], _, buffer => buffer
  | b :: input, stopAt, buffer =>
    let (buffer, stopAt) := base58Carry stopAt outputSize b.toNat buffer
    base58Digits outputSize input stopAt buffer

/-- `base58_encode`, or `none` where it returns `-1`. -/
def base58Encode (input : Bytes) (outLen : ℕ) : Option Bytes :=
  if input.length > maxEncInputSize then none
  else
    let zeroCount := (input.takeWhile (· == 0)).length
    let outputSize := (input.length - zeroCount) * 138 / 100 + 1
    let digits := (base58Digits outputSize (input.drop zeroCount) (outputSize - 1)
      (List.replicate outputSize 0)).dropWhile (· == 0)
    if outLen < zeroCount + digits.length then none
    else some (List.replicate zeroCount (base58Alphabet.getD 0 0) ++
      digits.map fun d => base58Alphabet.getD d 0)

/-- The digits of 1234567.89 with separators, as in the unit test of `format_value`. -/
example : cstr (formatValue 123456789) = [49, 44, 50, 51, 52, 44, 53, 54, 55, 46, 56, 57] := by
  decide

end HathorLedger
